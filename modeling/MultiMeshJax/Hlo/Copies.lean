import MultiMeshJax.Foundation.Related
import MultiMeshJax.Hlo.Machine

/-! Computations in which some instructions have several copies, and in which a custom call
that hands its first operand through may be bypassed. -/
namespace MultiMeshJax
namespace HloComputation

/-- The second is the first instruction, or comes out of a chain of custom calls from it. -/
inductive HandsThrough (target : String) (c : HloComputation) : ℕ → ℕ → Prop
  | refl (id : ℕ) : HandsThrough target c id id
  | step {i : HloInstruction} {first id : ℕ} (hi : c.instruction i.id = some i)
      (hcall : i.opcode = .customCall target) (hfirst : i.operands.head? = some first)
      (hrest : HandsThrough target c first id) : HandsThrough target c i.id id

/-- The operands of a copy are copies, `origin` giving the original of each. -/
structure CopyOf (target : String) (c₀ : HloComputation) (origin : ℕ → ℕ)
    (j i : HloInstruction) : Prop where
  opcode : j.opcode = i.opcode
  shape : j.shape = i.shape
  offset : j.offset = i.offset
  operands : List.Forall₂ (fun o o₀ => HandsThrough target c₀ o₀ (origin o)) j.operands i.operands

/-- Every instruction is a copy of one in `c₀`. -/
structure CopiesOf (target : String) (c₀ c : HloComputation) (origin : ℕ → ℕ) : Prop where
  copy : ∀ j ∈ c.instructions, ∃ i, c₀.instruction (origin j.id) = some i ∧
    CopyOf target c₀ origin j i
  closed : ∀ j ∈ c.instructions, ∀ o ∈ j.operands, o ∈ c.ids
  nodup : c.ids.Nodup
  root : c.root ∈ c.ids
  rootOrigin : HandsThrough target c₀ c₀.root (origin c.root)

variable {target : String} {c₀ c c' : HloComputation} {origin : ℕ → ℕ}

theorem HandsThrough.trans {a b d : ℕ} (h : HandsThrough target c a b)
    (h' : HandsThrough target c b d) : HandsThrough target c a d := by
  induction h with
  | refl => exact h'
  | step hi hcall hfirst _ ih => exact .step hi hcall hfirst (ih h')

/-- A computation is made of copies of itself. -/
theorem WellFormed.copiesOf_self (h : WellFormed c) : CopiesOf target c c id where
  copy j hj := ⟨j, instruction_of_mem h.nodup hj, rfl, rfl, rfl,
    List.forall₂_same.mpr fun o _ => .refl o⟩
  closed := h.closed
  nodup := h.nodup
  root := h.root
  rootOrigin := .refl _

section values

variable {V : Type} {I I' : Interpretation V} {ctx : Context V}

/-- A copy has the value of its original, where the custom call is the identity on its first
operand. -/
theorem CopiesOf.eval (h : CopiesOf target c₀ c origin) (htarget : target ≠ kCustomCallSliceOffset)
    (hidentity : ∀ shape v vs, I.operation (.customCall target) shape (v :: vs) = some v)
    (hI : I.Kept I') {depth id₀ id : ℕ} {v : Value V} (hid : id ∈ c.ids)
    (hthrough : HandsThrough target c₀ id₀ (origin id)) (hv : c₀.eval I ctx depth id₀ = some v) :
    c.eval I' ctx depth id = some v := by
  induction depth generalizing id₀ id v with
  | zero => cases hv
  | succ depth ih =>
    obtain ⟨i, args, hi, hargs, happly⟩ := eval_succ.mp hv
    generalize hlast : origin id = last at hthrough
    cases hthrough with
    | refl =>
      obtain ⟨j, hj, rfl⟩ := List.mem_map.mp hid
      obtain ⟨i', hi', hcopy⟩ := h.copy j hj
      rw [hlast, hi] at hi'
      obtain rfl := Option.some.inj hi'
      have hoperands := (List.forall₂_and_left _ _).mpr ⟨h.closed j hj, hcopy.operands⟩
      have hvalues : List.Forall₂ (fun o a => c.eval I' ctx depth o = some a) j.operands args := by
        apply forall₂_comp _ hoperands hargs
        intro o o₀ a ho ha
        exact ih ho.1 ho.2 ha
      exact eval_succ.mpr ⟨j, args, instruction_of_mem h.nodup hj, hvalues,
        hI.apply hcopy.opcode hcopy.shape hcopy.offset happly⟩
    | @step i' first _ hi' hcall hfirst hrest =>
      rw [hi] at hi'
      obtain rfl := Option.some.inj hi'
      obtain ⟨rest, hoperands⟩ : ∃ rest, i.operands = first :: rest :=
        List.head?_eq_some_iff.mp hfirst
      rw [hoperands] at hargs
      cases hargs with
      | @cons _ a _ as ha _ =>
        have happly' : I.apply ctx i (a :: as) = some a := by
          simp [Interpretation.apply, hcall, htarget, hidentity]
        rw [happly'] at happly
        obtain rfl := Option.some.inj happly
        exact eval_mono (Nat.le_succ depth) (ih hid (hlast ▸ hrest) ha)

end values

section order

variable {order : ℕ → ℕ}

theorem HandsThrough.order_le
    (horder : ∀ i ∈ c.instructions, ∀ o ∈ i.operands, order o < order i.id) {a b : ℕ}
    (h : HandsThrough target c a b) : order b ≤ order a := by
  induction h with
  | refl => exact le_refl _
  | @step i first b hi _ hfirst _ ih =>
    have hlt := horder i (mem_of_instruction hi) first (List.mem_of_mem_head? hfirst)
    omega

/-- The copies are in an order when the originals are. -/
theorem CopiesOf.order_lt (h : CopiesOf target c₀ c origin)
    (horder : ∀ i ∈ c₀.instructions, ∀ o ∈ i.operands, order o < order i.id) :
    ∀ j ∈ c.instructions, ∀ o ∈ j.operands, order (origin o) < order (origin j.id) := by
  intro j hj o ho
  obtain ⟨i, hi, hcopy⟩ := h.copy j hj
  obtain ⟨o₀, ho₀, hthrough⟩ := exists_of_mem_forall₂ hcopy.operands ho
  have hlt := horder i (mem_of_instruction hi) o₀ ho₀
  rw [id_of_instruction hi] at hlt
  exact (hthrough.order_le horder).trans_lt hlt

theorem CopiesOf.wellFormed (h : CopiesOf target c₀ c origin) (hc₀ : WellFormed c₀) :
    WellFormed c := by
  obtain ⟨order, horder⟩ := hc₀.acyclic
  exact ⟨⟨h.nodup, h.root, h.closed⟩, order ∘ origin, h.order_lt horder⟩

end order

section edits

/-- Instructions that keep what they compute keep being copies. -/
theorem CopyOf.congr {origin' : ℕ → ℕ} {j j' i : HloInstruction}
    (h : CopyOf target c₀ origin j i) (hopcode : j'.opcode = j.opcode) (hshape : j'.shape = j.shape)
    (hoffset : j'.offset = j.offset)
    (hoperands : List.Forall₂ (fun o' o => HandsThrough target c₀ (origin o) (origin' o'))
      j'.operands j.operands) : CopyOf target c₀ origin' j' i where
  opcode := hopcode.trans h.opcode
  shape := hshape.trans h.shape
  offset := hoffset.trans h.offset
  operands := forall₂_comp (fun _ _ _ ho' ho => ho.trans ho') hoperands h.operands

/-- A copy of a copy is added, with operands that are copies of its own. -/
theorem CopiesOf.addInstruction (h : CopiesOf target c₀ c origin) {j clone : HloInstruction}
    (hj : j ∈ c.instructions) (hopcode : clone.opcode = j.opcode) (hshape : clone.shape = j.shape)
    (hoffset : clone.offset = j.offset)
    (hoperands : List.Forall₂ (fun o' o => o' ∈ c.ids ∧ origin o' = origin o) clone.operands
      j.operands) :
    CopiesOf target c₀ (c.addInstruction clone)
      (Function.update origin c.freshId (origin j.id)) := by
  have hkeep : ∀ o ∈ c.ids, Function.update origin c.freshId (origin j.id) o = origin o := by
    intro o ho
    exact Function.update_of_ne (fun heq => freshId_notMem (heq ▸ ho)) _ _
  have hmem : ∀ o ∈ c.ids, o ∈ (c.addInstruction clone).ids := by
    intro o ho
    rw [ids_addInstruction]
    exact List.mem_append_left _ ho
  constructor
  · intro k hk
    rcases List.mem_append.mp hk with hk | hk
    · obtain ⟨i, hi, hcopy⟩ := h.copy k hk
      rw [hkeep k.id (List.mem_map_of_mem hk)]
      refine ⟨i, hi, hcopy.congr rfl rfl rfl ?_⟩
      apply List.forall₂_same.mpr
      intro o ho
      rw [hkeep o (h.closed k hk o ho)]
      exact .refl _
    · obtain rfl := List.mem_singleton.mp hk
      obtain ⟨i, hi, hcopy⟩ := h.copy j hj
      dsimp only
      rw [Function.update_self]
      refine ⟨i, hi, hcopy.congr hopcode hshape hoffset ?_⟩
      apply hoperands.imp
      rintro o' o ⟨ho', hsame⟩
      rw [hkeep o' ho', hsame]
      exact .refl _
  · intro k hk o ho
    rcases List.mem_append.mp hk with hk | hk
    · exact hmem o (h.closed k hk o ho)
    · obtain rfl := List.mem_singleton.mp hk
      obtain ⟨-, -, ho', -⟩ := exists_of_mem_forall₂ hoperands ho
      exact hmem o ho'
  · exact ids_addInstruction_nodup clone h.nodup
  · exact hmem _ h.root
  · rw [show (c.addInstruction clone).root = c.root from rfl, hkeep c.root h.root]
    exact h.rootOrigin

/-- Operands that are replaced by copies of what they hand through. -/
theorem CopiesOf.mapOperands (h : CopiesOf target c₀ c origin) {f : HloInstruction → HloInstruction}
    (hf : ∀ j ∈ c.instructions, ∃ operands, f j = { j with operands := operands } ∧
      List.Forall₂ (fun o' o => o' ∈ c.ids ∧ HandsThrough target c₀ (origin o) (origin o'))
        operands j.operands)
    (hids : (c.mapInstructions f).ids = c.ids) :
    CopiesOf target c₀ (c.mapInstructions f) origin := by
  constructor
  · intro k hk
    obtain ⟨j, hj, rfl⟩ := List.mem_map.mp hk
    obtain ⟨operands, hfj, hoperands⟩ := hf j hj
    obtain ⟨i, hi, hcopy⟩ := h.copy j hj
    rw [hfj]
    exact ⟨i, hi, hcopy.congr rfl rfl rfl (hoperands.imp fun _ _ ho => ho.2)⟩
  · intro k hk o ho
    obtain ⟨j, hj, rfl⟩ := List.mem_map.mp hk
    obtain ⟨operands, hfj, hoperands⟩ := hf j hj
    rw [hfj] at ho
    obtain ⟨-, -, ho', -⟩ := exists_of_mem_forall₂ hoperands ho
    rw [hids]
    exact ho'
  · rw [hids]
    exact h.nodup
  · rw [hids]
    exact h.root
  · exact h.rootOrigin

/-- One operand is replaced by a copy of what it hands through. -/
theorem CopiesOf.replaceOperandWith (h : CopiesOf target c₀ c origin) {user index old new : ℕ}
    (hold : ∀ j ∈ c.instructions, j.id = user → j.operands[index]? = some old)
    (hthrough : HandsThrough target c₀ (origin old) (origin new)) (hnew : new ∈ c.ids) :
    CopiesOf target c₀ (c.replaceOperandWith user index new) origin := by
  apply h.mapOperands _ (ids_replaceOperandWith user index new)
  intro j hj
  have hself : List.Forall₂ (fun o' o => o' ∈ c.ids ∧ HandsThrough target c₀ (origin o) (origin o'))
      j.operands j.operands :=
    List.forall₂_same.mpr fun o ho => ⟨h.closed j hj o ho, .refl _⟩
  by_cases hid : j.id = user
  · refine ⟨j.operands.set index new, by rw [if_pos hid], ?_⟩
    obtain ⟨hlt, hget⟩ := List.getElem?_eq_some_iff.mp (hold j hj hid)
    rw [List.forall₂_iff_get] at hself ⊢
    refine ⟨by simp, ?_⟩
    intro k hk hk'
    rw [List.get_eq_getElem, List.get_eq_getElem, List.getElem_set]
    by_cases hkindex : index = k
    · subst hkindex
      rw [if_pos rfl, hget]
      exact ⟨hnew, hthrough⟩
    · rw [if_neg hkindex]
      exact hself.2 k hk' hk'
  · exact ⟨j.operands, by rw [if_neg hid], hself⟩

/-- An instruction is bypassed. -/
theorem CopiesOf.replaceUses (h : CopiesOf target c₀ c origin) {old new : ℕ}
    (hthrough : HandsThrough target c₀ (origin old) (origin new)) (hnew : new ∈ c.ids) :
    CopiesOf target c₀ (c.replaceUses old new) origin := by
  have hmap : CopiesOf target c₀ (c.replaceAllUsesWith old new) origin := by
    apply h.mapOperands _ (ids_replaceAllUsesWith old new)
    intro j hj
    by_cases hid : j.id = new
    · exact ⟨j.operands, by rw [if_pos hid],
        List.forall₂_same.mpr fun o ho => ⟨h.closed j hj o ho, .refl _⟩⟩
    · refine ⟨j.operands.map fun o => if o = old then new else o, by rw [if_neg hid], ?_⟩
      rw [List.forall₂_map_left_iff]
      apply List.forall₂_same.mpr
      intro o ho
      by_cases heq : o = old
      · rw [if_pos heq, heq]
        exact ⟨hnew, hthrough⟩
      · rw [if_neg heq]
        exact ⟨h.closed j hj o ho, .refl _⟩
  have hids : (c.replaceUses old new).ids = c.ids := ids_replaceAllUsesWith old new
  refine ⟨hmap.copy, hmap.closed, hmap.nodup, ?_, ?_⟩
  · rw [hids]
    change (if c.root = old then new else c.root) ∈ c.ids
    split
    · exact hnew
    · exact h.root
  · change HandsThrough target c₀ c₀.root (origin (if c.root = old then new else c.root))
    split
    · rename_i heq
      exact h.rootOrigin.trans (heq ▸ hthrough)
    · exact h.rootOrigin

theorem CopiesOf.removedFrom (h : CopiesOf target c₀ c origin) {Q : ℕ → Prop}
    (hremoved : RemovedFrom Q c c') : CopiesOf target c₀ c' origin where
  copy j hj := h.copy j (hremoved.sublist.subset hj)
  closed j hj o ho :=
    hremoved.closed j hj o ho (h.closed j (hremoved.sublist.subset hj) o ho)
  nodup := h.nodup.sublist (hremoved.sublist.map _)
  root := hremoved.root ▸ hremoved.root_kept h.root
  rootOrigin := hremoved.root ▸ h.rootOrigin

end edits

end HloComputation
end MultiMeshJax
