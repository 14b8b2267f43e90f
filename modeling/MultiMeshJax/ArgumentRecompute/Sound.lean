import MultiMeshJax.ArgumentRecompute.Pass
import MultiMeshJax.Hlo.Copies

/-! The pass keeps the values of a module: a computation that it has gone over is made of copies
of what was in it, the marks of an argument recolor being the identity. -/
namespace MultiMeshJax
namespace ArgumentRecompute

open StatusOr PostorderSearch HloComputation

/-- The computation is made of copies of `c₀`, all of which is still there. The clones that are
known for a colour are copies of what they stand for. -/
structure Copied (c₀ : HloComputation) (g : Graph) (origin : ℕ → ℕ) : Prop where
  copies : CopiesOf kCustomCallArgumentRecolor c₀ g.computation origin
  kept : ∀ id ∈ c₀.ids, id ∈ g.computation.ids ∧ origin id = id
  parameters : ∀ j ∈ g.computation.instructions, j.isParameter = true → j.id ∈ c₀.ids
  clones : ∀ color o clone, g.clonesPerColor color o = some clone →
    o ∈ g.computation.ids ∧ clone ∈ g.computation.ids ∧ origin clone = origin o

variable {input : Input} {color : String} {c₀ : HloComputation} {g g' : Graph} {origin : ℕ → ℕ}

theorem getInstruction_eq_ok {c : HloComputation} {id : ℕ} {i : HloInstruction} :
    c.getInstruction id = ok i ↔ c.instruction id = some i := deref_eq_ok

section search

/-- A parameter is never opened. -/
theorem isParameter_of_visitOpcode {next : HloInstruction} {r : ℕ × List ℕ}
    (hneeded : g.needsClone color next.id = ok true)
    (hnext : g.computation.instruction next.id = some next)
    (h : visitOpcode input color g next = ok (some r)) : next.isParameter = false := by
  cases hop : next.opcode with
  | parameter number =>
    obtain ⟨isInput, hinput, hresult⟩ : ∃ isInput,
        g.inputOrReplicatedInputCopy next = ok isInput ∧
          (if isInput then some (0, ([] : List ℕ)) else none) = some r := by
      rw [visitOpcode, hop] at h
      obtain ⟨isInput, hinput, hresult⟩ := bind_eq_ok.mp h
      exact ⟨isInput, hinput, ok.inj hresult⟩
    rw [Graph.needsClone] at hneeded
    split at hneeded
    · cases hneeded
    · obtain ⟨i, hi, hneeded⟩ := bind_eq_ok.mp hneeded
      rw [getInstruction_eq_ok, hnext] at hi
      obtain rfl := Option.some.inj hi
      rw [hinput, ok_bind] at hneeded
      have hnot := ok.inj hneeded
      cases isInput with
      | true => cases hnot
      | false => cases hresult
  | _ => simp [HloInstruction.isParameter, hop]

theorem mem_operandsToVisit {operands xs : List ℕ}
    (h : g.operandsToVisit color operands = ok xs) :
    ∀ x ∈ xs, x ∈ operands ∧ g.needsClone color x = ok true := by
  apply foldlM_invariant (fun xs => ∀ x ∈ xs, x ∈ operands ∧ g.needsClone color x = ok true) h
  · intro x hx
    cases hx
  · intro o ho ys ys' hys hstep
    obtain ⟨needed, hneeded, hstep⟩ := bind_eq_ok.mp hstep
    obtain rfl := ok.inj hstep
    split
    · rename_i hyes
      intro x hx
      rcases List.mem_append.mp hx with hx | hx
      · exact hys x hx
      · rw [List.mem_singleton.mp hx]
        exact ⟨ho, hyes ▸ hneeded⟩
    · exact hys

theorem mem_of_visitOpcode {next : HloInstruction} {cost : ℕ} {first : List ℕ}
    (h : visitOpcode input color g next = ok (some (cost, first))) :
    ∀ x ∈ first, x ∈ next.operands ∧ g.needsClone color x = ok true := by
  have hnil : ∀ {n : ℕ}, (some (n, ([] : List ℕ))) = some (cost, first) →
      ∀ x ∈ first, x ∈ next.operands ∧ g.needsClone color x = ok true := by
    intro n heq x hx
    cases heq
    cases hx
  have helement : ∀ {i : HloInstruction}, (elementCost input g i >>= fun n =>
      (pure (some (n, ([] : List ℕ))) : StatusOr _)) = ok (some (cost, first)) →
        ∀ x ∈ first, x ∈ next.operands ∧ g.needsClone color x = ok true := by
    intro i heq
    obtain ⟨n, -, heq⟩ := bind_eq_ok.mp heq
    exact hnil (ok.inj heq)
  unfold visitOpcode at h
  split at h
  · split at h
    · obtain ⟨operand, hoperand, h⟩ := bind_eq_ok.mp h
      obtain ⟨xs, hxs, h⟩ := bind_eq_ok.mp h
      obtain ⟨rfl, rfl⟩ := Prod.mk.inj (Option.some.inj (ok.inj h))
      intro x hx
      obtain ⟨hmem, hneeded⟩ := mem_operandsToVisit hxs x hx
      rw [List.mem_singleton.mp hmem] at hneeded ⊢
      exact ⟨List.mem_of_getElem? (elementAt_eq_ok.mp hoperand), hneeded⟩
    · cases h
  · obtain ⟨isInput, -, h⟩ := bind_eq_ok.mp h
    have h' := ok.inj h
    split at h'
    · exact hnil h'
    · cases h'
  · cases h
  · cases h
  · exact hnil (ok.inj h)
  · split at h
    · cases h
    · split at h
      · exact hnil (ok.inj h)
      · split at h
        · obtain ⟨_, -, h⟩ := bind_eq_ok.mp h
          obtain ⟨_, -, h⟩ := bind_eq_ok.mp h
          obtain ⟨_, -, h⟩ := bind_eq_ok.mp h
          exact hnil (ok.inj h)
        · exact helement h
  · exact helement h

/-- What a node pushes are operands of its instruction. -/
theorem pushes_visitNext {instruction : HloInstruction} {cutoff : ℤ} {id : ℕ} {items : List ℕ}
    (hpushes : Pushes (visitNext input color g instruction cutoff) id items) :
    ∃ next, g.computation.instruction id = some next ∧
      (g.needsClone color id = ok true → next.isParameter = false) ∧
      ∀ x ∈ items, x ∈ next.operands ∧ g.needsClone color x = ok true := by
  obtain ⟨total, total', hvisit⟩ := hpushes
  obtain ⟨next, hnext, hrest⟩ := bind_eq_ok.mp hvisit
  rw [getInstruction_eq_ok] at hnext
  refine ⟨next, hnext, ?_⟩
  split at hrest
  · cases hrest
  · split at hrest
    · cases hrest
    · obtain ⟨visited, hopcode, hrest⟩ := bind_eq_ok.mp hrest
      split at hrest
      · cases hrest
      · rename_i cost first
        split at hrest
        · cases hrest
        · obtain ⟨toVisit, htoVisit, hrest⟩ := bind_eq_ok.mp hrest
          cases hrest
          constructor
          · intro hneeded
            rw [← id_of_instruction hnext] at hneeded hnext
            exact isParameter_of_visitOpcode hneeded hnext hopcode
          · intro x hx
            rcases List.mem_append.mp hx with hx | hx
            · exact mem_of_visitOpcode hopcode x hx
            · exact mem_operandsToVisit htoVisit x hx

/-- The instructions that are cloned are there, and are no parameters. -/
theorem forall_mem_tree {instruction : HloInstruction} {cutoff : ℤ} {root fuel : ℕ} {tree : List ℕ}
    (hwf : g.computation.WellFormed) (hneeded : g.needsClone color root = ok true)
    (hrun : search (visitNext input color g instruction cutoff) fuel [root] (fun _ => none) [] 0 =
      ok (some tree)) :
    ∀ a ∈ tree, ∃ i, g.computation.instruction a = some i ∧ i.isParameter = false := by
  obtain ⟨order, horder⟩ := hwf.acyclic
  have hall : ∀ a ∈ tree, g.needsClone color a = ok true := by
    apply forall_mem_of_search (P := fun a => g.needsClone color a = ok true) _ _ _ hrun
    · intro a items _ hpushes x hx
      obtain ⟨_, -, -, hitems⟩ := pushes_visitNext hpushes
      exact (hitems x hx).2
    · intro a ha
      rwa [List.mem_singleton.mp ha]
    · intro a ha
      cases ha
  have hbelow : ∀ a items, Pushes (visitNext input color g instruction cutoff) a items →
      ∀ x ∈ items, order x < order a := by
    intro a items hpushes x hx
    obtain ⟨i, hi, -, hitems⟩ := pushes_visitNext hpushes
    rw [← id_of_instruction hi]
    exact horder i (mem_of_instruction hi) x (hitems x hx).1
  obtain ⟨hpostordered, -⟩ := postordered_of_search hbelow (searching_start root) hrun
  intro a ha
  obtain ⟨before, after, hsplit⟩ := List.append_of_mem ha
  obtain ⟨items, hpushes, -⟩ := hpostordered before a after hsplit
  obtain ⟨i, hi, hparameter, -⟩ := pushes_visitNext hpushes
  exact ⟨i, hi, hparameter (hall a ha)⟩

end search

section steps

/-- What is there stays as it is when instructions are added. -/
def Extends (c c' : HloComputation) : Prop :=
  ∀ id i, c.instruction id = some i → c'.instruction id = some i

theorem Copied.wellFormed (h : Copied c₀ g origin) (hc₀ : WellFormed c₀) :
    g.computation.WellFormed := h.copies.wellFormed hc₀

theorem Copied.cloneInstruction {numDevices id : ℕ} (h : Copied c₀ g origin)
    (hparameter : ∃ i, g.computation.instruction id = some i ∧ i.isParameter = false)
    (hrun : cloneInstruction color numDevices g id = ok g') :
    (∃ origin', Copied c₀ g' origin') ∧ Extends g.computation g'.computation := by
  rw [ArgumentRecompute.cloneInstruction] at hrun
  split at hrun
  · obtain rfl := ok.inj hrun
    exact ⟨⟨origin, h⟩, fun _ _ hi => hi⟩
  · obtain ⟨toClone, htoClone, hrun⟩ := bind_eq_ok.mp hrun
    obtain rfl := ok.inj hrun
    rw [getInstruction_eq_ok] at htoClone
    obtain ⟨i, hi, hparameter⟩ := hparameter
    rw [htoClone] at hi
    obtain rfl := Option.some.inj hi
    have hmem := mem_of_instruction htoClone
    have hfresh : ∀ o ∈ g.computation.ids,
        Function.update origin g.computation.freshId (origin toClone.id) o = origin o := by
      intro o ho
      exact Function.update_of_ne (fun heq => freshId_notMem (heq ▸ ho)) _ _
    have hsub : ∀ o ∈ g.computation.ids, ∀ clone, o ∈ (g.computation.addInstruction clone).ids := by
      intro o ho clone
      rw [ids_addInstruction]
      exact List.mem_append_left _ ho
    constructor
    · refine ⟨Function.update origin g.computation.freshId (origin toClone.id), ?_, ?_, ?_, ?_⟩
      · refine h.copies.addInstruction hmem ?_ ?_ ?_ ?_
        iterate 3 rfl
        rw [List.forall₂_map_left_iff]
        apply List.forall₂_same.mpr
        intro o ho
        cases hclone : g.clonesPerColor color o with
        | none => exact ⟨h.copies.closed toClone hmem o ho, rfl⟩
        | some clone => exact (h.clones color o clone hclone).2
      · intro o ho
        obtain ⟨hin, horigin⟩ := h.kept o ho
        exact ⟨hsub o hin _, by rw [hfresh o hin, horigin]⟩
      · intro j hj hisParameter
        rcases List.mem_append.mp hj with hj | hj
        · exact h.parameters j hj hisParameter
        · rw [List.mem_singleton.mp hj] at hisParameter
          have hfalse : toClone.isParameter = true := hisParameter
          rw [hparameter] at hfalse
          cases hfalse
      · intro color' o clone hclone
        dsimp only at hclone
        by_cases hnew : color' = color ∧ o = id
        · obtain ⟨rfl, rfl⟩ := hnew
          rw [Function.update_self, Function.update_self] at hclone
          obtain rfl := Option.some.inj hclone
          have hin : o ∈ g.computation.ids := mem_ids_of_instruction htoClone
          refine ⟨hsub o hin _, ?_, ?_⟩
          · rw [ids_addInstruction]
            exact List.mem_append_right _ (List.mem_singleton_self _)
          · rw [Function.update_self, hfresh o hin, id_of_instruction htoClone]
        · have hold : g.clonesPerColor color' o = some clone := by
            by_cases hcolor : color' = color
            · subst hcolor
              rw [Function.update_self, Function.update_of_ne fun ho => hnew ⟨rfl, ho⟩] at hclone
              exact hclone
            · rwa [Function.update_of_ne hcolor] at hclone
          obtain ⟨hin, hcloneIn, hsame⟩ := h.clones color' o clone hold
          exact ⟨hsub o hin _, hsub clone hcloneIn _, by rw [hfresh clone hcloneIn, hfresh o hin, hsame]⟩
    · intro x j hj
      dsimp only
      rw [instruction_addInstruction _ fun heq => freshId_notMem (heq ▸ mem_ids_of_instruction hj)]
      exact hj

/-- The tree is cloned. -/
theorem Copied.cloneTree {numDevices : ℕ} {tree : List ℕ} (h : Copied c₀ g origin)
    (htree : ∀ a ∈ tree, ∃ i, g.computation.instruction a = some i ∧ i.isParameter = false)
    (hrun : tree.foldlM (ArgumentRecompute.cloneInstruction color numDevices) g = ok g') :
    (∃ origin', Copied c₀ g' origin') ∧ Extends g.computation g'.computation := by
  apply foldlM_invariant (fun g' => (∃ origin', Copied c₀ g' origin') ∧
    Extends g.computation g'.computation) hrun
  · exact ⟨⟨origin, h⟩, fun _ _ hi => hi⟩
  · rintro a ha g₁ g₂ ⟨⟨origin₁, h₁⟩, hextends⟩ hstep
    obtain ⟨i, hi, hparameter⟩ := htree a ha
    obtain ⟨h₂, hextends'⟩ := h₁.cloneInstruction ⟨i, hextends a i hi, hparameter⟩ hstep
    exact ⟨h₂, fun x j hj => hextends' x j (hextends x j hj)⟩

/-- An operand is recomputed. -/
theorem Copied.maybeRecompute {instruction operand : HloInstruction} {changed : Bool}
    (hc₀ : WellFormed c₀) (h : Copied c₀ g origin)
    (hinstruction : g.computation.instruction instruction.id = some instruction)
    (hoperand : operand.id ∈ instruction.operands)
    (hrun : maybeRecomputeOperandFromArguments input color g instruction operand =
      ok (g', changed)) :
    (∃ origin', Copied c₀ g' origin') ∧
      ∃ i, g'.computation.instruction instruction.id = some i ∧ i.opcode = instruction.opcode := by
  obtain ⟨cutoff, -, hrun⟩ := bind_eq_ok.mp hrun
  obtain ⟨devices, -, hrun⟩ := bind_eq_ok.mp hrun
  obtain ⟨needed, hneeded, hrun⟩ := bind_eq_ok.mp hrun
  cases needed with
  | false =>
    obtain ⟨rfl, -⟩ := Prod.mk.inj (ok.inj hrun)
    exact ⟨⟨origin, h⟩, instruction, hinstruction, rfl⟩
  | true =>
    obtain ⟨found, hsearch, hrun⟩ := bind_eq_ok.mp hrun
    cases found with
    | none =>
      obtain ⟨rfl, -⟩ := Prod.mk.inj (ok.inj hrun)
      exact ⟨⟨origin, h⟩, instruction, hinstruction, rfl⟩
    | some tree =>
      obtain ⟨g₁, hclone, hrun⟩ := bind_eq_ok.mp hrun
      have htree := forall_mem_tree (h.wellFormed hc₀) hneeded hsearch
      obtain ⟨⟨origin₁, h₁⟩, hextends⟩ := h.cloneTree htree hclone
      cases hmap : g₁.clonesPerColor color operand.id with
      | none =>
        simp only [hmap] at hrun
        cases hrun
      | some clone =>
        simp only [hmap] at hrun
        obtain ⟨rfl, -⟩ := Prod.mk.inj (ok.inj hrun)
        obtain ⟨hin, hcloneIn, hsame⟩ := h₁.clones color operand.id clone hmap
        have hids : ∀ i : HloInstruction, (if i.id = instruction.id then
            { i with operands := i.operands.set (instruction.operands.idxOf operand.id) clone }
            else i).id = i.id := by
          intro i
          split <;> rfl
        have hopcode : ∃ i, (g₁.computation.replaceOperandWith instruction.id
            (instruction.operands.idxOf operand.id) clone).instruction instruction.id = some i ∧
              i.opcode = instruction.opcode := by
          unfold replaceOperandWith
          rw [instruction_mapInstructions hids, hextends _ _ hinstruction, Option.map_some]
          exact ⟨_, rfl, by rw [if_pos rfl]⟩
        refine ⟨⟨origin₁, ?_, ?_, ?_, ?_⟩, hopcode⟩
        · apply h₁.copies.replaceOperandWith _ _ hcloneIn
          · exact operand.id
          · intro j hj hid
            have hj' := instruction_of_mem h₁.copies.nodup hj
            rw [hid, hextends _ _ hinstruction] at hj'
            obtain rfl := Option.some.inj hj'
            exact List.getElem?_idxOf hoperand
          · rw [hsame]
            exact .refl _
        · intro id hid
          obtain ⟨hkept, horigin⟩ := h₁.kept id hid
          exact ⟨by rwa [ids_replaceOperandWith], horigin⟩
        · intro j hj hisParameter
          obtain ⟨k, hk, rfl⟩ := List.mem_map.mp hj
          split at hisParameter <;> split
          all_goals exact h₁.parameters k hk hisParameter
        · intro color' o clone' hclone'
          rw [ids_replaceOperandWith]
          exact h₁.clones color' o clone' hclone'

/-- A mark is bypassed. -/
theorem Copied.dropRecolor {id : ℕ} (h : Copied c₀ g origin)
    (hopcode : ∃ i, g.computation.instruction id = some i ∧
      i.opcode = .customCall kCustomCallArgumentRecolor)
    (hrun : dropRecolor g id = ok g') : Copied c₀ g' origin := by
  obtain ⟨i, hi, hrun⟩ := bind_eq_ok.mp hrun
  obtain ⟨operand, hoperand, hrun⟩ := bind_eq_ok.mp hrun
  obtain rfl := ok.inj hrun
  rw [getInstruction_eq_ok] at hi
  obtain ⟨i', hi', hopcode⟩ := hopcode
  rw [hi] at hi'
  obtain rfl := Option.some.inj hi'
  obtain rfl := id_of_instruction hi
  rw [elementAt_eq_ok] at hoperand
  have hmem := mem_of_instruction hi
  have hin : operand ∈ g.computation.ids :=
    h.copies.closed i hmem operand (List.mem_of_getElem? hoperand)
  have hthrough : HandsThrough kCustomCallArgumentRecolor c₀ (origin i.id) (origin operand) := by
    obtain ⟨i₀, hi₀, hcopy⟩ := h.copies.copy i hmem
    obtain ⟨first, hfirst, hrest⟩ := forall₂_getElem? hcopy.operands hoperand
    have hid := id_of_instruction hi₀
    rw [← hid] at hi₀ ⊢
    rw [← List.head?_eq_getElem?] at hfirst
    exact .step hi₀ (hcopy.opcode ▸ hopcode) hfirst hrest
  have hids : (g.computation.replaceUses i.id operand).ids = g.computation.ids :=
    ids_replaceAllUsesWith _ _
  refine ⟨h.copies.replaceUses hthrough hin, ?_, ?_, ?_⟩
  · intro id hid
    rw [hids]
    exact h.kept id hid
  · intro j hj hisParameter
    obtain ⟨k, hk, rfl⟩ := List.mem_map.mp hj
    split at hisParameter <;> split
    all_goals exact h.parameters k hk hisParameter
  · intro color' o clone hclone
    rw [hids]
    exact h.clones color' o clone hclone

/-- What else the state records does not matter. -/
theorem Copied.congr (h : Copied c₀ g origin) (hcomputation : g'.computation = g.computation)
    (hclones : g'.clonesPerColor = g.clonesPerColor) : Copied c₀ g' origin where
  copies := hcomputation ▸ h.copies
  kept := hcomputation ▸ h.kept
  parameters := hcomputation ▸ h.parameters
  clones := by
    rw [hclones, hcomputation]
    exact h.clones

theorem Copied.recomputeOperand {id index : ℕ} (hc₀ : WellFormed c₀)
    (h : ∃ origin, Copied c₀ g origin) (hrun : recomputeOperand input color id g index = ok g') :
    ∃ origin, Copied c₀ g' origin := by
  obtain ⟨origin, h⟩ := h
  obtain ⟨instruction, hinstruction, hrun⟩ := bind_eq_ok.mp hrun
  obtain ⟨operandId, hoperandId, hrun⟩ := bind_eq_ok.mp hrun
  obtain ⟨operand, hoperand, hrun⟩ := bind_eq_ok.mp hrun
  rw [getInstruction_eq_ok] at hinstruction hoperand
  rw [elementAt_eq_ok] at hoperandId
  split at hrun
  · obtain ⟨⟨g₁, clonedOperand⟩, hmaybe, hrun⟩ := bind_eq_ok.mp hrun
    obtain rfl := id_of_instruction hinstruction
    have hmem : operand.id ∈ instruction.operands := by
      rw [id_of_instruction hoperand]
      exact List.mem_of_getElem? hoperandId
    obtain ⟨⟨origin₁, h₁⟩, i, hi, hopcode⟩ := h.maybeRecompute hc₀ hinstruction hmem hmaybe
    have h₂ : Copied c₀ { g₁ with changed := g₁.changed || clonedOperand } origin₁ := h₁.congr rfl rfl
    dsimp only at hrun
    split at hrun
    · rename_i hrecolor
      have hrecolor := of_decide_eq_true ((Bool.and_eq_true ..).mp hrecolor).2
      exact ⟨origin₁, h₂.dropRecolor ⟨i, hi, hopcode.trans hrecolor⟩ hrun⟩
    · obtain rfl := ok.inj hrun
      exact ⟨origin₁, h₂⟩
  · obtain rfl := ok.inj hrun
    exact ⟨origin, h⟩

theorem Copied.visitInstruction {id : ℕ} (hc₀ : WellFormed c₀) (h : ∃ origin, Copied c₀ g origin)
    (hrun : visitInstruction input g id = ok g') : ∃ origin, Copied c₀ g' origin := by
  obtain ⟨i, -, hrun⟩ := bind_eq_ok.mp hrun
  obtain ⟨color, -, hrun⟩ := bind_eq_ok.mp hrun
  cases color with
  | none =>
    obtain rfl := ok.inj hrun
    exact h
  | some color =>
    apply foldlM_invariant (fun g => ∃ origin, Copied c₀ g origin) hrun h
    intro index _ g₁ g₂ h₁ hstep
    exact Copied.recomputeOperand hc₀ h₁ hstep

end steps

section run

variable {cs : List HloComputation} {st st' : State} {pushed : List ℕ} {k : ℕ}

/-- Every computation of the module is made of copies. -/
def AllCopied (cs : List HloComputation) (graphs : List Graph) : Prop :=
  List.Forall₂ (fun c₀ g => ∃ origin, Copied c₀ g origin) cs graphs

theorem forall₂_set {α β : Type} {R : α → β → Prop} {as : List α} {bs : List β}
    (h : List.Forall₂ R as bs) {k : ℕ} {b : β} (hb : ∀ a, as[k]? = some a → R a b) :
    List.Forall₂ R as (bs.set k b) := by
  induction h generalizing k with
  | nil => exact .nil
  | cons hab hrest ih =>
    cases k with
    | zero => exact .cons (hb _ rfl) hrest
    | succ k => exact .cons hab (ih hb)

theorem AllCopied.visitComputation (hcs : ∀ c ∈ cs, WellFormed c) (h : AllCopied cs st.graphs)
    (hrun : visitComputation input st k = ok (st', pushed)) : AllCopied cs st'.graphs := by
  obtain ⟨g, hg, hrun⟩ := bind_eq_ok.mp hrun
  obtain ⟨g', hvisit, hrun⟩ := bind_eq_ok.mp hrun
  obtain ⟨rfl, -⟩ := Prod.mk.inj (ok.inj hrun)
  rw [elementAt_eq_ok] at hg
  apply forall₂_set h
  intro c₀ hc₀
  obtain ⟨g₀, hg₀, origin, hcopied⟩ := forall₂_getElem? h hc₀
  rw [hg] at hg₀
  obtain rfl := Option.some.inj hg₀
  apply foldlM_invariant (fun g => ∃ origin, Copied c₀ g origin) hvisit
  · refine ⟨origin, hcopied.copies, hcopied.kept, hcopied.parameters, ?_⟩
    intro color o clone hclone
    cases hclone
  · intro id _ g₁ g₂ h₁ hstep
    exact Copied.visitInstruction (hcs c₀ (List.mem_of_getElem? hc₀)) h₁ hstep

theorem AllCopied.drain (hcs : ∀ c ∈ cs, WellFormed c) {rounds : ℕ} {stack : List ℕ}
    (h : AllCopied cs st.graphs)
    (hrun : Worklist.drain (ArgumentRecompute.visitComputation input) rounds st stack = ok st') :
    AllCopied cs st'.graphs := by
  have hreaches := Worklist.reaches_of_drain hrun
  clear hrun
  generalize ([] : List ℕ) = last at hreaches
  induction hreaches with
  | refl => exact h
  | visit hvisit _ ih => exact ih (h.visitComputation hcs hvisit)

/-- What is left of the copies at the end. -/
structure Remains (c₀ c : HloComputation) (origin : ℕ → ℕ) : Prop where
  copies : CopiesOf kCustomCallArgumentRecolor c₀ c origin
  kept : ∀ id ∈ c₀.ids, origin id = id
  parameters : ∀ j ∈ c.instructions, j.isParameter = true → j.id ∈ c₀.ids
  parametersKept : ∀ i ∈ c₀.instructions, i.isParameter = true → i.id ∈ c.ids

def AllRemain (cs : List HloComputation) (graphs : List Graph) : Prop :=
  List.Forall₂ (fun c₀ g => ∃ origin, Remains c₀ g.computation origin) cs graphs

theorem AllCopied.allRemain {graphs : List Graph} (h : AllCopied cs graphs) :
    AllRemain cs graphs := by
  apply h.imp
  rintro c₀ g ⟨origin, hcopied⟩
  exact ⟨origin, hcopied.copies, fun id hid => (hcopied.kept id hid).2, hcopied.parameters,
    fun i hi _ => (hcopied.kept i.id (List.mem_map_of_mem hi)).1⟩

theorem Remains.removeInstruction {c₀ c c' : HloComputation} {origin : ℕ → ℕ} {id : ℕ}
    (hc₀ : WellFormed c₀) (h : Remains c₀ c origin)
    (hrun : ArgumentRecompute.removeInstruction c id = ok c') : Remains c₀ c' origin := by
  obtain ⟨i, hi, hrun⟩ := bind_eq_ok.mp hrun
  rw [getInstruction_eq_ok] at hi
  obtain rfl := id_of_instruction hi
  split at hrun
  · rename_i hremovable
    obtain rfl := ok.inj hrun
    have hremoved : RemovedFrom (fun _ => True) c (c.removeInstruction i.id) :=
      removedFrom_removeInstruction hremovable trivial
    refine ⟨h.copies.removedFrom hremoved, h.kept, ?_, ?_⟩
    · intro j hj
      exact h.parameters j (hremoved.sublist.subset hj)
    · intro i₀ hi₀ hisParameter
      obtain ⟨j, hj, hid⟩ := List.mem_map.mp (h.parametersKept i₀ hi₀ hisParameter)
      rw [← hid]
      apply List.mem_map_of_mem (mem_removeInstruction.mpr ⟨hj, _⟩)
      intro heq
      obtain rfl : j = i := List.inj_on_of_nodup_map h.copies.nodup hj (mem_of_instruction hi) heq
      -- the instruction that goes is a copy of the parameter
      obtain ⟨k, hk, hcopy⟩ := h.copies.copy j hj
      rw [hid, h.kept i₀.id (List.mem_map_of_mem hi₀), instruction_of_mem hc₀.nodup hi₀] at hk
      obtain rfl := Option.some.inj hk
      have hnot := (isRemovable_iff.mp hremovable).2.2.1
      rw [HloInstruction.isParameter, hcopy.opcode] at hnot
      rw [HloInstruction.isParameter, hnot] at hisParameter
      cases hisParameter
  · cases hrun

theorem AllRemain.editComputation {graphs graphs' : List Graph}
    {edit : HloComputation → StatusOr HloComputation}
    (hedit : ∀ c₀ ∈ cs, ∀ origin c c', Remains c₀ c origin → edit c = ok c' → Remains c₀ c' origin)
    (h : AllRemain cs graphs) (hrun : editComputation edit graphs k = ok graphs') :
    AllRemain cs graphs' := by
  obtain ⟨g, hg, hrun⟩ := bind_eq_ok.mp hrun
  obtain ⟨c, hc, hrun⟩ := bind_eq_ok.mp hrun
  obtain rfl := ok.inj hrun
  rw [elementAt_eq_ok] at hg
  apply forall₂_set h
  intro c₀ hc₀
  obtain ⟨g₀, hg₀, origin, hremains⟩ := forall₂_getElem? h hc₀
  rw [hg] at hg₀
  obtain rfl := Option.some.inj hg₀
  exact ⟨origin, hedit c₀ (List.mem_of_getElem? hc₀) origin _ c hremains hc⟩

theorem Remains.removeUnusedInstructions {c₀ c c' : HloComputation} {origin : ℕ → ℕ}
    (hc₀ : WellFormed c₀) (h : Remains c₀ c origin)
    (hrun : removeUnusedInstructions input c = ok c') : Remains c₀ c' origin := by
  apply foldlM_invariant (fun c => Remains c₀ c origin) hrun h
  intro id _ c₁ c₂ h₁ hstep
  obtain ⟨i, -, hstep⟩ := bind_eq_ok.mp hstep
  split at hstep
  · exact h₁.removeInstruction hc₀ hstep
  · obtain rfl := ok.inj hstep
    exact h₁

theorem AllRemain.cleanUp {graphs : List Graph} (hcs : ∀ c ∈ cs, WellFormed c)
    (h : AllRemain cs st.graphs) (hrun : cleanUp input st = ok graphs) : AllRemain cs graphs := by
  obtain ⟨graphs₁, hremove, hprune⟩ := bind_eq_ok.mp hrun
  have h₁ : AllRemain cs graphs₁ := by
    apply foldlM_invariant (AllRemain cs) hremove h
    intro entry _ graphs₂ graphs₃ h₂ hstep
    apply h₂.editComputation _ hstep
    intro c₀ hc₀ origin c c' hremains hedit
    exact hremains.removeInstruction (hcs c₀ hc₀) hedit
  apply foldlM_invariant (AllRemain cs) hprune h₁
  intro entry _ graphs₂ graphs₃ h₂ hstep
  apply h₂.editComputation _ hstep
  intro c₀ hc₀ origin c c' hremains hedit
  exact hremains.removeUnusedInstructions (hcs c₀ hc₀) hedit

theorem allCopied_initialState (hwf : ∀ c ∈ input.program.computations, WellFormed c) :
    AllCopied input.program.computations (initialState input).graphs := by
  unfold AllCopied initialState
  rw [List.forall₂_map_right_iff]
  apply List.forall₂_same.mpr
  intro c hc
  refine ⟨id, (hwf c hc).copiesOf_self, fun x hx => ⟨hx, rfl⟩, ?_, ?_⟩
  · intro j hj _
    exact List.mem_map_of_mem hj
  · intro color o clone hclone
    cases hclone

theorem allRemain_run {rounds : ℕ} {graphs : List Graph}
    (hwf : ∀ c ∈ input.program.computations, WellFormed c) (hrun : run input rounds = ok graphs) :
    AllRemain input.program.computations graphs := by
  obtain ⟨st, hdrain, hcleanUp⟩ := bind_eq_ok.mp hrun
  exact ((allCopied_initialState hwf).drain hwf hdrain).allRemain.cleanUp hwf hcleanUp

end run

section preserves

variable {V : Type} {I I' : Interpretation V} {M : Machine V} {c c' : HloComputation}

/-- The parameters, the values of what is still there and the result are those of `c`. -/
structure Preserves (I I' : Interpretation V) (c c' : HloComputation) : Prop where
  wellFormed : WellFormed c'
  parameters : ∀ id n, (∃ i, c.instruction id = some i ∧ i.opcode = .parameter n) ↔
    ∃ i, c'.instruction id = some i ∧ i.opcode = .parameter n
  value : ∀ ctx depth v, ∀ id ∈ c.ids, id ∈ c'.ids → c.eval I ctx depth id = some v →
    c'.eval I' ctx depth id = some v
  result : ∀ ctx depth v, c.eval I ctx depth c.root = some v →
    c'.eval I' ctx depth c'.root = some v

theorem Remains.eval_root {c₀ : HloComputation} (h : Remains c₀ c origin)
    (hidentity : RecolorIsIdentity I.operation) (hI : I.Kept I') {ctx : Context V} {depth : ℕ}
    {v : Value V} (hv : c₀.eval I ctx depth c₀.root = some v) :
    c.eval I' ctx depth c.root = some v :=
  h.copies.eval (by decide) hidentity hI h.copies.root h.copies.rootOrigin hv

theorem Remains.run {c₀ : HloComputation} (h : Remains c₀ c origin)
    (hidentity : RecolorIsIdentity I.operation) (hI : I.Kept I') {ctx : Context V} {depth : ℕ}
    {v : Value V} (hv : c₀.run I ctx depth = some v) : c.run I' ctx depth = some v := by
  rw [run_eq_some] at hv ⊢
  constructor
  · intro j hj
    obtain ⟨i, hi, -⟩ := h.copies.copy j hj
    obtain ⟨w, hw⟩ := hv.1 i (mem_of_instruction hi)
    rw [id_of_instruction hi] at hw
    exact ⟨w, h.copies.eval (by decide) hidentity hI (List.mem_map_of_mem hj) (.refl _) hw⟩
  · exact h.eval_root hidentity hI hv.2

theorem Remains.preserves {c₀ : HloComputation} (hc₀ : WellFormed c₀) (h : Remains c₀ c origin)
    (hidentity : RecolorIsIdentity I.operation) (hI : I.Kept I') : Preserves I I' c₀ c where
  wellFormed := h.copies.wellFormed hc₀
  parameters := by
    have hcopied : ∀ id ∈ c₀.ids, ∀ j, c.instruction id = some j →
        ∃ i, c₀.instruction id = some i ∧ j.opcode = i.opcode := by
      intro id hid j hj
      obtain ⟨i, hi, hcopy⟩ := h.copies.copy j (mem_of_instruction hj)
      rw [id_of_instruction hj, h.kept id hid] at hi
      exact ⟨i, hi, hcopy.opcode⟩
    intro id n
    constructor
    · rintro ⟨i, hi, hop⟩
      have hisParameter : i.isParameter = true := by simp [HloInstruction.isParameter, hop]
      have hin := h.parametersKept i (mem_of_instruction hi) hisParameter
      rw [id_of_instruction hi] at hin
      obtain ⟨j, hj, rfl⟩ := List.mem_map.mp hin
      have hj' := instruction_of_mem h.copies.nodup hj
      obtain ⟨i', hi', hopcode⟩ := hcopied j.id (mem_ids_of_instruction hi) j hj'
      rw [hi] at hi'
      obtain rfl := Option.some.inj hi'
      exact ⟨j, hj', hopcode.trans hop⟩
    · rintro ⟨j, hj, hop⟩
      have hisParameter : j.isParameter = true := by simp [HloInstruction.isParameter, hop]
      have hin := h.parameters j (mem_of_instruction hj) hisParameter
      rw [id_of_instruction hj] at hin
      obtain ⟨i, hi, hopcode⟩ := hcopied id hin j hj
      exact ⟨i, hi, hopcode.symm.trans hop⟩
  value ctx depth v id hid hin hv := by
    apply h.copies.eval (by decide) hidentity hI hin _ hv
    rw [h.kept id hid]
    exact .refl _
  result ctx depth v hv := h.eval_root hidentity hI hv

/-- Where the pass succeeds, the whole module computes what it computed before, every loop for
any number of iterations. -/
theorem run_preserves (M : Machine V) (hidentity : RecolorIsIdentity M.operation)
    (hwf : ∀ c ∈ input.program.computations, WellFormed c) {rounds : ℕ} {graphs : List Graph}
    (hrun : run input rounds = ok graphs) :
    List.Forall₂ (Preserves (M.meaning input.program.called)
      (M.meaning (graphs.tail.map Graph.computation))) input.program.computations
      (graphs.map Graph.computation) := by
  have hall := allRemain_run hwf hrun
  have hresults : Machine.KeepsResults (fun I : Interpretation V => RecolorIsIdentity I.operation)
      input.program.called (graphs.tail.map Graph.computation) := by
    intro n body hbody
    obtain ⟨g, hg, origin, hremains⟩ := forall₂_getElem? (k := n + 1) hall hbody
    refine ⟨g.computation, ?_, ?_⟩
    · rw [List.getElem?_map, List.getElem?_tail, hg, Option.map_some]
    · rintro I I' hI - hkept - ctx v ⟨depth, hv⟩
      exact ⟨depth, hremains.run hI hkept hv⟩
  have hkept := hresults.kept (recolorIsIdentity_interpretation hidentity _)
    (recolorIsIdentity_meaning hidentity _)
  rw [List.forall₂_map_right_iff]
  have hmem := mem_of_forall₂ hall
  apply hmem.imp
  rintro c₀ g ⟨hc₀, origin, hremains⟩
  exact hremains.preserves (hwf c₀ hc₀) (recolorIsIdentity_meaning hidentity _) hkept

end preserves

/-- The body of the loop takes a negation from another mesh, and so does the task after it,
through a mark. -/
def negatedLoop : Input where
  program :=
    { entry := ⟨[{ id := 0, opcode := .parameter 0, shape := .array .f32 [4] },
        { id := 1, opcode := .other "negate", operands := [0], shape := .array .f32 [4],
          color := some "a" },
        { id := 2, opcode := .customCall kCustomCallArgumentRecolor, operands := [1],
          shape := .array .f32 [4], color := some "b" },
        { id := 3, opcode := .tuple, operands := [2], shape := .tuple [(.f32, [4])] },
        { id := 4, opcode := .whileLoop 0, operands := [3], shape := .tuple [(.f32, [4])] }], 4⟩
      called := [⟨[{ id := 5, opcode := .parameter 0, shape := .tuple [(.f32, [4])] },
        { id := 6, opcode := .getTupleElement 0, operands := [5], shape := .array .f32 [4] },
        { id := 7, opcode := .other "negate", operands := [6], shape := .array .f32 [4],
          color := some "a" },
        { id := 8, opcode := .other "add", operands := [6, 7], shape := .array .f32 [4],
          color := some "b" },
        { id := 9, opcode := .tuple, operands := [8], shape := .tuple [(.f32, [4])] }], 9⟩]
      distinct := by decide }
  properties id := some { parameterNumber := if id = 0 ∨ id = 6 then some 0 else none }
  partition :=
    { devices := ⟨0, 2⟩
      colors := [("a", { name := "a", devices := ⟨0, 1⟩ }),
        ("b", { name := "b", devices := ⟨1, 2⟩ })] }
  partitionedDimensions dims _ := dims
  byteSizeOf _ := 16
  postOrder c := c.ids
  maxRecomputeCostAllowed := 100

/-- Integers, each loop running three times. -/
def integers : Machine ℤ where
  offset k := k
  operation
    | .customCall _, _, v :: _ => some v
    | .other "negate", _, [.data x] => some (.data (-x))
    | .other "add", _, [.data x, .data y] => some (.data (x + y))
    | _, _, _ => none
  trips _ := 3
  iterationOffset _ t := t

theorem run_preserves_negatedLoop :
    ∃ graphs, run negatedLoop 5 = ok graphs ∧
      graphs.map (fun g => g.computation.ids) = [[0, 3, 4, 5], [5, 6, 8, 9, 10]] ∧
      List.Forall₂ (Preserves (integers.meaning negatedLoop.program.called)
        (integers.meaning (graphs.tail.map Graph.computation)))
        negatedLoop.program.computations (graphs.map Graph.computation) := by
  have hok : ((run negatedLoop 5).toOption.map fun graphs =>
      graphs.map fun g => g.computation.ids) = some [[0, 3, 4, 5], [5, 6, 8, 9, 10]] := by
    decide +kernel
  obtain ⟨graphs, hgraphs, hids⟩ := Option.map_eq_some_iff.mp hok
  have hrun := toOption_eq_some.mp hgraphs
  have hwf : ∀ c ∈ negatedLoop.program.computations, WellFormed c := by
    intro c hc
    have hordered : c.ids.Nodup ∧ c.root ∈ c.ids ∧
        (∀ j ∈ c.instructions, ∀ o ∈ j.operands, o ∈ c.ids) ∧
        ∀ j ∈ c.instructions, ∀ o ∈ j.operands, o < j.id := by
      revert c
      decide
    exact ⟨⟨hordered.1, hordered.2.1, hordered.2.2.1⟩, id, hordered.2.2.2⟩
  exact ⟨graphs, hrun, hids, run_preserves integers (fun _ _ _ => rfl) hwf hrun⟩

end ArgumentRecompute
end MultiMeshJax
