import MultiMeshJax.ComputationFusion.Parent

/-! `FuseCalls` keeps every value that is used outside the fused calls. -/
namespace MultiMeshJax
namespace ComputationFusion

open StatusOr Relation

variable {V : Type} {I : Interpretation V} {ctx : Context V} {p p' : TaskProgram}
  {calls : List ℕ} {st : Collected} {fused : HloComputation} {newCall : ℕ}

/-- An operation that does not call gives the same in both programs, as does a call of an old
computation. -/
theorem Applies.renamed {names : List ℕ} {i j : HloInstruction} {args : List (Value V)} {v : Value V}
    (hcalled : p'.called = p.called ++ [fused]) (hrenamed : Renamed newCall names i j)
    (h : p.Applies I ctx i args v) : p'.Applies I ctx j args v := by
  unfold TaskProgram.Applies at h ⊢
  rw [hrenamed.opcode]
  cases hop : i.opcode with
  | call n =>
    simp only [hop] at h ⊢
    obtain ⟨comp, hcomp, hv⟩ := h
    refine ⟨comp, ?_, hv⟩
    obtain ⟨hlt, -⟩ := List.getElem?_eq_some_iff.mp hcomp
    rw [hcalled, List.getElem?_append_left hlt, hcomp]
  | _ =>
    simp only [hop] at h ⊢
    rw [← h]
    unfold Interpretation.apply
    rw [hrenamed.opcode, hrenamed.shape, hrenamed.offset]

section values

variable (hfusable : Fusable p calls)
  (hcollected : CollectedFrom p calls (outputsOf p.computation calls) st)
  (hfused : FusedInto p calls st fused newCall p')

include hcollected in
theorem isOutput_of_mem {id : ℕ} (h : id ∈ st.rootsNeeded.map Prod.fst) :
    IsOutput p.computation calls id := by
  obtain ⟨root, hroot, rfl⟩ := List.mem_map.mp h
  exact mem_outputsOf.mp (hcollected.roots_produced root hroot)

/-- What reaches no call is neither a call nor an output. -/
theorem outside_of_not_reaches {id : ℕ}
    (h : ∀ call ∈ calls, id ≠ call ∧ ¬Reaches p.computation id call) (hfusable : Fusable p calls) :
    Outside p.computation calls id := by
  constructor
  · intro hmem
    exact (h id hmem).1 rfl
  · rintro ⟨call, hcall, user, huser, rfl⟩
    exact (h call hcall).2 (.single (hfusable.reaches_output huser))

include hfusable hcollected hfused in
/-- What reaches no call keeps its value. -/
theorem computes_before {id : ℕ} {v : Value V} (hv : p.Computes I ctx id v)
    (hid : ∀ call ∈ calls, id ≠ call ∧ ¬Reaches p.computation id call) : p'.Computes I ctx id v := by
  obtain ⟨depth, hv⟩ := hv
  induction depth generalizing id v with
  | zero => exact hv.elim
  | succ depth ih =>
    obtain ⟨i, args, hi, hargs, happly⟩ := hv
    have houtside := outside_of_not_reaches hid hfusable
    obtain ⟨j, hj, hrenamed⟩ := hfused.kept id i houtside hi
    apply TaskProgram.Computes.of_operands hj ?_ (Applies.renamed hfused.called hrenamed happly)
    have hoperands : j.operands = i.operands := by
      rw [hrenamed.operands]
      apply (List.map_congr_left _).trans (List.map_id _)
      intro o ho
      apply renamed_of_notMem
      intro hmem
      obtain ⟨call, hcall, user, huser, rfl⟩ := isOutput_of_mem hcollected hmem
      exact (hid call hcall).2 (.head ⟨i, hi, ho⟩ (.single (hfusable.reaches_output huser)))
    rw [hoperands]
    have hmem : ∀ o ∈ i.operands, HasOperand p.computation id o := fun o ho => ⟨i, hi, ho⟩
    apply ((List.forall₂_and_left _ _).mpr ⟨hmem, hargs⟩).imp
    rintro o w ⟨ho, hw⟩
    apply ih ?_ hw
    intro call hcall
    constructor
    · rintro rfl
      exact (hid o hcall).2 (.single ho)
    · intro hreaches
      exact (hid call hcall).2 (.head ho hreaches)

include hfusable hcollected in
/-- The operands that the new call needs reach none of the calls. -/
theorem needed_not_reaches {operand : ℕ} (h : operand ∈ st.parametersNeeded) :
    ∀ call ∈ calls, operand ≠ call ∧ ¬Reaches p.computation operand call := by
  intro call hcall
  obtain ⟨hnot, user, huser, hoperand⟩ := hcollected.needed operand h
  have hnotMem := hfusable.operand_notMem huser hoperand
  constructor
  · rintro rfl
    exact hnotMem hcall
  · exact hfusable.convex user huser call hcall operand ⟨hnotMem, hnot⟩ (.single hoperand)

include hfusable hcollected hfused in
/-- The new call has the values of the outputs that are needed. -/
theorem computes_newCall {shape : Shape} (hvalue : ∀ call ∈ calls, ∃ v, p.Computes I ctx call v)
    (hbuild : buildFused p calls st = ok (fused, shape, newCall)) : ∃ vs,
      List.Forall₂ (fun root v => p.Computes I ctx root.1 v) st.rootsNeeded vs ∧
      p'.Computes I ctx newCall (.tuple vs) := by
  have harguments : ∀ call, ∃ vs, ∀ i comp, Calls p calls call i comp →
      List.Forall₂ (p.Computes I ctx) i.operands vs := by
    intro call
    by_cases hcall : call ∈ calls
    · obtain ⟨v, hv⟩ := hvalue call hcall
      obtain ⟨i, vs, hi, hvs, -⟩ := hv.cases
      refine ⟨vs, ?_⟩
      intro i' comp hcalls
      obtain rfl : i = i' := by simpa [hi] using hcalls.2.1
      exact hvs
    · exact ⟨[], fun i comp hcalls => absurd hcalls.1 hcall⟩
  choose args hargs using harguments
  have hneeded : ∀ operand ∈ st.parametersNeeded, ∃ v, p.Computes I ctx operand v := by
    intro operand hoperand
    obtain ⟨-, call, hcall, i, hi, hmem⟩ := hcollected.needed operand hoperand
    obtain ⟨v, hv⟩ := hvalue call hcall
    obtain ⟨i', vs, hi', hvs, -⟩ := hv.cases
    rw [hi] at hi'
    cases hi'
    obtain ⟨k, hk⟩ := List.mem_iff_getElem?.mp hmem
    obtain ⟨w, -, hw⟩ := forall₂_getElem? hvs hk
    exact ⟨w, hw⟩
  have hroots : ∀ root ∈ st.rootsNeeded, ∃ v, p.Computes I ctx root.1 v := by
    intro root hroot
    obtain ⟨call, i, comp, hcalls, user, huser, hid, houtput⟩ := hcollected.roots root hroot
    obtain ⟨w, hw⟩ := hvalue call hcalls.1
    rw [← hid]
    exact exists_output hfusable hcalls huser houtput hw
  obtain ⟨newArgs, hnew⟩ := exists_forall₂ hneeded
  obtain ⟨vs, hvs⟩ := exists_forall₂ hroots
  refine ⟨vs, hvs, ?_⟩
  obtain ⟨j, hj, hopcode, hoperands⟩ := hfused.call
  have hkept : List.Forall₂ (p'.Computes I ctx) j.operands newArgs := by
    rw [hoperands]
    apply ((List.forall₂_and_left _ _).mpr
      ⟨fun o ho => needed_not_reaches hfusable hcollected ho, hnew⟩).imp
    rintro o w ⟨ho, hw⟩
    exact computes_before hfusable hcollected hfused hw ho
  apply TaskProgram.Computes.of_operands hj hkept
  unfold TaskProgram.Applies
  simp only [hopcode]
  refine ⟨fused, ?_, ?_⟩
  · rw [hfused.called]
    simp
  · exact buildFused_computes hfusable hargs hcollected hnew hbuild hvs

include hcollected in
/-- An output with a use outside, or that is the root, is needed. -/
theorem outside_or_needed {id : ℕ} (hnotMem : id ∉ calls)
    (huse : id = p.computation.root ∨
      ∃ user, Outside p.computation calls user ∧ HasOperand p.computation user id) :
    Outside p.computation calls id ∨ id ∈ st.rootsNeeded.map Prod.fst := by
  by_cases houtput : IsOutput p.computation calls id
  · right
    have hneeded := mem_outputsOf.mpr houtput
    obtain ⟨call, hcall, gte, hgte, rfl⟩ := houtput
    apply hcollected.roots_complete gte (mem_users.mp hgte).1 hneeded
    unfold isRootNeeded
    rcases huse with hroot | ⟨user, houtside, i, hi, hoperand⟩
    · simp [hroot]
    · have huser : i ∈ p.computation.users gte.id :=
        mem_users.mpr ⟨HloComputation.mem_of_instruction hi, hoperand⟩
      have hid := HloComputation.id_of_instruction hi
      rw [Bool.or_eq_true, List.any_eq_true]
      right
      refine ⟨i, huser, ?_⟩
      simp [hid, houtside.1]
  · exact .inl ⟨hnotMem, houtput⟩

/-- What has a call as its operand is an output. -/
theorem operand_notMem_of_outside {id operand : ℕ} (hid : Outside p.computation calls id)
    (h : HasOperand p.computation id operand) : operand ∉ calls := by
  intro hmem
  obtain ⟨i, hi, hoperand⟩ := h
  exact hid.2 ⟨operand, hmem, i, mem_users.mpr ⟨HloComputation.mem_of_instruction hi, hoperand⟩,
    HloComputation.id_of_instruction hi⟩

include hfusable hcollected hfused in
/-- What is outside and what is needed outside keep their values, the outputs under the names
that they have now. -/
theorem computes_renamed {shape : Shape} (hvalue : ∀ call ∈ calls, ∃ v, p.Computes I ctx call v)
    (hbuild : buildFused p calls st = ok (fused, shape, newCall)) {id : ℕ} {v : Value V}
    (hid : Outside p.computation calls id ∨ id ∈ st.rootsNeeded.map Prod.fst)
    (hv : p.Computes I ctx id v) :
    p'.Computes I ctx (renamed newCall (st.rootsNeeded.map Prod.fst) id) v := by
  obtain ⟨vs, hvs, hnewCall⟩ := computes_newCall hfusable hcollected hfused hvalue hbuild
  obtain ⟨depth, hv⟩ := hv
  induction depth generalizing id v with
  | zero => exact hv.elim
  | succ depth ih =>
    rcases hid with houtside | hneeded
    · obtain ⟨i, args, hi, hargs, happly⟩ := hv
      have hsame : renamed newCall (st.rootsNeeded.map Prod.fst) id = id := by
        apply renamed_of_notMem
        exact fun hmem => houtside.2 (isOutput_of_mem hcollected hmem)
      obtain ⟨j, hj, hrenamed⟩ := hfused.kept id i houtside hi
      rw [hsame]
      apply TaskProgram.Computes.of_operands hj ?_ (Applies.renamed hfused.called hrenamed happly)
      rw [hrenamed.operands, List.forall₂_map_left_iff]
      have hmem : ∀ o ∈ i.operands, HasOperand p.computation id o := fun o ho => ⟨i, hi, ho⟩
      apply ((List.forall₂_and_left _ _).mpr ⟨hmem, hargs⟩).imp
      rintro o w ⟨ho, hw⟩
      apply ih ?_ hw
      exact outside_or_needed hcollected (operand_notMem_of_outside houtside ho)
        (.inr ⟨id, houtside, ho⟩)
    · -- an output is an element of the new tuple
      obtain ⟨k, hk⟩ := List.mem_iff_getElem?.mp hneeded
      rw [renamed_getElem hcollected.roots_nodup hk]
      rw [List.getElem?_map, Option.map_eq_some_iff] at hk
      obtain ⟨root, hroot, rfl⟩ := hk
      obtain ⟨w, hw, hcomputes⟩ := forall₂_getElem? hvs hroot
      obtain rfl := hcomputes.unique ⟨depth + 1, hv⟩
      obtain ⟨hlt, -⟩ := List.getElem?_eq_some_iff.mp hroot
      obtain ⟨j, hj, hopcode, hoperands⟩ := hfused.outputs k hlt
      have hargs : List.Forall₂ (p'.Computes I ctx) j.operands [.tuple vs] := by
        rw [hoperands]
        exact .cons hnewCall .nil
      apply TaskProgram.Computes.of_operands hj hargs
      simpa [TaskProgram.Applies, hopcode, Interpretation.apply] using hw

end values

/-- The operands that an instruction outside reads have the values that they had. -/
structure SameUses (I : Interpretation V) (ctx : Context V) (p p' : TaskProgram) (id : ℕ)
    (i : HloInstruction) : Prop where
  value : ∀ v, p.Computes I ctx id v → p'.Computes I ctx id v
  uses : ∃ j, p'.computation.instruction id = some j ∧ j.opcode = i.opcode ∧ j.shape = i.shape ∧
    List.Forall₂ (fun o o' => ∀ v, p.Computes I ctx o v → p'.Computes I ctx o' v)
      i.operands j.operands

section sharedOutput

/-- The output of the first call is read by the second one and outside. -/
def sharedOutput : TaskProgram where
  computation :=
    { instructions :=
        [{ id := 0, opcode := .parameter 0 },
         { id := 1, opcode := .call 0, operands := [0] },
         { id := 2, opcode := .getTupleElement 0, operands := [1] },
         { id := 3, opcode := .call 1, operands := [2, 0] },
         { id := 4, opcode := .getTupleElement 0, operands := [3] },
         { id := 5, opcode := .other "add", operands := [2, 4] }]
      root := 5 }
  called :=
    [{ instructions :=
         [{ id := 6, opcode := .parameter 0 },
          { id := 7, opcode := .other "negate", operands := [6] },
          { id := 8, opcode := .tuple, operands := [7] }]
       root := 8 },
     { instructions :=
         [{ id := 9, opcode := .parameter 0 },
          { id := 10, opcode := .parameter 1 },
          { id := 11, opcode := .other "add", operands := [9, 10] },
          { id := 12, opcode := .tuple, operands := [11] }]
       root := 12 }]

def integers : Interpretation ℤ where
  offset := id
  loop _ _ := none
  operation
    | .other "negate", _, [.data x] => some (.data (-x))
    | .other "add", _, [.data x, .data y] => some (.data (x + y))
    | _, _, _ => none

/-- Where operands have smaller ids, what is reached has a smaller id. -/
theorem lt_of_reaches {c : HloComputation} (h : ∀ i ∈ c.instructions, ∀ o ∈ i.operands, o < i.id)
    {id other : ℕ} (hreaches : Reaches c id other) : other < id := by
  have hstep : ∀ {id o}, HasOperand c id o → o < id := by
    rintro id o ⟨i, hi, ho⟩
    rw [← HloComputation.id_of_instruction hi]
    exact h i (HloComputation.mem_of_instruction hi) o ho
  induction hreaches with
  | single ho => exact hstep ho
  | tail _ ho ih => exact (hstep ho).trans ih

theorem fusable_sharedOutput : Fusable sharedOutput [1, 3] := by
  have hlt : ∀ {id other}, Reaches sharedOutput.computation id other → other < id :=
    lt_of_reaches (by decide)
  constructor
  · decide
  · intro id hid
    rcases List.mem_pair.mp hid with rfl | rfl
    · exact ⟨_, _, _, rfl, rfl, rfl⟩
    · exact ⟨_, _, _, rfl, rfl, rfl⟩
  · decide
  · intro id hid id' hid' i i' hi hi' hop
    rcases List.mem_pair.mp hid with rfl | rfl <;> rcases List.mem_pair.mp hid' with rfl | rfl
    · rfl
    · cases hi
      cases hi'
      cases hop
    · cases hi
      cases hi'
      cases hop
    · rfl
  · decide
  · rw [List.pairwise_pair]
    intro hreaches
    exact absurd (hlt hreaches) (by omega)
  · intro id _ hreaches
    exact (hlt hreaches).false
  · intro id hid id' hid' x houtside hfrom hto
    have hx : x = 2 := by
      have hbelow := hlt hfrom
      have habove := hlt hto
      rcases List.mem_pair.mp hid with rfl | rfl <;> rcases List.mem_pair.mp hid' with rfl | rfl <;>
        omega
    subst hx
    exact houtside.2 ⟨1, by simp, _, mem_users.mpr ⟨.tail _ (.tail _ (.head _)), by simp⟩, rfl⟩
  · decide

end sharedOutput

end ComputationFusion
end MultiMeshJax
