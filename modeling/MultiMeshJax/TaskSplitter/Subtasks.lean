import MultiMeshJax.ComputationFusion.Cloned
import MultiMeshJax.TaskSplitter.Classified

/-! The computation that is built for a set of instructions gives the values that its
instructions have in the task. -/
namespace MultiMeshJax
namespace TaskSplitter

open StatusOr CriticalPath HloComputation
open ComputationFusion (Builder tupleShape callContext computes_add instruction_add_self
  forall₂_trans apply_congr)

variable {V : Type} {I : Interpretation V} {ctx : Context V}

section build

variable {p : TaskProgram} {task : HloInstruction} {n : ℕ} {computation : HloComputation}
  {taskRoot : HloInstruction} {externalReplacements : ℕ → Option ℕ} {st st' : Subtask}
  {b b' : Builder} {params : List HloInstruction} {args newArgs : List (Value V)}

/-- The operand of the task for a parameter. -/
def TakesOperand (task param : HloInstruction) (operand : ℕ) : Prop :=
  ∃ number, param.opcode = .parameter number ∧ task.operands[number]? = some operand

theorem addExternalParameter_eq_ok {param : HloInstruction}
    (h : addExternalParameter task st param = ok st') : ∃ operand,
      TakesOperand task param operand ∧ st' = cloneParam st param operand := by
  unfold addExternalParameter at h
  split at h
  · rename_i number hop
    obtain ⟨operand, hoperand, h⟩ := bind_eq_ok.mp h
    exact ⟨operand, ⟨number, hop, elementAt_eq_ok.mp hoperand⟩, (ok.inj h).symm⟩
  · cases h

theorem addInternalParameter_eq_ok {param : HloInstruction}
    (h : addInternalParameter externalReplacements st param = ok st') : ∃ operand,
      externalReplacements param.id = some operand ∧ st' = cloneParam st param operand := by
  unfold addInternalParameter at h
  obtain ⟨operand, hoperand, h⟩ := bind_eq_ok.mp h
  exact ⟨operand, deref_eq_ok.mp hoperand, (ok.inj h).symm⟩

/-- The clones have the values of what they were cloned from. -/
structure Cloned (I : Interpretation V) (ctx : Context V) (computation : HloComputation)
    (args newArgs : List (Value V)) (b : Builder) : Prop where
  fresh : b.Fresh
  clones : ∀ id clone, b.cloneMap id = some clone → ∀ v,
    computation.Computes I (callContext ctx args) id v →
      b.computation.Computes I (callContext ctx newArgs) clone v

/-- An instruction that is added under a new id, with an entry for what it has the value of. -/
theorem Cloned.add (h : Cloned I ctx computation args newArgs b) {i : HloInstruction} {id : ℕ}
    (hself : ∀ v, computation.Computes I (callContext ctx args) id v →
      (b.add i).computation.Computes I (callContext ctx newArgs) b.nextId v) :
    Cloned I ctx computation args newArgs
      { b.add i with cloneMap := Function.update b.cloneMap id (some b.nextId) } := by
  constructor
  · exact h.fresh.add i
  · intro other clone hclone v hv
    dsimp only at hclone
    by_cases heq : other = id
    · subst heq
      rw [Function.update_self] at hclone
      obtain rfl := Option.some.inj hclone
      exact hself v hv
    · rw [Function.update_of_ne heq] at hclone
      exact computes_add i (h.clones other clone hclone v hv)

/-- The parameters that have been cloned take the arguments in their order. -/
structure ParametersCloned (I : Interpretation V) (ctx : Context V) (computation : HloComputation)
    (args newArgs : List (Value V)) (done : List HloInstruction) (st : Subtask) : Prop where
  cloned : Cloned I ctx computation args newArgs st.builder
  length : st.newCallOperands.length = done.length

theorem cloneParam_cloned {done : List HloInstruction} {param : HloInstruction}
    (h : ParametersCloned I ctx computation args newArgs done st)
    (hargs : List.Forall₂ (fun param v =>
      computation.Computes I (callContext ctx args) param.id v) params newArgs)
    (hinitial : done ++ [param] <+: params) (operand : ℕ) :
    ParametersCloned I ctx computation args newArgs (done ++ [param])
      (cloneParam st param operand) := by
  obtain ⟨rest, hrest⟩ := hinitial
  have hget : params[done.length]? = some param := by simp [← hrest]
  obtain ⟨w, hw, hcomputes⟩ := forall₂_getElem? hargs hget
  constructor
  · apply h.cloned.add
    intro v hv
    obtain rfl := hcomputes.unique hv
    apply HloComputation.Computes.of_operands (instruction_add_self h.cloned.fresh _) .nil
    rw [← h.length] at hw
    exact hw
  · simp [cloneParam, h.length]

/-- The clones of the parameters of a set. -/
theorem parameters_cloned {externals internals : List HloInstruction} {nextId : ℕ}
    (hargs : List.Forall₂ (fun param v =>
      computation.Computes I (callContext ctx args) param.id v) (externals ++ internals) newArgs)
    {st₁ st₂ : Subtask}
    (h₁ : externals.foldlM (addExternalParameter task) ⟨{ nextId := nextId }, []⟩ = ok st₁)
    (h₂ : internals.foldlM (addInternalParameter externalReplacements) st₁ = ok st₂) :
    Cloned I ctx computation args newArgs st₂.builder := by
  have hstart : ParametersCloned I ctx computation args newArgs [] ⟨{ nextId := nextId }, []⟩ := by
    constructor
    · constructor
      · intro i hi
        cases hi
      · intro id clone hclone
        cases hclone
    · rfl
  have hexternals := foldlM_prefix (ParametersCloned I ctx computation args newArgs) h₁ hstart
    fun done param hinitial st st' hst hstep => by
      obtain ⟨operand, -, rfl⟩ := addExternalParameter_eq_ok hstep
      exact cloneParam_cloned hst hargs (hinitial.trans (List.prefix_append _ _)) operand
  have hall := foldlM_prefix (fun done =>
      ParametersCloned I ctx computation args newArgs (externals ++ done)) h₂
    (by rwa [List.append_nil]) fun done param hinitial st st' hst hstep => by
      obtain ⟨operand, -, rfl⟩ := addInternalParameter_eq_ok hstep
      rw [← List.append_assoc]
      apply cloneParam_cloned hst hargs _ operand
      rw [List.append_assoc]
      exact (List.prefix_append_right_inj externals).mpr hinitial
  exact hall.cloned

theorem cloneInstruction_cloned (h : TaskCall p task n computation taskRoot)
    (hb : Cloned I ctx computation args newArgs b) {i : HloInstruction}
    (hi : i ∈ computation.instructions) (hrun : cloneInstruction computation b i = ok b') :
    Cloned I ctx computation args newArgs b' := by
  unfold cloneInstruction at hrun
  split at hrun
  · cases hrun
    exact hb
  · rename_i hneither
    obtain ⟨newOperands, hoperands, hrun⟩ := bind_eq_ok.mp hrun
    obtain rfl := ok.inj hrun
    apply hb.add
    intro v hv
    obtain ⟨j, vs, hj, hvs, happly⟩ := hv.cases
    rw [h.instruction_of_mem hi] at hj
    cases hj
    apply HloComputation.Computes.of_operands (instruction_add_self hb.fresh _)
    · apply forall₂_trans (mapM_eq_ok.mp hoperands) hvs
      intro o o' w _ ho hw
      exact computes_add _ (hb.clones o o' (deref_eq_ok.mp ho) w hw)
    · have hparameter : ∀ number, i.opcode ≠ .parameter number := by
        intro number hop
        simp [HloInstruction.isParameter, hop] at hneither
      rw [← happly]
      exact apply_congr rfl rfl rfl rfl hparameter

/-- The computation of a set gives the values of the instructions that are taken out. -/
theorem buildSubtask_computes (h : TaskCall p task n computation taskRoot) {config : TaskConfig}
    {set : List HloInstruction} (hset : set ⊆ computation.instructions) {nextId next : ℕ}
    {built : HloComputation} {shape : Shape} {operands : List ℕ}
    (hrun : buildSubtask task computation externalReplacements config set nextId =
      ok (built, shape, operands, next))
    (hargs : List.Forall₂ (fun param v =>
      computation.Computes I (callContext ctx args) param.id v)
        (config.externalParameters ++ config.internalParameters) newArgs)
    {vs : List (Value V)} (hroots : List.Forall₂ (fun root v =>
      computation.Computes I (callContext ctx args) root.id v) (roots config) vs) :
    built.Computes I (callContext ctx newArgs) built.root (.tuple vs) := by
  unfold buildSubtask at hrun
  obtain ⟨st₁, h₁, hrun⟩ := bind_eq_ok.mp hrun
  obtain ⟨st₂, h₂, hrun⟩ := bind_eq_ok.mp hrun
  obtain ⟨b, hclones, hrun⟩ := bind_eq_ok.mp hrun
  obtain ⟨rootOperands, hrootOperands, hrun⟩ := bind_eq_ok.mp hrun
  obtain ⟨rfl, rfl, rfl, rfl⟩ : _ ∧ _ ∧ _ ∧ _ := by simpa using ok.inj hrun
  have hb : Cloned I ctx computation args newArgs b :=
    foldlM_invariant _ hclones (parameters_cloned hargs h₁ h₂) fun i hi b b' hb hstep =>
      cloneInstruction_cloned h hb (hset hi) hstep
  have htuple : List.Forall₂ (b.computation.Computes I (callContext ctx newArgs)) rootOperands
      vs := by
    apply forall₂_trans (mapM_eq_ok.mp hrootOperands) hroots
    intro root clone v _ hclone hv
    exact hb.clones root.id clone (deref_eq_ok.mp hclone) v hv
  have hroot := HloComputation.Computes.of_operands (instruction_add_self hb.fresh
    { id := 0, opcode := .tuple, operands := rootOperands
      shape := tupleShape (rootOperands.map b.shapeOf) }) (htuple.imp fun _ _ h => computes_add _ h)
    (show I.apply (callContext ctx newArgs) _ vs = some (.tuple vs) from rfl)
  apply hroot.mono
  intro id i hi
  exact hi

/-- The operands of the new call. -/
theorem buildSubtask_operands {config : TaskConfig} {set : List HloInstruction} {nextId next : ℕ}
    {built : HloComputation} {shape : Shape} {operands : List ℕ}
    (hrun : buildSubtask task computation externalReplacements config set nextId =
      ok (built, shape, operands, next)) :
    ∃ externals internals, operands = externals ++ internals ∧
      List.Forall₂ (TakesOperand task) config.externalParameters externals ∧
      List.Forall₂ (fun param operand => externalReplacements param.id = some operand)
        config.internalParameters internals := by
  unfold buildSubtask at hrun
  obtain ⟨st₁, h₁, hrun⟩ := bind_eq_ok.mp hrun
  obtain ⟨st₂, h₂, hrun⟩ := bind_eq_ok.mp hrun
  obtain ⟨b, -, hrun⟩ := bind_eq_ok.mp hrun
  obtain ⟨rootOperands, -, hrun⟩ := bind_eq_ok.mp hrun
  obtain ⟨-, -, rfl, -⟩ : _ ∧ _ ∧ _ ∧ _ := by simpa using ok.inj hrun
  have hexternals := foldlM_prefix (fun done st =>
      List.Forall₂ (TakesOperand task) done st.newCallOperands) h₁ .nil
    fun done param _ st st' hst hstep => by
      obtain ⟨operand, hoperand, rfl⟩ := addExternalParameter_eq_ok hstep
      exact List.rel_append hst (.cons hoperand .nil)
  obtain ⟨internals, hsplit, hinternals⟩ := foldlM_prefix (fun done (st : Subtask) =>
      ∃ internals, st.newCallOperands = st₁.newCallOperands ++ internals ∧
        List.Forall₂ (fun (param : HloInstruction) operand =>
          externalReplacements param.id = some operand) done internals) h₂
    ⟨[], by simp, .nil⟩ fun done param _ st st' ⟨internals, hst, hall⟩ hstep => by
      obtain ⟨operand, hoperand, rfl⟩ := addInternalParameter_eq_ok hstep
      refine ⟨internals ++ [operand], ?_, List.rel_append hall (.cons hoperand .nil)⟩
      show st.newCallOperands ++ [operand] = _
      rw [hst, List.append_assoc]
  exact ⟨st₁.newCallOperands, internals, hsplit, hexternals, hinternals⟩

theorem buildSubtask_next {config : TaskConfig} {set : List HloInstruction} {nextId next : ℕ}
    {built : HloComputation} {shape : Shape} {operands : List ℕ}
    (hrun : buildSubtask task computation externalReplacements config set nextId =
      ok (built, shape, operands, next)) : nextId ≤ next := by
  unfold buildSubtask at hrun
  obtain ⟨st₁, h₁, hrun⟩ := bind_eq_ok.mp hrun
  obtain ⟨st₂, h₂, hrun⟩ := bind_eq_ok.mp hrun
  obtain ⟨b, h₃, hrun⟩ := bind_eq_ok.mp hrun
  obtain ⟨rootOperands, -, hrun⟩ := bind_eq_ok.mp hrun
  obtain ⟨-, -, -, rfl⟩ : _ ∧ _ ∧ _ ∧ _ := by simpa using ok.inj hrun
  have hst₁ : nextId ≤ st₁.builder.nextId := by
    apply foldlM_invariant (fun st : Subtask => nextId ≤ st.builder.nextId) h₁ le_rfl
    intro param _ st st' hst hstep
    obtain ⟨operand, -, rfl⟩ := addExternalParameter_eq_ok hstep
    exact hst.trans (Nat.le_succ _)
  have hst₂ : nextId ≤ st₂.builder.nextId := by
    apply foldlM_invariant (fun st : Subtask => nextId ≤ st.builder.nextId) h₂ hst₁
    intro param _ st st' hst hstep
    obtain ⟨operand, -, rfl⟩ := addInternalParameter_eq_ok hstep
    exact hst.trans (Nat.le_succ _)
  have hb : nextId ≤ b.nextId := by
    apply foldlM_invariant (fun b : Builder => nextId ≤ b.nextId) h₃ hst₂
    intro i _ b b' hb hstep
    unfold cloneInstruction at hstep
    split at hstep
    · cases hstep
      exact hb
    · obtain ⟨newOperands, -, hstep⟩ := bind_eq_ok.mp hstep
      obtain rfl := ok.inj hstep
      exact hb.trans (Nat.le_succ _)
  exact hb.trans (Nat.le_succ _)

end build

section success

variable {p : TaskProgram} {task : HloInstruction} {n : ℕ} {computation : HloComputation}
  {taskRoot : HloInstruction} {externalReplacements : ℕ → Option ℕ}

/-- In a set that is listed as in the computation an operand comes before the instruction. -/
theorem mem_of_prefix_filter (h : TaskCall p task n computation taskRoot)
    {f : HloInstruction → Bool} {done : List HloInstruction} {i : HloInstruction}
    (hinitial : done ++ [i] <+: computation.instructions.filter f) {o : ℕ} (ho : o ∈ i.operands)
    {j : HloInstruction} (hj : computation.instruction o = some j) (hf : f j = true) :
    j ∈ done := by
  obtain ⟨rest, hrest⟩ := hinitial
  rw [List.append_assoc, List.singleton_append] at hrest
  obtain ⟨front, back, hsplit, hfront, hback⟩ := List.filter_eq_append_iff.mp hrest.symm
  obtain ⟨skipped, later, rfl, hskipped, -, -⟩ := List.filter_eq_cons_iff.mp hback
  have hearlier := h.listed (front ++ skipped) i later (by rw [hsplit, List.append_assoc]) o
    (List.mem_append_left _ ho)
  obtain ⟨k, hk, hid⟩ := List.mem_map.mp hearlier
  have hkj : k = j := by
    have hmem : k ∈ computation.instructions := by
      rw [hsplit, ← List.append_assoc]
      exact List.mem_append_left _ hk
    have hfound := h.instruction_of_mem hmem
    rw [hid, hj] at hfound
    exact (Option.some.inj hfound).symm
  subst hkj
  rcases List.mem_append.mp hk with hk | hk
  · rw [← hfront]
    exact List.mem_filter.mpr ⟨hk, hf⟩
  · exact absurd hf (hskipped k hk)

/-- The map has an entry for each of these instructions. -/
def HasClones (b : Builder) (is : List HloInstruction) : Prop :=
  ∀ i ∈ is, (b.cloneMap i.id).isSome = true

theorem HasClones.update {b b' : Builder} {is : List HloInstruction} (h : HasClones b is)
    (i : HloInstruction) {clone : ℕ}
    (hmap : b'.cloneMap = Function.update b.cloneMap i.id (some clone)) :
    HasClones b' (is ++ [i]) := by
  intro j hj
  rw [hmap]
  by_cases heq : j.id = i.id
  · rw [heq, Function.update_self]
    rfl
  · rw [Function.update_of_ne heq]
    rcases List.mem_append.mp hj with hj | hj
    · exact h j hj
    · exact absurd (congrArg HloInstruction.id (List.mem_singleton.mp hj)) heq

/-- An operand is a parameter, is listed earlier in the set, or comes from another set. -/
theorem clonedOperand_ok (h : TaskCall p task n computation taskRoot) {f : HloInstruction → Bool}
    {config : TaskConfig} {operandsVisited : List ℕ}
    (hconfig : Classified computation ((computation.instructions.filter f).map HloInstruction.id)
      (computation.instructions.filter f) (config, operandsVisited))
    {done : List HloInstruction} {i : HloInstruction}
    (hinitial : done ++ [i] <+: computation.instructions.filter f) (hparam : i.isParameter = false)
    {b : Builder} (hb : HasClones b (config.externalParameters ++ config.internalParameters ++
      done.filter fun i => !i.isParameter)) {o : ℕ} (ho : o ∈ i.operands) :
    ∃ clone, clonedOperand b o = ok clone := by
  have hmem : i ∈ computation.instructions.filter f := hinitial.subset (by simp)
  obtain ⟨j, hj⟩ := h.exists_operand (List.mem_filter.mp hmem).1 ho
  obtain rfl := id_of_instruction hj
  have hsome : (b.cloneMap j.id).isSome = true := by
    apply hb
    rw [List.mem_append, List.mem_append]
    cases hjparam : j.isParameter with
    | true =>
      exact .inl (.inl ((hconfig.seen.external j).mpr ⟨hj, hjparam, i, hmem, hparam, ho⟩))
    | false =>
      by_cases hin : j.id ∈ (computation.instructions.filter f).map HloInstruction.id
      · obtain ⟨k, hk, hid⟩ := List.mem_map.mp hin
        have hkj : k = j := by
          have hfound := h.instruction_of_mem (List.mem_filter.mp hk).1
          rw [hid, hj] at hfound
          exact (Option.some.inj hfound).symm
        subst hkj
        have hdone := mem_of_prefix_filter h hinitial ho hj (List.mem_filter.mp hk).2
        exact .inr (List.mem_filter.mpr ⟨hdone, by simp [hjparam]⟩)
      · exact .inl (.inr ((hconfig.seen.internal j).mpr ⟨hj, hjparam, hin, i, hmem, hparam, ho⟩))
  obtain ⟨clone, hclone⟩ := Option.isSome_iff_exists.mp hsome
  exact ⟨clone, deref_eq_ok.mpr hclone⟩

/-- The computation of a set is built once there are replacements for what it takes from the
other sets. -/
theorem buildSubtask_ok (h : TaskCall p task n computation taskRoot) {f : HloInstruction → Bool}
    {config : TaskConfig} {operandsVisited : List ℕ}
    (hconfig : Classified computation ((computation.instructions.filter f).map HloInstruction.id)
      (computation.instructions.filter f) (config, operandsVisited))
    (hreplaced : ∀ param ∈ config.internalParameters,
      ∃ operand, externalReplacements param.id = some operand)
    (hroot : computation.root ∉ (computation.instructions.filter f).map HloInstruction.id)
    (nextId : ℕ) : ∃ built, buildSubtask task computation externalReplacements config
      (computation.instructions.filter f) nextId = ok built := by
  obtain ⟨st₁, h₁, hst₁⟩ := exists_foldlM_eq_ok
    (fun done (st : Subtask) => HasClones st.builder done) (l := config.externalParameters)
    (b := ⟨{ nextId := nextId }, []⟩) (f := addExternalParameter task) (by
      intro i hi
      cases hi) (by
      intro done param hinitial st hst
      obtain ⟨hparam, hisParameter, -⟩ :=
        (hconfig.seen.external param).mp (hinitial.subset (by simp))
      obtain ⟨number, hop⟩ : ∃ number, param.opcode = .parameter number := by
        unfold HloInstruction.isParameter at hisParameter
        split at hisParameter
        · exact ⟨_, by assumption⟩
        · cases hisParameter
      have hlt := (h.parameters param (mem_of_instruction hparam) number hop).1
      refine ⟨cloneParam st param task.operands[number], ?_, hst.update param rfl⟩
      unfold addExternalParameter
      simp only [hop]
      rw [elementAt_of_lt hlt, ok_bind]
      rfl)
  obtain ⟨st₂, h₂, hst₂⟩ := exists_foldlM_eq_ok
    (fun done (st : Subtask) => HasClones st.builder (config.externalParameters ++ done))
    (l := config.internalParameters) (b := st₁)
    (f := addInternalParameter externalReplacements) (by rwa [List.append_nil]) (by
      intro done param hinitial st hst
      obtain ⟨operand, hoperand⟩ := hreplaced param (hinitial.subset (by simp))
      refine ⟨cloneParam st param operand, ?_, ?_⟩
      · unfold addInternalParameter
        rw [hoperand]
        rfl
      · rw [← List.append_assoc]
        exact hst.update param rfl)
  obtain ⟨b, h₃, hb⟩ := exists_foldlM_eq_ok
    (fun done b => HasClones b (config.externalParameters ++ config.internalParameters ++
      done.filter fun i => !i.isParameter)) (l := computation.instructions.filter f)
    (b := st₂.builder) (f := cloneInstruction computation) (by simpa using hst₂) (by
      intro done i hinitial b hb
      have hmem : i ∈ computation.instructions.filter f := hinitial.subset (by simp)
      cases hparam : i.isParameter with
      | true =>
        refine ⟨b, ?_, by simpa [List.filter_append, hparam] using hb⟩
        unfold cloneInstruction
        rw [if_pos (by simp [hparam]), pure_eq]
      | false =>
        have hne : (i.id == computation.root) = false := by
          rw [beq_eq_false_iff_ne]
          intro heq
          exact hroot (heq ▸ List.mem_map_of_mem hmem)
        obtain ⟨newOperands, hoperands⟩ := exists_mapM_eq_ok (clonedOperand b) fun o ho =>
          clonedOperand_ok h hconfig hinitial hparam hb ho
        have hrun : cloneInstruction computation b i = ok
            { b.add { i with operands := newOperands, controlPredecessors := [] } with
              cloneMap := Function.update b.cloneMap i.id (some b.nextId) } := by
          unfold cloneInstruction
          rw [if_neg (by simp [hparam, hne]), hoperands, ok_bind, pure_eq]
        refine ⟨_, hrun, ?_⟩
        have hfilter : (done ++ [i]).filter (fun i => !i.isParameter) =
            done.filter (fun i => !i.isParameter) ++ [i] := by
          simp [List.filter_append, hparam]
        rw [hfilter, ← List.append_assoc]
        exact hb.update i rfl)
  obtain ⟨rootOperands, hroots⟩ := exists_mapM_eq_ok
    (fun root : HloInstruction => clonedOperand b root.id) (l := roots config) (by
      intro root hroot
      obtain ⟨hmem, hparam, -⟩ := (hconfig.roots root).mp hroot
      have hsome : (b.cloneMap root.id).isSome = true := by
        apply hb
        exact List.mem_append_right _ (List.mem_filter.mpr ⟨hmem, by simp [hparam]⟩)
      obtain ⟨clone, hclone⟩ := Option.isSome_iff_exists.mp hsome
      exact ⟨clone, deref_eq_ok.mpr hclone⟩)
  unfold buildSubtask
  rw [h₁, ok_bind, h₂, ok_bind, h₃, ok_bind]
  unfold roots at hroots
  rw [hroots, ok_bind]
  exact ⟨_, rfl⟩

end success

end TaskSplitter
end MultiMeshJax
