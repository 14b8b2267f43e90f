import MultiMeshJax.TaskSplitter.ReplaceUsers

/-! When a task is split along its critical root, and that its outputs keep their values. -/
namespace MultiMeshJax
namespace TaskSplitter

open StatusOr CriticalPath HloComputation Relation
open ComputationFusion (callContext Reaches HasOperand)

variable {p : TaskProgram} {task : HloInstruction} {n : ℕ} {computation : HloComputation}
  {taskRoot : HloInstruction} {st : SplitState} {hasSideEffect : SideEffects} {done : List ℕ}
  {c : HloComputation}

section values

/-- An output of the task has the value of the element of the root tuple. -/
theorem exists_user_computes (h : TaskCall p task n computation taskRoot) {V : Type}
    {I : Interpretation V} {ctx : Context V} {args : List (Value V)}
    (hargs : Arguments I ctx p task computation args) {user : HloInstruction}
    (huser : user ∈ p.computation.users task.id)
    {index element : ℕ} (hop : user.opcode = .getTupleElement index)
    (helement : taskRoot.operands[index]? = some element) :
    ∃ v, p.Computes I ctx user.id v ∧
      computation.Computes I (callContext ctx args) element v := by
  obtain ⟨ws, hws⟩ := exists_forall₂ (R := fun o w =>
      computation.Computes I (callContext ctx args) o w) (l := taskRoot.operands) fun o ho => by
    obtain ⟨i, hi⟩ := h.exists_operand h.root_mem_instructions ho
    obtain ⟨w, hw⟩ := hargs.values i (mem_of_instruction hi)
    rw [id_of_instruction hi] at hw
    exact ⟨w, hw⟩
  have htuple : p.Computes I ctx task.id (.tuple ws) := by
    apply TaskProgram.Computes.of_operands h.instruction_task hargs.operands
    unfold TaskProgram.Applies
    simp only [h.opcode]
    refine ⟨computation, h.called, ?_⟩
    exact HloComputation.Computes.of_operands h.root hws (by simp [Interpretation.apply, h.tuple])
  obtain ⟨w, hw, hcomputes⟩ := forall₂_getElem? hws helement
  refine ⟨w, ?_, hcomputes⟩
  have hmem := (ComputationFusion.mem_users.mp huser).1
  have hoperands : List.Forall₂ (p.Computes I ctx) user.operands [.tuple ws] := by
    rw [(h.users user huser).1]
    exact .cons htuple .nil
  apply TaskProgram.Computes.of_operands
    (HloComputation.instruction_of_mem h.parent_nodup hmem) hoperands
  simp [TaskProgram.Applies, hop, Interpretation.apply, hw]

/-- What is upstream of the task, or new. -/
def Untouched (p : TaskProgram) (task : HloInstruction) (id : ℕ) : Prop :=
  Upstream p task id ∨ p.freshId ≤ id

section untouched

variable (h : TaskCall p task n computation taskRoot)
include h

theorem AllReplaced.standIn_untouched (hc : AllReplaced p task taskRoot st done c) {id : ℕ}
    (hid : Untouched p task id) : standIn (outputClone p taskRoot st) done id = id := by
  apply standIn_of_notMem
  intro hmem
  obtain ⟨user, huser, rfl⟩ := (hc.done id).mp hmem
  rcases hid with hup | hle
  · exact h.not_upstream_user huser hup
  · have hlt := ComputationFusion.lt_freshId
      (List.mem_map_of_mem (f := HloInstruction.id) (ComputationFusion.mem_users.mp huser).1)
    omega

variable (hst : BothAdded p task computation taskRoot st)
include hst

theorem untouched_operand {i : HloInstruction} (hi : i ∈ st.parent.instructions)
    (hid : Untouched p task i.id) {o : ℕ} (ho : o ∈ i.operands) : Untouched p task o := by
  rcases hst.progress.cases hi with hold | hnew
  · rcases hid with hup | hle
    · exact .inl (.inr (h.upstream_operand hold hup ho))
    · have hlt := ComputationFusion.lt_freshId (List.mem_map_of_mem (f := HloInstruction.id) hold)
      omega
  · rcases hnew.operands o ho with htask | ⟨hle, -⟩
    · exact .inl (.inr (.single (h.hasOperand h.mem htask)))
    · exact .inr hle

variable (hc : AllReplaced p task taskRoot st done c)
include hc

/-- A new instruction is kept as it is. -/
theorem AllReplaced.new_mem {i : HloInstruction} (hi : i ∈ st.parent.instructions)
    (hle : p.freshId ≤ i.id) :
    ∃ j ∈ c.instructions, SameOperation i j ∧ j.operands = i.operands := by
  have hmem : i.id ∈ c.ids := by
    by_contra hnot
    rcases hc.replaced.only i.id (List.mem_map_of_mem hi) hnot with hdone | hup
    · obtain ⟨user, huser, heq⟩ := (hc.done i.id).mp hdone
      have hlt := ComputationFusion.lt_freshId
        (List.mem_map_of_mem (f := HloInstruction.id) (ComputationFusion.mem_users.mp huser).1)
      omega
    · have := h.upstream_lt hup
      omega
  obtain ⟨j, hj, hid⟩ := List.mem_map.mp hmem
  obtain ⟨hsame, hmap⟩ := hc.replaced.present.same hst.progress.nodup hi hj hid
  refine ⟨j, hj, hsame, hmap.trans ?_⟩
  exact (List.map_congr_left fun o ho =>
    hc.standIn_untouched h (untouched_operand h hst hi (.inr hle) ho)).trans (List.map_id _)

section arguments

variable {V : Type} {I : Interpretation V} {ctx : Context V} {args : List (Value V)}
  (hargs : Arguments I ctx p task computation args)
include hargs

/-- What stands for an output of the task has the value of the element of the root tuple. -/
theorem AllReplaced.clone_computes {element x : ℕ}
    (hx : st.externalReplacements element = some x) {v : Value V}
    (hv : computation.Computes I (callContext ctx args) element v) :
    (⟨c, st.called⟩ : TaskProgram).Computes I ctx x v := by
  have hvalue : (⟨st.parent, st.called⟩ : TaskProgram).Computes I ctx x v :=
    hst.progress.values V I ctx args hargs element x hx v hv
  obtain ⟨g, hg, rfl, hle, -⟩ := hst.progress.target element x hx
  obtain ⟨j, hj, hsame, -⟩ := hc.new_mem h hst hg hle
  exact hc.replaced.computes_of_closed hst.progress.nodup
    (fun i hi hid o ho => untouched_operand h hst hi hid ho)
    (fun id hid => hc.standIn_untouched h hid) (.inr hle) (hsame.id ▸ List.mem_map_of_mem hj) hvalue

/-- What stands for a user has the value that the user had. -/
theorem AllReplaced.user_computes (helements : ElementsSplit p task computation taskRoot) {id : ℕ}
    (hid : id ∈ done) {v : Value V} (hv : st.program.Computes I ctx id v) :
    (⟨c, st.called⟩ : TaskProgram).Computes I ctx (outputClone p taskRoot st id) v := by
  obtain ⟨user, huser, rfl⟩ := (hc.done id).mp hid
  obtain ⟨index, element, hop, helement, hx⟩ := standsFor_outputClone h hst helements huser
  obtain ⟨w, hw, hcomputes⟩ := exists_user_computes h hargs huser hop helement
  rw [hv.unique (hst.progress.computes hw)]
  exact hc.clone_computes h hst hargs hx hcomputes

/-- What is left keeps its value. -/
theorem AllReplaced.computes (helements : ElementsSplit p task computation taskRoot) {id : ℕ}
    (hid : id ∈ c.ids) {v : Value V} (hv : p.Computes I ctx id v) :
    (⟨c, st.called⟩ : TaskProgram).Computes I ctx id v :=
  hc.replaced.computes hst.progress.nodup
    (fun _ hdone _ hv => hc.user_computes h hst hargs helements hdone hv) hid
    (hst.progress.computes hv)

end arguments

/-- The root is what it was, or what stands for it. -/
theorem AllReplaced.root_computes {V : Type} {I : Interpretation V} {ctx : Context V}
    {args : List (Value V)} (hargs : Arguments I ctx p task computation args)
    (helements : ElementsSplit p task computation taskRoot) {v : Value V}
    (hv : p.Computes I ctx p.computation.root v) :
    (⟨c, st.called⟩ : TaskProgram).Computes I ctx c.root v := by
  have hroot : c.root = standIn (outputClone p taskRoot st) done p.computation.root := by
    rw [hc.replaced.root, hst.progress.root]
  by_cases hdone : p.computation.root ∈ done
  · rw [hroot, standIn, if_pos hdone]
    exact hc.user_computes h hst hargs helements hdone (hst.progress.computes hv)
  · have hsame : c.root = p.computation.root := hroot.trans (standIn_of_notMem hdone)
    have hmem := hc.replaced.root_mem
    rw [hsame] at hmem ⊢
    exact hc.computes h hst hargs helements hmem hv

/-- What the critical call takes its values from is upstream of the task. -/
theorem AllReplaced.upstream_of_reaches {critical : HloInstruction}
    (hcritical : critical ∈ c.instructions) (hop : critical.opcode = .call p.called.length) {x : ℕ}
    (hreaches : Reaches c critical.id x) : Upstream p task x := by
  have hstep : ∀ j ∈ c.instructions, Upstream p task j.id → ∀ o ∈ j.operands,
      Upstream p task o := by
    intro j hj hup o ho
    obtain ⟨i, hi, hsame, hmap⟩ := hc.replaced.present j hj
    rw [hmap] at ho
    obtain ⟨o', ho', rfl⟩ := List.mem_map.mp ho
    rcases hst.progress.cases hi with hold | hnew
    · have hup' : Upstream p task o' :=
        .inr (h.upstream_operand hold (hsame.id ▸ hup) ho')
      rw [hc.standIn_untouched h (.inl hup')]
      exact hup'
    · have := h.upstream_lt hup
      have := hnew.id
      have := hsame.id
      omega
  have hfirst : ∀ o ∈ critical.operands, Upstream p task o := by
    intro o ho
    obtain ⟨i, hi, hsame, hmap⟩ := hc.replaced.present critical hcritical
    rw [hmap] at ho
    obtain ⟨o', ho', rfl⟩ := List.mem_map.mp ho
    have htask := hst.independent i hi (hsame.opcode ▸ hop) o' ho'
    have hup' : Upstream p task o' := .inr (.single (h.hasOperand h.mem htask))
    rw [hc.standIn_untouched h (.inl hup')]
    exact hup'
  have hfound := HloComputation.instruction_of_mem hc.replaced.nodup hcritical
  induction hreaches with
  | single hread =>
    obtain ⟨i, hi, ho⟩ := hread
    rw [hfound] at hi
    exact hfirst _ (Option.some.inj hi ▸ ho)
  | tail _ hread ih =>
    obtain ⟨i, hi, ho⟩ := hread
    exact hstep i (mem_of_instruction hi) (id_of_instruction hi ▸ ih) _ ho

/-- The critical call takes no value from the other one. -/
theorem AllReplaced.independent {critical nonCritical : HloInstruction}
    (hcritical : critical ∈ c.instructions) (hop : critical.opcode = .call p.called.length)
    (hnonCritical : nonCritical ∈ c.instructions)
    (hop' : nonCritical.opcode = .call (p.called.length + 1)) :
    ¬Reaches c critical.id nonCritical.id := by
  intro hreaches
  have hlt := h.upstream_lt (hc.upstream_of_reaches h hst hcritical hop hreaches)
  obtain ⟨i, hi, hsame, -⟩ := hc.replaced.present nonCritical hnonCritical
  rw [hsame.opcode] at hop'
  rcases hst.progress.cases hi with hold | hnew
  · have := h.calls i hold _ hop'
    omega
  · have := hnew.id
    have := hsame.id
    omega

end untouched

end values

section split

/-- A value that is taken out of a new call. -/
def IsNewOutput (p p' : TaskProgram) (g : HloInstruction) : Prop :=
  g ∈ p'.computation.instructions ∧ ∃ index, g.opcode = .getTupleElement index ∧
    ∃ call ∈ p'.computation.instructions, g.operands = [call.id] ∧
      (call.opcode = .call p.called.length ∨ call.opcode = .call (p.called.length + 1))

/-- The element of the root tuple is one that a user of the task reads, or is computed. -/
def IsOutput (p : TaskProgram) (task : HloInstruction) (computation : HloComputation)
    (index element : ℕ) : Prop :=
  (∃ user ∈ p.computation.users task.id, user.opcode = .getTupleElement index) ∨
    ∀ i, computation.instruction element = some i → i.isParameter = false

/-- A critical call and another one give the values that the call of the task gave. -/
structure PreservesTask (p p' : TaskProgram) (task : HloInstruction) (computation : HloComputation)
    (taskRoot : HloInstruction) : Prop where
  called : ∃ critical nonCritical, p'.called = p.called ++ [critical, nonCritical]
  critical : ∃ call ∈ p'.computation.instructions, call.opcode = .call p.called.length
  nonCritical : ∃ call ∈ p'.computation.instructions, call.opcode = .call (p.called.length + 1)
  gone : task.id ∉ p'.computation.ids
  outputs : ∀ (index element : ℕ), taskRoot.operands[index]? = some element →
    IsOutput p task computation index element → ∃ g, IsNewOutput p p' g ∧
      ∀ (V : Type) (I : Interpretation V) (ctx : Context V) args,
        Arguments I ctx p task computation args → ∀ v,
          computation.Computes I (callContext ctx args) element v → p'.Computes I ctx g.id v
  kept : ∀ id ∈ p.computation.ids, id ∉ p'.computation.ids →
    (∃ user ∈ p.computation.users task.id, user.id = id) ∨ Upstream p task id
  values : ∀ (V : Type) (I : Interpretation V) (ctx : Context V) args,
    Arguments I ctx p task computation args → ∀ id ∈ p'.computation.ids, ∀ v,
      p.Computes I ctx id v → p'.Computes I ctx id v
  root : ∀ (V : Type) (I : Interpretation V) (ctx : Context V) args,
    Arguments I ctx p task computation args → ∀ v,
      p.Computes I ctx p.computation.root v → p'.Computes I ctx p'.computation.root v
  independent : ∀ critical ∈ p'.computation.instructions, ∀ nonCritical ∈ p'.computation.instructions,
    critical.opcode = .call p.called.length → nonCritical.opcode = .call (p.called.length + 1) →
      ¬Reaches p'.computation critical.id nonCritical.id

theorem preservesTask (h : TaskCall p task n computation taskRoot)
    (hst : BothAdded p task computation taskRoot st)
    (hc : AllReplaced p task taskRoot st done c)
    (helements : ElementsSplit p task computation taskRoot) :
    PreservesTask p ⟨c, st.called⟩ task computation taskRoot := by
  have hcall : ∀ m, p.called.length ≤ m → ∀ call ∈ st.parent.instructions, call.opcode = .call m →
      ∃ call' ∈ c.instructions, SameOperation call call' := by
    intro m hm call hcall hop
    have hle : p.freshId ≤ call.id := by
      rcases hst.progress.cases hcall with hold | hnew
      · have := h.calls call hold m hop
        omega
      · exact hnew.id
    obtain ⟨call', hmem, hsame, -⟩ := hc.new_mem h hst hcall hle
    exact ⟨call', hmem, hsame⟩
  constructor
  · exact hst.called
  · obtain ⟨call, hmem, hop⟩ := hst.critical
    obtain ⟨call', hmem', hsame⟩ := hcall _ le_rfl call hmem hop
    exact ⟨call', hmem', hsame.opcode.trans hop⟩
  · obtain ⟨call, hmem, hop⟩ := hst.nonCritical
    obtain ⟨call', hmem', hsame⟩ := hcall _ (Nat.le_succ _) call hmem hop
    exact ⟨call', hmem', hsame.opcode.trans hop⟩
  · exact hc.gone
  · intro index element helement houtput
    have hmem := List.mem_of_getElem? helement
    obtain ⟨i, hi⟩ := h.exists_operand h.root_mem_instructions hmem
    have hparam : i.isParameter = false := by
      rcases houtput with ⟨user, huser, hop⟩ | hcomputed
      · exact helements user huser index element i hop helement hi
      · exact hcomputed i hi
    have hid := id_of_instruction hi
    obtain ⟨x, hx⟩ := hst.elements i (mem_of_instruction hi) hparam (hid ▸ hmem)
    rw [hid] at hx
    obtain ⟨g, hg, hgid, hle, k, call, hcallMem, hop, hoperands, hcallId, m, hcallOp, hm⟩ :=
      hst.progress.target element x hx
    obtain ⟨g', hg', hsame, hsameOperands⟩ := hc.new_mem h hst hg (hgid ▸ hle)
    obtain ⟨call', hcallMem', hsameCall⟩ := hcall m hm call hcallMem hcallOp
    have hbound : m < p.called.length + 2 := by
      obtain ⟨first, second, hcalled⟩ := hst.called
      have hlt := hst.progress.calls call hcallMem m hcallOp
      rw [hcalled, List.length_append] at hlt
      exact hlt
    refine ⟨g', ⟨hg', k, hsame.opcode.trans hop, call', hcallMem', ?_, ?_⟩, ?_⟩
    · rw [hsameOperands, hoperands, hsameCall.id]
    · rw [hsameCall.opcode, hcallOp, HloOpcode.call.injEq, HloOpcode.call.injEq]
      omega
    · intro V I ctx args hargs v hv
      rw [hsame.id, hgid]
      exact hc.clone_computes h hst hargs hx hv
  · intro id hid hnot
    rcases hc.replaced.only id (hst.progress.old_id hid) hnot with hdone | hup
    · exact .inl ((hc.done id).mp hdone)
    · exact .inr hup
  · intro V I ctx args hargs id hid v hv
    exact hc.computes h hst hargs helements hid hv
  · intro V I ctx args hargs v hv
    exact hc.root_computes h hst hargs helements hv
  · intro critical hcritical nonCritical hnonCritical hop hop'
    exact hc.independent h hst hcritical hop hnonCritical hop'

/-- The suffixes of the parts of a task with this colour. -/
def HasSuffixes (partition : HloPartition) (color suffix suffix' : String) : Prop :=
  ∃ config, partition.colors.lookup color = some config ∧
    config.taskOptions.splitBackprop = some (suffix, suffix')

/-- The task can be split: its colour is configured with free names, no user reads a parameter
that the root tuple returns, the task does not read its own root, and its call can be removed. -/
structure CanSplit (hasSideEffect : SideEffects) (p : TaskProgram) (task : HloInstruction)
    (computation : HloComputation) (taskRoot : HloInstruction) (partition : HloPartition) :
    Prop where
  colors : ∃ color suffix suffix', task.color = some color ∧
    HasSuffixes partition color suffix suffix' ∧ NamesFree partition color suffix suffix'
  elements : ElementsSplit p task computation taskRoot
  root : ∀ i ∈ computation.instructions, computation.root ∉ i.operands
  removable : Removable hasSideEffect p task

theorem exists_bothClassified (h : TaskCall p task n computation taskRoot)
    (order : UserOrder computation) (criticalRoot : ℕ) : ∃ critical nonCritical,
      taskConfig order (criticalInstructions computation criticalRoot) = ok critical ∧
      taskConfig order (nonCriticalInstructions computation criticalRoot) = ok nonCritical ∧
      BothClassified computation criticalRoot critical nonCritical := by
  obtain ⟨critical, visited, hcritical, hclassified⟩ := taskConfig_classified h order
    (List.filter_subset_self _ : criticalInstructions computation criticalRoot ⊆ _)
  obtain ⟨nonCritical, visited', hnonCritical, hclassified'⟩ := taskConfig_classified h order
    (List.filter_subset_self _ : nonCriticalInstructions computation criticalRoot ⊆ _)
  exact ⟨critical, nonCritical, hcritical, hnonCritical, ⟨visited, hclassified⟩,
    ⟨visited', hclassified'⟩⟩

/-- The split of a task into its two parts, step by step. -/
theorem splitTask_eq_ok {order : UserOrder p.computation} {computationOrder : UserOrder computation}
    {criticalRoot : ℕ} {critical nonCritical : TaskConfig} {suffix suffix' : String}
    {partition partition' : HloPartition} {p' : TaskProgram} {newColors : List String}
    (hroot : computation.instruction computation.root = some taskRoot)
    (hcritical : taskConfig computationOrder (criticalInstructions computation criticalRoot) =
      ok critical)
    (hnonCritical : taskConfig computationOrder
      (nonCriticalInstructions computation criticalRoot) = ok nonCritical) :
    splitTask hasSideEffect p order task n computation computationOrder
        [(criticalInstructions computation criticalRoot, suffix),
          (nonCriticalInstructions computation criticalRoot, suffix')] partition =
      ok (p', partition', newColors) ↔
    ∃ color st₁ st₂ parent parent', task.color = some color ∧
      addPart task computation color (splitStart p partition)
        (criticalPart computation criticalRoot critical suffix) = ok st₁ ∧
      addPart task computation color st₁
        (nonCriticalPart computation criticalRoot nonCritical suffix') = ok st₂ ∧
      (order.users task.id).foldlM (replaceUser hasSideEffect taskRoot st₂.externalReplacements)
        st₂.parent = ok parent ∧
      removeEmbeddedComputation parent n = ok parent' ∧
      p' = ⟨parent', st₂.called⟩ ∧ partition' = st₂.partition ∧ newColors = st₂.newColors := by
  have htaskRoot : computation.rootInstruction = ok taskRoot := deref_eq_ok.mpr hroot
  unfold splitTask
  simp only [List.mapM_cons, List.mapM_nil, hcritical, hnonCritical, ok_bind, pure_eq,
    List.foldlM_cons, List.foldlM_nil, bind_eq_ok, htaskRoot, ok.injEq, deref_eq_ok, Prod.mk.injEq]
  constructor
  · rintro ⟨color, hcolor, st₂, ⟨st₁, hfirst, st, hsecond, rfl⟩, parent, hloop, parent', hremoved,
      rfl, rfl, rfl⟩
    exact ⟨color, st₁, st, parent, parent', hcolor, hfirst, hsecond, hloop, hremoved, rfl, rfl, rfl⟩
  · rintro ⟨color, st₁, st₂, parent, parent', hcolor, hfirst, hsecond, hloop, hremoved, rfl, rfl,
      rfl⟩
    exact ⟨color, hcolor, st₂, ⟨st₁, hfirst, st₂, hsecond, rfl⟩, parent, hloop, parent', hremoved,
      rfl, rfl, rfl⟩

/-- The task is split and keeps its values exactly where it can be split. -/
theorem splitComputation_preservesTask_iff (h : TaskCall p task n computation taskRoot)
    {criticalRootId : ℕ} (hcritical : criticalRootId < taskRoot.operands.length)
    (hasSideEffect : SideEffects) (order : UserOrder p.computation)
    (computationOrder : UserOrder computation) (partition : HloPartition) :
    (∃ p' partition', splitComputation hasSideEffect p order task n computation computationOrder
        criticalRootId partition = ok (p', partition') ∧
        PreservesTask p p' task computation taskRoot) ↔
      CanSplit hasSideEffect p task computation taskRoot partition := by
  have htaskRoot : computation.rootInstruction = ok taskRoot := deref_eq_ok.mpr h.root
  obtain ⟨critical, nonCritical, hfirstConfig, hsecondConfig, hsets⟩ :=
    exists_bothClassified h computationOrder taskRoot.operands[criticalRootId]
  have hmem : taskRoot.operands[criticalRootId] ∈ taskRoot.operands := List.getElem_mem hcritical
  have hcriticalRoot : elementAt taskRoot.operands criticalRootId =
      ok taskRoot.operands[criticalRootId] := elementAt_of_lt hcritical
  unfold splitComputation
  rw [htaskRoot, ok_bind, if_neg (by simp [h.tuple]), if_neg (by omega)]
  constructor
  · rintro ⟨p', partition', hrun, -⟩
    obtain ⟨color, hcolor, hrun⟩ := bind_eq_ok.mp hrun
    obtain ⟨options, hoptions, hrun⟩ := bind_eq_ok.mp hrun
    obtain ⟨config, hconfig, hoptions⟩ := bind_eq_ok.mp hoptions
    obtain rfl : config.taskOptions = options := ok.inj hoptions
    split at hrun
    · cases hrun
    · rename_i suffix suffix' hsplit
      rw [hcriticalRoot, ok_bind] at hrun
      obtain ⟨⟨p'', partition'', newColors⟩, hrun, -⟩ := bind_eq_ok.mp hrun
      obtain ⟨color', st₁, st₂, parent, parent', hcolor', hfirst, hsecond, hloop, hremoved, -⟩ :=
        (splitTask_eq_ok h.root hfirstConfig hsecondConfig).mp hrun
      have hst := bothAdded h hsets hmem hfirst hsecond
      obtain ⟨hnames, hroot⟩ := of_bothAdded h hsets hmem hfirst hsecond
      constructor
      · have hsame : color = color' := Option.some.inj ((deref_eq_ok.mp hcolor).symm.trans hcolor')
        subst hsame
        exact ⟨color, suffix, suffix', hcolor', ⟨config, deref_eq_ok.mp hconfig, hsplit⟩, hnames⟩
      · exact elementsSplit_of_ok hst.progress h.ids_nodup order hloop
      · exact hroot
      · exact removable_of_ok h hst.progress order hloop hremoved
  · intro hsplit
    obtain ⟨color, suffix, suffix', hcolor, ⟨config, hconfig, hsuffixes⟩, hnames⟩ := hsplit.colors
    obtain ⟨st₁, st₂, hfirst, hsecond⟩ := exists_bothAdded h hsets hmem hnames hsplit.root
    have hst := bothAdded h hsets hmem hfirst hsecond
    obtain ⟨parent, done, hloop, hparent⟩ :=
      replaceUsers h hst hsplit.elements hsplit.removable order
    have hremoved := removeEmbeddedComputation_ok h hst.progress hparent
    obtain ⟨newColor, hnewColor⟩ : ∃ newColor, elementAt st₂.newColors 1 = ok newColor :=
      ⟨_, elementAt_of_lt (by rw [hst.newColors]; omega)⟩
    have hoptions : partition.getTaskOptions color = ok config.taskOptions := by
      unfold HloPartition.getTaskOptions HloPartition.configForColor
      rw [hconfig]
      rfl
    refine ⟨⟨parent, st₂.called⟩, st₂.partition.setColorAsNonCritical newColor, ?_,
      preservesTask h hst hparent hsplit.elements⟩
    have hrun : splitTask hasSideEffect p order task n computation computationOrder
        [(criticalInstructions computation taskRoot.operands[criticalRootId], suffix),
          (nonCriticalInstructions computation taskRoot.operands[criticalRootId], suffix')]
          partition = ok (⟨parent, st₂.called⟩, st₂.partition, st₂.newColors) :=
      (splitTask_eq_ok h.root hfirstConfig hsecondConfig).mpr ⟨color, st₁, st₂, parent, parent,
        hcolor, hfirst, hsecond, hloop, hremoved, rfl, rfl, rfl⟩
    rw [hcolor, deref_some, ok_bind, hoptions, ok_bind, hsuffixes]
    dsimp only
    rw [hcriticalRoot, ok_bind, hrun, ok_bind]
    dsimp only
    rw [hnewColor, ok_bind]
    rfl

end split

section instances

/-- A call of `f x` and of another element, which both are read. -/
def pairComputation (second : ℕ) : HloComputation where
  instructions := [{ id := 10, opcode := .parameter 0 },
    { id := 11, opcode := .other "f", operands := [10] },
    { id := 12, opcode := .other "g", operands := [11] },
    { id := 13, opcode := .tuple, operands := [11, second] }]
  root := 13

def pairCall : HloInstruction :=
  { id := 1, opcode := .call 0, operands := [0], color := some "backprop" }

def pairProgram (second : ℕ) : TaskProgram where
  computation := ⟨[{ id := 0, opcode := .parameter 0 }, pairCall,
    { id := 2, opcode := .getTupleElement 0, operands := [1] },
    { id := 3, opcode := .getTupleElement 1, operands := [1] },
    { id := 4, opcode := .tuple, operands := [2, 3] }], 4⟩
  called := [pairComputation second]

def pairPartition : HloPartition where
  devices := ⟨0, 4⟩
  colors := [("backprop", { name := "backprop", devices := ⟨0, 4⟩
                            taskOptions := { splitBackprop := some (".critical", ".rest") } })]

def sortedUsers (c : HloComputation) : UserOrder c := ⟨c.users, fun _ => .refl _⟩

theorem listed_of_take {c : HloComputation}
    (h : ∀ k (hk : k < c.instructions.length),
      ∀ o ∈ c.instructions[k].operands ++ c.instructions[k].controlPredecessors,
        o ∈ (c.instructions.take k).map HloInstruction.id) (earlier : List HloInstruction)
    (i : HloInstruction) (later : List HloInstruction)
    (hsplit : c.instructions = earlier ++ i :: later) :
    ∀ o ∈ i.operands ++ i.controlPredecessors, o ∈ earlier.map HloInstruction.id := by
  have hk : earlier.length < c.instructions.length := by simp [hsplit]
  have hi : c.instructions[earlier.length] = i := by simp [hsplit]
  have htake : c.instructions.take earlier.length = earlier := by simp [hsplit]
  have hlisted := h earlier.length hk
  rwa [hi, htake] at hlisted

theorem not_reaches_self {c : HloComputation}
    (h : ∀ i ∈ c.instructions, ∀ o ∈ i.operands, o < i.id) (id : ℕ) : ¬Reaches c id id := by
  have hlt : ∀ a b, Reaches c a b → b < a := by
    intro a b hreaches
    have hstep : ∀ a b, HasOperand c a b → b < a := by
      rintro a b ⟨i, hi, ho⟩
      exact id_of_instruction hi ▸ h i (mem_of_instruction hi) b ho
    induction hreaches with
    | single hread => exact hstep _ _ hread
    | tail _ hread ih => exact (hstep _ _ hread).trans ih
  exact fun hreaches => (hlt id id hreaches).false

theorem pair_taskCall {second : ℕ} (h : second = 10 ∨ second = 12) :
    TaskCall (pairProgram second) pairCall 0 (pairComputation second)
      { id := 13, opcode := .tuple, operands := [11, second] } := by
  have hacyclic : ¬Reaches (pairProgram second).computation 1 1 := by
    apply not_reaches_self
    show ∀ i ∈ (pairProgram 10).computation.instructions, _
    decide
  have hcalls : ∀ i ∈ (pairProgram second).computation.instructions, ∀ m, i.opcode = .call m →
      m < 1 := by
    simp [pairProgram, pairCall]
  have hparameters : ∀ i ∈ (pairComputation second).instructions, ∀ number,
      i.opcode = .parameter number → number < 1 ∧ i.operands = [] := by
    simp [pairComputation]
  constructor
  case calls => exact hcalls
  case parameters => exact hparameters
  case acyclic => exact hacyclic
  case listed =>
    apply listed_of_take
    rcases h with rfl | rfl <;> decide
  all_goals rcases h with rfl | rfl <;> decide

/-- The second element is computed from the first one, which is the critical root. -/
theorem pairProgram_split : ∃ p' partition', splitComputation (fun _ => false) (pairProgram 12)
    (sortedUsers _) pairCall 0 (pairComputation 12) (sortedUsers _) 0 pairPartition =
      ok (p', partition') ∧ PreservesTask (pairProgram 12) p' pairCall (pairComputation 12)
        { id := 13, opcode := .tuple, operands := [11, 12] } := by
  apply (splitComputation_preservesTask_iff (pair_taskCall (.inr rfl)) (by decide) _ _ _ _).mpr
  constructor
  · refine ⟨"backprop", ".critical", ".rest", rfl, ⟨_, rfl, rfl⟩, ?_⟩
    constructor <;> decide
  · intro user huser index element i hop helement hi
    have hid := id_of_instruction hi
    have hmem := mem_of_instruction hi
    have helement' : i.id ∈ [11, 12] := hid ▸ List.mem_of_getElem? helement
    have hall : ∀ i ∈ (pairComputation 12).instructions, i.id ∈ [11, 12] → i.isParameter = false := by
      decide
    exact hall i hmem helement'
  · decide
  · constructor
    all_goals decide

/-- The second element is the parameter of the task, which no set gives. -/
theorem parameterOutput_notSplit :
    TaskCall (pairProgram 10) pairCall 0 (pairComputation 10)
      { id := 13, opcode := .tuple, operands := [11, 10] } ∧
    ¬∃ p' partition', splitComputation (fun _ => false) (pairProgram 10) (sortedUsers _) pairCall 0
      (pairComputation 10) (sortedUsers _) 0 pairPartition = ok (p', partition') ∧
        PreservesTask (pairProgram 10) p' pairCall (pairComputation 10)
          { id := 13, opcode := .tuple, operands := [11, 10] } := by
  refine ⟨pair_taskCall (.inl rfl), ?_⟩
  rintro ⟨p', partition', hrun, -⟩
  have hfails : (splitComputation (fun _ => false) (pairProgram 10) (sortedUsers _) pairCall 0
      (pairComputation 10) (sortedUsers _) 0 pairPartition).isOk = false := by
    decide +kernel
  rw [hrun] at hfails
  cases hfails

end instances

end TaskSplitter
end MultiMeshJax
