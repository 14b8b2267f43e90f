import MultiMeshJax.TaskSplitter.Preserves

/-! The critical set takes nothing from the other one, and each set becomes a call. -/
namespace MultiMeshJax
namespace TaskSplitter

open StatusOr CriticalPath HloComputation
open ComputationFusion (Reaches)

variable {p : TaskProgram} {task : HloInstruction} {n : ℕ} {computation : HloComputation}
  {taskRoot : HloInstruction} {criticalRoot : ℕ}

section sets

theorem TaskCall.root_mem_instructions (h : TaskCall p task n computation taskRoot) :
    taskRoot ∈ computation.instructions := mem_of_instruction h.root

theorem TaskCall.root_id (h : TaskCall p task n computation taskRoot) :
    taskRoot.id = computation.root := id_of_instruction h.root

theorem TaskCall.root_notParameter (h : TaskCall p task n computation taskRoot) :
    taskRoot.isParameter = false := by
  simp [HloInstruction.isParameter, h.tuple]

theorem TaskCall.root_notReachable (h : TaskCall p task n computation taskRoot)
    (hcritical : criticalRoot ∈ taskRoot.operands) :
    computation.root ∉ reachability computation criticalRoot := by
  rw [← h.root_id]
  exact notMem_reachability h h.root_mem_instructions hcritical

theorem isCritical_iff (h : TaskCall p task n computation taskRoot)
    (hcritical : criticalRoot ∈ taskRoot.operands) (i : HloInstruction) :
    isCritical computation criticalRoot i = true ↔
      i.id ∈ reachability computation criticalRoot := by
  unfold isCritical executesBefore
  by_cases heq : i.id = criticalRoot
  · obtain ⟨j, hj⟩ := h.exists_operand h.root_mem_instructions hcritical
    have hself := (reachableIn h).self j (mem_of_instruction hj)
    rw [id_of_instruction hj] at hself
    simp [heq, hself]
  · simp [heq]

theorem mem_criticalInstructions (h : TaskCall p task n computation taskRoot)
    (hcritical : criticalRoot ∈ taskRoot.operands) {i : HloInstruction} :
    i ∈ criticalInstructions computation criticalRoot ↔ i ∈ computation.instructions ∧
      i.id ≠ computation.root ∧ i.id ∈ reachability computation criticalRoot := by
  simp only [criticalInstructions, List.mem_filter, Bool.and_eq_true, bne_iff_ne,
    isCritical_iff h hcritical]

theorem mem_nonCriticalInstructions (h : TaskCall p task n computation taskRoot)
    (hcritical : criticalRoot ∈ taskRoot.operands) {i : HloInstruction} :
    i ∈ nonCriticalInstructions computation criticalRoot ↔ i ∈ computation.instructions ∧
      i.id ≠ computation.root ∧ i.id ∉ reachability computation criticalRoot := by
  rw [← isCritical_iff h hcritical]
  simp [nonCriticalInstructions]

/-- An instruction that is not the root is in one of the sets. -/
theorem mem_sets (h : TaskCall p task n computation taskRoot)
    (hcritical : criticalRoot ∈ taskRoot.operands) {i : HloInstruction}
    (hi : i ∈ computation.instructions) (hne : i.id ≠ computation.root) :
    i ∈ criticalInstructions computation criticalRoot ∨
      i ∈ nonCriticalInstructions computation criticalRoot := by
  rw [mem_criticalInstructions h hcritical, mem_nonCriticalInstructions h hcritical]
  by_cases hreach : i.id ∈ reachability computation criticalRoot
  · exact .inl ⟨hi, hne, hreach⟩
  · exact .inr ⟨hi, hne, hreach⟩

theorem root_notMem_filter {f : HloInstruction → Bool}
    (hf : ∀ i, f i = true → i.id ≠ computation.root) :
    computation.root ∉ (computation.instructions.filter f).map HloInstruction.id := by
  intro hmem
  obtain ⟨i, hi, heq⟩ := List.mem_map.mp hmem
  exact hf i (List.mem_filter.mp hi).2 heq

theorem root_notMem_critical :
    computation.root ∉ (criticalInstructions computation criticalRoot).map HloInstruction.id := by
  apply root_notMem_filter
  intro i hi
  simp only [Bool.and_eq_true, bne_iff_ne] at hi
  exact hi.1

theorem root_notMem_nonCritical :
    computation.root ∉ (nonCriticalInstructions computation criticalRoot).map HloInstruction.id := by
  apply root_notMem_filter
  intro i hi
  simp only [Bool.and_eq_true, bne_iff_ne] at hi
  exact hi.1

/-- The critical set is closed under operands, and so takes nothing from the other set. -/
theorem internalParameters_critical (h : TaskCall p task n computation taskRoot)
    (hcritical : criticalRoot ∈ taskRoot.operands) {config : TaskConfig}
    {operandsVisited : List ℕ} (hconfig : Classified computation
      ((criticalInstructions computation criticalRoot).map HloInstruction.id)
      (criticalInstructions computation criticalRoot) (config, operandsVisited)) :
    config.internalParameters = [] := by
  rw [List.eq_nil_iff_forall_not_mem]
  intro j hj
  obtain ⟨hfound, -, hnot, i, hi, -, ho⟩ := (hconfig.seen.internal j).mp hj
  obtain ⟨himem, -, hreach⟩ := (mem_criticalInstructions h hcritical).mp hi
  have hreachJ : j.id ∈ reachability computation criticalRoot :=
    (reachableIn h).closed criticalRoot i himem hreach j.id (List.mem_append_left _ ho)
  have hne : j.id ≠ computation.root := fun heq => h.root_notReachable hcritical (heq ▸ hreachJ)
  apply hnot
  apply List.mem_map_of_mem
  exact (mem_criticalInstructions h hcritical).mpr ⟨mem_of_instruction hfound, hne, hreachJ⟩

/-- What the other set takes is given by the critical one, unless it is the root. -/
theorem internalParameters_nonCritical (h : TaskCall p task n computation taskRoot)
    (hcritical : criticalRoot ∈ taskRoot.operands) {critical nonCritical : TaskConfig}
    {visited visited' : List ℕ} (hfirst : Classified computation
      ((criticalInstructions computation criticalRoot).map HloInstruction.id)
      (criticalInstructions computation criticalRoot) (critical, visited))
    (hsecond : Classified computation
      ((nonCriticalInstructions computation criticalRoot).map HloInstruction.id)
      (nonCriticalInstructions computation criticalRoot) (nonCritical, visited'))
    {j : HloInstruction} (hj : j ∈ nonCritical.internalParameters)
    (hne : j.id ≠ computation.root) : j ∈ roots critical := by
  obtain ⟨hfound, hparam, hnot, i, hi, -, ho⟩ := (hsecond.seen.internal j).mp hj
  obtain ⟨himem, hiroot, hireach⟩ := (mem_nonCriticalInstructions h hcritical).mp hi
  have hjset : j ∈ criticalInstructions computation criticalRoot := by
    rcases mem_sets h hcritical (mem_of_instruction hfound) hne with hin | hin
    · exact hin
    · exact absurd (List.mem_map_of_mem hin) hnot
  have hgiven : IsGiven computation
      ((criticalInstructions computation criticalRoot).map HloInstruction.id) j := by
    refine ⟨i, ComputationFusion.mem_users.mpr ⟨himem, ho⟩, .inr ?_⟩
    intro hin
    obtain ⟨k, hk, heq⟩ := List.mem_map.mp hin
    rw [← heq] at hireach
    exact hireach ((mem_criticalInstructions h hcritical).mp hk).2.2
  exact (hfirst.roots j).mpr ⟨hjset, hparam, hgiven⟩

/-- An instruction that reads the root makes the root a parameter of the other set. -/
theorem root_mem_internalParameters (h : TaskCall p task n computation taskRoot)
    (hcritical : criticalRoot ∈ taskRoot.operands) {config : TaskConfig} {visited : List ℕ}
    (hconfig : Classified computation
      ((nonCriticalInstructions computation criticalRoot).map HloInstruction.id)
      (nonCriticalInstructions computation criticalRoot) (config, visited))
    {i : HloInstruction} (hi : i ∈ computation.instructions)
    (hread : computation.root ∈ i.operands) : taskRoot ∈ config.internalParameters := by
  have hparam : i.isParameter = false := by
    by_contra hparam
    rw [Bool.not_eq_false] at hparam
    unfold HloInstruction.isParameter at hparam
    split at hparam
    · rename_i number hop
      rw [(h.parameters i hi number hop).2] at hread
      cases hread
    · cases hparam
  have hreach : i.id ∉ reachability computation criticalRoot := by
    intro hin
    apply h.root_notReachable hcritical
    exact (reachableIn h).closed criticalRoot i hi hin _ (List.mem_append_left _ hread)
  have hne : i.id ≠ computation.root := by
    intro heq
    apply notMem_reachability h hi hread
    rw [heq, ← h.root_id]
    exact (reachableIn h).self taskRoot h.root_mem_instructions
  apply (hconfig.seen.internal taskRoot).mpr
  rw [h.root_id]
  exact ⟨h.root, h.root_notParameter, root_notMem_nonCritical, i,
    (mem_nonCriticalInstructions h hcritical).mpr ⟨hi, hne, hreach⟩, hparam, hread⟩

/-- An element of the root tuple that is not a parameter is given by its set. -/
theorem element_mem_roots (h : TaskCall p task n computation taskRoot) {set : List HloInstruction}
    {config : TaskConfig} {visited : List ℕ} (hconfig : Classified computation
      (set.map HloInstruction.id) set (config, visited)) {i : HloInstruction} (hi : i ∈ set)
    (hparam : i.isParameter = false) (helement : i.id ∈ taskRoot.operands) :
    i ∈ roots config := by
  apply (hconfig.roots i).mpr
  refine ⟨hi, hparam, taskRoot, ?_, .inl h.root_id⟩
  exact ComputationFusion.mem_users.mpr ⟨h.root_mem_instructions, helement⟩

end sets

section parts

variable {partition partition' : HloPartition} {color suffix suffix' newColor : String}
  {critical nonCritical : TaskConfig} {visited visited' : List ℕ} {st₁ st₂ : SplitState}

/-- The colour of a part has the configuration of the colour of the task. -/
theorem cloneColor_eq_ok {existing new : String} :
    partition.cloneColor existing new none none = ok (newColor, partition') ↔ newColor = new ∧
      ∃ config, partition.colors.lookup existing = some config ∧
        partition.colors.lookup new = none ∧
          partition' = { partition with colors := (new, config) :: partition.colors } := by
  unfold HloPartition.cloneColor
  cases partition.colors.lookup existing with
  | none => simp
  | some config =>
    cases hnew : partition.colors.lookup new with
    | some other => simp
    | none =>
      simp only [Option.isSome_none, Bool.false_eq_true, if_false, Option.getD_none, pure_eq,
        ok.injEq, Prod.mk.injEq, Option.some.injEq, exists_eq_left', true_and]
      exact and_congr eq_comm eq_comm

/-- The names of the colours of the two parts are free. -/
structure NamesFree (partition : HloPartition) (color suffix suffix' : String) : Prop where
  registered : (partition.colors.lookup color).isSome = true
  critical : partition.colors.lookup (color ++ suffix) = none
  nonCritical : partition.colors.lookup (color ++ suffix') = none
  distinct : color ++ suffix ≠ color ++ suffix'

def splitStart (p : TaskProgram) (partition : HloPartition) : SplitState where
  parent := p.computation
  called := p.called
  partition := partition
  nextId := p.freshId

def criticalPart (computation : HloComputation) (criticalRoot : ℕ) (config : TaskConfig)
    (suffix : String) : Part :=
  ⟨criticalInstructions computation criticalRoot, config, suffix⟩

def nonCriticalPart (computation : HloComputation) (criticalRoot : ℕ) (config : TaskConfig)
    (suffix : String) : Part :=
  ⟨nonCriticalInstructions computation criticalRoot, config, suffix⟩

/-- What is known of the two sets. -/
structure BothClassified (computation : HloComputation) (criticalRoot : ℕ)
    (critical nonCritical : TaskConfig) : Prop where
  critical : ∃ visited, Classified computation
    ((criticalInstructions computation criticalRoot).map HloInstruction.id)
    (criticalInstructions computation criticalRoot) (critical, visited)
  nonCritical : ∃ visited, Classified computation
    ((nonCriticalInstructions computation criticalRoot).map HloInstruction.id)
    (nonCriticalInstructions computation criticalRoot) (nonCritical, visited)

/-- The module with the calls of the two sets. -/
structure BothAdded (p : TaskProgram) (task : HloInstruction) (computation : HloComputation)
    (taskRoot : HloInstruction) (st : SplitState) : Prop where
  progress : Progress p task computation st
  called : ∃ critical nonCritical, st.called = p.called ++ [critical, nonCritical]
  elements : ∀ i ∈ computation.instructions, i.isParameter = false → i.id ∈ taskRoot.operands →
    ∃ x, st.externalReplacements i.id = some x
  critical : ∃ call ∈ st.parent.instructions, call.opcode = .call p.called.length
  nonCritical : ∃ call ∈ st.parent.instructions, call.opcode = .call (p.called.length + 1)
  independent : ∀ call ∈ st.parent.instructions, call.opcode = .call p.called.length →
    ∀ o ∈ call.operands, o ∈ task.operands
  newColors : st.newColors.length = 2

theorem TaskCall.element_ne_root (h : TaskCall p task n computation taskRoot) {element : ℕ}
    (helement : element ∈ taskRoot.operands) : element ≠ computation.root := by
  intro heq
  apply notMem_reachability h h.root_mem_instructions helement
  rw [heq, ← h.root_id]
  exact (reachableIn h).self taskRoot h.root_mem_instructions

theorem addPart_ok {st : SplitState} {part : Part}
    (hcolor : ∃ cloned, st.partition.cloneColor color (color ++ part.suffix) none none = ok cloned)
    (hbuilt : ∃ built, buildSubtask task computation st.externalReplacements part.config
      part.instructions st.nextId = ok built) :
    ∃ st', addPart task computation color st part = ok st' := by
  obtain ⟨cloned, hcolor⟩ := hcolor
  obtain ⟨built, hbuilt⟩ := hbuilt
  unfold addPart
  rw [hcolor, ok_bind]
  dsimp only
  rw [hbuilt, ok_bind]
  exact ⟨_, rfl⟩

section added

variable (h : TaskCall p task n computation taskRoot)
  (hsets : BothClassified computation criticalRoot critical nonCritical)
include h hsets

theorem progress_critical
    (hfirst : addPart task computation color (splitStart p partition)
      (criticalPart computation criticalRoot critical suffix) = ok st₁) :
    Progress p task computation st₁ := by
  obtain ⟨visited, hconfig⟩ := hsets.critical
  obtain ⟨newColor, partition', built, shape, operands, subtask, hadded⟩ := addPart_eq_ok hfirst
  exact hadded.progress h (progress_start h partition) (List.filter_subset_self _)
    root_notMem_critical hconfig

variable (hcritical : criticalRoot ∈ taskRoot.operands)
include hcritical

theorem bothAdded
    (hfirst : addPart task computation color (splitStart p partition)
      (criticalPart computation criticalRoot critical suffix) = ok st₁)
    (hsecond : addPart task computation color st₁
      (nonCriticalPart computation criticalRoot nonCritical suffix') = ok st₂) :
    BothAdded p task computation taskRoot st₂ := by
  have hprogress := progress_critical h hsets hfirst
  obtain ⟨visited, hconfig⟩ := hsets.critical
  obtain ⟨visited', hconfig'⟩ := hsets.nonCritical
  obtain ⟨color₁, partition₁, built₁, shape₁, operands₁, subtask₁, hadded₁⟩ :=
    addPart_eq_ok hfirst
  obtain ⟨color₂, partition₂, built₂, shape₂, operands₂, subtask₂, hadded₂⟩ :=
    addPart_eq_ok hsecond
  have hcalled₁ := hadded₁.called
  have hlength₁ : st₁.called.length = p.called.length + 1 := by
    rw [hcalled₁, List.length_append, List.length_singleton]
    rfl
  constructor
  · exact hadded₂.progress h hprogress (List.filter_subset_self _) root_notMem_nonCritical hconfig'
  · refine ⟨built₁.mapInstructions (assignColor color₁), built₂.mapInstructions (assignColor color₂),
      ?_⟩
    rw [hadded₂.called, hcalled₁, List.append_assoc]
    rfl
  · intro i hi hparam helement
    apply hadded₂.outputs.replaced
    rcases mem_sets h hcritical hi (h.element_ne_root helement) with hin | hin
    · obtain ⟨j, hj⟩ := List.mem_iff_getElem?.mp (element_mem_roots h hconfig hin hparam helement)
      refine .inl (hadded₁.outputs.replaced _ (.inr ⟨j, i, ?_, hj, rfl⟩))
      exact (List.getElem?_eq_some_iff.mp hj).1
    · obtain ⟨j, hj⟩ := List.mem_iff_getElem?.mp (element_mem_roots h hconfig' hin hparam helement)
      exact .inr ⟨j, i, (List.getElem?_eq_some_iff.mp hj).1, hj, rfl⟩
  · refine ⟨_, ?_, show (partCall (splitStart p partition) color₁ shape₁ operands₁ subtask₁).opcode =
      _ from rfl⟩
    rw [hadded₂.instructions]
    exact List.mem_append_left _ hadded₁.call_mem
  · exact ⟨_, hadded₂.call_mem, congrArg HloOpcode.call hlength₁⟩
  · intro call hcall hop o ho
    have hnotOutput : ∀ {part newColor subtask}, call ∉ partOutputs part newColor subtask := by
      intro part newColor subtask hmem
      obtain ⟨k, r, -, rfl⟩ := mem_partOutputs hmem
      cases hop
    rcases hadded₂.cases hcall with hcall | rfl | hcall
    · rcases hadded₁.cases hcall with hcall | rfl | hcall
      · exact absurd (h.calls call hcall _ hop) (lt_irrefl _)
      · obtain ⟨externals, internals, hoperands, hexternals, hinternals⟩ :=
          buildSubtask_operands hadded₁.run
        have hnone : internals = [] := by
          have hnil := internalParameters_critical h hcritical hconfig
          rw [show (criticalPart computation criticalRoot critical suffix).config = critical from rfl,
            hnil] at hinternals
          cases hinternals
          rfl
        have ho' : o ∈ externals := by
          rw [hnone, List.append_nil] at hoperands
          exact hoperands ▸ ho
        obtain ⟨k, hk⟩ := List.mem_iff_getElem?.mp ho'
        obtain ⟨param, -, number, -, hnumber⟩ :=
          forall₂_getElem? hexternals.flip hk
        exact List.mem_of_getElem? hnumber
      · exact absurd hcall hnotOutput
    · have heq : st₁.called.length = p.called.length := HloOpcode.call.inj hop
      omega
    · exact absurd hcall hnotOutput
  · rw [hadded₂.outputs.newColors]
    show (st₁.newColors ++ [color₂]).length = 2
    rw [hadded₁.outputs.newColors]
    rfl

/-- Both parts are added where the names of their colours are free and nothing reads the root. -/
theorem exists_bothAdded (hnames : NamesFree partition color suffix suffix')
    (hroot : ∀ i ∈ computation.instructions, computation.root ∉ i.operands) :
    ∃ st₁ st₂, addPart task computation color (splitStart p partition)
        (criticalPart computation criticalRoot critical suffix) = ok st₁ ∧
      addPart task computation color st₁
        (nonCriticalPart computation criticalRoot nonCritical suffix') = ok st₂ := by
  obtain ⟨visited, hconfig⟩ := hsets.critical
  obtain ⟨visited', hconfig'⟩ := hsets.nonCritical
  obtain ⟨config, hregistered⟩ := Option.isSome_iff_exists.mp hnames.registered
  have hinternal := internalParameters_critical h hcritical hconfig
  obtain ⟨st₁, hfirst⟩ : ∃ st₁, addPart task computation color (splitStart p partition)
      (criticalPart computation criticalRoot critical suffix) = ok st₁ := by
    apply addPart_ok
    · exact ⟨_, cloneColor_eq_ok.mpr ⟨rfl, config, hregistered, hnames.critical, rfl⟩⟩
    · apply buildSubtask_ok h hconfig _ root_notMem_critical
      intro param hparam
      rw [hinternal] at hparam
      cases hparam
  refine ⟨st₁, ?_⟩
  obtain ⟨color₁, partition₁, built₁, shape₁, operands₁, subtask₁, hadded₁⟩ :=
    addPart_eq_ok hfirst
  obtain ⟨-, config₁, hconfig₁, -, hpartition⟩ := cloneColor_eq_ok.mp hadded₁.cloned
  have hpartition₁ : st₁.partition = partition₁ := hadded₁.outputs.partition
  obtain ⟨st₂, hsecond⟩ : ∃ st₂, addPart task computation color st₁
      (nonCriticalPart computation criticalRoot nonCritical suffix') = ok st₂ := by
    apply addPart_ok
    · have hne : color ≠ color ++ suffix := by
        intro heq
        have hfree := hnames.critical
        rw [← heq, hregistered] at hfree
        cases hfree
      refine ⟨_, cloneColor_eq_ok.mpr ⟨rfl, config, ?_, ?_, rfl⟩⟩
      · rw [hpartition₁, hpartition]
        exact (HloPartition.lookup_cons_ne hne).trans hregistered
      · rw [hpartition₁, hpartition]
        exact (HloPartition.lookup_cons_ne hnames.distinct.symm).trans hnames.nonCritical
    · apply buildSubtask_ok h hconfig' _ root_notMem_nonCritical
      intro param hparam
      have hne : param.id ≠ computation.root := by
        intro heq
        obtain ⟨-, -, -, i, hi, -, ho⟩ := (hconfig'.seen.internal param).mp hparam
        exact hroot i (List.mem_filter.mp hi).1 (heq ▸ ho)
      obtain ⟨j, hj⟩ := List.mem_iff_getElem?.mp
        (internalParameters_nonCritical h hcritical hconfig hconfig' hparam hne)
      apply hadded₁.outputs.replaced
      exact .inr ⟨j, param, (List.getElem?_eq_some_iff.mp hj).1, hj, rfl⟩
  exact ⟨st₂, hfirst, hsecond⟩

/-- Where both parts have been added, the names were free and nothing reads the root. -/
theorem of_bothAdded
    (hfirst : addPart task computation color (splitStart p partition)
      (criticalPart computation criticalRoot critical suffix) = ok st₁)
    (hsecond : addPart task computation color st₁
      (nonCriticalPart computation criticalRoot nonCritical suffix') = ok st₂) :
    NamesFree partition color suffix suffix' ∧
      ∀ i ∈ computation.instructions, computation.root ∉ i.operands := by
  have hprogress := progress_critical h hsets hfirst
  obtain ⟨visited', hconfig'⟩ := hsets.nonCritical
  obtain ⟨color₁, partition₁, built₁, shape₁, operands₁, subtask₁, hadded₁⟩ :=
    addPart_eq_ok hfirst
  obtain ⟨color₂, partition₂, built₂, shape₂, operands₂, subtask₂, hadded₂⟩ :=
    addPart_eq_ok hsecond
  constructor
  · obtain ⟨-, config₁, hconfig₁, hfree₁, hpartition⟩ := cloneColor_eq_ok.mp hadded₁.cloned
    obtain ⟨-, config₂, -, hfree₂, -⟩ := cloneColor_eq_ok.mp hadded₂.cloned
    have hpartition₁ : st₁.partition = partition₁ := hadded₁.outputs.partition
    rw [hpartition₁, hpartition] at hfree₂
    have hne : color ++ suffix' ≠ color ++ suffix := by
      intro heq
      have hsome : ((color ++ suffix, config₁) :: partition.colors).lookup (color ++ suffix') =
          some config₁ := by simp [heq]
      have hfree : ((color ++ suffix, config₁) :: partition.colors).lookup (color ++ suffix') =
          none := hfree₂
      rw [hsome] at hfree
      cases hfree
    constructor
    · exact Option.isSome_iff_exists.mpr ⟨config₁, hconfig₁⟩
    · exact hfree₁
    · exact (HloPartition.lookup_cons_ne hne).symm.trans hfree₂
    · exact hne.symm
  · intro i hi hread
    have hparam := root_mem_internalParameters h hcritical hconfig' hi hread
    obtain ⟨externals, internals, -, -, hinternals⟩ := buildSubtask_operands hadded₂.run
    obtain ⟨k, hk⟩ := List.mem_iff_getElem?.mp hparam
    obtain ⟨operand, -, hreplaced⟩ := forall₂_getElem? hinternals hk
    obtain ⟨j, -, heq, -, hne⟩ := hprogress.source _ _ hreplaced
    exact hne h.root_id

end added

end parts

end TaskSplitter
end MultiMeshJax
