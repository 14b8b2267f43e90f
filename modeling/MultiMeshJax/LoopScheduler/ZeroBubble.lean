import MultiMeshJax.LoopScheduler.WavefrontCoverage

/-! When the zero-bubble schedule stays within the task matrix and covers it. -/
namespace MultiMeshJax
namespace LoopScheduler

open StatusOr

theorem isCritical_eq_ok {partition : HloPartition} {task : HloInstruction} {b : Bool}
    (h : isCritical partition task = ok b) : b = !isNonCritical partition task := by
  obtain ⟨_, -, h⟩ := bind_eq_ok.mp h
  cases h
  rfl

theorem devicesForTask_eq_ok_iff {partition : HloPartition} {task : HloInstruction}
    {d : DeviceList} : partition.devicesForTask task = ok d ↔
      (task.color.bind fun color => partition.colors.lookup color).map ColorConfig.devices =
        some d := by
  refine ⟨devicesForTask_eq_ok, fun h => ?_⟩
  obtain ⟨config, hconfig, rfl⟩ := Option.map_eq_some_iff.mp h
  obtain ⟨color, hcolor, hconfig⟩ := Option.bind_eq_some_iff.mp hconfig
  simp [HloPartition.devicesForTask, HloPartition.devicesForColor, HloPartition.configForColor,
    hcolor, hconfig]

/-- A task whose colour is registered has a colour, and is on devices. -/
def Registered (partition : HloPartition) (task : HloInstruction) : Prop :=
  ∃ d, partition.devicesForTask task = ok d

theorem Registered.isCritical {partition : HloPartition} {task : HloInstruction}
    (h : Registered partition task) :
    isCritical partition task = ok (!isNonCritical partition task) := by
  obtain ⟨_, hd⟩ := h
  obtain ⟨color, hcolor, -⟩ := bind_eq_ok.mp hd
  simp [LoopScheduler.isCritical, hcolor]

theorem Registered.devicesForInstruction {partition : HloPartition} {task : HloInstruction}
    (h : Registered partition task) : ∃ d, partition.devicesForInstruction task = ok d := by
  obtain ⟨d, hd⟩ := h
  obtain ⟨color, hcolor, hd⟩ := bind_eq_ok.mp hd
  refine ⟨d, ?_⟩
  rw [HloPartition.devicesForInstruction, deref_eq_ok.mp hcolor]
  exact hd

theorem submeshTasks_eq_ok_of_registered {partition : HloPartition} {row : List HloInstruction}
    (h : ∀ task ∈ row, Registered partition task) :
    submeshTasks partition row = ok (pipelineDevices partition row) := by
  obtain ⟨devices, hdevices⟩ := exists_mapM_eq_ok partition.devicesForTask h
  have hrun : submeshTasks partition row =
      ok (devices.filter fun d => d.size ≠ partition.totalDevices) := by
    simp [submeshTasks, hdevices]
  rw [hrun, submeshTasks_eq_ok hrun]

theorem mem_flatten_of_cell {tasks : Tasks} {c : ℕ × ℕ} {task : HloInstruction}
    (h : cell tasks c = some task) : task ∈ tasks.flatten := by
  obtain ⟨row, hrow, htask⟩ := Option.bind_eq_some_iff.mp h
  exact List.mem_flatten.mpr ⟨row, List.mem_of_getElem? hrow, List.mem_of_getElem? htask⟩

/-- The microbatches and stages of the queue, in the order in which they are emplaced. -/
def zeroBubbleCells (microbatches numStages : ℕ) : List (ℕ × ℕ) :=
  (List.range microbatches).flatMap fun mb => (List.range numStages).map fun stage => (mb, stage)

theorem mem_zeroBubbleCells {microbatches numStages : ℕ} {c : ℕ × ℕ} :
    c ∈ zeroBubbleCells microbatches numStages ↔ c.1 < microbatches ∧ c.2 < numStages := by
  obtain ⟨i, s⟩ := c
  simp [zeroBubbleCells]

theorem nodup_zeroBubbleCells (microbatches numStages : ℕ) :
    (zeroBubbleCells microbatches numStages).Nodup := by
  apply List.nodup_flatMap.mpr
  constructor
  · intro mb _
    apply List.nodup_range.map
    intro s s' h
    exact congrArg Prod.snd h
  · apply List.nodup_range.pairwise_of_forall_ne
    intro mb _ mb' _ hne c hc hc'
    obtain ⟨s, -, rfl⟩ := List.mem_map.mp hc
    obtain ⟨s', -, h⟩ := List.mem_map.mp hc'
    exact hne (congrArg Prod.fst h).symm

/-- The queue is popped in another order than it was filled in. -/
theorem zeroBubbleGroups_perm (numMinibatches minibatchSize delay numStages : ℕ) :
    ((zeroBubbleGroups numMinibatches minibatchSize delay numStages).map Prod.snd).Perm
      (zeroBubbleCells (numMinibatches * minibatchSize) numStages) := by
  refine ((List.perm_insertionSort _ _).map Prod.snd).trans (List.Perm.of_eq ?_)
  simp only [zeroBubbleCells, ← WavefrontGrid.flatMap_groups, List.map_flatMap, List.map_map,
    List.flatMap_assoc, List.flatMap_map, Function.comp_def]

namespace TaskMatrix

variable {m : TaskMatrix} {queue : StageQueue} {partition : HloPartition}
  {operandsOf : ℕ → List ℕ} {config : LoopConfig} {critical : ℕ → Bool}

/-- The last row takes the columns that are not critical in the order of their stages. -/
theorem nonCritical_columns {last : List HloInstruction} (hlast : last ∈ m.rows)
    (hcritical : ∀ c task, cell m.rows c = some task →
      isNonCritical partition task = !critical c.2) :
    (last.zipIdx.filter fun t => isNonCritical partition t.1).map Prod.snd =
      (List.range m.columns).filter fun s => !critical s := by
  obtain ⟨i, hi, rfl⟩ := List.getElem_of_mem hlast
  have hfilter : (m.rows[i].zipIdx.filter fun t => isNonCritical partition t.1) =
      m.rows[i].zipIdx.filter ((fun s => !critical s) ∘ Prod.snd) := by
    apply List.filter_congr
    intro t ht
    apply hcritical (i, t.2)
    rw [cell, List.getElem?_eq_getElem hi]
    exact List.mem_zipIdx_iff_getElem?.mp ht
  rw [hfilter, ← List.filter_map, List.zipIdx_map_snd, ← List.range_eq_range',
    m.rect _ hlast]

/-- The reordered columns are all the columns. -/
theorem reorderedStages_perm {last : List HloInstruction} (hlast : last ∈ m.rows)
    (hcritical : ∀ c task, cell m.rows c = some task →
      isNonCritical partition task = !critical c.2) :
    (reorderedStages queue partition operandsOf m.rows
      ((List.range m.columns).filter critical) last).Perm (List.range m.columns) := by
  unfold reorderedStages
  refine List.Perm.trans (List.Perm.append_left _ ?_)
    (List.filter_append_perm critical (List.range m.columns))
  refine ((queue.perm _).map Prod.snd).trans (List.Perm.of_eq ?_)
  rw [List.map_map]
  exact nonCritical_columns hlast hcritical

/-- The critical columns come first, in their order. -/
theorem reorderedStages_idxOf {last : List HloInstruction} {s s' : ℕ} (hs : s < m.columns)
    (hcritical : critical s = true) (hs' : s' < m.columns)
    (hlt : critical s' = true → s < s') :
    (reorderedStages queue partition operandsOf m.rows
        ((List.range m.columns).filter critical) last).idxOf s <
      (reorderedStages queue partition operandsOf m.rows
        ((List.range m.columns).filter critical) last).idxOf s' := by
  have hmem : s ∈ (List.range m.columns).filter critical :=
    List.mem_filter.mpr ⟨List.mem_range.mpr hs, hcritical⟩
  unfold reorderedStages
  rw [List.idxOf_append_of_mem hmem]
  by_cases hcritical' : critical s' = true
  · have hmem' : s' ∈ (List.range m.columns).filter critical :=
      List.mem_filter.mpr ⟨List.mem_range.mpr hs', hcritical'⟩
    rw [List.idxOf_append_of_mem hmem']
    exact idxOf_lt_idxOf (List.pairwise_lt_range.filter _) hmem hmem' (hlt hcritical')
  · have hmem' : s' ∉ (List.range m.columns).filter critical :=
      fun hin => hcritical' (List.mem_filter.mp hin).2
    rw [List.idxOf_append_of_notMem hmem']
    exact (List.idxOf_lt_length_of_mem hmem).trans_le (Nat.le_add_right _ _)

/-- The columns that the first row marks as critical. -/
theorem criticalStages_eq {first : List HloInstruction} {flags : List Bool}
    (hfirst : m.rows[0]? = some first)
    (hcritical : ∀ c task, cell m.rows c = some task →
      isNonCritical partition task = !critical c.2)
    (hflags : first.mapM (isCritical partition) = ok flags) :
    ((List.range first.length).filter fun s => flags.getD s false) =
      (List.range m.columns).filter critical := by
  have hlen := m.rect first (List.mem_of_getElem? hfirst)
  rw [← hlen]
  apply List.filter_congr
  intro s hs
  have hs := List.mem_range.mp hs
  obtain ⟨b, hb, hcrit⟩ := mapM_getElem? hflags (List.getElem?_eq_getElem hs)
  have hcell : cell m.rows (0, s) = some first[s] := by
    rw [cell, hfirst]
    exact List.getElem?_eq_getElem hs
  rw [List.getD_eq_getElem?_getD, hb, Option.getD_some, isCritical_eq_ok hcrit,
    hcritical _ _ hcell, Bool.not_not]

end TaskMatrix

theorem numGroups_le {partition : HloPartition} {row : List HloInstruction} :
    numGroups (pipelineDevices partition row) ≤ max 1 row.length := by
  have hdedup := (List.dedup_sublist (pipelineDevices partition row)).length_le
  have hfilter : (pipelineDevices partition row).length ≤ row.length :=
    (List.length_filter_le _ _).trans (List.length_filterMap_le _ _)
  unfold numGroups
  omega

theorem numMinibatches_le {config : LoopConfig} {groups : ℕ} (hg : 0 < groups) :
    numMinibatches config groups ≤ config.numIterations := by
  unfold numMinibatches
  rcases Nat.eq_zero_or_pos config.numIterations with hzero | hpos
  · rw [hzero, Nat.zero_add, Nat.div_eq_of_lt (by omega)]
  · apply Nat.div_le_of_le_mul
    have := Nat.mul_le_mul hg hpos
    nlinarith [Nat.sub_add_cancel (by omega : 1 ≤ config.numIterations + groups)]

/-- Only the number of wavefronts can leave the range of `int`. -/
theorem zeroBubbleLocals_eq_ok {partition : HloPartition} {first : List HloInstruction}
    {pipelineTasks : ℕ} {config : LoopConfig} {w : ZeroBubbleLocals}
    (hregistered : ∀ task ∈ first, Registered partition task)
    (htasks : pipelineTasks ≤ first.length) (hiter : config.numIterations < 2 ^ 31) :
    zeroBubbleLocals partition first pipelineTasks config = ok w ↔
      first.length + numMinibatches config (numGroups (pipelineDevices partition first)) *
          ((pipelineTasks + 1) / 2) < 2 ^ 31 ∧
        w = ⟨(pipelineTasks + 1) / 2, numGroups (pipelineDevices partition first),
          numMinibatches config (numGroups (pipelineDevices partition first))⟩ := by
  have hg : 0 < numGroups (pipelineDevices partition first) := by simp [numGroups]
  have hgle := @numGroups_le partition first
  have hle := @numMinibatches_le config _ hg
  unfold zeroBubbleLocals
  rw [submeshTasks_eq_ok_of_registered hregistered, ok_bind]
  simp only [bind_eq_ok, int_natCast_eq_ok, pure_eq, ok.injEq]
  generalize numGroups (pipelineDevices partition first) = groups at hg hgle hle ⊢
  generalize numMinibatches config groups = minibatches at hle ⊢
  constructor
  · rintro ⟨_, -, _, -, _, -, _, -, _, -, _, ⟨hfits, -⟩, rfl⟩
    exact ⟨hfits, rfl⟩
  · rintro ⟨hfits, rfl⟩
    refine ⟨_, ⟨?_, rfl⟩, _, ⟨?_, rfl⟩, _, ⟨?_, rfl⟩, _, ⟨?_, rfl⟩, _, ⟨?_, rfl⟩, _, ⟨?_, rfl⟩,
      rfl⟩ <;> omega

namespace TaskMatrix

variable {m : TaskMatrix} {queue : StageQueue} {partition : HloPartition}
  {operandsOf : ℕ → List ℕ} {config : LoopConfig} {critical : ℕ → Bool}

/-- The groups of devices of the first row of tasks. -/
def deviceGroups (m : TaskMatrix) (partition : HloPartition) : ℕ :=
  numGroups (pipelineDevices partition (m.rows.head?.getD []))

/-- The number of rows and the number of wavefronts fit an `int`. -/
def ZeroBubbleFits (m : TaskMatrix) (partition : HloPartition) (config : LoopConfig)
    (critical : ℕ → Bool) : Prop :=
  m.rows.length < 2 ^ 31 ∧
    m.columns + numMinibatches config (m.deviceGroups partition) *
      ((((List.range m.columns).filter critical).length + 1) / 2) < 2 ^ 31

/-- A row of the reordered matrix holds the tasks of the reordered columns. -/
theorem reordered_row {row : List HloInstruction} {stages : List ℕ} (hrow : row ∈ m.rows)
    (hperm : stages.Perm (List.range m.columns)) :
    ∃ reordered, stages.mapM (elementAt row) = ok reordered := by
  apply exists_mapM_eq_ok
  intro s hs
  have hlt : s < row.length := by
    rw [m.rect row hrow]
    exact List.mem_range.mp (hperm.mem_iff.mp hs)
  exact ⟨_, elementAt_of_lt hlt⟩

/-- The task of a cell of the reordered matrix. -/
theorem cell_reordered {reordered : Tasks} {stages : List ℕ}
    (hreordered : m.rows.mapM (fun row => stages.mapM (elementAt row)) = ok reordered)
    (hperm : stages.Perm (List.range m.columns)) {i s : ℕ} {task : HloInstruction} :
    cell reordered (i, s) = some task ↔
      s < m.columns ∧ cell m.rows (i, stages.getD s 0) = some task := by
  have hlen : stages.length = m.columns := by simpa using hperm.length_eq
  have hrel := mapM_eq_ok.mp hreordered
  unfold cell
  by_cases hi : i < m.rows.length
  · have hi' : i < reordered.length := hrel.length_eq ▸ hi
    have hrow := mapM_eq_ok.mp (hrel.get hi hi')
    simp only [List.get_eq_getElem, elementAt_eq_ok] at hrow
    simp only [List.getElem?_eq_getElem hi, List.getElem?_eq_getElem hi', Option.bind_some]
    by_cases hs : s < stages.length
    · have hs' : s < (reordered[i]).length := hrow.length_eq ▸ hs
      have htask := hrow.get hs hs'
      simp only [List.get_eq_getElem] at htask
      rw [List.getD_eq_getElem _ _ hs, htask, List.getElem?_eq_getElem hs']
      simp [← hlen, hs]
    · have hs' : ¬ s < (reordered[i]).length := hrow.length_eq ▸ hs
      rw [List.getElem?_eq_none (by omega)]
      simp [← hlen, hs]
  · have hi' : ¬ i < reordered.length := hrel.length_eq ▸ hi
    simp [hi, hi']

/-- The cells that the zero-bubble schedule lists when the columns are reordered so. -/
def zeroBubbleOrder (m : TaskMatrix) (partition : HloPartition) (config : LoopConfig)
    (delay : ℕ) (stages : List ℕ) : List (ℕ × ℕ) :=
  let groups := m.deviceGroups partition
  (zeroBubbleGroups (numMinibatches config groups) groups delay m.columns).map fun group =>
    (group.2.1, stages.getD group.2.2 0)

theorem zeroBubbleOrder_perm (delay : ℕ) (stages : List ℕ) :
    (m.zeroBubbleOrder partition config delay stages).Perm
      ((zeroBubbleCells (numMinibatches config (m.deviceGroups partition) *
        m.deviceGroups partition) m.columns).map fun c => (c.1, stages.getD c.2 0)) := by
  have h := (zeroBubbleGroups_perm (numMinibatches config (m.deviceGroups partition))
    (m.deviceGroups partition) delay m.columns).map fun c => (c.1, stages.getD c.2 0)
  rw [List.map_map] at h
  exact h

theorem mem_zeroBubbleOrder {delay : ℕ} {stages : List ℕ}
    (hperm : stages.Perm (List.range m.columns)) {c : ℕ × ℕ} :
    c ∈ m.zeroBubbleOrder partition config delay stages ↔
      c.1 < numMinibatches config (m.deviceGroups partition) * m.deviceGroups partition ∧
        c.2 < m.columns := by
  have hlen : stages.length = m.columns := by simpa using hperm.length_eq
  rw [(zeroBubbleOrder_perm delay stages).mem_iff, List.mem_map]
  constructor
  · rintro ⟨c, hc, rfl⟩
    obtain ⟨hi, hs⟩ := mem_zeroBubbleCells.mp hc
    refine ⟨hi, List.mem_range.mp (hperm.mem_iff.mp ?_)⟩
    rw [List.getD_eq_getElem _ _ (hlen ▸ hs)]
    exact List.getElem_mem _
  · rintro ⟨hi, hs⟩
    obtain ⟨j, hj, hget⟩ := List.getElem_of_mem (hperm.mem_iff.mpr (List.mem_range.mpr hs))
    refine ⟨(c.1, j), mem_zeroBubbleCells.mpr ⟨hi, hlen ▸ hj⟩, ?_⟩
    simp [hj, hget]

theorem nodup_zeroBubbleOrder {delay : ℕ} {stages : List ℕ}
    (hperm : stages.Perm (List.range m.columns)) :
    (m.zeroBubbleOrder partition config delay stages).Nodup := by
  have hlen : stages.length = m.columns := by simpa using hperm.length_eq
  have hnodup : stages.Nodup := hperm.nodup_iff.mpr List.nodup_range
  rw [(zeroBubbleOrder_perm delay stages).nodup_iff]
  refine (nodup_zeroBubbleCells _ _).map_on fun c hc c' hc' h => ?_
  have hs : c.2 < stages.length := hlen ▸ (mem_zeroBubbleCells.mp hc).2
  have hs' : c'.2 < stages.length := hlen ▸ (mem_zeroBubbleCells.mp hc').2
  simp only [List.getD_eq_getElem _ _ hs, List.getD_eq_getElem _ _ hs', Prod.mk.injEq] at h
  exact Prod.ext h.1 ((hnodup.getElem_inj_iff).mp h.2)

theorem exists_lists_iff {cells : List (ℕ × ℕ)} :
    (∃ row, Lists m.rows cells row) ↔ ∀ c ∈ cells, m.HasCell c := by
  constructor
  · rintro ⟨row, hrow⟩ c hc
    obtain ⟨k, hk, rfl⟩ := List.getElem_of_mem hc
    exact cell_isSome.mp ⟨_, hrow.get hk (hrow.length_eq ▸ hk)⟩
  · intro h
    induction cells with
    | nil => exact ⟨[], .nil⟩
    | cons c cells ih =>
      obtain ⟨row, hrow⟩ := ih fun c hc => h c (List.mem_cons_of_mem _ hc)
      obtain ⟨task, htask⟩ := cell_isSome.mpr (h c (by simp))
      exact ⟨task :: row, .cons htask hrow⟩

/-- The zero-bubble schedule of a matrix that has rows returns a row that lists the tasks
in the order of the queue, or fails. -/
theorem scheduleZeroBubble_eq_ok (hne : m.rows ≠ [])
    (hiter : config.numIterations = m.rows.length)
    (hregistered : ∀ c task, cell m.rows c = some task → Registered partition task)
    (hcritical : ∀ c task, cell m.rows c = some task →
      isNonCritical partition task = !critical c.2) :
    ∃ stages, stages.Perm (List.range m.columns) ∧
      (∀ s s', s < m.columns → critical s = true → s' < m.columns →
        (critical s' = true → s < s') → stages.idxOf s < stages.idxOf s') ∧ ∀ rows,
      scheduleZeroBubble queue partition operandsOf config m.rows = ok rows ↔
        m.ZeroBubbleFits partition config critical ∧ ∃ row, rows = [row] ∧
          Lists m.rows (m.zeroBubbleOrder partition config
            ((((List.range m.columns).filter critical).length + 1) / 2) stages) row := by
  obtain ⟨first, tail, hrows⟩ := List.exists_cons_of_ne_nil hne
  have hfirst : m.rows[0]? = some first := by simp [hrows]
  have hcolumns : first.length = m.columns := m.rect first (by simp [hrows])
  have hfirstRegistered : ∀ task ∈ first, Registered partition task := by
    intro task htask
    obtain ⟨s, hs, rfl⟩ := List.getElem_of_mem htask
    exact hregistered (0, s) _ (by rw [cell, hfirst]; exact List.getElem?_eq_getElem hs)
  obtain ⟨last, hlast⟩ : ∃ last, m.rows.getLast? = some last := by
    rw [← Option.isSome_iff_exists, List.getLast?_isSome]
    exact hne
  obtain ⟨flags, hflags⟩ := exists_mapM_eq_ok (isCritical partition)
    fun task htask => ⟨_, (hfirstRegistered task htask).isCritical⟩
  have hstages := criticalStages_eq hfirst hcritical hflags
  rw [hcolumns] at hstages
  have hperm := @reorderedStages_perm m queue partition operandsOf critical last
    (List.mem_of_getLast? hlast) hcritical
  refine ⟨_, hperm, fun s s' hs hcrit hs' hlt => reorderedStages_idxOf hs hcrit hs' hlt,
    fun rows => ?_⟩
  generalize hreorder : reorderedStages queue partition operandsOf m.rows
    ((List.range m.columns).filter critical) last = stages at hperm ⊢
  obtain ⟨reordered, hreordered⟩ := exists_mapM_eq_ok
    (fun row => stages.mapM (elementAt row)) fun row hrow => reordered_row hrow hperm
  have htask : ∀ (group : ℕ × ℕ × ℕ) (task : HloInstruction),
      (do
        let row ← elementAt reordered group.2.1
        let task ← elementAt row group.2.2
        let _ ← partition.devicesForInstruction task
        return task) = ok task ↔
      group.2.2 < m.columns ∧ cell m.rows (group.2.1, stages.getD group.2.2 0) = some task := by
    intro group task
    rw [← cell_reordered hreordered hperm, cell, Option.bind_eq_some_iff]
    simp only [bind_eq_ok, elementAt_eq_ok, pure_eq, ok.injEq]
    constructor
    · rintro ⟨row, hrow, _, htask, _, -, rfl⟩
      exact ⟨row, hrow, htask⟩
    · rintro ⟨row, hrow, htask⟩
      have hcell := (cell_reordered hreordered hperm).mp (Option.bind_eq_some_iff.mpr
        ⟨row, hrow, htask⟩)
      obtain ⟨d, hd⟩ := (hregistered _ _ hcell.2).devicesForInstruction
      exact ⟨row, hrow, task, htask, d, hd, rfl⟩
  have hlists : ∀ (delay : ℕ) (order : List HloInstruction),
      (zeroBubbleGroups (numMinibatches config (m.deviceGroups partition))
        (m.deviceGroups partition) delay m.columns).mapM (fun group => do
          let row ← elementAt reordered group.2.1
          let task ← elementAt row group.2.2
          let _ ← partition.devicesForInstruction task
          return task) = ok order ↔
        Lists m.rows (m.zeroBubbleOrder partition config delay stages) order := by
    intro delay order
    have hstage : ∀ group ∈ zeroBubbleGroups (numMinibatches config (m.deviceGroups partition))
        (m.deviceGroups partition) delay m.columns, group.2.2 < m.columns := by
      intro group hgroup
      have hmem := (zeroBubbleGroups_perm _ _ _ _).mem_iff.mp
        (List.mem_map_of_mem (f := Prod.snd) hgroup)
      exact (mem_zeroBubbleCells.mp hmem).2
    simp only [mapM_eq_ok, htask]
    rw [List.forall₂_and_left, and_iff_right hstage, zeroBubbleOrder, Lists,
      List.forall₂_map_left_iff]
  have hdevices : numGroups (pipelineDevices partition first) = m.deviceGroups partition := by
    simp [deviceGroups, hrows]
  have hcount : ((List.range m.columns).filter critical).length ≤ first.length := by
    rw [hcolumns]
    exact (List.length_filter_le _ _).trans (by simp)
  unfold scheduleZeroBubble ZeroBubbleFits
  simp only [hne, if_false, hlast, hflags, hstages, hreorder, hreordered, hcolumns, deref_some,
    ok_bind, elementAt, hfirst, bind_eq_ok, int_natCast_eq_ok]
  constructor
  · rintro ⟨_, ⟨hlt, -⟩, w, hw, order, horder, h⟩
    obtain ⟨hfits, rfl⟩ := (zeroBubbleLocals_eq_ok hfirstRegistered hcount (hiter ▸ hlt)).mp hw
    cases h
    rw [hdevices] at horder hfits
    rw [hcolumns] at hfits
    exact ⟨⟨hlt, hfits⟩, order, rfl, (hlists _ order).mp horder⟩
  · rintro ⟨⟨hlt, hfits⟩, row, rfl, hrow⟩
    refine ⟨_, ⟨hlt, rfl⟩, _, (zeroBubbleLocals_eq_ok hfirstRegistered hcount (hiter ▸ hlt)).mpr
      ⟨?_, rfl⟩, row, ?_, rfl⟩
    · rw [hcolumns, hdevices]
      exact hfits
    · rw [hdevices]
      exact (hlists _ row).mpr hrow

theorem le_numMinibatches_mul {groups : ℕ} (hg : 0 < groups) :
    config.numIterations ≤ numMinibatches config groups * groups := by
  unfold numMinibatches
  have hmod := Nat.div_add_mod (config.numIterations + groups - 1) groups
  have hlt := Nat.mod_lt (config.numIterations + groups - 1) hg
  rw [mul_comm] at hmod
  omega

theorem dvd_iff_numMinibatches_mul_le {groups : ℕ} (hg : 0 < groups) :
    groups ∣ config.numIterations ↔
      numMinibatches config groups * groups ≤ config.numIterations := by
  unfold numMinibatches
  constructor
  · rintro ⟨k, hk⟩
    have hdiv : (groups * k + groups - 1) / groups = k := by
      rw [Nat.add_sub_assoc hg, Nat.mul_add_div hg, Nat.div_eq_of_lt (by omega), Nat.add_zero]
    rw [hk, hdiv, mul_comm]
  · intro h
    refine ⟨(config.numIterations + groups - 1) / groups, ?_⟩
    rw [mul_comm]
    exact le_antisymm (le_numMinibatches_mul hg) h

theorem deviceGroups_of_no_columns (h : m.columns = 0) : m.deviceGroups partition = 1 := by
  have hlen : (m.rows.head?.getD []).length = 0 := by
    cases hrows : m.rows with
    | nil => rfl
    | cons first tail => simpa [h] using m.rect first (by simp [hrows])
  have hle := @numGroups_le partition (m.rows.head?.getD [])
  have hg : 0 < m.deviceGroups partition := by simp [deviceGroups, numGroups]
  unfold deviceGroups at hg ⊢
  omega

end TaskMatrix

/-- The zero-bubble schedule stays within the task matrix and schedules every task exactly
once if and only if the number of device groups divides the number of iterations. -/
theorem scheduleZeroBubble_schedulesOnce_iff (queue : StageQueue) (partition : HloPartition)
    (operandsOf : ℕ → List ℕ) (config : LoopConfig) (m : TaskMatrix) (critical : ℕ → Bool)
    (hiter : config.numIterations = m.rows.length)
    (hregistered : ∀ c task, cell m.rows c = some task → Registered partition task)
    (hcritical : ∀ c task, cell m.rows c = some task →
      isNonCritical partition task = !critical c.2) :
    (∃ rows, scheduleZeroBubble queue partition operandsOf config m.rows = ok rows ∧
        (m.rows = [] ∨ SchedulesOnce m.rows rows)) ↔
      m.rows = [] ∨ (m.deviceGroups partition ∣ config.numIterations ∧
        m.ZeroBubbleFits partition config critical) := by
  by_cases hne : m.rows = []
  · simp [hne, scheduleZeroBubble]
  · obtain ⟨stages, hperm, -, hrun⟩ := @TaskMatrix.scheduleZeroBubble_eq_ok m queue partition
      operandsOf config critical hne hiter hregistered hcritical
    have hg : 0 < m.deviceGroups partition := by simp [TaskMatrix.deviceGroups, numGroups]
    simp only [hne, false_or, hrun]
    constructor
    · rintro ⟨_, ⟨hfits, row, rfl, hrow⟩, -⟩
      refine ⟨?_, hfits⟩
      have hrange := TaskMatrix.exists_lists_iff.mp ⟨row, hrow⟩
      rcases Nat.eq_zero_or_pos m.columns with hzero | hpos
      · rw [TaskMatrix.deviceGroups_of_no_columns hzero]
        exact one_dvd _
      · rw [TaskMatrix.dvd_iff_numMinibatches_mul_le hg]
        by_contra hlt
        have hcell := (hrange (config.numIterations, 0)
          ((TaskMatrix.mem_zeroBubbleOrder hperm).mpr ⟨Nat.lt_of_not_le hlt, hpos⟩)).1
        exact absurd hcell (by omega)
    · rintro ⟨hdvd, hfits⟩
      have hle := (TaskMatrix.dvd_iff_numMinibatches_mul_le hg).mp hdvd
      have hge : config.numIterations ≤ _ := TaskMatrix.le_numMinibatches_mul hg
      have hcells : ∀ c, c ∈ m.zeroBubbleOrder partition config
          ((((List.range m.columns).filter critical).length + 1) / 2) stages ↔ m.HasCell c := by
        intro c
        rw [TaskMatrix.mem_zeroBubbleOrder hperm, TaskMatrix.HasCell, le_antisymm hle hge, hiter]
      obtain ⟨row, hrow⟩ := TaskMatrix.exists_lists_iff.mpr fun c hc => (hcells c).mp hc
      refine ⟨_, ⟨hfits, row, rfl, hrow⟩, ?_⟩
      apply (TaskMatrix.schedulesOnce_iff hrow (TaskMatrix.nodup_zeroBubbleOrder hperm)).mpr
      exact fun c hc => (hcells c).mpr hc

/-! Two stages on two device groups: a minibatch has two microbatches, and with one
iteration the second of them is not a row of the matrix. -/

def oneIteration : TaskMatrix where
  rows := [[forwardTask 0 0 "forward_0", forwardTask 0 1 "forward_1"]]
  columns := 2
  rect := by decide
  distinct := by decide

/-- A row past the end of the matrix is read. -/
theorem scheduleZeroBubble_reads_past_end :
    scheduleZeroBubble stableQueue twoStagePartition (fun _ => [])
        { numIterations := 1, schedule := .zeroBubbleH2 } oneIteration.rows =
      fatal "index out of range" := by
  decide +kernel

theorem scheduleZeroBubble_schedulesOnce_iff_oneIteration :
    (∃ rows, scheduleZeroBubble stableQueue twoStagePartition (fun _ => [])
          { numIterations := 1, schedule := .zeroBubbleH2 } oneIteration.rows = ok rows ∧
        (oneIteration.rows = [] ∨ SchedulesOnce oneIteration.rows rows)) ↔
      oneIteration.rows = [] ∨ (oneIteration.deviceGroups twoStagePartition ∣ 1 ∧
        oneIteration.ZeroBubbleFits twoStagePartition
          { numIterations := 1, schedule := .zeroBubbleH2 } fun _ => true) := by
  have htasks : ∀ task ∈ oneIteration.rows.flatten,
      (twoStagePartition.devicesForTask task).isOk = true ∧
        isNonCritical twoStagePartition task = false := by
    decide +kernel
  apply scheduleZeroBubble_schedulesOnce_iff stableQueue twoStagePartition (fun _ => [])
    { numIterations := 1, schedule := .zeroBubbleH2 } oneIteration (fun _ => true) rfl
  · intro c task hcell
    exact isOk_iff.mp (htasks task (mem_flatten_of_cell hcell)).1
  · intro c task hcell
    exact (htasks task (mem_flatten_of_cell hcell)).2

end LoopScheduler
end MultiMeshJax
