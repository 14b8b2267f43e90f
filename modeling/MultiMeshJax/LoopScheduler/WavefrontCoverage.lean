import MultiMeshJax.LoopScheduler.TaskMatrix
import MultiMeshJax.Foundation.WavefrontGrid

/-! Which tasks the wavefront family of schedules emits, and when it emits all of them. -/
namespace MultiMeshJax
namespace LoopScheduler

open StatusOr

def isIncrement (task : HloInstruction) : Bool :=
  task.color.any HloPartition.isLoopIncrementColor

/-- The columns of the loop-increment tasks. -/
def incrementColumns (first : List HloInstruction) : List ℕ :=
  (List.range first.length).filter fun s => first[s]?.any isIncrement

/-- The first row without the loop-increment tasks. -/
def pipelineRow (tasks : Tasks) : List HloInstruction :=
  (tasks.head?.getD []).filter fun task => !isIncrement task

/-- The device lists of the coloured tasks that do not run on all devices. -/
def pipelineDevices (partition : HloPartition) (row : List HloInstruction) : List DeviceList :=
  (row.filterMap fun task =>
    (task.color.bind fun color => partition.colors.lookup color).map ColorConfig.devices).filter
      fun d => d.size ≠ partition.totalDevices

theorem devicesForTask_eq_ok {partition : HloPartition} {task : HloInstruction}
    {d : DeviceList} (h : partition.devicesForTask task = ok d) :
    (task.color.bind fun color => partition.colors.lookup color).map ColorConfig.devices =
      some d := by
  simp only [HloPartition.devicesForTask, HloPartition.devicesForColor,
    HloPartition.configForColor, bind_eq_ok, deref_eq_ok] at h
  obtain ⟨color, hcolor, config, hconfig, h⟩ := h
  cases h
  simp [hcolor, hconfig]

theorem submeshTasks_eq_ok {partition : HloPartition} {row : List HloInstruction}
    {submeshes : List DeviceList} (h : submeshTasks partition row = ok submeshes) :
    submeshes = pipelineDevices partition row := by
  simp only [submeshTasks, bind_eq_ok, mapM_eq_ok] at h
  obtain ⟨devices, hdevices, h⟩ := h
  cases h
  unfold pipelineDevices
  congr 1
  induction hdevices with
  | nil => rfl
  | cons hd _ ih => rw [List.filterMap_cons, devicesForTask_eq_ok hd, ih]

theorem isLoopIncrement_eq_ok {task : HloInstruction} {b : Bool}
    (h : isLoopIncrement task = ok b) : b = isIncrement task := by
  obtain ⟨color, hcolor, h⟩ := bind_eq_ok.mp h
  cases h
  simp [isIncrement, deref_eq_ok.mp hcolor]

theorem getIndicesToUnroll_eq_ok {tasks : Tasks} {indices : List ℕ}
    (h : getIndicesToUnroll tasks = ok indices) :
    ∃ first, tasks[0]? = some first ∧ indices = incrementColumns first := by
  obtain ⟨first, hfirst, h⟩ := bind_eq_ok.mp h
  obtain ⟨flags, hflags, h⟩ := bind_eq_ok.mp h
  cases h
  refine ⟨first, elementAt_eq_ok.mp hfirst, List.filter_congr fun s hs => ?_⟩
  have hs := List.mem_range.mp hs
  have hrel := mapM_eq_ok.mp hflags
  have hlen := hrel.length_eq
  have hflag := isLoopIncrement_eq_ok (hrel.get hs (hlen ▸ hs))
  simp only [List.get_eq_getElem] at hflag
  simp [List.getD, List.getElem?_eq_getElem hs, List.getElem?_eq_getElem (hlen ▸ hs), hflag]

/-- The columns other than the given ones. -/
def keptColumns (columns : ℕ) (indices : List ℕ) : List ℕ :=
  (List.range columns).filter fun s => !indices.contains s

theorem mem_keptColumns {columns : ℕ} {indices : List ℕ} {s : ℕ} :
    s ∈ keptColumns columns indices ↔ s < columns ∧ s ∉ indices := by
  simp [keptColumns]

theorem nodup_keptColumns (columns : ℕ) (indices : List ℕ) :
    (keptColumns columns indices).Nodup :=
  List.nodup_range.filter _

/-- A row without the given columns lists the other columns. -/
theorem keptRow_forall₂ (row : List HloInstruction) (indices : List ℕ) :
    List.Forall₂ (fun s task => row[s]? = some task)
      (keptColumns row.length indices)
      ((row.zipIdx.filter fun t => !indices.contains t.2).map Prod.fst) := by
  have hcolumns : keptColumns row.length indices =
      (row.zipIdx.filter fun t => !indices.contains t.2).map Prod.snd := by
    rw [keptColumns, List.range_eq_range', ← List.zipIdx_map_snd, List.filter_map]
    rfl
  rw [hcolumns, List.forall₂_map_left_iff, List.forall₂_map_right_iff, List.forall₂_same]
  intro t ht
  exact List.mem_zipIdx_iff_getElem?.mp (List.mem_of_mem_filter ht)

namespace TaskMatrix

variable {m : TaskMatrix}

/-- A cell of the matrix without the given columns is the cell of a kept column. -/
theorem cell_remainingTasks {indices : List ℕ} {c : ℕ × ℕ} {task : HloInstruction}
    (h : cell (remainingTasks m.rows indices) c = some task) :
    ∃ s, (keptColumns m.columns indices)[c.2]? = some s ∧
      cell m.rows (c.1, s) = some task := by
  obtain ⟨kept, hkept, htask⟩ := Option.bind_eq_some_iff.mp h
  simp only [remainingTasks, List.getElem?_map, Option.map_eq_some_iff] at hkept
  obtain ⟨row, hrow, rfl⟩ := hkept
  have hrel := keptRow_forall₂ row indices
  rw [m.rect row (List.mem_of_getElem? hrow)] at hrel
  obtain ⟨hlt, hget⟩ := List.getElem?_eq_some_iff.mp htask
  have hlt' := hrel.length_eq ▸ hlt
  have hs := hrel.get hlt' hlt
  simp only [List.get_eq_getElem, hget] at hs
  exact ⟨_, List.getElem?_eq_getElem hlt', by rw [cell, hrow]; exact hs⟩

theorem head_remainingTasks {indices : List ℕ} {kept : List HloInstruction}
    (h : (remainingTasks m.rows indices)[0]? = some kept) :
    kept.length = (keptColumns m.columns indices).length := by
  simp only [remainingTasks, List.getElem?_map, Option.map_eq_some_iff] at h
  obtain ⟨row, hrow, rfl⟩ := h
  rw [← (keptRow_forall₂ row indices).length_eq, m.rect row (List.mem_of_getElem? hrow)]

/-- The unrolled columns in the order of the hash set, each over all the iterations. -/
theorem unrollLoopIncrementTasks_lists {hash : HashOrder} {indices : List ℕ}
    {schedule remaining : Tasks}
    (h : unrollLoopIncrementTasks hash m.rows indices [[]] = ok (schedule, remaining)) :
    ∃ row, schedule = [row] ∧ remaining = remainingTasks m.rows indices ∧
      Lists m.rows ((hash.order indices).flatMap fun s =>
        (List.range m.rows.length).map fun i => (i, s)) row := by
  simp only [unrollLoopIncrementTasks, bind_eq_ok, mapM_eq_ok] at h
  obtain ⟨unrolled, hunrolled, h⟩ := h
  have hlists : Lists m.rows ((hash.order indices).flatMap fun s =>
      (List.range m.rows.length).map fun i => (i, s)) unrolled.flatten := by
    clear h
    generalize hash.order indices = columns at hunrolled
    induction hunrolled with
    | nil => exact .nil
    | @cons s column _ _ hcolumn _ ih =>
      obtain ⟨_, -, hcolumn⟩ := hcolumn
      refine Lists.append (List.forall₂_map_left_iff.mpr ?_) ih
      refine List.forall₂_iff_get.mpr ⟨by simpa using hcolumn.length_eq, fun i hi hi' => ?_⟩
      have hrow : i < m.rows.length := by simpa using hi
      have htask := hcolumn.get hrow hi'
      simpa [cell, elementAt_eq_ok, List.getElem?_eq_getElem hrow] using htask
  split at h
  · rename_i hnil
    cases h
    exact ⟨[], rfl, rfl, hnil ▸ hlists⟩
  · simp only [elementAt, List.getElem?_cons_zero, deref_some, ok_bind] at h
    cases h
    exact ⟨unrolled.flatten, by simp, rfl, hlists⟩

end TaskMatrix

/-- One step of the wavefront loop appends the task of its slot, if it has one. -/
theorem wavefrontStep_eq_ok {stages microbatches group delay waves : ℕ} {tasks : Tasks}
    {row row' : List HloInstruction} {wf stage : ℕ}
    (h : wavefrontStep ⟨stages, microbatches, group, delay, waves⟩ tasks row wf stage = ok row') :
    ∃ d, row' = row ++ d ∧
      Lists tasks (WavefrontGrid.slot microbatches group delay wf stage).toList d := by
  unfold wavefrontStep at h
  by_cases hle : stage ≤ wf
  · have htick : (wf : ℤ) - stage = ((wf - stage : ℕ) : ℤ) := by omega
    simp only [htick, ← Int.ofNat_tdiv, ← Int.ofNat_tmod, Nat.cast_lt, Nat.cast_nonneg,
      true_and] at h
    by_cases hoff : (wf - stage) % delay < group
    · simp only [hoff, if_true, bind_eq_ok, int_eq_ok] at h
      obtain ⟨product, ⟨-, rfl⟩, microbatch, ⟨-, rfl⟩, h⟩ := h
      have hcast : ((((wf - stage) / delay : ℕ) : ℤ) * group + ((wf - stage) % delay : ℕ)) =
          (((wf - stage) / delay * group + (wf - stage) % delay : ℕ) : ℤ) := by push_cast; rfl
      rw [hcast] at h
      split at h
      · rename_i hlt
        have hlt := Int.ofNat_lt.mp hlt
        simp only [bind_eq_ok, elementAtInt_natCast] at h
        obtain ⟨iter, hiter, task, htask, h⟩ := h
        cases h
        refine ⟨[task], rfl, ?_⟩
        simp only [WavefrontGrid.slot, hle, hoff, hlt, and_self, if_true, Option.toList_some]
        exact .cons (elementAt_cell hiter htask) .nil
      · rename_i hlt
        have hlt := fun hh => hlt (Int.ofNat_lt.mpr hh)
        cases h
        refine ⟨[], by simp, ?_⟩
        simpa [WavefrontGrid.slot, Lists] using fun _ _ => Nat.le_of_not_lt hlt
    · simp only [hoff, if_false] at h
      cases h
      exact ⟨[], by simp, by simp [WavefrontGrid.slot, hoff, Lists]⟩
  · have htick : ¬ 0 ≤ (wf : ℤ) - stage := by omega
    simp only [htick, false_and, if_false] at h
    cases h
    exact ⟨[], by simp, by simp [WavefrontGrid.slot, hle, Lists]⟩

theorem wavefrontLoop_eq_ok {stages microbatches group delay waves : ℕ} {tasks : Tasks}
    {row row' : List HloInstruction}
    (h : wavefrontLoop ⟨stages, microbatches, group, delay, waves⟩ tasks row = ok row') :
    ∃ d, row' = row ++ d ∧
      Lists tasks (WavefrontGrid.slots stages microbatches group delay waves) d := by
  obtain ⟨d, hd, hlists⟩ := foldlM_forall₂ h fun wf _ c c' hwave =>
    foldlM_forall₂ hwave fun stage _ c c' hstep => wavefrontStep_eq_ok hstep
  refine ⟨d, hd, ?_⟩
  simp only [Int.toNat_natCast] at hlists
  simpa only [Lists, WavefrontGrid.slots, List.filterMap_eq_flatMap_toList] using hlists

/-- The number of stages and of iterations, the groups and the delay of a successful call. -/
theorem wavefrontLocals_eq_ok {partition : HloPartition} {tasks : Tasks} {config : LoopConfig}
    {w : WavefrontLocals} (hstages : ∀ k, config.numStages = some k → 0 < k)
    (h : wavefrontLocals partition tasks config = ok w) :
    ∃ (first : List HloInstruction) (delay : ℕ), tasks[0]? = some first ∧ 0 < delay ∧
      nextMinibatchDelay config (pipelineDevices partition first) = (delay : ℤ) ∧
      w = ⟨first.length, config.numIterations, numGroups (pipelineDevices partition first), delay,
        ((first.length + (config.numIterations + numGroups (pipelineDevices partition first) - 1) /
          numGroups (pipelineDevices partition first) * delay : ℕ) : ℤ)⟩ := by
  simp only [wavefrontLocals, bind_eq_ok, int_eq_ok, elementAt_eq_ok] at h
  obtain ⟨first, hfirst, submeshes, hsubmeshes, groups, ⟨-, rfl⟩, delay, ⟨-, rfl⟩, _, ⟨-, rfl⟩,
    _, ⟨-, rfl⟩, _, ⟨-, rfl⟩, _, ⟨-, rfl⟩, _, ⟨-, rfl⟩, h⟩ := h
  obtain rfl := submeshTasks_eq_ok hsubmeshes
  have hpos : 0 < nextMinibatchDelay config (pipelineDevices partition first) := by
    unfold nextMinibatchDelay
    cases hconfig : config.numStages with
    | none => simp
    | some k => simpa using hstages k hconfig
  obtain ⟨delay, hdelay⟩ := Int.eq_ofNat_of_zero_le hpos.le
  have hgroups : 0 < numGroups (pipelineDevices partition first) := by simp [numGroups]
  refine ⟨first, delay, hfirst, by omega, hdelay, ?_⟩
  have hminus : ((config.numIterations : ℤ) +
      (numGroups (pipelineDevices partition first) : ℤ) - 1) =
      ((config.numIterations + numGroups (pipelineDevices partition first) - 1 : ℕ) : ℤ) := by
    omega
  cases h
  rw [hdelay, hminus, ← Int.ofNat_tdiv]
  push_cast
  rfl

/-- The condition under which no microbatch has an offset that the delay cuts off. -/
def WavefrontCovers (partition : HloPartition) (config : LoopConfig) (m : TaskMatrix) : Prop :=
  m.columns ≤ 1 ∨ pipelineRow m.rows = [] ∨
    (let devices := pipelineDevices partition (pipelineRow m.rows)
     config.numIterations ≤ nextMinibatchDelay config devices ∨
       numGroups devices ≤ nextMinibatchDelay config devices)

theorem mem_incrementColumns {first : List HloInstruction} {s : ℕ} {task : HloInstruction}
    (h : first[s]? = some task) : s ∈ incrementColumns first ↔ isIncrement task = true := by
  obtain ⟨hlt, rfl⟩ := List.getElem?_eq_some_iff.mp h
  simp [incrementColumns, hlt]

theorem nodup_incrementColumns (first : List HloInstruction) : (incrementColumns first).Nodup :=
  List.nodup_range.filter _

theorem lt_of_mem_incrementColumns {first : List HloInstruction} {s : ℕ}
    (h : s ∈ incrementColumns first) : s < first.length :=
  List.mem_range.mp (List.mem_of_mem_filter h)

theorem pipelineRow_eq {first : List HloInstruction} {tasks : Tasks}
    (h : tasks[0]? = some first) :
    (remainingTasks tasks (incrementColumns first))[0]? = some (pipelineRow tasks) := by
  have hkept : (first.zipIdx.filter fun t => !(incrementColumns first).contains t.2) =
      first.zipIdx.filter ((fun task => !isIncrement task) ∘ Prod.fst) := by
    refine List.filter_congr fun t ht => ?_
    have hmem := mem_incrementColumns (List.mem_zipIdx_iff_getElem?.mp ht)
    by_cases hinc : isIncrement t.1 = true
    · simp [hinc, hmem.mpr hinc]
    · simp [hinc, mt hmem.mp hinc]
  rw [remainingTasks, List.getElem?_map, h, Option.map_some, hkept, ← List.filter_map,
    List.zipIdx_map_fst, pipelineRow, List.head?_eq_getElem?, h, Option.getD_some]

namespace TaskMatrix

variable {m : TaskMatrix}

/-- The cells that a wavefront schedule lists: the unrolled columns, then the slots. -/
def wavefrontCells (m : TaskMatrix) (order indices : List ℕ) (slots : List (ℕ × ℕ)) :
    List (ℕ × ℕ) :=
  (order.flatMap fun s => (List.range m.rows.length).map fun i => (i, s)) ++
    slots.map fun c =>
      (c.1, (keptColumns m.columns indices).getD c.2 0)

theorem nodup_columnCells {columns : List ℕ} (h : columns.Nodup) (iterations : ℕ) :
    (columns.flatMap fun s => (List.range iterations).map fun i => (i, s)).Nodup := by
  refine List.nodup_flatMap.mpr ⟨fun s _ => List.nodup_range.map ?_, ?_⟩
  · exact fun i j h => congrArg Prod.fst h
  · refine h.pairwise_of_forall_ne fun s _ s' _ hne c hc hc' => ?_
    obtain ⟨i, -, rfl⟩ := List.mem_map.mp hc
    obtain ⟨j, -, h⟩ := List.mem_map.mp hc'
    exact hne (congrArg Prod.snd h).symm

theorem nodup_wavefrontCells {order indices : List ℕ} {slots : List (ℕ × ℕ)}
    (horder : order.Perm indices) (hindices : indices.Nodup) (hslots : slots.Nodup)
    (hlt : ∀ c ∈ slots,
      c.2 < (keptColumns m.columns indices).length) :
    (m.wavefrontCells order indices slots).Nodup := by
  refine List.nodup_append'.mpr ⟨?_, ?_, ?_⟩
  · exact nodup_columnCells (horder.nodup_iff.mpr hindices) _
  · refine hslots.map_on fun c hc c' hc' h => ?_
    obtain ⟨hi, hs⟩ := Prod.mk.inj h
    rw [List.getD_eq_getElem _ _ (hlt c hc), List.getD_eq_getElem _ _ (hlt c' hc')] at hs
    exact Prod.ext hi ((nodup_keptColumns _ _).getElem_inj_iff.mp hs)
  · intro c hc hc'
    simp only [List.mem_flatMap, List.mem_map] at hc hc'
    obtain ⟨s, hs, i, -, rfl⟩ := hc
    obtain ⟨c', hc', h⟩ := hc'
    obtain ⟨-, rfl⟩ := Prod.mk.inj h
    rw [List.getD_eq_getElem _ _ (hlt c' hc')] at hs
    exact (mem_keptColumns.mp (List.getElem_mem (hlt c' hc'))).2 (horder.mem_iff.mp hs)

/-- The wavefronts list every cell exactly when no column is left to them or no offset
of a microbatch within its group reaches the delay. -/
theorem forall_mem_wavefrontCells {order indices : List ℕ} {group delay waves : ℕ}
    (horder : order.Perm indices) (hg : 0 < group) (hd : 0 < delay)
    (hw : (keptColumns m.columns indices).length +
      (m.rows.length + group - 1) / group * delay ≤ waves) :
    (∀ c, m.HasCell c → c ∈ m.wavefrontCells order indices (WavefrontGrid.slots
        (keptColumns m.columns indices).length m.rows.length
        group delay waves)) ↔
      keptColumns m.columns indices = [] ∨
        m.rows.length ≤ delay ∨ group ≤ delay := by
  set kept := keptColumns m.columns indices
  rw [← WavefrontGrid.forall_mod_lt_iff hg]
  constructor
  · intro hall
    refine Classical.or_iff_not_imp_left.mpr fun hne i hi => ?_
    have hpos := List.length_pos_iff.mpr hne
    have hmem := mem_keptColumns.mp (List.getElem_mem hpos)
    have hcell := hall (i, kept[0]) ⟨hi, hmem.1⟩
    simp only [wavefrontCells, List.mem_append, List.mem_flatMap, List.mem_map] at hcell
    rcases hcell with ⟨s, hs, j, -, h⟩ | ⟨c, hc, h⟩
    · obtain ⟨-, rfl⟩ := Prod.mk.inj h
      exact absurd (horder.mem_iff.mp hs) hmem.2
    · obtain ⟨rfl, -⟩ := Prod.mk.inj h
      exact ((WavefrontGrid.mem_slots hg hd hw).mp hc).2.2
  · rintro hor ⟨i, s⟩ ⟨hi, hs⟩
    simp only [wavefrontCells, List.mem_append, List.mem_flatMap, List.mem_map]
    by_cases hinc : s ∈ indices
    · exact Or.inl ⟨s, horder.mem_iff.mpr hinc, i, List.mem_range.mpr hi, rfl⟩
    · have hmem : s ∈ kept := mem_keptColumns.mpr ⟨hs, hinc⟩
      have hmod : ∀ i < m.rows.length, i % group < delay :=
        hor.resolve_left (List.ne_nil_of_mem hmem)
      obtain ⟨j, hj, hget⟩ := List.getElem_of_mem hmem
      refine Or.inr ⟨(i, j), (WavefrontGrid.mem_slots hg hd hw).mpr ⟨hi, hj, hmod i hi⟩, ?_⟩
      rw [List.getD_eq_getElem _ _ hj, hget]

theorem extendWavefront_lists {partition : HloPartition} {config : LoopConfig}
    {remaining rows : Tasks} {row : List HloInstruction} (hne : remaining ≠ [])
    (hstages : ∀ k, config.numStages = some k → 0 < k)
    (h : extendWavefront partition remaining config [row] = ok rows) :
    ∃ (first d : List HloInstruction) (delay : ℕ), remaining[0]? = some first ∧ 0 < delay ∧
      nextMinibatchDelay config (pipelineDevices partition first) = (delay : ℤ) ∧
      rows = [row ++ d] ∧
      Lists remaining (WavefrontGrid.slots first.length config.numIterations
        (numGroups (pipelineDevices partition first)) delay
        (first.length + (config.numIterations + numGroups (pipelineDevices partition first) - 1) /
          numGroups (pipelineDevices partition first) * delay)) d := by
  simp only [extendWavefront, hne, if_false, List.length_singleton, ne_eq, not_true_eq_false,
    bind_eq_ok, elementAt_eq_ok, List.getElem?_cons_zero, Option.some.injEq] at h
  obtain ⟨w, hw, _, rfl, row', hloop, h⟩ := h
  cases h
  obtain ⟨first, delay, hfirst, hpos, hdelay, rfl⟩ := wavefrontLocals_eq_ok hstages hw
  obtain ⟨d, rfl, hlists⟩ := wavefrontLoop_eq_ok hloop
  exact ⟨first, d, delay, hfirst, hpos, hdelay, by simp, hlists⟩

/-- What the wavefront schedule of a matrix lists. -/
theorem prefetchWavefront_lists {hash : HashOrder} {partition : HloPartition}
    {config : LoopConfig} {first : List HloInstruction} {rows : Tasks}
    (hfirst : m.rows[0]? = some first) (hiter : config.numIterations = m.rows.length)
    (hstages : ∀ k, config.numStages = some k → 0 < k)
    (h : prefetchWavefront hash partition config (incrementColumns first) m.rows = ok rows) :
    ∃ (row : List HloInstruction) (delay waves : ℕ), rows = [row] ∧ 0 < delay ∧
      nextMinibatchDelay config (pipelineDevices partition (pipelineRow m.rows)) = (delay : ℤ) ∧
      (pipelineRow m.rows).length = (keptColumns m.columns (incrementColumns first)).length ∧
      (keptColumns m.columns (incrementColumns first)).length + (m.rows.length +
        numGroups (pipelineDevices partition (pipelineRow m.rows)) - 1) /
          numGroups (pipelineDevices partition (pipelineRow m.rows)) * delay ≤ waves ∧
      Lists m.rows (m.wavefrontCells (hash.order (incrementColumns first))
        (incrementColumns first) (WavefrontGrid.slots
          (keptColumns m.columns (incrementColumns first)).length m.rows.length
          (numGroups (pipelineDevices partition (pipelineRow m.rows))) delay waves)) row := by
  obtain ⟨⟨schedule, remaining⟩, hunroll, h⟩ := bind_eq_ok.mp h
  obtain ⟨row, rfl, rfl, hunrolled⟩ := unrollLoopIncrementTasks_lists hunroll
  have hkept := pipelineRow_eq hfirst
  have hne : remainingTasks m.rows (incrementColumns first) ≠ [] := by
    rintro hnil
    simp [hnil] at hkept
  obtain ⟨kept, d, delay, hkept', hpos, hdelay, rfl, hslots⟩ :=
    extendWavefront_lists hne hstages h
  obtain rfl : pipelineRow m.rows = kept := Option.some_injective _ (hkept.symm.trans hkept')
  have hlen := head_remainingTasks hkept
  rw [hiter, hlen] at hslots
  refine ⟨row ++ d, delay, _, rfl, hpos, hdelay, hlen, le_rfl, ?_⟩
  apply hunrolled.append
  apply List.forall₂_map_left_iff.mpr
  apply hslots.imp
  intro c task htask
  obtain ⟨s, hs, hcell⟩ := cell_remainingTasks htask
  rw [List.getD_eq_getElem?_getD, hs]
  exact hcell

theorem prefetchWavefront_schedulesOnce_iff {hash : HashOrder} {partition : HloPartition}
    {config : LoopConfig} {first : List HloInstruction} {rows : Tasks}
    (hfirst : m.rows[0]? = some first) (hiter : config.numIterations = m.rows.length)
    (hstages : ∀ k, config.numStages = some k → 0 < k)
    (h : prefetchWavefront hash partition config (incrementColumns first) m.rows = ok rows) :
    SchedulesOnce m.rows rows ↔ pipelineRow m.rows = [] ∨
      (config.numIterations ≤
          nextMinibatchDelay config (pipelineDevices partition (pipelineRow m.rows)) ∨
        numGroups (pipelineDevices partition (pipelineRow m.rows)) ≤
          nextMinibatchDelay config (pipelineDevices partition (pipelineRow m.rows))) := by
  obtain ⟨row, delay, waves, rfl, hpos, hdelay, hlen, hwaves, hlists⟩ :=
    prefetchWavefront_lists hfirst hiter hstages h
  have hg : 0 < numGroups (pipelineDevices partition (pipelineRow m.rows)) := by simp [numGroups]
  rw [hdelay, hiter, Nat.cast_le, Nat.cast_le, ← List.length_eq_zero_iff, hlen,
    List.length_eq_zero_iff, schedulesOnce_iff hlists]
  · exact forall_mem_wavefrontCells (hash.perm _) hg hpos hwaves
  · apply nodup_wavefrontCells (hash.perm _) (nodup_incrementColumns first)
      (WavefrontGrid.nodup_slots hpos _)
    intro c hc
    exact WavefrontGrid.lt_of_mem_slots hc

/-- A matrix of one column is scheduled by the fill-drain schedule. -/
theorem scheduleGpipe_schedulesOnce {config : LoopConfig} {rows : Tasks}
    (hiter : config.numIterations = m.rows.length) (h : scheduleGpipe config m.rows = ok rows) :
    SchedulesOnce m.rows rows := by
  obtain ⟨first, row, hfirst, rfl, hlists⟩ := scheduleGpipe_lists h
  have hlen := m.rect first (List.mem_of_getElem? hfirst)
  refine (schedulesOnce_iff hlists ?_).mpr fun c hc => ?_
  · exact nodup_columnCells List.nodup_range _
  · simp only [List.mem_flatMap, List.mem_map, List.mem_range]
    exact ⟨c.2, hlen ▸ hc.2, c.1, hiter ▸ hc.1, rfl⟩

end TaskMatrix

/-- Matrices of at most one column are not scheduled by wavefronts. -/
theorem scheduleWavefront_cases {hash : HashOrder} {partition : HloPartition}
    {config : LoopConfig} {m : TaskMatrix} {rows : Tasks}
    (h : scheduleWavefront hash partition config m.rows = ok rows) :
    (rows = [[]] ∧ (m.rows = [] ∨ m.columns = 0)) ∨
      (m.columns = 1 ∧ scheduleGpipe config m.rows = ok rows) ∨
      (1 < m.columns ∧ ∃ first, m.rows[0]? = some first ∧
        prefetchWavefront hash partition config (incrementColumns first) m.rows = ok rows) := by
  unfold scheduleWavefront at h
  split at h
  · rename_i hnil
    cases h
    exact .inl ⟨rfl, .inl hnil⟩
  · rename_i tail hnil
    cases h
    exact .inl ⟨rfl, .inr (m.rect [] (by simp [hnil])).symm⟩
  · rename_i task tail hone
    exact .inr (.inl ⟨(m.rect [task] (by simp [hone])).symm, h⟩)
  · rename_i hnil hempty hone
    obtain ⟨indices, hindices, h⟩ := bind_eq_ok.mp h
    obtain ⟨first, hfirst, rfl⟩ := getIndicesToUnroll_eq_ok hindices
    refine .inr (.inr ⟨?_, first, hfirst, h⟩)
    obtain ⟨tail, htail⟩ : ∃ tail, m.rows = first :: tail := by
      cases hrows : m.rows with
      | nil => simp [hrows] at hfirst
      | cons row tail => exact ⟨tail, by simpa [hrows] using hfirst⟩
    have hlen := m.rect first (by simp [htail])
    match first with
    | [] => exact absurd htail (hempty tail)
    | [task] => exact absurd htail (hone task tail)
    | _ :: _ :: _ => simp [← hlen]

theorem scheduleWavefront_schedulesOnce_iff {hash : HashOrder} {partition : HloPartition}
    {config : LoopConfig} {m : TaskMatrix} {rows : Tasks}
    (hiter : config.numIterations = m.rows.length)
    (hstages : ∀ k, config.numStages = some k → 0 < k)
    (h : scheduleWavefront hash partition config m.rows = ok rows) :
    SchedulesOnce m.rows rows ↔ WavefrontCovers partition config m := by
  rcases scheduleWavefront_cases h with ⟨rfl, hempty⟩ | ⟨hone, h⟩ | ⟨hcolumns, first, hfirst, h⟩
  · have hnone : ∀ c task, cell m.rows c ≠ some task := by
      intro c task hc
      obtain ⟨hi, hs⟩ := TaskMatrix.cell_isSome.mp ⟨task, hc⟩
      rcases hempty with hnil | hzero
      · simp [hnil] at hi
      · omega
    rcases hempty with hnil | hzero
    · simp [WavefrontCovers, pipelineRow, SchedulesOnce, cell, hnil]
    · simp [WavefrontCovers, SchedulesOnce, hnone, hzero]
  · simp [WavefrontCovers, TaskMatrix.scheduleGpipe_schedulesOnce hiter h, hone]
  · have hmany : ¬ m.columns ≤ 1 := by omega
    rw [TaskMatrix.prefetchWavefront_schedulesOnce_iff hfirst hiter hstages h, WavefrontCovers,
      or_iff_right hmany]

theorem schedulePrefetchWavefront_eq {hash : HashOrder} {partition : HloPartition}
    {config : LoopConfig} {tasks rows : Tasks}
    (h : schedulePrefetchWavefront hash partition config tasks = ok rows) :
    scheduleWavefront hash partition config tasks = ok rows := by
  unfold schedulePrefetchWavefront at h
  split at h
  · exact h
  · exact h
  · exact h
  · obtain ⟨indices, hindices, h⟩ := bind_eq_ok.mp h
    split at h
    · unfold scheduleWavefront
      split
      · contradiction
      · simp_all
      · simp_all
      · exact bind_eq_ok.mpr ⟨indices, hindices, h⟩
    · exact h

/-- A wavefront schedule of a loop schedules every task exactly once if and only if no
offset of a microbatch within its group of microbatches reaches the delay. -/
theorem scheduleLoops_schedulesOnce_iff (hash : HashOrder) (queue : StageQueue)
    (partition : HloPartition) (operandsOf : ℕ → List ℕ) (config : LoopConfig)
    (m : TaskMatrix) (rows : Tasks) (hschedule : config.schedule.isWavefront = true)
    (hiter : config.numIterations = m.rows.length)
    (hstages : ∀ k, config.numStages = some k → 0 < k)
    (h : scheduleLoops hash queue partition operandsOf config m.rows = ok rows) :
    SchedulesOnce m.rows rows ↔ WavefrontCovers partition config m := by
  unfold scheduleLoops at h
  cases hs : config.schedule <;> simp only [hs] at h hschedule
  case oneFOneB => exact scheduleWavefront_schedulesOnce_iff hiter hstages h
  case wavefront => exact scheduleWavefront_schedulesOnce_iff hiter hstages h
  case prefetchWavefront =>
    exact scheduleWavefront_schedulesOnce_iff hiter hstages (schedulePrefetchWavefront_eq h)
  all_goals simp [Schedule.isWavefront] at hschedule

/-! A forward pipeline of two stages on two device groups: the guessed delay is one, and
the second microbatch of the only minibatch has offset one. -/

def insertionOrder : HashOrder := ⟨id, fun _ => .refl _⟩

def stableQueue : StageQueue where
  drain xs := xs.mergeSort fun a b => decide (b.1 ≤ a.1)
  perm xs := List.mergeSort_perm xs _
  sorted xs := by
    have h : (xs.mergeSort fun a b => decide (b.1 ≤ a.1)).Pairwise
        fun a b => decide (b.1 ≤ a.1) = true := by
      apply List.pairwise_mergeSort
      · intro a b c
        simp only [decide_eq_true_eq]
        omega
      · intro a b
        simp only [Bool.or_eq_true, decide_eq_true_eq]
        omega
    exact h.imp fun hab => by simpa using hab

def twoStagePartition : HloPartition where
  devices := ⟨0, 2⟩
  colors := [("forward_0", { name := "forward_0", devices := ⟨0, 1⟩ }),
    ("forward_1", { name := "forward_1", devices := ⟨1, 1⟩ })]

def forwardTask (iteration stage : ℕ) (color : String) : HloInstruction :=
  { id := 2 * iteration + stage, opcode := .call stage, color := some color }

def twoStageTasks : TaskMatrix where
  rows := [[forwardTask 0 0 "forward_0", forwardTask 0 1 "forward_1"],
    [forwardTask 1 0 "forward_0", forwardTask 1 1 "forward_1"]]
  columns := 2
  rect := by decide
  distinct := by decide

/-- The second microbatch is dropped. -/
theorem scheduleLoops_drops_microbatch :
    scheduleLoops insertionOrder stableQueue twoStagePartition (fun _ => [])
        { numIterations := 2, schedule := .wavefront } twoStageTasks.rows =
      ok [[forwardTask 0 0 "forward_0", forwardTask 0 1 "forward_1"]] ∧
    ¬ SchedulesOnce twoStageTasks.rows
      [[forwardTask 0 0 "forward_0", forwardTask 0 1 "forward_1"]] := by
  refine ⟨by decide +kernel, ?_⟩
  rintro ⟨row, hrow, hall⟩
  obtain rfl := List.singleton_inj.mp hrow
  exact absurd (hall (1, 0) (forwardTask 1 0 "forward_0") (by decide)) (by decide)

theorem scheduleLoops_schedulesOnce_iff_twoStages :
    SchedulesOnce twoStageTasks.rows
        [[forwardTask 0 0 "forward_0", forwardTask 0 1 "forward_1"]] ↔
      WavefrontCovers twoStagePartition { numIterations := 2, schedule := .wavefront }
        twoStageTasks :=
  scheduleLoops_schedulesOnce_iff insertionOrder stableQueue twoStagePartition (fun _ => [])
    { numIterations := 2, schedule := .wavefront } twoStageTasks _ rfl rfl (by simp)
    (by decide +kernel)

end LoopScheduler
end MultiMeshJax
