import MultiMeshJax.LoopScheduler.WavefrontCoverage

/-! How far the schedule of a loop depends on the order in which the hash set of the
loop-increment columns hands them out. -/
namespace MultiMeshJax

namespace HashOrder

/-- The order that hands the elements out the other way round. -/
def reversed (hash : HashOrder) : HashOrder where
  order xs := (hash.order xs).reverse
  perm xs := (List.reverse_perm _).trans (hash.perm xs)

theorem order_of_length_le_one (hash hash' : HashOrder) {xs : List ℕ}
    (h : xs.length ≤ 1) : hash.order xs = hash'.order xs := by
  match xs, h with
  | [], _ => rw [List.perm_nil.mp (hash.perm []), List.perm_nil.mp (hash'.perm [])]
  | [x], _ => rw [List.perm_singleton.mp (hash.perm [x]), List.perm_singleton.mp (hash'.perm [x])]

/-- The first element in the reversed order is another one. -/
theorem head?_reversed_ne (hash : HashOrder) {xs : List ℕ} (hnodup : xs.Nodup)
    (h : 1 < xs.length) {s s' : ℕ} (hs : (hash.order xs).head? = some s)
    (hs' : (hash.reversed.order xs).head? = some s') : s ≠ s' := by
  have hperm := hash.perm xs
  have hlen := hperm.length_eq
  rw [reversed, List.head?_reverse, List.getLast?_eq_getElem?] at hs'
  rw [List.head?_eq_getElem?] at hs
  intro heq
  have hindex := (List.getElem?_inj (by omega) (hperm.nodup_iff.mpr hnodup)).mp
    (hs.trans (heq ▸ hs'.symm))
  omega

end HashOrder

/-- The schedules in which the loop-increment columns are unrolled. -/
def Schedule.unrollsIncrements : Schedule → Bool
  | fillDrain | zeroBubbleH2 => false
  | oneFOneB | wavefront | prefetchWavefront | custom => true

namespace LoopScheduler

open StatusOr

section unrolled

variable {m : TaskMatrix} {hash hash' : HashOrder} {indices : List ℕ}

/-- The first task of a schedule that begins with the unrolled columns. -/
theorem unrollLoopIncrementTasks_head {schedule schedule' remaining : Tasks}
    (h : unrollLoopIncrementTasks hash m.rows indices schedule = ok (schedule', remaining))
    (hrows : m.rows ≠ []) (hempty : ∀ row ∈ schedule, row = []) {s : ℕ}
    (hs : (hash.order indices).head? = some s) :
    ∃ task row, cell m.rows (0, s) = some task ∧ schedule'[0]? = some row ∧
      [task] <+: row := by
  simp only [unrollLoopIncrementTasks, bind_eq_ok, mapM_eq_ok] at h
  obtain ⟨unrolled, hunrolled, h⟩ := h
  obtain ⟨order, horder⟩ := List.head?_eq_some_iff.mp hs
  obtain ⟨first, rows, hfirst⟩ := List.exists_cons_of_ne_nil hrows
  rw [horder] at hunrolled
  obtain ⟨column, _, ⟨_, -, hcolumn⟩, -, rfl⟩ := List.forall₂_cons_left_iff.mp hunrolled
  rw [hfirst] at hcolumn
  obtain ⟨task, _, htask, -, rfl⟩ := List.forall₂_cons_left_iff.mp hcolumn
  have hcell : cell m.rows (0, s) = some task := by
    simpa [cell, hfirst] using elementAt_eq_ok.mp htask
  simp only [List.flatten_cons, List.cons_append, reduceCtorEq, if_false] at h
  obtain ⟨row, hrow, h⟩ := bind_eq_ok.mp h
  cases h
  have hrow := elementAt_eq_ok.mp hrow
  have hnil := hempty row (List.mem_of_getElem? hrow)
  have hlt := (List.getElem?_eq_some_iff.mp hrow).1
  exact ⟨task, _, hcell, List.getElem?_set_self hlt, by
    simp only [hnil, List.nil_append]
    exact List.prefix_append [task] _⟩

theorem length_unrollLoopIncrementTasks {tasks schedule schedule' remaining : Tasks}
    (h : unrollLoopIncrementTasks hash tasks indices schedule = ok (schedule', remaining)) :
    schedule'.length = schedule.length := by
  obtain ⟨unrolled, -, h⟩ := bind_eq_ok.mp h
  dsimp only at h
  split at h
  · cases h
    rfl
  · obtain ⟨row, -, h⟩ := bind_eq_ok.mp h
    cases h
    exact List.length_set

/-- The wavefronts come after what the schedule already holds. -/
theorem extendWavefront_prefix {partition : HloPartition} {config : LoopConfig}
    {remaining rows : Tasks} {row : List HloInstruction}
    (h : extendWavefront partition remaining config [row] = ok rows) :
    ∃ row', rows = [row'] ∧ row <+: row' := by
  unfold extendWavefront at h
  split at h
  · cases h
    exact ⟨row, rfl, List.prefix_rfl⟩
  · simp only [List.length_singleton, ne_eq, not_true_eq_false, if_false, bind_eq_ok,
      elementAt_eq_ok, List.getElem?_cons_zero, Option.some.injEq] at h
    obtain ⟨w, -, _, rfl, row', hloop, h⟩ := h
    cases h
    refine ⟨row', rfl, foldlM_invariant (row <+: ·) hloop List.prefix_rfl ?_⟩
    intro wf _ c c' hc hwave
    refine foldlM_invariant (row <+: ·) hwave hc fun stage _ d d' hd hstep => ?_
    simp only [wavefrontStep] at hstep
    split at hstep
    · obtain ⟨_, -, hstep⟩ := bind_eq_ok.mp hstep
      obtain ⟨_, -, hstep⟩ := bind_eq_ok.mp hstep
      split at hstep
      · obtain ⟨_, -, hstep⟩ := bind_eq_ok.mp hstep
        obtain ⟨_, -, hstep⟩ := bind_eq_ok.mp hstep
        cases hstep
        exact hd.trans (List.prefix_append _ _)
      · exact (ok.inj hstep) ▸ hd
    · exact (ok.inj hstep) ▸ hd

/-- The custom schedule of the other tasks comes after the unrolled columns. -/
theorem scheduleCustomSchedule_prefix {custom : List (List (ℤ × String))}
    {tasks schedule rows : Tasks} (h : scheduleCustomSchedule custom tasks schedule = ok rows)
    (hlen : schedule.length = custom.length) {row : List HloInstruction}
    (hrow : schedule[0]? = some row) : ∃ row', rows[0]? = some row' ∧ row <+: row' := by
  obtain ⟨first, -, h⟩ := bind_eq_ok.mp h
  dsimp only at h
  split at h
  · cases h
  · obtain ⟨_, -, h⟩ := bind_eq_ok.mp h
    obtain ⟨hlt, -⟩ := List.getElem?_eq_some_iff.mp hrow
    have hzip : (custom.zip schedule)[0]? = some (custom[0], row) := by
      simp [List.getElem?_zip_eq_some, hrow, List.getElem?_eq_getElem (hlen ▸ hlt)]
    obtain ⟨row', hrow', hfound⟩ := mapM_getElem? h hzip
    obtain ⟨found, -, hfound⟩ := bind_eq_ok.mp hfound
    cases hfound
    exact ⟨_, hrow', List.prefix_append _ _⟩

end unrolled

section order

variable {hash hash' : HashOrder} {queue : StageQueue} {partition : HloPartition}
  {operandsOf : ℕ → List ℕ} {config : LoopConfig} {m : TaskMatrix} {rows : Tasks}

/-- The columns of the loop-increment tasks of a matrix. -/
def unrolledColumns (tasks : Tasks) : List ℕ := incrementColumns (tasks.head?.getD [])

theorem getIndicesToUnroll_unrolledColumns {tasks : Tasks} {indices : List ℕ}
    (h : getIndicesToUnroll tasks = ok indices) : indices = unrolledColumns tasks := by
  obtain ⟨first, hfirst, rfl⟩ := getIndicesToUnroll_eq_ok h
  rw [unrolledColumns, List.head?_eq_getElem?, hfirst, Option.getD_some]

theorem getIndicesToUnroll_congr {α : Type} {tasks : Tasks} {f g : List ℕ → StatusOr α}
    (h : f (unrolledColumns tasks) = g (unrolledColumns tasks)) :
    (getIndicesToUnroll tasks >>= f) = (getIndicesToUnroll tasks >>= g) := by
  cases hindices : getIndicesToUnroll tasks with
  | ok indices => exact getIndicesToUnroll_unrolledColumns hindices ▸ h
  | error message => rfl
  | fatal reason => rfl

theorem unrollLoopIncrementTasks_congr {tasks schedule : Tasks} {indices : List ℕ}
    (h : indices.length ≤ 1) :
    unrollLoopIncrementTasks hash tasks indices schedule =
      unrollLoopIncrementTasks hash' tasks indices schedule := by
  rw [unrollLoopIncrementTasks, unrollLoopIncrementTasks, hash.order_of_length_le_one hash' h]

/-- With at most one increment column there is one order. -/
theorem scheduleLoops_congr {tasks : Tasks} (h : (unrolledColumns tasks).length ≤ 1) :
    scheduleLoops hash queue partition operandsOf config tasks =
      scheduleLoops hash' queue partition operandsOf config tasks := by
  have hprefetch : prefetchWavefront hash partition config (unrolledColumns tasks) tasks =
      prefetchWavefront hash' partition config (unrolledColumns tasks) tasks := by
    rw [prefetchWavefront, prefetchWavefront, unrollLoopIncrementTasks_congr h]
  have hwavefront : scheduleWavefront hash partition config tasks =
      scheduleWavefront hash' partition config tasks := by
    unfold scheduleWavefront
    split
    · rfl
    · rfl
    · rfl
    · exact getIndicesToUnroll_congr hprefetch
  unfold scheduleLoops
  cases config.schedule
  case fillDrain => rfl
  case zeroBubbleH2 => rfl
  case oneFOneB => exact hwavefront
  case wavefront => exact hwavefront
  case prefetchWavefront =>
    show schedulePrefetchWavefront hash partition config tasks =
      schedulePrefetchWavefront hash' partition config tasks
    unfold schedulePrefetchWavefront
    split
    · rfl
    · rfl
    · rfl
    · apply getIndicesToUnroll_congr
      rw [hprefetch, hwavefront]
  case custom =>
    show scheduleCustom hash config tasks = scheduleCustom hash' config tasks
    unfold scheduleCustom
    congr 1
    funext custom
    apply getIndicesToUnroll_congr
    rw [unrollLoopIncrementTasks_congr h]

/-- Of several increment columns the one that the hash set hands out first begins the
schedule. -/
theorem scheduleLoops_head
    (h : scheduleLoops hash queue partition operandsOf config m.rows = ok rows)
    (hschedule : config.schedule.unrollsIncrements = true)
    (hmany : 1 < (unrolledColumns m.rows).length) {s : ℕ}
    (hs : (hash.order (unrolledColumns m.rows)).head? = some s) :
    ∃ task row, cell m.rows (0, s) = some task ∧ rows[0]? = some row ∧
      [task] <+: row := by
  have hrows : m.rows ≠ [] := by
    intro hnil
    simp [hnil, unrolledColumns, incrementColumns] at hmany
  have hwavefront : scheduleWavefront hash partition config m.rows = ok rows →
      ∃ task row, cell m.rows (0, s) = some task ∧ rows[0]? = some row ∧
        [task] <+: row := by
    intro h
    have hcolumns : (unrolledColumns m.rows).length ≤ m.columns := by
      obtain ⟨first, tail, hfirst⟩ := List.exists_cons_of_ne_nil hrows
      rw [unrolledColumns, hfirst, List.head?_cons, Option.getD_some,
        ← m.rect first (by simp [hfirst]), incrementColumns]
      exact (List.length_filter_le _ _).trans_eq List.length_range
    rcases scheduleWavefront_cases h with ⟨-, hempty⟩ | ⟨hone, -⟩ | ⟨-, first, hfirst, h⟩
    · rcases hempty with hnil | hzero
      · exact absurd hnil hrows
      · omega
    · omega
    · obtain ⟨⟨schedule, remaining⟩, hunroll, h⟩ := bind_eq_ok.mp h
      have hindices : incrementColumns first = unrolledColumns m.rows := by
        rw [unrolledColumns, List.head?_eq_getElem?, hfirst, Option.getD_some]
      obtain ⟨task, row, hcell, hrow, hhead⟩ := unrollLoopIncrementTasks_head hunroll hrows
        (by simp) (hindices ▸ hs)
      obtain ⟨_, rfl, -, -⟩ := TaskMatrix.unrollLoopIncrementTasks_lists hunroll
      obtain rfl : _ = row := by simpa using hrow
      obtain ⟨row', rfl, hinitial⟩ := extendWavefront_prefix h
      exact ⟨task, row', hcell, rfl, hhead.trans hinitial⟩
  unfold scheduleLoops at h
  cases hconfig : config.schedule <;> simp only [hconfig] at h hschedule
  case fillDrain => cases hschedule
  case zeroBubbleH2 => cases hschedule
  case oneFOneB => exact hwavefront h
  case wavefront => exact hwavefront h
  case prefetchWavefront => exact hwavefront (schedulePrefetchWavefront_eq h)
  case custom =>
    obtain ⟨custom, -, h⟩ := bind_eq_ok.mp h
    obtain ⟨indices, hindices, h⟩ := bind_eq_ok.mp h
    rw [getIndicesToUnroll_unrolledColumns hindices] at h
    obtain ⟨⟨schedule, remaining⟩, hunroll, h⟩ := bind_eq_ok.mp h
    obtain ⟨task, row, hcell, hrow, hhead⟩ := unrollLoopIncrementTasks_head hunroll hrows
      (by simp) hs
    have hlen := length_unrollLoopIncrementTasks hunroll
    rw [List.length_map] at hlen
    obtain ⟨row', hrow', hinitial⟩ := scheduleCustomSchedule_prefix h hlen hrow
    exact ⟨task, row', hcell, hrow', hhead.trans hinitial⟩

/-- A schedule is the same for all orders of the hash set if and only if it unrolls no
increment columns, or has no two of them. -/
theorem scheduleLoops_hashOrder_iff
    (h : scheduleLoops hash queue partition operandsOf config m.rows = ok rows) :
    (∀ hash', scheduleLoops hash' queue partition operandsOf config m.rows = ok rows) ↔
      config.schedule.unrollsIncrements = false ∨ (unrolledColumns m.rows).length ≤ 1 := by
  constructor
  · intro hall
    by_contra hnot
    obtain ⟨hschedule, hmany⟩ := not_or.mp hnot
    rw [Bool.not_eq_false] at hschedule
    rw [not_le] at hmany
    have hnonempty : ∀ hash : HashOrder,
        ∃ s, (hash.order (unrolledColumns m.rows)).head? = some s := by
      intro hash
      have hlen := (hash.perm (unrolledColumns m.rows)).length_eq
      exact ⟨_, List.head?_eq_some_head (List.ne_nil_of_length_pos (by omega))⟩
    obtain ⟨s, hs⟩ := hnonempty hash
    obtain ⟨s', hs'⟩ := hnonempty hash.reversed
    obtain ⟨task, row, hcell, hrow, hhead⟩ := scheduleLoops_head h hschedule hmany hs
    obtain ⟨task', row', hcell', hrow', hhead'⟩ :=
      scheduleLoops_head (hall hash.reversed) hschedule hmany hs'
    obtain rfl : row = row' := Option.some_injective _ (hrow.symm.trans hrow')
    have htask : task = task' := by
      rw [List.singleton_prefix_iff_head?_eq_some] at hhead hhead'
      exact Option.some_injective _ (hhead.symm.trans hhead')
    have hindex := TaskMatrix.cell_injective hcell (htask ▸ hcell')
    exact hash.head?_reversed_ne (nodup_incrementColumns _) hmany hs hs' (congrArg Prod.snd hindex)
  · intro hcondition hash'
    rcases hcondition with hschedule | hfew
    · rw [← h]
      unfold scheduleLoops
      cases hconfig : config.schedule <;> simp only [hconfig, Schedule.unrollsIncrements,
        Bool.true_eq_false] at hschedule
      case fillDrain => rfl
      case zeroBubbleH2 => rfl
    · rw [scheduleLoops_congr hfew, h]

end order

end LoopScheduler
end MultiMeshJax
