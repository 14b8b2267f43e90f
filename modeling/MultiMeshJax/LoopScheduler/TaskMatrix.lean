import MultiMeshJax.LoopScheduler.Loops

/-! Rectangular matrices of distinct tasks, and rows that list the tasks of given cells. -/
namespace MultiMeshJax
namespace LoopScheduler

open StatusOr

/-- The task of a cell `(iteration, stage)`. -/
def cell (tasks : Tasks) (c : ℕ × ℕ) : Option HloInstruction :=
  tasks[c.1]?.bind fun row => row[c.2]?

/-- The row lists the tasks of the cells, in this order. -/
def Lists (tasks : Tasks) (cells : List (ℕ × ℕ)) (row : List HloInstruction) : Prop :=
  List.Forall₂ (fun c task => cell tasks c = some task) cells row

/-- A single row in which every task of the matrix occurs exactly once. -/
def SchedulesOnce (tasks rows : Tasks) : Prop :=
  ∃ row, rows = [row] ∧ ∀ c task, cell tasks c = some task → row.count task = 1

theorem Lists.append {tasks : Tasks} {cells cells' : List (ℕ × ℕ)}
    {row row' : List HloInstruction} (h : Lists tasks cells row) (h' : Lists tasks cells' row') :
    Lists tasks (cells ++ cells') (row ++ row') :=
  List.rel_append h h'

theorem elementAt_cell {tasks : Tasks} {i s : ℕ} {row : List HloInstruction}
    {task : HloInstruction} (hrow : elementAt tasks i = ok row)
    (htask : elementAt row s = ok task) : cell tasks (i, s) = some task := by
  rw [elementAt_eq_ok] at hrow htask
  simp [cell, hrow, htask]

/-- The tasks of an unrolled loop: one row an iteration, all of one length, and every
entry an instruction of its own. -/
structure TaskMatrix where
  rows : Tasks
  columns : ℕ
  rect : ∀ row ∈ rows, row.length = columns
  distinct : rows.flatten.Nodup

namespace TaskMatrix

variable {m : TaskMatrix}

/-- The cells of the matrix. -/
def HasCell (m : TaskMatrix) (c : ℕ × ℕ) : Prop := c.1 < m.rows.length ∧ c.2 < m.columns

theorem cell_isSome {c : ℕ × ℕ} : (∃ task, cell m.rows c = some task) ↔ m.HasCell c := by
  unfold HasCell cell
  by_cases hi : c.1 < m.rows.length
  · have hlen := m.rect _ (List.getElem_mem hi)
    simp only [List.getElem?_eq_getElem hi, Option.bind_some]
    rw [← Option.isSome_iff_exists]
    simp [hi, hlen]
  · simp [hi]

theorem cell_injective {c c' : ℕ × ℕ} {task : HloInstruction}
    (h : cell m.rows c = some task) (h' : cell m.rows c' = some task) : c = c' := by
  obtain ⟨hrows, hdisjoint⟩ := List.nodup_flatten.mp m.distinct
  obtain ⟨row, hrow, htask⟩ := Option.bind_eq_some_iff.mp h
  obtain ⟨row', hrow', htask'⟩ := Option.bind_eq_some_iff.mp h'
  have hi : c.1 = c'.1 := by
    obtain ⟨hlt, hget⟩ := List.getElem?_eq_some_iff.mp hrow
    obtain ⟨hlt', hget'⟩ := List.getElem?_eq_some_iff.mp hrow'
    by_contra hne
    have hmem : task ∈ m.rows[c.1] := hget ▸ List.mem_of_getElem? htask
    have hmem' : task ∈ m.rows[c'.1] := hget' ▸ List.mem_of_getElem? htask'
    have hpair := List.pairwise_iff_getElem.mp hdisjoint
    rcases Nat.lt_or_gt_of_ne hne with hlt'' | hlt''
    · exact hpair _ _ hlt hlt' hlt'' hmem hmem'
    · exact hpair _ _ hlt' hlt hlt'' hmem' hmem
  obtain rfl : row = row' := Option.some_injective _ (hrow.symm.trans (hi ▸ hrow'))
  have hnodup := hrows row (List.mem_of_getElem? hrow)
  have hs : c.2 = c'.2 :=
    (List.getElem?_inj (List.getElem?_eq_some_iff.mp htask).1 hnodup).mp
      (htask.trans htask'.symm)
  exact Prod.ext hi hs

/-- In a row that lists cells, a task occurs as often as its cell is listed. -/
theorem Lists.count {cells : List (ℕ × ℕ)} {row : List HloInstruction}
    (h : Lists m.rows cells row) {c : ℕ × ℕ} {task : HloInstruction}
    (hc : cell m.rows c = some task) : row.count task = cells.count c := by
  induction h with
  | nil => rfl
  | @cons c' task' cells row hhead _ ih =>
    have hiff : task' = task ↔ c' = c :=
      ⟨fun he => cell_injective hhead (he ▸ hc),
        fun he => Option.some_injective _ (hhead.symm.trans (he ▸ hc))⟩
    simp only [List.count_cons, beq_iff_eq, hiff, ih]

theorem schedulesOnce_iff {cells : List (ℕ × ℕ)} {row : List HloInstruction}
    (h : Lists m.rows cells row) (hnodup : cells.Nodup) :
    SchedulesOnce m.rows [row] ↔ ∀ c, m.HasCell c → c ∈ cells := by
  unfold SchedulesOnce
  simp only [List.cons.injEq, and_true, exists_eq_left']
  constructor
  · intro hall c hc
    obtain ⟨task, htask⟩ := cell_isSome.mpr hc
    have hone := hall c task htask
    rw [Lists.count h htask] at hone
    exact List.count_pos_iff.mp (by omega)
  · intro hall c task htask
    rw [Lists.count h htask]
    exact List.count_eq_one_of_mem hnodup (hall c (cell_isSome.mp ⟨task, htask⟩))

end TaskMatrix

theorem idxOf_lt_idxOf {order : List ℕ} (hsorted : order.Pairwise (· < ·)) {s s' : ℕ}
    (hs : s ∈ order) (hs' : s' ∈ order) (hlt : s < s') : order.idxOf s < order.idxOf s' := by
  have hp := List.idxOf_lt_length_of_mem hs
  have hq := List.idxOf_lt_length_of_mem hs'
  rcases lt_trichotomy (order.idxOf s) (order.idxOf s') with h | h | h
  · exact h
  · have heq : order[order.idxOf s] = order[order.idxOf s'] := by simp only [h]
    rw [List.getElem_idxOf, List.getElem_idxOf] at heq
    omega
  · have hgt := List.pairwise_iff_getElem.mp hsorted _ _ hq hp h
    rw [List.getElem_idxOf, List.getElem_idxOf] at hgt
    omega

/-- What the fill-drain schedule lists: column after column. -/
theorem scheduleGpipe_lists {config : LoopConfig} {tasks rows : Tasks}
    (h : scheduleGpipe config tasks = ok rows) :
    ∃ first row, tasks[0]? = some first ∧ rows = [row] ∧
      Lists tasks ((List.range first.length).flatMap fun s =>
        (List.range config.numIterations).map fun i => (i, s)) row := by
  simp only [scheduleGpipe, bind_eq_ok] at h
  obtain ⟨first, hfirst, columns, hcolumns, h⟩ := h
  cases h
  refine ⟨first, _, elementAt_eq_ok.mp hfirst, rfl, ?_⟩
  rw [mapM_eq_ok] at hcolumns
  generalize List.range first.length = stages at hcolumns
  induction hcolumns with
  | nil => exact .nil
  | @cons s column _ _ hcolumn _ ih =>
    obtain ⟨_, -, hcolumn⟩ := bind_eq_ok.mp hcolumn
    refine Lists.append ?_ ih
    refine List.forall₂_map_left_iff.mpr ((mapM_eq_ok.mp hcolumn).imp ?_)
    intro i task htask
    obtain ⟨iterRow, hrow, htask⟩ := bind_eq_ok.mp htask
    exact elementAt_cell hrow htask

end LoopScheduler
end MultiMeshJax
