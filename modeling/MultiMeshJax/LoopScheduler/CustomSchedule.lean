import MultiMeshJax.LoopScheduler.WavefrontCoverage

/-! When a custom schedule is accepted, and when it should be. -/
namespace MultiMeshJax
namespace LoopScheduler

open StatusOr

/-- The colour of the task has the name in it. -/
def hasName (task : HloInstruction) (name : String) : Bool :=
  strContains (colorOrDefault task) name

/-- The names of the columns: one for each task of every row. -/
structure TaskNames (tasks : Tasks) where
  names : List String
  nodup : names.Nodup
  named : ∀ row ∈ tasks, List.Forall₂ (fun task name => hasName task name = true) row names

/-- Every entry names a task, and every task has one entry. -/
def ValidSchedule {tasks : Tasks} (n : TaskNames tasks) (custom : List (List (ℤ × String))) :
    Prop :=
  (∀ entry ∈ custom.flatten, 0 ≤ entry.1 ∧ entry.1 < tasks.length ∧ entry.2 ∈ n.names) ∧
    ∀ i < tasks.length, ∀ name ∈ n.names, custom.flatten.count ((i : ℤ), name) = 1

/-- What the checks look at. -/
structure PassesChecks (custom : List (List (ℤ × String))) (tasks : Tasks) : Prop where
  counts : ∀ entry ∈ custom.flatten,
    (custom.flatten.map Prod.snd).count entry.2 = tasks.length
  unambiguous : ∀ entry ∈ custom.flatten, ∀ row ∈ tasks,
    (row.filter fun task => hasName task entry.2).length ≤ 1
  found : ∀ entry ∈ custom.flatten, 0 ≤ entry.1 ∧
    ∃ row, tasks[entry.1.toNat]? = some row ∧ ∃ task ∈ row, hasName task entry.2 = true

theorem matchingTasks_eq_ok {row : List HloInstruction} {tasksPerIter : ℕ} {name : String}
    (h : row.length = tasksPerIter) :
    matchingTasks tasksPerIter row name = ok (row.filter fun task => hasName task name) := by
  have hrow : (List.range tasksPerIter).mapM (elementAt row) = ok row := by
    apply mapM_eq_ok.mpr
    apply List.forall₂_iff_get.mpr
    refine ⟨by simp [h], ?_⟩
    intro i hi hi'
    simp only [List.get_eq_getElem, List.getElem_range]
    exact elementAt_of_lt hi'
  rw [matchingTasks, hrow, ok_bind, pure_eq]
  rfl

section check

variable {custom : List (List (ℤ × String))} {tasks schedule : Tasks} {columns : ℕ}
  (hrect : ∀ row ∈ tasks, row.length = columns)

include hrect in
theorem taskMapEntry_eq_ok {entry : ℤ × String} {task : HloInstruction} :
    taskMapEntry tasks columns entry.1 entry.2 = ok task ↔ 0 ≤ entry.1 ∧
      ∃ row, tasks[entry.1.toNat]? = some row ∧
        (row.filter fun task => hasName task entry.2).head? = some task := by
  unfold taskMapEntry
  by_cases hpos : 0 ≤ entry.1
  · simp only [hpos, if_true, true_and]
    cases hrow : tasks[entry.1.toNat]? with
    | none => simp
    | some row =>
      have hlength := hrect row (List.mem_of_getElem? hrow)
      simp only [Option.elim_some, matchingTasks_eq_ok hlength, ok_bind, Option.some.injEq,
        exists_eq_left']
      cases row.filter fun task => hasName task entry.2 <;> simp
  · simp [hpos]

/-- The rows are extended by the tasks of the entries. -/
theorem extendRows_eq_ok {f : ℤ × String → StatusOr HloInstruction}
    (hlength : schedule.length = custom.length) {rows : Tasks} :
    (custom.zip schedule).mapM (fun (meshSchedule, row) => do
        let found ← meshSchedule.mapM f
        return row ++ found) = ok rows ↔
      ∃ found, List.Forall₂ (List.Forall₂ fun entry task => f entry = ok task) custom found ∧
        rows = List.zipWith (· ++ ·) schedule found := by
  rw [mapM_eq_ok]
  induction custom generalizing schedule rows with
  | nil =>
    obtain rfl := List.length_eq_zero_iff.mp hlength
    simp
  | cons entries custom ih =>
    obtain ⟨row, schedule, rfl⟩ := List.exists_cons_of_length_eq_add_one hlength
    have hlength' : schedule.length = custom.length := Nat.succ.inj hlength
    rw [List.zip_cons_cons]
    constructor
    · intro h
      obtain ⟨row', rows', hrow, hrest, rfl⟩ := List.forall₂_cons_left_iff.mp h
      obtain ⟨found, hfound, hrow⟩ := bind_eq_ok.mp hrow
      cases hrow
      obtain ⟨founds, hfounds, rfl⟩ := (ih hlength').mp hrest
      exact ⟨found :: founds, .cons (mapM_eq_ok.mp hfound) hfounds, rfl⟩
    · rintro ⟨found, hfound, rfl⟩
      obtain ⟨tasks, founds, htasks, hfounds, rfl⟩ := List.forall₂_cons_left_iff.mp hfound
      apply List.Forall₂.cons
      · exact bind_eq_ok.mpr ⟨tasks, mapM_eq_ok.mpr htasks, rfl⟩
      · exact (ih hlength').mpr ⟨founds, hfounds, rfl⟩

include hrect in
/-- The checks decide whether the schedule is accepted. -/
theorem scheduleCustomSchedule_eq_ok (hne : tasks ≠ [])
    (hlength : schedule.length = custom.length) {rows : Tasks} :
    scheduleCustomSchedule custom tasks schedule = ok rows ↔ PassesChecks custom tasks ∧
      ∃ found, List.Forall₂ (List.Forall₂ fun entry task =>
          taskMapEntry tasks columns entry.1 entry.2 = ok task) custom found ∧
        rows = List.zipWith (· ++ ·) schedule found := by
  obtain ⟨first, tail, htasks⟩ := List.exists_cons_of_ne_nil hne
  have hfirst : elementAt tasks 0 = ok first := by rw [htasks]; rfl
  have hcolumns : first.length = columns := hrect first (by simp [htasks])
  have hnames : ∀ name, name ∈ customTaskNames custom ↔ ∃ entry ∈ custom.flatten, entry.2 = name := by
    intro name
    rw [customTaskNames, List.mem_dedup, List.mem_map]
  have hcheck : (∃ units, tasks.zipIdx.mapM (fun entry =>
        (customTaskNames custom).mapM fun name => do
          let found ← matchingTasks first.length entry.1 name
          if 1 < found.length then
            (error ("Task " ++ name ++ " appears multiple times in microbatch row " ++
              toString entry.2) : StatusOr Unit)
          else return ()) = ok units) ↔ ∀ entry ∈ custom.flatten, ∀ row ∈ tasks,
            (row.filter fun task => hasName task entry.2).length ≤ 1 := by
    rw [exists_mapM_iff]
    constructor
    · intro h entry hentry row hrow
      obtain ⟨i, hi, rfl⟩ := List.getElem_of_mem hrow
      obtain hunits := h (tasks[i], i) (List.mem_zipIdx_iff_getElem?.mpr (List.getElem?_eq_getElem hi))
      obtain ⟨u, hu⟩ := exists_mapM_iff.mp hunits entry.2 ((hnames _).mpr ⟨entry, hentry, rfl⟩)
      rw [matchingTasks_eq_ok ((hrect _ hrow).trans hcolumns.symm), ok_bind] at hu
      split at hu
      · cases hu
      · omega
    · rintro h ⟨row, iter⟩ hrow
      have hmem : row ∈ tasks := List.mem_of_getElem? (List.mem_zipIdx_iff_getElem?.mp hrow)
      apply exists_mapM_iff.mpr
      intro name hname
      obtain ⟨entry, hentry, rfl⟩ := (hnames name).mp hname
      refine ⟨(), ?_⟩
      rw [matchingTasks_eq_ok ((hrect _ hmem).trans hcolumns.symm), ok_bind,
        if_neg (by have := h entry hentry row hmem; omega)]
      rfl
  unfold scheduleCustomSchedule
  rw [hfirst, ok_bind]
  dsimp only
  split
  · rename_i name hfind
    have hcount := List.find?_some hfind
    obtain ⟨entry, hentry, rfl⟩ := (hnames name).mp (List.mem_of_find?_eq_some hfind)
    simp only [reduceCtorEq, false_iff]
    rintro ⟨hpasses, -⟩
    have hne : (custom.flatten.map Prod.snd).count entry.2 ≠ tasks.length := by simpa using hcount
    exact hne (hpasses.counts entry hentry)
  · rename_i hfind
    have hcounts : ∀ entry ∈ custom.flatten,
        (custom.flatten.map Prod.snd).count entry.2 = tasks.length := by
      intro entry hentry
      have hcount := List.find?_eq_none.mp hfind entry.2 ((hnames _).mpr ⟨entry, hentry, rfl⟩)
      simpa using hcount
    rw [bind_eq_ok]
    constructor
    · rintro ⟨units, hunits, hrows⟩
      rw [hcolumns] at hrows
      obtain ⟨found, hfound, rfl⟩ := (extendRows_eq_ok hlength).mp hrows
      refine ⟨⟨hcounts, hcheck.mp ⟨units, hunits⟩, ?_⟩, found, hfound, rfl⟩
      intro entry hentry
      have hflat := mapM_eq_ok.mpr (List.rel_flatten hfound)
      obtain ⟨task, htask⟩ := exists_mapM_iff.mp ⟨_, hflat⟩ entry hentry
      obtain ⟨hpos, row, hrow, hhead⟩ := (taskMapEntry_eq_ok hrect).mp htask
      have hmem := List.mem_filter.mp (List.mem_of_head? hhead)
      exact ⟨hpos, row, hrow, task, hmem⟩
    · rintro ⟨hpasses, found, hfound, rfl⟩
      obtain ⟨units, hunits⟩ := hcheck.mpr hpasses.unambiguous
      rw [hcolumns]
      rw [hcolumns] at hunits
      exact ⟨units, hunits, (extendRows_eq_ok hlength).mpr ⟨found, hfound, rfl⟩⟩

include hrect in
theorem exists_found (h : PassesChecks custom tasks) :
    ∃ found, List.Forall₂ (List.Forall₂ fun entry task =>
      taskMapEntry tasks columns entry.1 entry.2 = ok task) custom found := by
  have hfound : ∃ found, custom.mapM (fun entries => entries.mapM fun entry =>
      taskMapEntry tasks columns entry.1 entry.2) = ok found := by
    apply exists_mapM_eq_ok
    intro entries hentries
    apply exists_mapM_eq_ok
    intro entry hentry
    obtain ⟨hpos, row, hrow, task, htask, hname⟩ :=
      h.found entry (List.mem_flatten.mpr ⟨entries, hentries, hentry⟩)
    have hne : (row.filter fun task => hasName task entry.2) ≠ [] :=
      List.ne_nil_of_mem (List.mem_filter.mpr ⟨htask, hname⟩)
    exact ⟨_, (taskMapEntry_eq_ok hrect).mpr ⟨hpos, row, hrow, List.head?_eq_some_head hne⟩⟩
  obtain ⟨found, hfound⟩ := hfound
  refine ⟨found, (mapM_eq_ok.mp hfound).imp ?_⟩
  intro entries tasks htasks
  exact mapM_eq_ok.mp htasks

end check

section counting

variable {entries : List (ℤ × String)} {name : String} {length : ℕ}

/-- The entries of a name, iteration by iteration. -/
theorem count_name_eq_sum (h : ∀ e ∈ entries, e.2 = name → 0 ≤ e.1 ∧ e.1 < length) :
    (entries.map Prod.snd).count name =
      ∑ i ∈ Finset.range length, entries.count ((i : ℤ), name) := by
  induction entries with
  | nil => simp
  | cons e entries ih =>
    have hrest := ih fun e' he' => h e' (List.mem_cons_of_mem _ he')
    simp only [List.map_cons, List.count_cons, Finset.sum_add_distrib, hrest, beq_iff_eq]
    congr 1
    by_cases hname : e.2 = name
    · obtain ⟨hpos, hlt⟩ := h e (by simp) hname
      have hiff : ∀ i : ℕ, e = ((i : ℤ), name) ↔ e.1.toNat = i := by
        intro i
        rw [Prod.ext_iff]
        constructor
        · rintro ⟨hi, -⟩
          simp [hi]
        · intro hi
          exact ⟨by dsimp only; omega, hname⟩
      rw [if_pos hname]
      simp only [hiff]
      rw [Finset.sum_ite_eq, if_pos (Finset.mem_range.mpr (by omega))]
    · have hne : ∀ i : ℕ, e ≠ ((i : ℤ), name) := fun i heq => hname (by rw [heq])
      simp [hname, hne]

/-- Entries that occur once at most, and as often as there are iterations, cover them all. -/
theorem count_eq_one_of_nodup (h : ∀ e ∈ entries, e.2 = name → 0 ≤ e.1 ∧ e.1 < length)
    (hnodup : entries.Nodup) (hcount : (entries.map Prod.snd).count name = length) {i : ℕ}
    (hi : i < length) : entries.count ((i : ℤ), name) = 1 := by
  have hle : ∀ i ∈ Finset.range length, entries.count ((i : ℤ), name) ≤ 1 :=
    fun i _ => List.nodup_iff_count_le_one.mp hnodup _
  have hsum : ∑ i ∈ Finset.range length, entries.count ((i : ℤ), name) =
      ∑ _ ∈ Finset.range length, 1 := by
    rw [← count_name_eq_sum h, hcount]
    simp
  exact (Finset.sum_eq_sum_iff_of_le hle).mp hsum i (Finset.mem_range.mpr hi)

theorem count_eq_of_forall₂ {α β : Type} [BEq α] [LawfulBEq α] [BEq β] [LawfulBEq β] {R : α → β → Prop}
    {xs : List α} {ys : List β} (h : List.Forall₂ R xs ys) {x : α} {y : β}
    (hR : ∀ x' ∈ xs, ∀ y', R x' y' → (y' = y ↔ x' = x)) : ys.count y = xs.count x := by
  induction h with
  | nil => rfl
  | @cons x' y' xs ys hhead _ ih =>
    have hiff := hR x' (by simp) y' hhead
    have hrest := ih fun z hz => hR z (List.mem_cons_of_mem _ hz)
    have hbeq : (y' == y) = (x' == x) := by
      rw [Bool.eq_iff_iff, beq_iff_eq, beq_iff_eq]
      exact hiff
    rw [List.count_cons, List.count_cons, hrest, hbeq]

theorem count_zipWith_append {α : Type} [DecidableEq α] {xs ys : List (List α)}
    (h : xs.length = ys.length) (x : α) : (List.zipWith (· ++ ·) xs ys).flatten.count x =
      xs.flatten.count x + ys.flatten.count x := by
  induction xs generalizing ys with
  | nil =>
    obtain rfl := List.length_eq_zero_iff.mp h.symm
    simp
  | cons zs xs ih =>
    obtain ⟨ws, ys, rfl⟩ := List.exists_cons_of_length_eq_add_one h.symm
    have hrest := ih (Nat.succ.inj h)
    simp only [List.zipWith_cons_cons, List.flatten_cons, List.count_append, hrest]
    omega

end counting

namespace TaskMatrix

variable {m : TaskMatrix} {hash : HashOrder}

/-- The matrix without some columns. -/
def remaining (m : TaskMatrix) (indices : List ℕ) : TaskMatrix where
  rows := remainingTasks m.rows indices
  columns := (keptColumns m.columns indices).length
  rect := by
    intro row hrow
    obtain ⟨row', hrow', rfl⟩ := List.mem_map.mp hrow
    rw [← (keptRow_forall₂ row' indices).length_eq, m.rect row' hrow']
  distinct := by
    rw [remainingTasks, ← List.flatMap_def]
    apply List.Nodup.sublist ?_ m.distinct
    have hflat : m.rows.flatten = m.rows.flatMap id := List.flatMap_id.symm
    rw [hflat]
    apply List.Sublist.flatMap_right
    intro row _
    have hsub := (List.filter_sublist (p := fun t : HloInstruction × ℕ => !indices.contains t.2)
      (l := row.zipIdx)).map Prod.fst
    rwa [List.zipIdx_map_fst] at hsub

/-- The tasks other than the loop increments. -/
def pipelineTasks (m : TaskMatrix) : TaskMatrix :=
  m.remaining (incrementColumns (m.rows.head?.getD []))

/-- There is a row for the unrolled columns, and the iterations fit an `int`. -/
def HasRowForIncrements (m : TaskMatrix) (custom : List (List (ℤ × String))) : Prop :=
  incrementColumns (m.rows.head?.getD []) = [] ∨ (custom ≠ [] ∧ m.rows.length < 2 ^ 31)

theorem getIndicesToUnroll_of_colored {first : List HloInstruction}
    (hfirst : m.rows.head? = some first) (hcolor : ∀ task ∈ first, task.color.isSome = true) :
    getIndicesToUnroll m.rows = ok (incrementColumns first) := by
  have hget : elementAt m.rows 0 = ok first := by
    rw [elementAt_eq_ok, ← List.head?_eq_getElem?]
    exact hfirst
  have hflags : ∃ flags, first.mapM isLoopIncrement = ok flags := by
    apply exists_mapM_eq_ok
    intro task htask
    obtain ⟨color, hsome⟩ := Option.isSome_iff_exists.mp (hcolor task htask)
    exact ⟨_, by rw [isLoopIncrement, hsome]; rfl⟩
  obtain ⟨flags, hflags⟩ := hflags
  have hrun : ∃ indices, getIndicesToUnroll m.rows = ok indices := by
    rw [getIndicesToUnroll, hget, ok_bind, hflags, ok_bind]
    exact ⟨_, rfl⟩
  obtain ⟨indices, hindices⟩ := hrun
  obtain ⟨first', hfirst', rfl⟩ := getIndicesToUnroll_eq_ok hindices
  rw [← List.head?_eq_getElem?, hfirst] at hfirst'
  rw [hindices, Option.some.inj hfirst']

/-- The unrolled columns, one after the other. -/
theorem unrolledColumns_eq_ok {indices : List ℕ}
    (hindices : ∀ s ∈ indices, s < m.columns) :
    (∃ unrolled, (hash.order indices).mapM (fun taskIndex => do
        let _ ← int m.rows.length
        m.rows.mapM fun iter => elementAt iter taskIndex) = ok unrolled) ↔
      indices = [] ∨ m.rows.length < 2 ^ 31 := by
  have hmem : ∀ s, s ∈ hash.order indices ↔ s ∈ indices := fun s => (hash.perm indices).mem_iff
  rw [exists_mapM_iff]
  constructor
  · intro h
    rcases List.eq_nil_or_concat indices with hnil | ⟨_, s, hsplit⟩
    · exact .inl hnil
    · obtain ⟨column, hcolumn⟩ := h s ((hmem s).mpr (by simp [hsplit]))
      obtain ⟨_, hint, -⟩ := bind_eq_ok.mp hcolumn
      exact .inr (int_natCast_eq_ok.mp hint).1
  · rintro (hnil | hlt) s hs
    · rw [hmem, hnil] at hs
      cases hs
    · have hcolumn : ∃ column, m.rows.mapM (fun iter => elementAt iter s) = ok column := by
        apply exists_mapM_eq_ok
        intro row hrow
        have hs' : s < row.length := by
          rw [m.rect row hrow]
          exact hindices s ((hmem s).mp hs)
        exact ⟨_, elementAt_of_lt hs'⟩
      obtain ⟨column, hcolumn⟩ := hcolumn
      exact ⟨column, bind_eq_ok.mpr ⟨_, int_natCast_eq_ok.mpr ⟨hlt, rfl⟩, hcolumn⟩⟩

/-- The tasks of the unrolled columns. -/
theorem mem_unrolledColumns {indices : List ℕ} {unrolled : Tasks}
    (h : (hash.order indices).mapM (fun taskIndex => do
        let _ ← int m.rows.length
        m.rows.mapM fun iter => elementAt iter taskIndex) = ok unrolled)
    {task : HloInstruction} (htask : task ∈ unrolled.flatten) :
    ∃ i s, s ∈ indices ∧ cell m.rows (i, s) = some task := by
  obtain ⟨column, hcolumn, htask⟩ := List.mem_flatten.mp htask
  obtain ⟨s, hs, hrun⟩ := exists_of_mem_mapM h hcolumn
  obtain ⟨_, -, hrun⟩ := bind_eq_ok.mp hrun
  obtain ⟨row, hrow, hget⟩ := exists_of_mem_mapM hrun htask
  obtain ⟨i, hi⟩ := List.getElem?_of_mem hrow
  refine ⟨i, s, (hash.perm indices).mem_iff.mp hs, ?_⟩
  rw [cell, hi]
  exact elementAt_eq_ok.mp hget

/-- The unrolling succeeds if it has a row, and leaves the tasks of the other columns out. -/
theorem unrollLoopIncrementTasks_eq_ok (hne : m.rows ≠ []) {indices : List ℕ}
    (hindices : ∀ s ∈ indices, s < m.columns) {α : Type} {custom : List α} :
    (indices = [] ∨ (custom ≠ [] ∧ m.rows.length < 2 ^ 31)) ∧
        (∃ schedule, unrollLoopIncrementTasks hash m.rows indices (custom.map fun _ => []) =
            ok (schedule, (m.remaining indices).rows) ∧ schedule.length = custom.length ∧
          ∀ task ∈ schedule.flatten, ∃ i s, s ∈ indices ∧ cell m.rows (i, s) = some task) ∨
      ¬ (indices = [] ∨ (custom ≠ [] ∧ m.rows.length < 2 ^ 31)) ∧
        ∀ r, unrollLoopIncrementTasks hash m.rows indices (custom.map fun _ => []) ≠ ok r := by
  have hexists := @unrolledColumns_eq_ok m hash indices hindices
  unfold unrollLoopIncrementTasks
  by_cases h : indices = [] ∨ (custom ≠ [] ∧ m.rows.length < 2 ^ 31)
  · refine .inl ⟨h, ?_⟩
    obtain ⟨unrolled, hunrolled⟩ := hexists.mpr (h.imp_right And.right)
    have htasks := fun task => @mem_unrolledColumns m hash indices unrolled hunrolled task
    rw [hunrolled, ok_bind]
    dsimp only
    split
    · refine ⟨_, rfl, by simp, ?_⟩
      intro task htask
      obtain ⟨row, hrow, htask⟩ := List.mem_flatten.mp htask
      obtain ⟨_, -, rfl⟩ := List.mem_map.mp hrow
      cases htask
    · rename_i hflat
      have hcustom : custom ≠ [] := by
        rcases h with rfl | ⟨hcustom, -⟩
        · rw [List.perm_nil.mp (hash.perm [])] at hunrolled
          cases hunrolled
          exact absurd rfl hflat
        · exact hcustom
      obtain ⟨entries, rest, rfl⟩ := List.exists_cons_of_ne_nil hcustom
      refine ⟨_, rfl, by simp, ?_⟩
      intro task htask
      simp only [List.map_cons, List.set_cons_zero, List.nil_append, List.flatten_cons,
        List.mem_append] at htask
      rcases htask with htask | htask
      · exact htasks task htask
      · obtain ⟨row, hrow, htask⟩ := List.mem_flatten.mp htask
        obtain ⟨_, -, rfl⟩ := List.mem_map.mp hrow
        cases htask
  · refine .inr ⟨h, ?_⟩
    rintro r hrun
    obtain ⟨unrolled, hunrolled, hrun⟩ := bind_eq_ok.mp hrun
    rcases hexists.mp ⟨unrolled, hunrolled⟩ with hnil | hlt
    · exact h (.inl hnil)
    · by_cases hnil : indices = []
      · exact h (.inl hnil)
      · apply h
        refine .inr ⟨?_, hlt⟩
        rintro rfl
        dsimp only at hrun
        split at hrun
        · rename_i hflat
          -- a column that is unrolled has a task for each iteration
          obtain ⟨s, hs⟩ := List.exists_mem_of_ne_nil _ hnil
          obtain ⟨k, hk⟩ := List.getElem?_of_mem ((hash.perm indices).mem_iff.mpr hs)
          obtain ⟨column, hcolumn, hrun⟩ := mapM_getElem? hunrolled hk
          obtain ⟨_, -, hrun⟩ := bind_eq_ok.mp hrun
          have hlength := (mapM_eq_ok.mp hrun).length_eq
          have hempty := List.flatten_eq_nil_iff.mp hflat column (List.mem_of_getElem? hcolumn)
          rw [hempty] at hlength
          exact hne (List.length_eq_zero_iff.mp hlength)
        · cases hrun

section custom

variable {config : LoopConfig} {custom : List (List (ℤ × String))}
  (hcustom : config.customSchedule = some custom) (hne : m.rows ≠ [])
  (hcolor : ∀ task ∈ m.rows.flatten, task.color.isSome = true)

include hcustom hne hcolor in
/-- What is left to do after the unrolling. -/
theorem scheduleCustom_eq : (∀ rows, scheduleCustom hash config m.rows ≠ ok rows) ∧
      ¬ m.HasRowForIncrements custom ∨ ∃ schedule : Tasks, m.HasRowForIncrements custom ∧
        schedule.length = custom.length ∧
        (∀ task ∈ schedule.flatten, ∃ i s, s ∈ incrementColumns (m.rows.head?.getD []) ∧
          cell m.rows (i, s) = some task) ∧
        scheduleCustom hash config m.rows =
          scheduleCustomSchedule custom m.pipelineTasks.rows schedule := by
  obtain ⟨first, tail, hrows⟩ := List.exists_cons_of_ne_nil hne
  have hhead : m.rows.head? = some first := by rw [hrows]; rfl
  have hfirst : ∀ task ∈ first, task.color.isSome = true := by
    intro task htask
    exact hcolor task (List.mem_flatten.mpr ⟨first, by simp [hrows], htask⟩)
  have hcolumns : ∀ s ∈ incrementColumns first, s < m.columns := by
    intro s hs
    rw [← m.rect first (by simp [hrows])]
    exact lt_of_mem_incrementColumns hs
  have hindices := getIndicesToUnroll_of_colored hhead hfirst
  have hunroll := @unrollLoopIncrementTasks_eq_ok m hash hne (incrementColumns first) hcolumns _ custom
  have hdefault : m.rows.head?.getD [] = first := by rw [hhead]; rfl
  unfold scheduleCustom HasRowForIncrements pipelineTasks
  rw [hcustom, deref_some, ok_bind, hindices, ok_bind, hdefault]
  rcases hunroll with ⟨hrow, schedule, hrun, hlength, htasks⟩ | ⟨hrow, hfails⟩
  · exact .inr ⟨schedule, hrow, hlength, htasks, by rw [hrun, ok_bind]⟩
  · refine .inl ⟨?_, hrow⟩
    intro rows h
    obtain ⟨r, hrun, -⟩ := bind_eq_ok.mp h
    exact hfails r hrun

end custom

end TaskMatrix

/-- The custom schedules that the checks judge as they should. -/
structure JudgedRight (m : TaskMatrix) (n : TaskNames m.pipelineTasks.rows)
    (custom : List (List (ℤ × String))) : Prop where
  has_row : ValidSchedule n custom → m.HasRowForIncrements custom
  names_apart : ValidSchedule n custom → ∀ row ∈ m.pipelineTasks.rows, ∀ name ∈ n.names,
    (row.filter fun task => hasName task name).length ≤ 1
  complete : PassesChecks custom m.pipelineTasks.rows → m.HasRowForIncrements custom →
    custom.flatten.Nodup ∧ (∀ name ∈ n.names, ∃ entry ∈ custom.flatten, entry.2 = name) ∧
      ∀ entry ∈ custom.flatten, entry.2 ∈ n.names

section names

variable {t : TaskMatrix} {n : TaskNames t.rows} {custom : List (List (ℤ × String))}

/-- The task of a name in a row. -/
theorem task_of_name {row : List HloInstruction} (hrow : row ∈ t.rows) {s : ℕ} {name : String}
    (hs : n.names[s]? = some name) : ∃ task, row[s]? = some task ∧ hasName task name = true := by
  have hrel := n.named row hrow
  obtain ⟨hlt, rfl⟩ := List.getElem?_eq_some_iff.mp hs
  have hlt' : s < row.length := hrel.length_eq ▸ hlt
  exact ⟨row[s], List.getElem?_eq_getElem hlt', hrel.get hlt' hlt⟩

/-- Where names are apart, the entry of a task finds the task. -/
theorem taskMapEntry_of_name {i s : ℕ} {name : String} {task task' : HloInstruction}
    (hunambiguous : ∀ row ∈ t.rows, (row.filter fun task => hasName task name).length ≤ 1)
    (hs : n.names[s]? = some name) (hcell : cell t.rows (i, s) = some task)
    (h : taskMapEntry t.rows t.columns (i : ℤ) name = ok task') : task' = task := by
  obtain ⟨-, row, hrow, hhead⟩ := 
    (@taskMapEntry_eq_ok t.rows t.columns t.rect ((i : ℤ), name) task').mp h
  simp only [Int.toNat_natCast] at hrow
  have hmem := List.mem_of_getElem? hrow
  obtain ⟨task'', htask'', hname⟩ := task_of_name hmem hs
  rw [cell, hrow, Option.bind_some, htask''] at hcell
  obtain rfl := Option.some.inj hcell
  have hin : task'' ∈ row.filter fun task => hasName task name :=
    List.mem_filter.mpr ⟨List.mem_of_getElem? htask'', hname⟩
  have hin' := List.mem_of_head? hhead
  have hone := hunambiguous row hmem
  obtain ⟨x, hx⟩ := List.length_eq_one_iff.mp (le_antisymm hone (List.length_pos_of_mem hin))
  rw [hx, List.mem_singleton] at hin hin'
  rw [hin, hin']

/-- A valid schedule passes the checks, unless a name is part of another task's colour. -/
theorem passesChecks_of_valid (h : ValidSchedule n custom)
    (hapart : ∀ row ∈ t.rows, ∀ name ∈ n.names,
      (row.filter fun task => hasName task name).length ≤ 1) : PassesChecks custom t.rows where
  counts := by
    intro entry hentry
    have hname := (h.1 entry hentry).2.2
    rw [count_name_eq_sum fun e he _ => ⟨(h.1 e he).1, (h.1 e he).2.1⟩]
    rw [Finset.sum_congr rfl fun i hi => h.2 i (Finset.mem_range.mp hi) entry.2 hname]
    simp
  unambiguous := fun entry hentry row hrow => hapart row hrow entry.2 (h.1 entry hentry).2.2
  found := by
    intro entry hentry
    obtain ⟨hpos, hlt, hname⟩ := h.1 entry hentry
    have hlt' : entry.1.toNat < t.rows.length := by omega
    obtain ⟨s, hs⟩ := List.getElem?_of_mem hname
    obtain ⟨task, htask, hnamed⟩ := task_of_name (List.getElem_mem hlt') hs
    exact ⟨hpos, _, List.getElem?_eq_getElem hlt', task, List.mem_of_getElem? htask, hnamed⟩

/-- A schedule that passes the checks is valid if it leaves no name out, has no pair twice and
uses no other names. -/
theorem valid_of_passesChecks (h : PassesChecks custom t.rows) (hnodup : custom.flatten.Nodup)
    (hmentioned : ∀ name ∈ n.names, ∃ entry ∈ custom.flatten, entry.2 = name)
    (hnames : ∀ entry ∈ custom.flatten, entry.2 ∈ n.names) : ValidSchedule n custom := by
  have hrange : ∀ entry ∈ custom.flatten, 0 ≤ entry.1 ∧ entry.1 < t.rows.length := by
    intro entry hentry
    obtain ⟨hpos, row, hrow, -⟩ := h.found entry hentry
    have hlt := (List.getElem?_eq_some_iff.mp hrow).1
    exact ⟨hpos, by omega⟩
  constructor
  · intro entry hentry
    exact ⟨(hrange entry hentry).1, (hrange entry hentry).2, hnames entry hentry⟩
  · intro i hi name hname
    obtain ⟨entry, hentry, rfl⟩ := hmentioned name hname
    exact count_eq_one_of_nodup (fun e he _ => hrange e he) hnodup (h.counts entry hentry) hi

/-- A valid schedule has every task once. -/
theorem count_found (h : ValidSchedule n custom)
    (hapart : ∀ row ∈ t.rows, ∀ name ∈ n.names,
      (row.filter fun task => hasName task name).length ≤ 1) {found : List HloInstruction}
    (hfound : List.Forall₂ (fun entry task =>
      taskMapEntry t.rows t.columns entry.1 entry.2 = ok task) custom.flatten found)
    {task : HloInstruction} (htask : task ∈ t.rows.flatten) : found.count task = 1 := by
  obtain ⟨row, hrow, htask⟩ := List.mem_flatten.mp htask
  obtain ⟨i, hi⟩ := List.getElem?_of_mem hrow
  obtain ⟨s, hs⟩ := List.getElem?_of_mem htask
  have hlength := (n.named row hrow).length_eq
  have hlt : s < n.names.length := hlength ▸ (List.getElem?_eq_some_iff.mp hs).1
  have hcell : cell t.rows (i, s) = some task := by
    rw [cell, hi]
    exact hs
  rw [count_eq_of_forall₂ hfound (x := ((i : ℤ), n.names[s]))]
  · exact h.2 i (List.getElem?_eq_some_iff.mp hi).1 _ (List.getElem_mem hlt)
  · rintro ⟨i', name'⟩ hentry task' hrun
    obtain ⟨hpos, hlt', hname'⟩ := h.1 _ hentry
    dsimp only at hpos hlt' hname' hrun
    obtain ⟨k, rfl⟩ := Int.eq_ofNat_of_zero_le hpos
    obtain ⟨s', hs'⟩ := List.getElem?_of_mem hname'
    have hk : k < t.rows.length := by omega
    obtain ⟨task'', htask'', -⟩ := task_of_name (List.getElem_mem hk) hs'
    have hcell' : cell t.rows (k, s') = some task'' := by
      rw [cell, List.getElem?_eq_getElem hk]
      exact htask''
    have heq := taskMapEntry_of_name (fun row hrow => hapart row hrow name' hname') hs' hcell' hrun
    subst heq
    constructor
    · rintro rfl
      obtain ⟨rfl, rfl⟩ := Prod.mk.inj (TaskMatrix.cell_injective hcell' hcell)
      rw [List.getElem?_eq_getElem hlt] at hs'
      rw [Option.some.inj hs']
    · intro hpair
      obtain ⟨hk', hname⟩ := Prod.mk.inj hpair
      obtain rfl : k = i := by omega
      have hname' : n.names[s]? = some name' := by rw [List.getElem?_eq_getElem hlt, hname]
      have hindex := (List.getElem?_inj hlt n.nodup).mp (hname'.trans hs'.symm)
      rw [← hindex] at hcell'
      exact Option.some.inj (hcell'.symm.trans hcell)

end names

/-- The tasks of the unrolled columns are not among the others. -/
theorem not_mem_pipelineTasks {m : TaskMatrix} {task : HloInstruction} {i s : ℕ}
    (hs : s ∈ incrementColumns (m.rows.head?.getD [])) (hcell : cell m.rows (i, s) = some task) :
    task ∉ m.pipelineTasks.rows.flatten := by
  intro htask
  obtain ⟨row, hrow, htask⟩ := List.mem_flatten.mp htask
  obtain ⟨j, hj⟩ := List.getElem?_of_mem hrow
  obtain ⟨k, hk⟩ := List.getElem?_of_mem htask
  have hcell' : cell m.pipelineTasks.rows (j, k) = some task := by
    rw [cell, hj]
    exact hk
  obtain ⟨s', hs', hcell''⟩ := TaskMatrix.cell_remainingTasks hcell'
  obtain ⟨-, rfl⟩ := Prod.mk.inj (TaskMatrix.cell_injective hcell hcell'')
  exact (mem_keptColumns.mp (List.mem_of_getElem? hs')).2 hs

/-- A custom schedule is accepted if and only if it is valid, and an accepted one schedules
every task once, if and only if the checks judge it right. -/
theorem scheduleCustom_validates_iff (hash : HashOrder) (config : LoopConfig) (m : TaskMatrix)
    (custom : List (List (ℤ × String))) (n : TaskNames m.pipelineTasks.rows)
    (hcustom : config.customSchedule = some custom) (hne : m.rows ≠ [])
    (hcolor : ∀ task ∈ m.rows.flatten, task.color.isSome = true) :
    (((∃ rows, scheduleCustom hash config m.rows = ok rows) ↔ ValidSchedule n custom) ∧
      ∀ rows, scheduleCustom hash config m.rows = ok rows →
        ∀ task ∈ m.pipelineTasks.rows.flatten, rows.flatten.count task = 1) ↔
      JudgedRight m n custom := by
  have hne' : m.pipelineTasks.rows ≠ [] := by
    show remainingTasks m.rows _ ≠ []
    simpa [remainingTasks] using hne
  have haccepted : (∃ rows, scheduleCustom hash config m.rows = ok rows) ↔
      PassesChecks custom m.pipelineTasks.rows ∧ m.HasRowForIncrements custom := by
    rcases @TaskMatrix.scheduleCustom_eq m hash config custom hcustom hne hcolor with
      ⟨hfails, hrow⟩ | ⟨schedule, hrow, hlength, -, heq⟩
    · exact iff_of_false (fun ⟨rows, h⟩ => hfails rows h) fun h => hrow h.2
    · simp only [heq, scheduleCustomSchedule_eq_ok m.pipelineTasks.rect hne' hlength]
      constructor
      · rintro ⟨rows, hpasses, -⟩
        exact ⟨hpasses, hrow⟩
      · rintro ⟨hpasses, -⟩
        obtain ⟨found, hfound⟩ := exists_found m.pipelineTasks.rect hpasses
        exact ⟨_, hpasses, found, hfound, rfl⟩
  have hmentioned : ValidSchedule n custom → ∀ name ∈ n.names,
      ∃ entry ∈ custom.flatten, entry.2 = name := by
    intro hvalid name hname
    have hone := hvalid.2 0 (List.length_pos_of_ne_nil hne') name hname
    have hmem := List.count_pos_iff.mp (Nat.lt_of_lt_of_eq Nat.zero_lt_one hone.symm)
    exact ⟨_, hmem, rfl⟩
  constructor
  · rintro ⟨hiff, -⟩
    refine ⟨fun hvalid => (haccepted.mp (hiff.mpr hvalid)).2, ?_, ?_⟩
    · intro hvalid row hrow name hname
      obtain ⟨entry, hentry, rfl⟩ := hmentioned hvalid name hname
      exact (haccepted.mp (hiff.mpr hvalid)).1.unambiguous entry hentry row hrow
    · intro hpasses hrow
      have hvalid := hiff.mp (haccepted.mpr ⟨hpasses, hrow⟩)
      refine ⟨?_, hmentioned hvalid, fun entry hentry => (hvalid.1 entry hentry).2.2⟩
      apply List.nodup_iff_count_le_one.mpr
      intro entry
      by_cases hentry : entry ∈ custom.flatten
      · obtain ⟨hpos, hlt, hname⟩ := hvalid.1 entry hentry
        have hone := hvalid.2 entry.1.toNat (by omega) entry.2 hname
        rw [Int.toNat_of_nonneg hpos] at hone
        exact hone.le
      · rw [List.count_eq_zero_of_not_mem hentry]
        exact Nat.zero_le 1
  · intro h
    have hvalid : (∃ rows, scheduleCustom hash config m.rows = ok rows) → ValidSchedule n custom := by
      intro hrun
      obtain ⟨hpasses, hrow⟩ := haccepted.mp hrun
      obtain ⟨hnodup, hall, hnames⟩ := h.complete hpasses hrow
      exact valid_of_passesChecks hpasses hnodup hall hnames
    refine ⟨⟨hvalid, ?_⟩, ?_⟩
    · intro hv
      exact haccepted.mpr ⟨passesChecks_of_valid hv (h.names_apart hv), h.has_row hv⟩
    · intro rows hrows task htask
      have hv := hvalid ⟨rows, hrows⟩
      rcases @TaskMatrix.scheduleCustom_eq m hash config custom hcustom hne hcolor with
        ⟨hfails, -⟩ | ⟨schedule, -, hlength, hunrolled, heq⟩
      · exact absurd hrows (hfails rows)
      · rw [heq, scheduleCustomSchedule_eq_ok m.pipelineTasks.rect hne' hlength] at hrows
        obtain ⟨-, found, hfound, rfl⟩ := hrows
        have hnot : task ∉ schedule.flatten := by
          intro hin
          obtain ⟨i, s, hs, hcell⟩ := hunrolled task hin
          exact not_mem_pipelineTasks hs hcell htask
        rw [count_zipWith_append (hlength.trans hfound.length_eq),
          List.count_eq_zero_of_not_mem hnot,
          count_found hv (h.names_apart hv) (List.rel_flatten hfound) htask]

/-! Two microbatches of two stages, the name of the one being part of the name of the other. -/

def namedTasks : TaskMatrix where
  rows := [[forwardTask 0 0 "fwd-1", forwardTask 0 1 "fwd-10"],
    [forwardTask 1 0 "fwd-1", forwardTask 1 1 "fwd-10"]]
  columns := 2
  rect := by decide
  distinct := by decide

def stageNames : TaskNames namedTasks.pipelineTasks.rows where
  names := ["fwd-1", "fwd-10"]
  nodup := by decide
  named := by decide +kernel

def customConfig (custom : List (List (ℤ × String))) : LoopConfig :=
  { numIterations := 2, schedule := .custom, customSchedule := some custom }

/-- A schedule with a pair twice, another one missing and a name left out is accepted; a valid
one is rejected, since one name is part of the other. -/
theorem scheduleCustom_misjudges :
    (scheduleCustom insertionOrder (customConfig [[(0, "fwd-10"), (0, "fwd-10")]])
        namedTasks.rows = ok [[forwardTask 0 1 "fwd-10", forwardTask 0 1 "fwd-10"]] ∧
      ¬ ValidSchedule stageNames [[(0, "fwd-10"), (0, "fwd-10")]]) ∧
    (scheduleCustom insertionOrder
        (customConfig [[(0, "fwd-1"), (1, "fwd-1"), (0, "fwd-10"), (1, "fwd-10")]])
        namedTasks.rows = error "Task fwd-1 appears multiple times in microbatch row 0" ∧
      ValidSchedule stageNames [[(0, "fwd-1"), (1, "fwd-1"), (0, "fwd-10"), (1, "fwd-10")]]) := by
  refine ⟨⟨by decide +kernel, ?_⟩, by decide +kernel, ?_⟩
  · rintro ⟨-, hcount⟩
    exact absurd (hcount 1 (by decide) "fwd-10" (by decide)) (by decide)
  · refine ⟨by decide, ?_⟩
    show ∀ i < 2, ∀ name ∈ ["fwd-1", "fwd-10"], _
    decide

theorem scheduleCustom_validates_iff_namedTasks :
    (((∃ rows, scheduleCustom insertionOrder
            (customConfig [[(0, "fwd-10")], [(1, "fwd-10")]]) namedTasks.rows = ok rows) ↔
          ValidSchedule stageNames [[(0, "fwd-10")], [(1, "fwd-10")]]) ∧
        ∀ rows, scheduleCustom insertionOrder
            (customConfig [[(0, "fwd-10")], [(1, "fwd-10")]]) namedTasks.rows = ok rows →
          ∀ task ∈ namedTasks.pipelineTasks.rows.flatten, rows.flatten.count task = 1) ↔
      JudgedRight namedTasks stageNames [[(0, "fwd-10")], [(1, "fwd-10")]] :=
  scheduleCustom_validates_iff insertionOrder _ namedTasks _ stageNames rfl (by decide)
    (by decide)

end LoopScheduler
end MultiMeshJax
