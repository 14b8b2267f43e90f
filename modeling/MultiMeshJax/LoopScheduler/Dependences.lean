import MultiMeshJax.LoopScheduler.WavefrontCoverage

/-! The order of a schedule against the dependences of its tasks, and the control edges
that the unrolling adds along it. -/
namespace MultiMeshJax
namespace LoopScheduler

open StatusOr

def nextOnDevices (partition : HloPartition) (devices : DeviceList) :
    List HloInstruction → StatusOr (Option HloInstruction)
  | [] => return none
  | rhs :: rest => do
    let rhsDevices ← partition.devicesForInstruction rhs
    if devices = rhsDevices then return some rhs else nextOnDevices partition devices rest

/-- The control edges along a row of the schedule: each task precedes the next one on the
same devices. -/
def controlDependencies (partition : HloPartition) :
    List HloInstruction → StatusOr (List (HloInstruction × HloInstruction))
  | [] => return []
  | lhs :: rest => do
    let lhsDevices ← partition.devicesForInstruction lhs
    let next ← nextOnDevices partition lhsDevices rest
    let edges ← controlDependencies partition rest
    return next.toList.map (fun rhs => (lhs, rhs)) ++ edges

theorem nextOnDevices_mem {partition : HloPartition} {devices : DeviceList}
    {row : List HloInstruction} {rhs : HloInstruction}
    (h : nextOnDevices partition devices row = ok (some rhs)) : rhs ∈ row := by
  induction row with
  | nil => cases h
  | cons task row ih =>
    obtain ⟨rhsDevices, -, h⟩ := bind_eq_ok.mp h
    split at h
    · cases h
      exact List.mem_cons_self
    · exact List.mem_cons_of_mem _ (ih h)

/-- A control edge leads from a task of the row to a later one. -/
theorem controlDependencies_sublist {partition : HloPartition} {row : List HloInstruction}
    {edges : List (HloInstruction × HloInstruction)}
    (h : controlDependencies partition row = ok edges) {lhs rhs : HloInstruction}
    (hedge : (lhs, rhs) ∈ edges) : List.Sublist [lhs, rhs] row := by
  induction row generalizing edges with
  | nil =>
    cases h
    simp at hedge
  | cons task row ih =>
    simp only [controlDependencies, bind_eq_ok] at h
    obtain ⟨lhsDevices, -, next, hnext, rest, hrest, h⟩ := h
    cases h
    rcases List.mem_append.mp hedge with hedge | hedge
    · obtain ⟨rhs', hrhs, heq⟩ := List.mem_map.mp hedge
      cases heq
      rw [Option.mem_toList] at hrhs
      apply List.Sublist.cons_cons
      exact List.singleton_sublist.mpr (nextOnDevices_mem (hrhs ▸ hnext))
    · exact (ih hrest hedge).cons _

/-- What the tasks of a loop depend on: a task of an earlier stage of the same iteration,
or the task of the same stage of the iteration before; the tasks of the loop-increment
columns only on one another. `depends c c'` reads: the task of `c'` uses that of `c`. -/
structure TaskDependences (m : TaskMatrix) where
  depends : ℕ × ℕ → ℕ × ℕ → Prop
  cells : ∀ c c', depends c c' → m.HasCell c ∧ m.HasCell c'
  forward : ∀ c c', depends c c' → (c'.1 = c.1 ∧ c.2 < c'.2) ∨ (c'.1 = c.1 + 1 ∧ c'.2 = c.2)
  increment : ∀ c c', depends c c' → c'.2 ∈ incrementColumns (m.rows.head?.getD []) →
    c.2 ∈ incrementColumns (m.rows.head?.getD [])

namespace TaskDependences

variable {m : TaskMatrix} {d : TaskDependences m}

/-- No task occurs in the row before a task that it depends on. -/
def Respects (d : TaskDependences m) (row : List HloInstruction) : Prop :=
  ∀ c c' task task', d.depends c c' → cell m.rows c = some task → cell m.rows c' = some task' →
    ∀ p q : ℕ, row[p]? = some task → row[q]? = some task' → p < q

/-- The edges of the unrolled graph between the tasks of two cells. -/
def Edge (d : TaskDependences m) (control : List (HloInstruction × HloInstruction))
    (c c' : ℕ × ℕ) : Prop :=
  d.depends c c' ∨ ∃ task task', cell m.rows c = some task ∧ cell m.rows c' = some task' ∧
    (task, task') ∈ control

def Acyclic (d : TaskDependences m) (control : List (HloInstruction × HloInstruction)) : Prop :=
  ∀ c, ¬ Relation.TransGen (d.Edge control) c c

/-- The hash set hands out a loop-increment column before the columns that depend on it. -/
def HashRespects (d : TaskDependences m) (hash : HashOrder) : Prop :=
  ∀ i s s', d.depends (i, s) (i, s') → s' ∈ incrementColumns (m.rows.head?.getD []) →
    (hash.order (incrementColumns (m.rows.head?.getD []))).idxOf s <
      (hash.order (incrementColumns (m.rows.head?.getD []))).idxOf s'

section rank

variable {α : Type} [LinearOrder α] {rank : ℕ × ℕ → α} {cells : List (ℕ × ℕ)}
  {row : List HloInstruction}

theorem index_lt_of_rank_lt (hsorted : cells.Pairwise fun c c' => rank c < rank c')
    {c c' : ℕ × ℕ} {p q : ℕ} (hp : cells[p]? = some c) (hq : cells[q]? = some c')
    (h : rank c < rank c') : p < q := by
  obtain ⟨hlt, rfl⟩ := List.getElem?_eq_some_iff.mp hp
  obtain ⟨hlt', rfl⟩ := List.getElem?_eq_some_iff.mp hq
  rcases lt_trichotomy p q with hpq | rfl | hqp
  · exact hpq
  · exact absurd h (lt_irrefl _)
  · exact absurd h (List.pairwise_iff_getElem.mp hsorted q p hlt' hlt hqp).asymm

theorem cell_of_listed (hlists : Lists m.rows cells row) {p : ℕ} {c : ℕ × ℕ}
    {task : HloInstruction} (hc : cell m.rows c = some task) (htask : row[p]? = some task) :
    cells[p]? = some c := by
  obtain ⟨hp, rfl⟩ := List.getElem?_eq_some_iff.mp htask
  have hp' : p < cells.length := hlists.length_eq ▸ hp
  have hcell := hlists.get hp' hp
  rw [List.getElem?_eq_getElem hp']
  exact congrArg some (TaskMatrix.cell_injective hcell hc)

/-- In a row that lists cells by rising rank, the rank decides the order. -/
theorem respects_of_rank (hlists : Lists m.rows cells row)
    (hsorted : cells.Pairwise fun c c' => rank c < rank c')
    (hrank : ∀ c c', d.depends c c' → rank c < rank c') : d.Respects row := by
  intro c c' task task' hdep hc hc' p q hp hq
  exact index_lt_of_rank_lt hsorted (cell_of_listed hlists hc hp) (cell_of_listed hlists hc' hq)
    (hrank c c' hdep)

theorem rank_lt_of_respects (hlists : Lists m.rows cells row)
    (hsorted : cells.Pairwise fun c c' => rank c < rank c') (h : d.Respects row)
    {c c' : ℕ × ℕ} (hdep : d.depends c c') (hc : c ∈ cells) (hc' : c' ∈ cells) :
    rank c < rank c' := by
  obtain ⟨p, hp, rfl⟩ := List.getElem_of_mem hc
  obtain ⟨q, hq, rfl⟩ := List.getElem_of_mem hc'
  have hcell := hlists.get hp (hlists.length_eq ▸ hp)
  have hcell' := hlists.get hq (hlists.length_eq ▸ hq)
  apply List.pairwise_iff_getElem.mp hsorted p q hp hq
  exact h _ _ _ _ hdep hcell hcell' p q (List.getElem?_eq_getElem _) (List.getElem?_eq_getElem _)

theorem lt_of_transGen {β : Type} {r : β → β → Prop} {rank : β → α}
    (h : ∀ a b, r a b → rank a < rank b) {a b : β} (hpath : Relation.TransGen r a b) :
    rank a < rank b := by
  induction hpath with
  | single hab => exact h _ _ hab
  | tail _ hbc ih => exact ih.trans (h _ _ hbc)

/-- The control edges follow the row, and the dependences follow the rank. -/
theorem acyclic_of_rank {partition : HloPartition}
    {control : List (HloInstruction × HloInstruction)} (hlists : Lists m.rows cells row)
    (hsorted : cells.Pairwise fun c c' => rank c < rank c')
    (hrank : ∀ c c', d.depends c c' → rank c < rank c')
    (hcontrol : controlDependencies partition row = ok control) : d.Acyclic control := by
  intro c hcycle
  refine lt_irrefl (rank c) (lt_of_transGen ?_ hcycle)
  rintro a b (hdep | ⟨task, task', ha, hb, hedge⟩)
  · exact hrank a b hdep
  · have hsub := controlDependencies_sublist hcontrol hedge
    obtain ⟨f, hf⟩ := List.sublist_iff_exists_orderEmbedding_getElem?_eq.mp hsub
    have hlt : f 0 < f 1 := f.lt_iff_lt.mpr Nat.zero_lt_one
    obtain ⟨hp, hcp⟩ := List.getElem?_eq_some_iff.mp
      (cell_of_listed hlists ha (by simpa using (hf 0).symm))
    obtain ⟨hq, hcq⟩ := List.getElem?_eq_some_iff.mp
      (cell_of_listed hlists hb (by simpa using (hf 1).symm))
    rw [← hcp, ← hcq]
    exact List.pairwise_iff_getElem.mp hsorted _ _ hp hq hlt

end rank

end TaskDependences

theorem pairwise_idxOf {order : List ℕ} (h : order.Nodup) :
    order.Pairwise fun s s' => order.idxOf s < order.idxOf s' := by
  apply List.pairwise_iff_getElem.mpr
  intro p q hp hq hlt
  rwa [h.idxOf_getElem, h.idxOf_getElem]

/-- A cell of a schedule that goes column by column. -/
def columnRank (order : List ℕ) (c : ℕ × ℕ) : ℕ ×ₗ ℕ := toLex (order.idxOf c.2, c.1)

theorem columnRank_pairwise {order : List ℕ} (h : order.Nodup) (iterations : ℕ) :
    (order.flatMap fun s => (List.range iterations).map fun i => (i, s)).Pairwise
      fun c c' => columnRank order c < columnRank order c' := by
  apply List.pairwise_flatMap.mpr
  constructor
  · intro s _
    apply List.pairwise_map.mpr
    apply List.pairwise_lt_range.imp
    intro i i' hlt
    exact Prod.Lex.toLex_lt_toLex.mpr (.inr ⟨rfl, hlt⟩)
  · apply (pairwise_idxOf h).imp
    intro s s' hlt c hc c' hc'
    obtain ⟨i, -, rfl⟩ := List.mem_map.mp hc
    obtain ⟨i', -, rfl⟩ := List.mem_map.mp hc'
    exact Prod.Lex.toLex_lt_toLex.mpr (.inl hlt)

/-- A cell of a wavefront schedule: the unrolled columns come first. -/
def wavefrontRank (order kept : List ℕ) (group delay : ℕ) (c : ℕ × ℕ) : ℕ ×ₗ (ℕ ×ₗ ℕ) :=
  if c.2 ∈ order then toLex (0, columnRank order c)
  else toLex (1, WavefrontGrid.rank group delay (c.1, kept.idxOf c.2))

namespace TaskMatrix

variable {m : TaskMatrix}

theorem wavefrontRank_pairwise {order indices : List ℕ} {stages group delay waves : ℕ}
    (horder : order.Perm indices) (hindices : indices.Nodup) (hd : 0 < delay)
    (hstages : stages = (keptColumns m.columns indices).length) :
    (m.wavefrontCells order indices
      (WavefrontGrid.slots stages m.rows.length group delay waves)).Pairwise fun c c' =>
        wavefrontRank order (keptColumns m.columns indices) group delay c <
          wavefrontRank order (keptColumns m.columns indices) group delay c' := by
  have hunrolled : ∀ c ∈ order.flatMap fun s => (List.range m.rows.length).map fun i => (i, s),
      wavefrontRank order (keptColumns m.columns indices) group delay c =
        toLex (0, columnRank order c) := by
    intro c hc
    obtain ⟨s, hs, hc⟩ := List.mem_flatMap.mp hc
    obtain ⟨i, -, rfl⟩ := List.mem_map.mp hc
    exact if_pos hs
  have hslot : ∀ c ∈ WavefrontGrid.slots stages m.rows.length group delay waves,
      wavefrontRank order (keptColumns m.columns indices) group delay
          (c.1, (keptColumns m.columns indices).getD c.2 0) =
        toLex (1, WavefrontGrid.rank group delay c) := by
    intro c hc
    have hlt : c.2 < (keptColumns m.columns indices).length :=
      hstages ▸ WavefrontGrid.lt_of_mem_slots hc
    have hnot : (keptColumns m.columns indices)[c.2] ∉ order := by
      rw [horder.mem_iff]
      exact (mem_keptColumns.mp (List.getElem_mem hlt)).2
    rw [List.getD_eq_getElem _ _ hlt, wavefrontRank, if_neg hnot,
      (nodup_keptColumns _ _).idxOf_getElem]
  unfold wavefrontCells
  apply List.pairwise_append.mpr
  refine ⟨?_, ?_, ?_⟩
  · apply (columnRank_pairwise (horder.nodup_iff.mpr hindices) m.rows.length).imp_of_mem
    intro c c' hc hc' hlt
    rw [hunrolled c hc, hunrolled c' hc']
    exact Prod.Lex.toLex_lt_toLex.mpr (.inr ⟨rfl, hlt⟩)
  · apply List.pairwise_map.mpr
    apply (WavefrontGrid.slots_pairwise hd waves).imp_of_mem
    intro c c' hc hc' hlt
    rw [hslot c hc, hslot c' hc']
    exact Prod.Lex.toLex_lt_toLex.mpr (.inr ⟨rfl, hlt⟩)
  · intro c hc c' hc'
    obtain ⟨c', hslots, rfl⟩ := List.mem_map.mp hc'
    rw [hunrolled c hc, hslot c' hslots]
    exact Prod.Lex.toLex_lt_toLex.mpr (.inl Nat.zero_lt_one)

end TaskMatrix

namespace TaskDependences

variable {m : TaskMatrix} {d : TaskDependences m}

/-- Column after column, the columns in order, follows the dependences. -/
theorem columnRank_lt {c c' : ℕ × ℕ} (h : d.depends c c') :
    columnRank (List.range m.columns) c < columnRank (List.range m.columns) c' := by
  obtain ⟨hc, hc'⟩ := d.cells c c' h
  apply Prod.Lex.toLex_lt_toLex.mpr
  rcases d.forward c c' h with ⟨-, hstage⟩ | ⟨hiter, hstage⟩
  · left
    exact idxOf_lt_idxOf List.pairwise_lt_range (List.mem_range.mpr hc.2)
      (List.mem_range.mpr hc'.2) hstage
  · right
    rw [hstage]
    exact ⟨rfl, by omega⟩

/-- The waves follow the dependences, except for those between the unrolled columns. -/
theorem wavefrontRank_lt {hash : HashOrder} {group delay : ℕ} (hhash : d.HashRespects hash)
    {c c' : ℕ × ℕ} (h : d.depends c c') :
    wavefrontRank (hash.order (incrementColumns (m.rows.head?.getD [])))
        (keptColumns m.columns (incrementColumns (m.rows.head?.getD []))) group delay c <
      wavefrontRank (hash.order (incrementColumns (m.rows.head?.getD [])))
        (keptColumns m.columns (incrementColumns (m.rows.head?.getD []))) group delay c' := by
  obtain ⟨i, s⟩ := c
  obtain ⟨i', s'⟩ := c'
  obtain ⟨hc, hc'⟩ := d.cells _ _ h
  have hincrement := d.increment _ _ h
  simp only [wavefrontRank, (hash.perm _).mem_iff]
  rcases d.forward _ _ h with ⟨hiter, hstage⟩ | ⟨hiter, hstage⟩ <;> dsimp only at hiter hstage
  · subst hiter
    by_cases hs' : s' ∈ incrementColumns (m.rows.head?.getD [])
    · rw [if_pos hs', if_pos (hincrement hs')]
      refine Prod.Lex.toLex_lt_toLex.mpr (.inr ⟨rfl, ?_⟩)
      exact Prod.Lex.toLex_lt_toLex.mpr (.inl (hhash i' s s' h hs'))
    · by_cases hs : s ∈ incrementColumns (m.rows.head?.getD [])
      · rw [if_pos hs, if_neg hs']
        exact Prod.Lex.toLex_lt_toLex.mpr (.inl Nat.zero_lt_one)
      · rw [if_neg hs, if_neg hs']
        refine Prod.Lex.toLex_lt_toLex.mpr (.inr ⟨rfl, ?_⟩)
        refine Prod.Lex.toLex_lt_toLex.mpr (.inl (Nat.add_lt_add_right ?_ _))
        exact idxOf_lt_idxOf (List.pairwise_lt_range.filter _) (mem_keptColumns.mpr ⟨hc.2, hs⟩)
          (mem_keptColumns.mpr ⟨hc'.2, hs'⟩) hstage
  · subst hiter hstage
    split
    · refine Prod.Lex.toLex_lt_toLex.mpr (.inr ⟨rfl, ?_⟩)
      exact Prod.Lex.toLex_lt_toLex.mpr (.inr ⟨rfl, Nat.lt_succ_self i⟩)
    · refine Prod.Lex.toLex_lt_toLex.mpr (.inr ⟨rfl, ?_⟩)
      have hphase := WavefrontGrid.phase_mono group delay (Nat.le_succ i)
      rcases hphase.lt_or_eq with hlt | heq
      · exact Prod.Lex.toLex_lt_toLex.mpr (.inl (Nat.add_lt_add_left hlt _))
      · exact Prod.Lex.toLex_lt_toLex.mpr
          (.inr ⟨congrArg (_ + ·) heq, Nat.lt_succ_self i⟩)

/-- A row follows the dependences, and so do the control edges along it. -/
structure Ordered (d : TaskDependences m) (partition : HloPartition)
    (row : List HloInstruction) : Prop where
  respects : d.Respects row
  acyclic : ∀ control, controlDependencies partition row = ok control → d.Acyclic control

theorem ordered_of_rank {α : Type} [LinearOrder α] {rank : ℕ × ℕ → α} {cells : List (ℕ × ℕ)}
    {row : List HloInstruction} {partition : HloPartition} (hlists : Lists m.rows cells row)
    (hsorted : cells.Pairwise fun c c' => rank c < rank c')
    (hrank : ∀ c c', d.depends c c' → rank c < rank c') : d.Ordered partition row :=
  ⟨respects_of_rank hlists hsorted hrank, fun _ => acyclic_of_rank hlists hsorted hrank⟩

theorem scheduleGpipe_ordered {config : LoopConfig} {partition : HloPartition} {rows : Tasks}
    (h : scheduleGpipe config m.rows = ok rows) : ∃ row, rows = [row] ∧ d.Ordered partition row := by
  obtain ⟨first, row, hfirst, rfl, hlists⟩ := scheduleGpipe_lists h
  rw [m.rect first (List.mem_of_getElem? hfirst)] at hlists
  exact ⟨row, rfl, ordered_of_rank hlists (columnRank_pairwise List.nodup_range _)
    fun _ _ => columnRank_lt⟩

/-- With fewer than two columns there is nothing for the hash set to reorder. -/
theorem hashRespects_of_le_one {hash : HashOrder} (h : m.columns ≤ 1) : d.HashRespects hash := by
  intro i s s' hdep _
  have hlt := (d.cells _ _ hdep).2.2
  rcases d.forward _ _ hdep with ⟨-, hstage⟩ | ⟨hiter, -⟩
  · exact absurd hlt (by dsimp only at hstage ⊢; omega)
  · exact absurd hiter (by simp)

theorem prefetchWavefront_ordered_iff {hash : HashOrder} {config : LoopConfig}
    {partition : HloPartition} {first : List HloInstruction} {rows : Tasks}
    (hfirst : m.rows[0]? = some first) (hiter : config.numIterations = m.rows.length)
    (hstages : ∀ k, config.numStages = some k → 0 < k)
    (h : prefetchWavefront hash partition config (incrementColumns first) m.rows = ok rows) :
    (∃ row, rows = [row] ∧ d.Ordered partition row) ↔ d.HashRespects hash := by
  obtain ⟨row, delay, waves, rfl, hpos, -, -, -, hlists⟩ :=
    TaskMatrix.prefetchWavefront_lists hfirst hiter hstages h
  have hhead : m.rows.head?.getD [] = first := by
    rw [List.head?_eq_getElem?, hfirst, Option.getD_some]
  rw [← hhead] at hlists
  have hsorted := @TaskMatrix.wavefrontRank_pairwise m
    (hash.order (incrementColumns (m.rows.head?.getD [])))
    (incrementColumns (m.rows.head?.getD [])) _
    (numGroups (pipelineDevices partition (pipelineRow m.rows))) delay waves
    (hash.perm _) (nodup_incrementColumns _) hpos rfl
  constructor
  · rintro ⟨row', hrow, hordered⟩
    obtain rfl := List.singleton_inj.mp hrow
    intro i s s' hdep hs'
    have hs := d.increment _ _ hdep hs'
    obtain ⟨hc, hc'⟩ := d.cells _ _ hdep
    have hmem : ∀ t ∈ incrementColumns (m.rows.head?.getD []), (i, t) ∈ m.wavefrontCells
        (hash.order (incrementColumns (m.rows.head?.getD [])))
        (incrementColumns (m.rows.head?.getD [])) (WavefrontGrid.slots
          (keptColumns m.columns (incrementColumns (m.rows.head?.getD []))).length m.rows.length
          (numGroups (pipelineDevices partition (pipelineRow m.rows))) delay waves) := by
      intro t ht
      apply List.mem_append_left
      apply List.mem_flatMap.mpr
      exact ⟨t, (hash.perm _).mem_iff.mpr ht, List.mem_map.mpr ⟨i, List.mem_range.mpr hc.1, rfl⟩⟩
    have hlt := rank_lt_of_respects hlists hsorted hordered.respects hdep (hmem s hs) (hmem s' hs')
    simp only [wavefrontRank, (hash.perm _).mem_iff, hs, hs', if_true] at hlt
    rcases Prod.Lex.toLex_lt_toLex.mp hlt with hlt | ⟨-, hlt⟩
    · exact absurd hlt (lt_irrefl _)
    · rcases Prod.Lex.toLex_lt_toLex.mp hlt with hlt | ⟨-, hlt⟩
      · exact hlt
      · exact absurd hlt (lt_irrefl _)
  · intro hhash
    exact ⟨row, rfl, ordered_of_rank hlists hsorted fun _ _ => wavefrontRank_lt hhash⟩

end TaskDependences

theorem scheduleWavefront_ordered_iff {m : TaskMatrix} {d : TaskDependences m} {hash : HashOrder}
    {config : LoopConfig} {partition : HloPartition} {rows : Tasks}
    (hiter : config.numIterations = m.rows.length)
    (hstages : ∀ k, config.numStages = some k → 0 < k)
    (h : scheduleWavefront hash partition config m.rows = ok rows) :
    (∃ row, rows = [row] ∧ d.Ordered partition row) ↔ d.HashRespects hash := by
  rcases scheduleWavefront_cases h with ⟨rfl, hempty⟩ | ⟨hone, h⟩ | ⟨-, first, hfirst, h⟩
  · have hhash : d.HashRespects hash := by
      intro i s s' hdep _
      obtain ⟨hi, hs⟩ := (d.cells _ _ hdep).1
      rcases hempty with hnil | hzero
      · simp [hnil] at hi
      · omega
    refine iff_of_true ⟨[], rfl, ?_⟩ hhash
    have hnil : Lists m.rows [] [] := .nil
    exact TaskDependences.ordered_of_rank hnil .nil fun _ _ => TaskDependences.columnRank_lt
  · exact iff_of_true (TaskDependences.scheduleGpipe_ordered h)
      (TaskDependences.hashRespects_of_le_one hone.le)
  · exact TaskDependences.prefetchWavefront_ordered_iff hfirst hiter hstages h

/-- The row of a fill-drain or wavefront schedule follows the dependences, and the graph
with its control edges is acyclic, if and only if the hash set of the loop-increment
columns hands them out in the order of their dependences. -/
theorem scheduleLoops_ordered_iff (hash : HashOrder) (queue : StageQueue)
    (partition : HloPartition) (operandsOf : ℕ → List ℕ) (config : LoopConfig)
    (m : TaskMatrix) (d : TaskDependences m) (rows : Tasks)
    (hschedule : config.schedule = .fillDrain ∨ config.schedule.isWavefront = true)
    (hiter : config.numIterations = m.rows.length)
    (hstages : ∀ k, config.numStages = some k → 0 < k)
    (h : scheduleLoops hash queue partition operandsOf config m.rows = ok rows) :
    (∃ row, rows = [row] ∧ d.Ordered partition row) ↔
      config.schedule = .fillDrain ∨ d.HashRespects hash := by
  unfold scheduleLoops at h
  cases hs : config.schedule <;> simp only [hs] at h hschedule
  case fillDrain => exact iff_of_true (TaskDependences.scheduleGpipe_ordered h) (.inl rfl)
  case custom => simp [Schedule.isWavefront] at hschedule
  case zeroBubbleH2 => simp [Schedule.isWavefront] at hschedule
  case prefetchWavefront =>
    rw [or_iff_right (by simp)]
    exact scheduleWavefront_ordered_iff hiter hstages (schedulePrefetchWavefront_eq h)
  all_goals
    rw [or_iff_right (by simp)]
    exact scheduleWavefront_ordered_iff hiter hstages h

/-! Two loop-increment tasks of one iteration, of which the second uses the first, and a
hash set that hands out the second one first. -/

def reversedOrder : HashOrder := ⟨List.reverse, List.reverse_perm⟩

def incrementTasks : TaskMatrix where
  rows := [[forwardTask 0 0 "loop_increment", forwardTask 0 1 "loop_increment.1"]]
  columns := 2
  rect := by decide
  distinct := by decide

def incrementDependences : TaskDependences incrementTasks where
  depends c c' := c = (0, 0) ∧ c' = (0, 1)
  cells := by
    rintro _ _ ⟨rfl, rfl⟩
    exact ⟨⟨by decide, by decide⟩, by decide, by decide⟩
  forward := by
    rintro _ _ ⟨rfl, rfl⟩
    exact .inl (by decide)
  increment := by
    rintro _ _ ⟨rfl, rfl⟩ _
    decide +kernel

/-- The task is scheduled before the task that it uses. -/
theorem scheduleLoops_reorders_increments :
    scheduleLoops reversedOrder stableQueue twoStagePartition (fun _ => [])
        { numIterations := 1, schedule := .wavefront } incrementTasks.rows =
      ok [[forwardTask 0 1 "loop_increment.1", forwardTask 0 0 "loop_increment"]] ∧
    ¬ incrementDependences.Respects
      [forwardTask 0 1 "loop_increment.1", forwardTask 0 0 "loop_increment"] := by
  refine ⟨by decide +kernel, ?_⟩
  intro h
  have hlt := h (0, 0) (0, 1) (forwardTask 0 0 "loop_increment")
    (forwardTask 0 1 "loop_increment.1") ⟨rfl, rfl⟩ rfl rfl 1 0 rfl rfl
  omega

theorem scheduleLoops_ordered_iff_incrementTasks :
    (∃ row, [[forwardTask 0 1 "loop_increment.1", forwardTask 0 0 "loop_increment"]] = [row] ∧
        incrementDependences.Ordered twoStagePartition row) ↔
      Schedule.wavefront = .fillDrain ∨ incrementDependences.HashRespects reversedOrder :=
  scheduleLoops_ordered_iff reversedOrder stableQueue twoStagePartition (fun _ => [])
    { numIterations := 1, schedule := .wavefront } incrementTasks incrementDependences _
    (.inr rfl) rfl (by simp) (by decide +kernel)

end LoopScheduler
end MultiMeshJax
