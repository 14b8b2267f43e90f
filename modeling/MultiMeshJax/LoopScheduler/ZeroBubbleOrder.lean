import MultiMeshJax.LoopScheduler.ZeroBubble
import MultiMeshJax.LoopScheduler.Dependences

/-! When the tasks of the zero-bubble schedule follow the tasks that they depend on. -/
namespace MultiMeshJax
namespace LoopScheduler

open StatusOr

/-- The key by which the queue is popped. -/
def groupKey (g : ℕ × ℕ × ℕ) : ℕ ×ₗ (ℕ ×ₗ ℕ) := toLex (g.1, toLex g.2)

theorem stageGroupLe_iff {a b : ℕ × ℕ × ℕ} :
    stageGroupLe a b = true ↔ groupKey a ≤ groupKey b := by
  obtain ⟨wf, mb, stage⟩ := a
  obtain ⟨wf', mb', stage'⟩ := b
  unfold stageGroupLe groupKey
  rw [Prod.Lex.toLex_le_toLex, Prod.Lex.toLex_le_toLex]
  dsimp only
  split
  · rename_i hwf
    rw [decide_eq_true_iff]
    constructor
    · exact fun h => .inl h
    · rintro (h | ⟨h, -⟩)
      · exact h
      · exact absurd h hwf
  · rename_i hwf
    split
    · rename_i hmb
      rw [decide_eq_true_iff]
      omega
    · rename_i hmb
      rw [decide_eq_true_iff]
      omega

theorem zeroBubbleGroups_pairwise (numMinibatches minibatchSize delay numStages : ℕ) :
    (zeroBubbleGroups numMinibatches minibatchSize delay numStages).Pairwise
      fun a b => groupKey a ≤ groupKey b := by
  have htotal : Std.Total fun a b : ℕ × ℕ × ℕ => stageGroupLe a b = true :=
    ⟨fun a b => by simpa only [stageGroupLe_iff] using le_total _ _⟩
  have htrans : IsTrans (ℕ × ℕ × ℕ) fun a b => stageGroupLe a b = true :=
    ⟨fun a b c => by simpa only [stageGroupLe_iff] using le_trans⟩
  unfold zeroBubbleGroups
  dsimp only
  apply (List.pairwise_insertionSort (fun a b => stageGroupLe a b = true) _).imp
  intro a b h
  exact stageGroupLe_iff.mp h

/-- The wave at which a microbatch starts. -/
def startWave (group delay i : ℕ) : ℕ := i / group * delay + i % group

theorem mem_zeroBubbleGroups {numMinibatches minibatchSize delay numStages : ℕ} {g : ℕ × ℕ × ℕ}
    (h : g ∈ zeroBubbleGroups numMinibatches minibatchSize delay numStages) :
    g.1 = g.2.2 + startWave minibatchSize delay g.2.1 := by
  have hmem := (List.perm_insertionSort _ _).mem_iff.mp h
  obtain ⟨minibatch, -, hmem⟩ := List.mem_flatMap.mp hmem
  obtain ⟨mb, hmb, hmem⟩ := List.mem_flatMap.mp hmem
  obtain ⟨stage, -, rfl⟩ := List.mem_map.mp hmem
  have hlt := List.mem_range.mp hmb
  have hg : 0 < minibatchSize := by omega
  have hdiv : (minibatch * minibatchSize + mb) / minibatchSize = minibatch := by
    rw [mul_comm, Nat.mul_add_div hg, Nat.div_eq_of_lt hlt, Nat.add_zero]
  have hmod : (minibatch * minibatchSize + mb) % minibatchSize = mb := by
    rw [mul_comm, Nat.mul_add_mod, Nat.mod_eq_of_lt hlt]
  unfold startWave
  dsimp only
  rw [hdiv, hmod]
  omega

/-- The wave of a task, and within a wave the microbatch. -/
def queueRank (group delay : ℕ) (stages : List ℕ) (c : ℕ × ℕ) : ℕ ×ₗ ℕ :=
  toLex (stages.idxOf c.2 + startWave group delay c.1, c.1)

/-- From one microbatch to the next the start falls back only at the end of a minibatch, and
only if the minibatch is longer than the delay. -/
theorem startWave_succ_iff {group delay i : ℕ} (hg : 0 < group) :
    startWave group delay i ≤ startWave group delay (i + 1) ↔
      (group ∣ i + 1 → group ≤ delay + 1) := by
  have hdiv : (i + 1) / group = i / group + if group ∣ i + 1 then 1 else 0 := Nat.succ_div
  have hi := Nat.div_add_mod i group
  have hi' := Nat.div_add_mod (i + 1) group
  have hlt := Nat.mod_lt i hg
  unfold startWave
  split at hdiv
  · rename_i hdvd
    have hzero := Nat.mod_eq_zero_of_dvd hdvd
    rw [hdiv, hzero, Nat.mul_succ, Nat.add_zero] at hi'
    rw [hdiv, hzero, Nat.succ_mul]
    constructor
    · intro h _
      omega
    · intro h
      have := h hdvd
      omega
  · rename_i hdvd
    rw [hdiv, Nat.add_zero] at hi'
    rw [hdiv, Nat.add_zero]
    refine iff_of_true ?_ fun h => absurd h hdvd
    omega

/-- What the tasks of a loop with critical stages depend on: a critical task of the same
microbatch, which is an earlier one if the task is critical itself, or the task of the same
stage of the microbatch before. -/
structure PipelineDependences (m : TaskMatrix) (critical : ℕ → Bool) where
  depends : ℕ × ℕ → ℕ × ℕ → Prop
  cells : ∀ c c', depends c c' → m.HasCell c ∧ m.HasCell c'
  forward : ∀ c c', depends c c' →
    (c'.1 = c.1 ∧ critical c.2 = true ∧ (critical c'.2 = true → c.2 < c'.2)) ∨
      (c'.1 = c.1 + 1 ∧ c'.2 = c.2)

namespace PipelineDependences

variable {m : TaskMatrix} {critical : ℕ → Bool} {d : PipelineDependences m critical}

/-- No task occurs in the row before a task that it depends on. -/
def Respects (d : PipelineDependences m critical) (row : List HloInstruction) : Prop :=
  ∀ c c' task task', d.depends c c' → cell m.rows c = some task → cell m.rows c' = some task' →
    ∀ p q : ℕ, row[p]? = some task → row[q]? = some task' → p < q

/-- A dependence leads from the last microbatch of a minibatch to the next minibatch. -/
def CrossesMinibatch (d : PipelineDependences m critical) (group : ℕ) : Prop :=
  ∃ c c', d.depends c c' ∧ c'.1 = c.1 + 1 ∧ group ∣ c'.1

/-- The rank follows the dependences if and only if no minibatch starts too early. -/
theorem queueRank_lt_iff {group delay : ℕ} {stages : List ℕ} (hg : 0 < group)
    (hstages : ∀ s s', s < m.columns → critical s = true → s' < m.columns →
      (critical s' = true → s < s') → stages.idxOf s < stages.idxOf s') :
    (∀ c c', d.depends c c' → queueRank group delay stages c < queueRank group delay stages c') ↔
      (d.CrossesMinibatch group → group ≤ delay + 1) := by
  have hnext : ∀ i s, queueRank group delay stages (i, s) < queueRank group delay stages (i + 1, s) ↔
      startWave group delay i ≤ startWave group delay (i + 1) := by
    intro i s
    unfold queueRank
    rw [Prod.Lex.toLex_lt_toLex]
    dsimp only
    omega
  constructor
  · rintro h ⟨⟨i, s⟩, ⟨i', s'⟩, hdep, hiter, hdvd⟩
    have hlt := h _ _ hdep
    dsimp only at hiter hdvd
    subst hiter
    rcases d.forward _ _ hdep with ⟨hsame, -⟩ | ⟨-, hstage⟩
    · exact absurd hsame (by simp)
    · dsimp only at hstage
      subst hstage
      exact (startWave_succ_iff hg).mp ((hnext i s').mp hlt) hdvd
  · rintro h ⟨i, s⟩ ⟨i', s'⟩ hdep
    obtain ⟨hc, hc'⟩ := d.cells _ _ hdep
    rcases d.forward _ _ hdep with ⟨hiter, hcritical, hlt⟩ | ⟨hiter, hstage⟩
    · dsimp only at hiter hcritical hlt
      subst hiter
      apply Prod.Lex.toLex_lt_toLex.mpr
      left
      exact Nat.add_lt_add_right (hstages s s' hc.2 hcritical hc'.2 hlt) _
    · dsimp only at hiter hstage
      subst hiter hstage
      apply (hnext i s').mpr
      apply (startWave_succ_iff hg).mpr
      intro hdvd
      exact h ⟨_, _, hdep, rfl, hdvd⟩

end PipelineDependences

namespace TaskMatrix

variable {m : TaskMatrix} {partition : HloPartition} {config : LoopConfig}

/-- The queue lists the cells by rising rank. -/
theorem zeroBubbleOrder_pairwise {delay : ℕ} {stages : List ℕ}
    (hperm : stages.Perm (List.range m.columns)) :
    (m.zeroBubbleOrder partition config delay stages).Pairwise fun c c' =>
      queueRank (m.deviceGroups partition) delay stages c <
        queueRank (m.deviceGroups partition) delay stages c' := by
  have hlen : stages.length = m.columns := by simpa using hperm.length_eq
  have hnodup : stages.Nodup := hperm.nodup_iff.mpr List.nodup_range
  have hpairs := (zeroBubbleGroups_perm (numMinibatches config (m.deviceGroups partition))
    (m.deviceGroups partition) delay m.columns).nodup_iff.mpr (nodup_zeroBubbleCells _ _)
  apply List.pairwise_map.mpr
  apply ((zeroBubbleGroups_pairwise _ _ _ _).and (List.pairwise_map.mp hpairs)).imp_of_mem
  rintro ⟨wf, mb, stage⟩ ⟨wf', mb', stage'⟩ hmem hmem' ⟨hle, hne⟩
  have hwf := mem_zeroBubbleGroups hmem
  have hwf' := mem_zeroBubbleGroups hmem'
  have hstage : ∀ g ∈ zeroBubbleGroups (numMinibatches config (m.deviceGroups partition))
      (m.deviceGroups partition) delay m.columns, stages.idxOf (stages.getD g.2.2 0) = g.2.2 := by
    intro g hg
    have hcell := (zeroBubbleGroups_perm _ _ _ _).mem_iff.mp (List.mem_map_of_mem (f := Prod.snd) hg)
    have hlt : g.2.2 < stages.length := hlen ▸ (mem_zeroBubbleCells.mp hcell).2
    rw [List.getD_eq_getElem _ _ hlt, hnodup.idxOf_getElem]
  unfold queueRank
  rw [hstage _ hmem, hstage _ hmem', Prod.Lex.toLex_lt_toLex]
  unfold groupKey at hle
  rw [Prod.Lex.toLex_le_toLex, Prod.Lex.toLex_le_toLex] at hle
  dsimp only at hwf hwf' hle hne ⊢
  rw [← hwf, ← hwf']
  have hne' : ¬ (mb = mb' ∧ stage = stage') := fun heq => hne (Prod.ext heq.1 heq.2)
  by_cases hmb : mb = mb'
  · subst hmb
    omega
  · omega

end TaskMatrix

/-- The row of the zero-bubble schedule schedules every task once, and every task follows the
tasks that it depends on if and only if no dependence crosses from one minibatch to the next
or the minibatches are not longer than the delay by more than one. -/
theorem scheduleZeroBubble_respects_iff (queue : StageQueue) (partition : HloPartition)
    (operandsOf : ℕ → List ℕ) (config : LoopConfig) (m : TaskMatrix) (critical : ℕ → Bool)
    (hiter : config.numIterations = m.rows.length)
    (hregistered : ∀ c task, cell m.rows c = some task → Registered partition task)
    (hcritical : ∀ c task, cell m.rows c = some task →
      isNonCritical partition task = !critical c.2)
    (d : PipelineDependences m critical) (rows : Tasks)
    (h : scheduleZeroBubble queue partition operandsOf config m.rows = ok rows) :
    (m.rows = [] ∨ SchedulesOnce m.rows rows) ∧
      ((∀ row ∈ rows, d.Respects row) ↔
        (d.CrossesMinibatch (m.deviceGroups partition) → m.deviceGroups partition ≤
          (((List.range m.columns).filter critical).length + 1) / 2 + 1)) := by
  by_cases hne : m.rows = []
  · refine ⟨.inl hne, iff_of_true ?_ ?_⟩
    · rw [scheduleZeroBubble, if_pos hne] at h
      cases h
      simp
    · rintro ⟨c, c', hdep, -⟩
      obtain ⟨hlt, -⟩ := (d.cells c c' hdep).1
      simp [hne] at hlt
  · obtain ⟨stages, hperm, hstages, hrun⟩ := @TaskMatrix.scheduleZeroBubble_eq_ok m queue partition
      operandsOf config critical hne hiter hregistered hcritical
    obtain ⟨-, row, rfl, hlists⟩ := (hrun rows).mp h
    have hg : 0 < m.deviceGroups partition := by simp [TaskMatrix.deviceGroups, numGroups]
    have hmem : ∀ c, m.HasCell c → c ∈ m.zeroBubbleOrder partition config
        ((((List.range m.columns).filter critical).length + 1) / 2) stages := by
      intro c hc
      have hle : config.numIterations ≤ _ := TaskMatrix.le_numMinibatches_mul hg
      rw [hiter] at hle
      exact (TaskMatrix.mem_zeroBubbleOrder hperm).mpr ⟨hc.1.trans_le hle, hc.2⟩
    have hsorted := @TaskMatrix.zeroBubbleOrder_pairwise m partition config
      ((((List.range m.columns).filter critical).length + 1) / 2) stages hperm
    refine ⟨.inr ?_, ?_⟩
    · exact (TaskMatrix.schedulesOnce_iff hlists (TaskMatrix.nodup_zeroBubbleOrder hperm)).mpr hmem
    · rw [← d.queueRank_lt_iff hg hstages]
      simp only [List.mem_singleton, forall_eq]
      constructor
      · intro hrespects c c' hdep
        obtain ⟨hc, hc'⟩ := d.cells c c' hdep
        obtain ⟨p, hp, hcp⟩ := List.getElem_of_mem (hmem c hc)
        obtain ⟨q, hq, hcq⟩ := List.getElem_of_mem (hmem c' hc')
        have hcell := hlists.get hp (hlists.length_eq ▸ hp)
        have hcell' := hlists.get hq (hlists.length_eq ▸ hq)
        simp only [List.get_eq_getElem, hcp] at hcell
        simp only [List.get_eq_getElem, hcq] at hcell'
        have hlt := hrespects c c' _ _ hdep hcell hcell' p q (List.getElem?_eq_getElem _)
          (List.getElem?_eq_getElem _)
        rw [← hcp, ← hcq]
        exact List.pairwise_iff_getElem.mp hsorted p q hp hq hlt
      · intro hrank c c' task task' hdep hc hc' p q hp hq
        exact TaskDependences.index_lt_of_rank_lt hsorted
          (TaskDependences.cell_of_listed hlists hc hp) (TaskDependences.cell_of_listed hlists hc' hq)
          (hrank c c' hdep)

/-! A forward pipeline of four stages on four device groups: a minibatch has four microbatches,
and the next one starts two waves later. -/

def fallingQueue : StageQueue where
  drain xs := xs.insertionSort fun a b => b.1 ≤ a.1
  perm xs := List.perm_insertionSort _ xs
  sorted xs := by
    have htotal : Std.Total fun a b : ℕ × ℕ => b.1 ≤ a.1 := ⟨fun a b => le_total b.1 a.1⟩
    have htrans : IsTrans (ℕ × ℕ) fun a b => b.1 ≤ a.1 := ⟨fun a b c h h' => h'.trans h⟩
    exact List.pairwise_insertionSort _ xs

def fourStagePartition : HloPartition where
  devices := ⟨0, 4⟩
  colors := [("forward_0", { name := "forward_0", devices := ⟨0, 1⟩ }),
    ("forward_1", { name := "forward_1", devices := ⟨1, 1⟩ }),
    ("forward_2", { name := "forward_2", devices := ⟨2, 1⟩ }),
    ("forward_3", { name := "forward_3", devices := ⟨3, 1⟩ })]

def fourStageTasks : TaskMatrix where
  rows := (List.range 8).map fun i =>
    [forwardTask (2 * i) 0 "forward_0", forwardTask (2 * i) 1 "forward_1",
      forwardTask (2 * i) 2 "forward_2", forwardTask (2 * i) 3 "forward_3"]
  columns := 4
  rect := by decide
  distinct := by decide +kernel

/-- Every stage uses the one before it, and its own result for the microbatch before. -/
def fourStageDependences : PipelineDependences fourStageTasks fun _ => true where
  depends c c' := fourStageTasks.HasCell c ∧ fourStageTasks.HasCell c' ∧
    ((c'.1 = c.1 ∧ c'.2 = c.2 + 1) ∨ (c'.1 = c.1 + 1 ∧ c'.2 = c.2))
  cells := fun _ _ h => ⟨h.1, h.2.1⟩
  forward := by
    rintro c c' ⟨-, -, ⟨hiter, hstage⟩ | hnext⟩
    · exact .inl ⟨hiter, rfl, fun _ => by omega⟩
    · exact .inr hnext

/-- The fifth microbatch starts before the fourth one, whose results it uses. -/
theorem scheduleZeroBubble_overtakes : ∃ row,
    scheduleZeroBubble fallingQueue fourStagePartition (fun _ => [])
        { numIterations := 8, schedule := .zeroBubbleH2 } fourStageTasks.rows = ok [row] ∧
      ¬ fourStageDependences.Respects row := by
  have hrun : (scheduleZeroBubble fallingQueue fourStagePartition (fun _ => [])
        { numIterations := 8, schedule := .zeroBubbleH2 } fourStageTasks.rows).toOption.map
      (List.map fun row => (row[6]?, row[10]?)) =
    some [(some (forwardTask 8 0 "forward_0"), some (forwardTask 6 0 "forward_0"))] := by
    decide +kernel
  obtain ⟨rows, hrows, hentries⟩ := Option.map_eq_some_iff.mp hrun
  obtain ⟨row, rfl, hentry⟩ := List.map_eq_singleton_iff.mp hentries
  obtain ⟨hp, hq⟩ := Prod.mk.inj hentry
  refine ⟨row, toOption_eq_some.mp hrows, ?_⟩
  intro hrespects
  have hdep : fourStageDependences.depends (3, 0) (4, 0) :=
    ⟨⟨by decide, by decide⟩, ⟨by decide, by decide⟩, .inr ⟨rfl, rfl⟩⟩
  have hlt := hrespects (3, 0) (4, 0) _ _ hdep rfl rfl 10 6 hq hp
  omega

theorem scheduleZeroBubble_respects_iff_fourStages : ∃ rows,
    scheduleZeroBubble fallingQueue fourStagePartition (fun _ => [])
        { numIterations := 8, schedule := .zeroBubbleH2 } fourStageTasks.rows = ok rows ∧
      (fourStageTasks.rows = [] ∨ SchedulesOnce fourStageTasks.rows rows) ∧
      ((∀ row ∈ rows, fourStageDependences.Respects row) ↔
        (fourStageDependences.CrossesMinibatch (fourStageTasks.deviceGroups fourStagePartition) →
          fourStageTasks.deviceGroups fourStagePartition ≤
            (((List.range fourStageTasks.columns).filter fun _ => true).length + 1) / 2 + 1)) := by
  have htasks : ∀ task ∈ fourStageTasks.rows.flatten,
      (fourStagePartition.devicesForTask task).isOk = true ∧
        isNonCritical fourStagePartition task = false := by
    decide +kernel
  have hrun : (scheduleZeroBubble fallingQueue fourStagePartition (fun _ => [])
      { numIterations := 8, schedule := .zeroBubbleH2 } fourStageTasks.rows).isOk = true := by
    decide +kernel
  obtain ⟨rows, hrows⟩ := isOk_iff.mp hrun
  refine ⟨rows, hrows, ?_⟩
  apply scheduleZeroBubble_respects_iff fallingQueue fourStagePartition (fun _ => [])
    { numIterations := 8, schedule := .zeroBubbleH2 } fourStageTasks (fun _ => true) rfl
  · intro c task hcell
    exact isOk_iff.mp (htasks task (mem_flatten_of_cell hcell)).1
  · intro c task hcell
    exact (htasks task (mem_flatten_of_cell hcell)).2
  · exact hrows

end LoopScheduler
end MultiMeshJax
