import MultiMeshJax.LoopUnroll.Unroll

/-! The order that the control dependences along a schedule put on the tasks that share a
device. -/
namespace MultiMeshJax
namespace LoopUnroll

open StatusOr LoopScheduler

/-- A data or control edge of the graph. -/
def Edge (c : HloComputation) (a b : ℕ) : Prop :=
  ∃ j ∈ c.instructions, j.id = b ∧ (a ∈ j.operands ∨ a ∈ j.controlPredecessors)

/-- The graph with the control dependences of a schedule. -/
def addControlDependencies (partition : HloPartition) (c : HloComputation) (schedule : Tasks) :
    StatusOr HloComputation := do
  let edges ← schedule.mapM (controlDependencies partition)
  return edges.flatten.foldl addControlDependencyTo c

def SharesDevice (d d' : DeviceList) : Prop := ∃ device, device ∈ d.toList ∧ device ∈ d'.toList

/-- The tasks stand in a row in this order, on these devices. -/
structure InOrder (partition : HloPartition) (row : List HloInstruction) (a b : ℕ)
    (d d' : DeviceList) : Prop where
  earlier : ∃ lhs rhs, lhs.id = a ∧ rhs.id = b ∧ List.Sublist [lhs, rhs] row ∧
    partition.devicesForInstruction lhs = ok d ∧ partition.devicesForInstruction rhs = ok d'

/-- Two tasks of a row that share a device are ordered as in the row. -/
def Serialised (partition : HloPartition) (c : HloComputation) (schedule : Tasks) : Prop :=
  ∀ row ∈ schedule, ∀ a b d d', InOrder partition row a b d d' → SharesDevice d d' →
    Relation.TransGen (Edge c) a b

/-- An edge that there was, or an earlier task of a row with the same device list. -/
def Link (partition : HloPartition) (c : HloComputation) (schedule : Tasks) (a b : ℕ) : Prop :=
  Edge c a b ∨ ∃ row ∈ schedule, ∃ d, InOrder partition row a b d d

/-- Two tasks of a row that share a device are linked by a chain of edges and of tasks with equal
device lists. -/
def ChainsCover (partition : HloPartition) (c : HloComputation) (schedule : Tasks) : Prop :=
  ∀ row ∈ schedule, ∀ a b d d', InOrder partition row a b d d' → SharesDevice d d' →
    Relation.TransGen (Link partition c schedule) a b

section edges

variable {partition : HloPartition} {c : HloComputation} {schedule : Tasks}

theorem mem_addControlDependencyTo {edge : HloInstruction × HloInstruction} {i : HloInstruction} :
    i ∈ (addControlDependencyTo c edge).instructions ↔ ∃ j ∈ c.instructions,
      (if j.id = edge.2.id ∧ edge.1.id ∉ j.controlPredecessors then
        { j with controlPredecessors := j.controlPredecessors ++ [edge.1.id] } else j) = i :=
  List.mem_map

/-- One control dependence is one edge more. -/
theorem edge_addControlDependencyTo {edge : HloInstruction × HloInstruction}
    (hmem : edge.2.id ∈ c.ids) {a b : ℕ} :
    Edge (addControlDependencyTo c edge) a b ↔ Edge c a b ∨ a = edge.1.id ∧ b = edge.2.id := by
  constructor
  · rintro ⟨i, hi, rfl, hedge⟩
    obtain ⟨j, hj, rfl⟩ := mem_addControlDependencyTo.mp hi
    split at hedge
    · rename_i hadd
      rw [if_pos hadd]
      rcases hedge with hoperand | hcontrol
      · exact .inl ⟨j, hj, rfl, .inl hoperand⟩
      · rcases List.mem_append.mp hcontrol with hcontrol | hnew
        · exact .inl ⟨j, hj, rfl, .inr hcontrol⟩
        · exact .inr ⟨List.mem_singleton.mp hnew, hadd.1⟩
    · rename_i hkeep
      rw [if_neg hkeep]
      exact .inl ⟨j, hj, rfl, hedge⟩
  · rintro (⟨j, hj, rfl, hedge⟩ | ⟨rfl, rfl⟩)
    · refine ⟨_, mem_addControlDependencyTo.mpr ⟨j, hj, rfl⟩, ?_, ?_⟩
      · split <;> rfl
      · split
        · exact hedge.imp_right (List.mem_append_left _)
        · exact hedge
    · obtain ⟨j, hj, hid⟩ := List.mem_map.mp hmem
      refine ⟨_, mem_addControlDependencyTo.mpr ⟨j, hj, rfl⟩, ?_, .inr ?_⟩
      · split <;> exact hid
      · split
        · exact List.mem_append_right _ (List.mem_singleton_self _)
        · rename_i hkeep
          simpa [hid] using hkeep

theorem ids_addControlDependencyTo (edge : HloInstruction × HloInstruction) :
    (addControlDependencyTo c edge).ids = c.ids := by
  apply HloComputation.ids_mapInstructions
  intro i
  split <;> rfl

theorem edge_foldl {edges : List (HloInstruction × HloInstruction)}
    (hmem : ∀ edge ∈ edges, edge.2.id ∈ c.ids) {a b : ℕ} :
    Edge (edges.foldl addControlDependencyTo c) a b ↔
      Edge c a b ∨ ∃ edge ∈ edges, a = edge.1.id ∧ b = edge.2.id := by
  induction edges generalizing c with
  | nil => simp
  | cons edge edges ih =>
    rw [List.foldl_cons, ih, edge_addControlDependencyTo (hmem edge (List.mem_cons_self ..)),
      or_assoc]
    · simp only [List.mem_cons, exists_eq_or_imp]
    · intro e he
      rw [ids_addControlDependencyTo]
      exact hmem e (List.mem_cons_of_mem _ he)

/-- The next task on the devices comes first among those with them. -/
theorem nextOnDevices_spec {devices : DeviceList} {row : List HloInstruction} {next : Option HloInstruction}
    (h : nextOnDevices partition devices row = ok next) :
    (∀ rhs, next = some rhs → partition.devicesForInstruction rhs = ok devices) ∧
    ∀ rhs ∈ row, partition.devicesForInstruction rhs = ok devices →
      ∃ first, next = some first ∧ (first = rhs ∨ List.Sublist [first, rhs] row) := by
  induction row with
  | nil =>
    obtain rfl := ok.inj h
    constructor
    · intro rhs hrhs
      cases hrhs
    · intro rhs hrhs
      cases hrhs
  | cons task row ih =>
    obtain ⟨taskDevices, htask, h⟩ := bind_eq_ok.mp h
    split at h
    · rename_i heq
      obtain rfl := ok.inj h
      rw [← heq] at htask
      constructor
      · intro rhs hrhs
        exact Option.some.inj hrhs ▸ htask
      · intro rhs hrhs _
        refine ⟨task, rfl, ?_⟩
        rcases List.mem_cons.mp hrhs with rfl | hrhs
        · exact .inl rfl
        · exact .inr (List.Sublist.cons_cons _ (List.singleton_sublist.mpr hrhs))
    · rename_i hne
      obtain ⟨hdevices, hfirst⟩ := ih h
      refine ⟨hdevices, ?_⟩
      intro rhs hrhs hrhsDevices
      rcases List.mem_cons.mp hrhs with rfl | hrhs
      · rw [htask] at hrhsDevices
        exact absurd (ok.inj hrhsDevices).symm hne
      · obtain ⟨first, hnext, hor⟩ := hfirst rhs hrhs hrhsDevices
        exact ⟨first, hnext, hor.imp_right fun hsub => hsub.cons _⟩

/-- A control dependence is between tasks with equal device lists. -/
theorem inOrder_of_controlDependency {row : List HloInstruction}
    {edges : List (HloInstruction × HloInstruction)}
    (h : controlDependencies partition row = ok edges) {edge : HloInstruction × HloInstruction}
    (hedge : edge ∈ edges) : ∃ d, InOrder partition row edge.1.id edge.2.id d d := by
  have hsub := controlDependencies_sublist h hedge
  have hdevices : ∃ d, partition.devicesForInstruction edge.1 = ok d ∧
      partition.devicesForInstruction edge.2 = ok d := by
    clear hsub
    induction row generalizing edges with
    | nil =>
      cases h
      cases hedge
    | cons task row ih =>
      simp only [controlDependencies, bind_eq_ok] at h
      obtain ⟨devices, htask, next, hnext, rest, hrest, h⟩ := h
      cases h
      rcases List.mem_append.mp hedge with hedge | hedge
      · obtain ⟨rhs, hrhs, rfl⟩ := List.mem_map.mp hedge
        exact ⟨devices, htask, (nextOnDevices_spec hnext).1 rhs (Option.mem_toList.mp hrhs)⟩
      · exact ih hrest hedge
  obtain ⟨d, hd, hd'⟩ := hdevices
  exact ⟨d, edge.1, edge.2, rfl, rfl, hsub, hd, hd'⟩

/-- From a task to a later one with the same device list the control dependences make a chain. -/
theorem transGen_controlDependencies {row : List HloInstruction}
    {edges : List (HloInstruction × HloInstruction)}
    (h : controlDependencies partition row = ok edges) {lhs rhs : HloInstruction} {d : DeviceList}
    (hsub : List.Sublist [lhs, rhs] row) (hlhs : partition.devicesForInstruction lhs = ok d)
    (hrhs : partition.devicesForInstruction rhs = ok d) :
    Relation.TransGen (fun a b => (a, b) ∈ edges) lhs rhs := by
  induction row generalizing edges lhs with
  | nil => cases hsub
  | cons task row ih =>
    simp only [controlDependencies, bind_eq_ok] at h
    obtain ⟨devices, htask, next, hnext, rest, hrest, h⟩ := h
    cases h
    have hlater : ∀ {a b : HloInstruction}, Relation.TransGen (fun a b => (a, b) ∈ rest) a b →
        Relation.TransGen (fun a b => (a, b) ∈
          next.toList.map (fun rhs => (task, rhs)) ++ rest) a b :=
      fun hpath => Relation.TransGen.mono (fun x y (he : (x, y) ∈ rest) =>
        List.mem_append_right _ he) _ _ hpath
    cases hsub with
    | cons _ hsub => exact hlater (ih hrest hsub hlhs)
    | cons_cons _ hsub =>
      rw [htask] at hlhs
      obtain rfl := ok.inj hlhs
      obtain ⟨first, rfl, hfirst⟩ :=
        (nextOnDevices_spec hnext).2 rhs (List.singleton_sublist.mp hsub) hrhs
      have hedge : (task, first) ∈ (some first).toList.map (fun rhs => (task, rhs)) ++ rest := by
        simp
      rcases hfirst with rfl | hsub'
      · exact .single hedge
      · have hdevices := (nextOnDevices_spec hnext).1 first rfl
        exact .head hedge (hlater (ih hrest hsub' hdevices))

end edges

/-- The tasks that share a device are serialised just when chains of edges and of tasks with equal
device lists cover them. -/
theorem serialised_iff {partition : HloPartition} {c c' : HloComputation} {schedule : Tasks}
    (htasks : ∀ row ∈ schedule, ∀ task ∈ row, task.id ∈ c.ids)
    (h : addControlDependencies partition c schedule = ok c') :
    Serialised partition c' schedule ↔ ChainsCover partition c schedule := by
  obtain ⟨edges, hedges, h⟩ := bind_eq_ok.mp h
  obtain rfl := ok.inj h
  have hmem : ∀ edge ∈ edges.flatten, edge.2.id ∈ c.ids := by
    intro edge hedge
    obtain ⟨row, hrow, hedge⟩ := List.mem_flatten.mp hedge
    obtain ⟨tasks, htasksRow, hcontrol⟩ := exists_of_mem_mapM hedges hrow
    have hsub := controlDependencies_sublist hcontrol (show (edge.1, edge.2) ∈ row from hedge)
    exact htasks tasks htasksRow edge.2 (hsub.subset (by simp))
  have hlinks : ∀ a b, Relation.TransGen (Edge (edges.flatten.foldl addControlDependencyTo c)) a b ↔
      Relation.TransGen (Link partition c schedule) a b := by
    intro a b
    constructor
    · apply Relation.TransGen.mono
      intro x y hxy
      rcases (edge_foldl hmem).mp hxy with hold | ⟨edge, hedge, rfl, rfl⟩
      · exact .inl hold
      · obtain ⟨row, hrow, hedge⟩ := List.mem_flatten.mp hedge
        obtain ⟨tasks, htasksRow, hcontrol⟩ := exists_of_mem_mapM hedges hrow
        exact .inr ⟨tasks, htasksRow, inOrder_of_controlDependency hcontrol hedge⟩
    · apply Relation.TransGen.closed
      rintro x y (hold | ⟨row, hrow, d, lhs, rhs, rfl, rfl, hsub, hd, hd'⟩)
      · exact .single ((edge_foldl hmem).mpr (.inl hold))
      · obtain ⟨k, hk⟩ := List.mem_iff_getElem?.mp hrow
        obtain ⟨rowEdges, hget, hcontrol⟩ := mapM_getElem? hedges hk
        have hpath := transGen_controlDependencies hcontrol hsub hd hd'
        apply Relation.TransGen.lift HloInstruction.id _ _ _ hpath
        intro x y hxy
        have hin : (x, y) ∈ edges.flatten :=
          List.mem_flatten.mpr ⟨rowEdges, List.mem_of_getElem? hget, hxy⟩
        exact (edge_foldl hmem).mpr (.inr ⟨(x, y), hin, rfl, rfl⟩)
  unfold Serialised ChainsCover
  simp only [hlinks]

/-- Two tasks on the devices 0 to 3 and 2 to 5. -/
def overlapping : HloPartition where
  devices := ⟨0, 8⟩
  colors := [("f", { name := "f", devices := ⟨0, 4⟩ }), ("g", { name := "g", devices := ⟨2, 4⟩ })]

def overlappingTasks : HloComputation where
  instructions := [{ id := 0, opcode := .call 0, color := some "f" },
    { id := 1, opcode := .call 1, color := some "g" },
    { id := 2, opcode := .tuple, operands := [0, 1] }]
  root := 2

def overlappingRow : List HloInstruction := overlappingTasks.instructions.take 2

theorem overlappingRow_mem : ∀ row ∈ [overlappingRow], ∀ task ∈ row,
    task.id ∈ overlappingTasks.ids := by decide

theorem serialised_iff_overlapping :
    addControlDependencies overlapping overlappingTasks [overlappingRow] = ok overlappingTasks ∧
      (Serialised overlapping overlappingTasks [overlappingRow] ↔
        ChainsCover overlapping overlappingTasks [overlappingRow]) :=
  ⟨by decide +kernel, serialised_iff overlappingRow_mem (by decide +kernel)⟩

/-- The two tasks share two devices, and no edge leads to the second. -/
theorem overlapping_not_serialised :
    addControlDependencies overlapping overlappingTasks [overlappingRow] = ok overlappingTasks ∧
      ¬Serialised overlapping overlappingTasks [overlappingRow] := by
  refine ⟨by decide +kernel, fun h => ?_⟩
  have horder : InOrder overlapping overlappingRow 0 1 ⟨0, 4⟩ ⟨2, 4⟩ :=
    ⟨_, _, rfl, rfl, List.Sublist.refl _, by decide +kernel, by decide +kernel⟩
  have hpath := h overlappingRow (List.mem_singleton_self _) 0 1 _ _ horder ⟨2, by decide, by decide⟩
  obtain ⟨a, -, j, hj, hid, hedge⟩ := Relation.TransGen.tail'_iff.mp hpath
  have hnone : ∀ i ∈ overlappingTasks.instructions, i.id = 1 →
      i.operands = [] ∧ i.controlPredecessors = [] := by decide
  obtain ⟨hoperands, hcontrol⟩ := hnone j hj hid
  rw [hoperands, hcontrol] at hedge
  simp at hedge

end LoopUnroll
end MultiMeshJax
