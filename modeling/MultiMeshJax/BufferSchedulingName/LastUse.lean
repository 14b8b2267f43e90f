import MultiMeshJax.BufferSchedulingName.Release

/-! When the last visit to a user of a temporary frees its name after all the uses, in the
order of the traversal and in the time model. -/
namespace MultiMeshJax
namespace BufferSchedulingName

open StatusOr

def VisitedBefore : Finishing := fun visited user _ => user ∈ visited

/-- The user has been visited, and as a task or a reshard it is done by the time. -/
def CompletedBy (input : Input) : Finishing := fun visited user time =>
  ∃ earlier later clock, visited = earlier ++ user :: later ∧ clockAfter input earlier = ok clock ∧
    ∀ devices, devicesOf input user = ok devices → user.isCall = true ∨ isReshard user = true →
      timeDone clock user devices ≤ time

theorem visitedBefore_lawful : VisitedBefore.Lawful where
  mem h := h
  mono more _ _ h := List.mem_append_left more h

theorem completedBy_lawful (input : Input) : (CompletedBy input).Lawful where
  mem := by
    rintro visited user time ⟨earlier, later, clock, rfl, -⟩
    simp
  mono := by
    rintro visited user time more time' hle ⟨earlier, later, clock, rfl, hclock, hdone⟩
    refine ⟨earlier, later ++ more, clock, by simp, hclock, ?_⟩
    intro devices hdevices huse
    exact (hdone devices hdevices huse).trans hle

variable {input : Input}

theorem exists_devices {i : HloInstruction} {s s' : State} (hvisit : visit input s i = ok s') :
    (∃ devices, devicesOf input i = ok devices) ∨ s' = s := by
  unfold visit at hvisit
  split at hvisit
  · obtain ⟨devices, hdevices, -⟩ := bind_eq_ok.mp hvisit
    exact .inl ⟨devices, hdevices⟩
  · split at hvisit
    · obtain ⟨devices, hdevices, -⟩ := bind_eq_ok.mp hvisit
      exact .inl ⟨devices, hdevices⟩
    · exact .inr (ok.inj hvisit).symm

/-- When a temporary gets a name, every instruction that uses a value with that name has been
visited. -/
def NeverFreesEarly (input : Input) : Prop :=
  ∀ visited i rest s s', input.computation.instructions = visited ++ i :: rest →
    visitAll input visited = ok s → visit input s i = ok s' →
    ∀ temp name, IsTemp input temp → s.names temp = none → s'.names temp = some name →
      ∀ other, other ≠ temp → s'.names other = some name →
        ∀ user ∈ input.computation.users other, user ∈ visited

/-- A traversal in which each temporary is read as often as it has users only once all of them
are visited never hands out a name early. -/
theorem run_neverFreesEarly (h : FreesFinished input VisitedBefore) : NeverFreesEarly input := by
  intro visited i rest s s' hsplit hrun hvisit temp name htemp hnone hname
  rcases exists_devices hvisit with ⟨devices, hdevices⟩ | rfl
  · exact reusesFinished h visitedBefore_lawful visited i rest s s' devices hsplit hrun hvisit
      hdevices temp name htemp hnone hname
  · rw [hnone] at hname
    cases hname

/-- Where the visit that completes the reads of a temporary is also the last of its uses to
complete, a name is handed out again only when the uses of what had it are done. -/
theorem run_reusesInTime (h : FreesFinished input (CompletedBy input)) :
    ReusesFinished input (CompletedBy input) :=
  reusesFinished h (completedBy_lawful input)

/-- Where no instruction has a value as two of its operands, a temporary is read as often as it
has users only once all of them are visited. -/
theorem users_visited_of_nodup
    (hnodup : ∀ i ∈ input.computation.instructions, i.operands.Nodup)
    {visited rest : List HloInstruction} {id : ℕ}
    (hsplit : input.computation.instructions = visited ++ rest)
    (hcount : userCount input id ≤ reads visited id) :
    ∀ user ∈ input.computation.users id, user ∈ visited := by
  have hone : ∀ is : List HloInstruction, (∀ i ∈ is, i ∈ input.computation.instructions) →
      reads is id ≤ (is.filter fun i => i.operands.contains id).length := by
    intro is
    induction is with
    | nil => simp [reads]
    | cons i is ih =>
      intro hmem
      have hle := ih fun j hj => hmem j (List.mem_cons_of_mem i hj)
      have hsum : reads (i :: is) id = operandReads i id + reads is id := by simp [reads]
      have hcons : operandReads i id ≤ if i.operands.contains id then 1 else 0 := by
        unfold operandReads
        split
        · have hcount := List.nodup_iff_count_le_one.mp (hnodup i (hmem i (by simp))) id
          split
          · exact hcount
          · rename_i hnot
            rw [List.count_eq_zero_of_not_mem (by simpa using hnot)]
        · split
          · rename_i hhead
            rw [Bool.and_eq_true, beq_iff_eq] at hhead
            rw [if_pos (by simpa using List.mem_of_head? hhead.2)]
          · exact Nat.zero_le _
      rw [hsum, List.filter_cons]
      split at hcons
      · rename_i hcontains
        rw [if_pos hcontains, List.length_cons]
        omega
      · rename_i hcontains
        rw [if_neg hcontains]
        omega
  have hvisited := hone visited fun i hi => by simp [hsplit, hi]
  have hall : (input.computation.users id).length =
      (visited.filter fun i => i.operands.contains id).length +
        (rest.filter fun i => i.operands.contains id).length := by
    rw [HloComputation.users, hsplit, List.filter_append, List.length_append]
  have hrest : rest.filter (fun i => i.operands.contains id) = [] := by
    apply List.eq_nil_of_length_eq_zero
    unfold userCount at hcount
    omega
  intro user huser
  rw [HloComputation.users, hsplit, List.filter_append, hrest, List.append_nil] at huser
  exact List.mem_of_mem_filter huser

/-- Where no name is assigned before the traversal, only the parameters have one. -/
theorem initialName_of_unassigned
    (hnone : ∀ i ∈ input.computation.instructions, i.schedulingName = none) {id : ℕ}
    (htemp : IsTemp input id) (other : ℕ) : initialName input other ≠ some id := by
  intro hother
  have hself : other = id := by
    unfold initialName at hother
    cases hi : input.computation.instruction other with
    | none => simp [hi] at hother
    | some i =>
      simp only [hi] at hother
      split at hother
      · exact Option.some.inj hother
      · rw [hnone i (HloComputation.mem_of_instruction hi)] at hother
        cases hother
  subst hself
  rw [htemp.1] at hother
  cases hother

/-- Where no two instructions read the same value, the one that reads it is the last to. -/
theorem completedBy_of_single_user
    (hsingle : ∀ i ∈ input.computation.instructions, ∀ j ∈ input.computation.instructions,
      ∀ id ∈ i.operands, id ∈ j.operands → i = j)
    {visited rest : List HloInstruction} {i : HloInstruction} {clock : Clock}
    {devices : DeviceList} {id : ℕ}
    (hsplit : input.computation.instructions = visited ++ i :: rest)
    (hclock : clockAfter input visited = ok clock) (hdevices : devicesOf input i = ok devices)
    (hread : id ∈ i.operands) : ∀ user ∈ input.computation.users id,
      CompletedBy input (visited ++ [i]) user (timeDone clock i devices) := by
  intro user huser
  obtain ⟨hmem, hcontains⟩ := List.mem_filter.mp huser
  obtain rfl := hsingle user hmem i (by simp [hsplit]) id (by simpa using hcontains) hread
  refine ⟨visited, [], clock, rfl, hclock, ?_⟩
  intro devices' hdevices' _
  rw [hdevices] at hdevices'
  cases hdevices'
  exact le_rfl

/-- The queue as a sorted list. -/
def sortedQueue : UseQueue where
  IsHeap uses := uses.Pairwise fun a b => a.available ≤ b.available
  push use uses := uses.orderedInsert (fun a b => a.available ≤ b.available) use
  pop := List.tail
  isHeap_nil := .nil
  isHeap_push := by
    intro use uses h
    induction uses with
    | nil => simp
    | cons top uses ih =>
      rw [List.orderedInsert_cons]
      rw [List.pairwise_cons] at h
      split
      · rename_i hle
        refine .cons ?_ (.cons h.1 h.2)
        intro other hother
        rcases List.mem_cons.mp hother with rfl | hother
        · exact hle
        · exact hle.trans (h.1 other hother)
      · rename_i hlt
        refine .cons ?_ (ih h.2)
        intro other hother
        rcases (List.mem_orderedInsert _).mp hother with rfl | hother
        · omega
        · exact h.1 other hother
  isHeap_pop _ h := h.tail
  top_le _ _ h := (List.pairwise_cons.mp h).1
  push_perm use uses := List.perm_orderedInsert _ use uses
  pop_perm _ uses := .refl uses

def twoMeshes : HloPartition where
  devices := ⟨0, 2⟩
  colors := [("a", { name := "a", devices := ⟨0, 1⟩ }), ("b", { name := "b", devices := ⟨1, 1⟩ })]

def oneOutput : Shape := .tuple [(.f32, [])]

/-- Four tasks, each of which reads the output of the one before. -/
def taskChain : HloComputation where
  instructions := [
    { id := 0, opcode := .parameter 0 },
    { id := 1, opcode := .call 0, operands := [0], shape := oneOutput, color := some "a" },
    { id := 2, opcode := .getTupleElement 0, operands := [1], color := some "a" },
    { id := 3, opcode := .call 1, operands := [2], shape := oneOutput, color := some "a" },
    { id := 4, opcode := .getTupleElement 0, operands := [3], color := some "a" },
    { id := 5, opcode := .call 2, operands := [4], shape := oneOutput, color := some "a" },
    { id := 6, opcode := .getTupleElement 0, operands := [5], color := some "a" },
    { id := 7, opcode := .call 3, operands := [6], shape := oneOutput, color := some "a" },
    { id := 8, opcode := .getTupleElement 0, operands := [7], color := some "a" },
    { id := 9, opcode := .tuple, operands := [8], shape := oneOutput }]
  root := 9

def taskChainInput : Input where
  partition := twoMeshes
  computation := taskChain
  queue := sortedQueue
  defaultShape := ⟨.pred, [], ⟨0, 0⟩⟩
  distinct := by decide
  outputs := by decide

theorem taskChain_shape : ∀ i ∈ taskChain.instructions, ∀ devices,
    Sharding.xlaShapeToZukuShape i.shape devices i.shardingOrReplicated true ≠
      ok taskChainInput.defaultShape := by
  have hshapes : ∀ i ∈ taskChain.instructions,
      (i.shape = .array .f32 [] ∨ i.shape = oneOutput) ∧ i.sharding = none := by decide
  intro i hi devices h
  obtain ⟨hshape, hsharding⟩ := hshapes i hi
  rw [HloInstruction.shardingOrReplicated, hsharding] at h
  rcases hshape with hshape | hshape <;> rw [hshape] at h <;> cases h

theorem taskChain_frees {Finished : Finishing}
    (hreads : ∀ visited i rest, taskChain.instructions = visited ++ i :: rest →
      ∀ clock devices, clockAfter taskChainInput visited = ok clock →
      devicesOf taskChainInput i = ok devices → ∀ id, id ∈ i.operands →
      userCount taskChainInput id ≤ reads (visited ++ [i]) id →
      ∀ user ∈ taskChain.users id, Finished (visited ++ [i]) user (timeDone clock i devices)) :
    FreesFinished taskChainInput Finished where
  reads visited i rest hsplit clock devices hclock hdevices id _ hlt hcount := by
    apply hreads visited i rest hsplit clock devices hclock hdevices id ?_ hcount
    by_contra hnot
    have hzero : operandReads i id = 0 := by
      unfold operandReads
      split
      · exact List.count_eq_zero_of_not_mem hnot
      · split
        · rename_i hhead
          rw [Bool.and_eq_true, beq_iff_eq] at hhead
          exact absurd (List.mem_of_head? hhead.2) hnot
        · rfl
    rw [reads_append, reads_singleton] at hcount
    omega
  names _ _ htemp := initialName_of_unassigned (by decide) htemp
  shape i hi _ := taskChain_shape i hi

theorem run_neverFreesEarly_taskChain : NeverFreesEarly taskChainInput := by
  apply run_neverFreesEarly
  apply taskChain_frees
  intro visited i rest hsplit _ _ _ _ id _ hcount
  exact @users_visited_of_nodup taskChainInput (by decide) _ rest id
    (hsplit.trans (List.append_cons visited i rest)) hcount

theorem run_reusesInTime_taskChain : ReusesFinished taskChainInput (CompletedBy taskChainInput) := by
  apply run_reusesInTime
  apply taskChain_frees
  intro visited i rest hsplit clock devices hclock hdevices id hread _
  exact @completedBy_of_single_user taskChainInput (by decide) visited rest i clock devices id
    hsplit hclock hdevices hread

/-- The second task reads the output of the first one twice, the fourth reads it again. -/
def twiceRead : HloComputation where
  instructions := [
    { id := 0, opcode := .parameter 0 },
    { id := 1, opcode := .call 0, operands := [0], shape := oneOutput, color := some "a" },
    { id := 2, opcode := .getTupleElement 0, operands := [1], color := some "a" },
    { id := 3, opcode := .call 1, operands := [2, 2], shape := oneOutput, color := some "a" },
    { id := 4, opcode := .getTupleElement 0, operands := [3], color := some "a" },
    { id := 5, opcode := .call 2, operands := [0], shape := oneOutput, color := some "a" },
    { id := 6, opcode := .getTupleElement 0, operands := [5], color := some "a" },
    { id := 7, opcode := .call 3, operands := [2, 6], shape := oneOutput, color := some "a" },
    { id := 8, opcode := .getTupleElement 0, operands := [7], color := some "a" },
    { id := 9, opcode := .tuple, operands := [4, 8], shape := .tuple [(.f32, []), (.f32, [])] }]
  root := 9

def twiceReadInput : Input where
  partition := twoMeshes
  computation := twiceRead
  queue := sortedQueue
  defaultShape := ⟨.pred, [], ⟨0, 0⟩⟩
  distinct := by decide
  outputs := by decide

/-- The output of the third task gets the name of a value that the fourth has yet to read. -/
theorem run_freesEarly : ¬NeverFreesEarly twiceReadInput := by
  intro h
  have hvisited := h (twiceRead.instructions.take 5) _ (twiceRead.instructions.drop 6) _ _ rfl rfl
    rfl 6 2 ⟨rfl, rfl⟩ rfl rfl 2 (by decide) rfl
    { id := 7, opcode := .call 3, operands := [2, 6], shape := oneOutput, color := some "a" }
    (by decide)
  revert hvisited
  decide

/-- A reshard and a task read the output of the first task, the reshard being visited first. -/
def reshardedOutput : HloComputation where
  instructions := [
    { id := 0, opcode := .parameter 0 },
    { id := 1, opcode := .call 0, operands := [0], shape := oneOutput, color := some "a" },
    { id := 2, opcode := .getTupleElement 0, operands := [1], color := some "a" },
    { id := 3, opcode := .customCall "Reshard", operands := [2], color := some "b" },
    { id := 4, opcode := .call 1, operands := [2], shape := oneOutput, color := some "a" },
    { id := 5, opcode := .getTupleElement 0, operands := [4], color := some "a" },
    { id := 6, opcode := .call 2, operands := [0], shape := oneOutput, color := some "a" },
    { id := 7, opcode := .getTupleElement 0, operands := [6], color := some "a" },
    { id := 8, opcode := .call 3, operands := [7], shape := oneOutput, color := some "a" },
    { id := 9, opcode := .getTupleElement 0, operands := [8], color := some "a" },
    { id := 10, opcode := .tuple, operands := [5, 9, 3],
      shape := .tuple [(.f32, []), (.f32, []), (.f32, [])] }]
  root := 10

def reshardedOutputInput : Input where
  partition := twoMeshes
  computation := reshardedOutput
  queue := sortedQueue
  defaultShape := ⟨.pred, [], ⟨0, 0⟩⟩
  distinct := by decide
  outputs := by decide

/-- The output of the third task gets the name at time 2, and the reshard is done at time 3. -/
theorem run_reusesTooSoon :
    ¬ReusesFinished reshardedOutputInput (CompletedBy reshardedOutputInput) := by
  intro h
  obtain ⟨earlier, later, clock, hsplit, hclock, hdone⟩ := h (reshardedOutput.instructions.take 6)
    _ (reshardedOutput.instructions.drop 7) _ _ ⟨0, 1⟩ rfl rfl rfl rfl 7 2 ⟨rfl, rfl⟩ rfl rfl 2
    (by decide) rfl
    { id := 3, opcode := .customCall "Reshard", operands := [2], color := some "b" } (by decide)
  have hnodup : (reshardedOutput.instructions.take 6).Nodup := by decide
  rw [hsplit, List.nodup_append] at hnodup
  have hindex := congrArg (List.idxOf (α := HloInstruction)
    { id := 3, opcode := .customCall "Reshard", operands := [2], color := some "b" }) hsplit
  rw [List.idxOf_append_of_notMem fun hmem => hnodup.2.2 _ hmem _ (by simp) rfl,
    List.idxOf_cons_self] at hindex
  have hlength : earlier.length = 3 := hindex.symm
  have hearlier : earlier = reshardedOutput.instructions.take 3 := by
    have htake := congrArg (List.take 3) hsplit
    rw [List.take_left' hlength] at htake
    exact htake.symm
  subst hearlier
  obtain rfl := ok.inj hclock
  have hle := hdone ⟨1, 1⟩ rfl (.inr (by decide))
  revert hle
  decide

end BufferSchedulingName
end MultiMeshJax
