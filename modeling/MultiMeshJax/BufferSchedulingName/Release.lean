import MultiMeshJax.BufferSchedulingName.Reuse

/-! The names that a visit frees, and the invariant over the whole traversal. -/
namespace MultiMeshJax
namespace BufferSchedulingName

open StatusOr

variable {input : Input} {Finished : Finishing} {visited : List HloInstruction}
  {i : HloInstruction} {count : ℕ → ℕ} {s s' : State}

theorem clockAfter_append {visited : List HloInstruction} {clock : Clock}
    (h : clockAfter input (visited ++ [i]) = ok clock) :
    ∃ before, clockAfter input visited = ok before ∧ tick input before i = ok clock := by
  rw [clockAfter, List.foldlM_append] at h
  obtain ⟨before, hbefore, htick⟩ := bind_eq_ok.mp h
  refine ⟨before, hbefore, ?_⟩
  simpa using htick

theorem isUse_of_reads {id : ℕ} (h : 0 < operandReads i id) :
    i.isCall = true ∨ isReshard i = true := by
  unfold operandReads at h
  split at h
  · rename_i hcall
    exact .inl hcall
  · split at h
    · rename_i hreshard
      rw [Bool.and_eq_true] at hreshard
      exact .inr hreshard.1
    · omega

theorem devicesOf_of_tick {clock clock' : Clock} (huse : i.isCall = true ∨ isReshard i = true)
    (h : tick input clock i = ok clock') : ∃ devices, devicesOf input i = ok devices ∧
      clock' = advance input clock i devices := by
  unfold tick at h
  rw [if_pos (by simpa using huse)] at h
  obtain ⟨devices, hdevices, hclock⟩ := bind_eq_ok.mp h
  exact ⟨devices, hdevices, (ok.inj hclock).symm⟩

/-- A temporary that has been read as often as it has users has no more of them to come. -/
theorem FreesFinished.users_visited (hfrees : FreesFinished input Finished)
    (hfinished : Finished.Lawful) {id : ℕ} (htemp : IsTemp input id)
    (visited : List HloInstruction) : ∀ {rest : List HloInstruction} {clock : Clock},
      input.computation.instructions = visited ++ rest → clockAfter input visited = ok clock →
      userCount input id ≤ BufferSchedulingName.reads visited id →
      ∀ user ∈ input.computation.users id, user ∈ visited := by
  induction visited using List.reverseRecOn with
  | nil =>
    intro rest clock _ _ hcount user huser
    have hpos : 0 < userCount input id := List.length_pos_of_mem huser
    simp [BufferSchedulingName.reads] at hcount
    omega
  | append_singleton visited j ih =>
    intro rest clock hsplit hclock hcount user huser
    obtain ⟨before, hbefore, htick⟩ := clockAfter_append hclock
    have hsplit' : input.computation.instructions = visited ++ j :: rest := by
      simpa using hsplit
    by_cases hdone : userCount input id ≤ BufferSchedulingName.reads visited id
    · exact List.mem_append_left _ (ih hsplit' hbefore hdone user huser)
    · have hreads : 0 < operandReads j id := by
        rw [reads_append, reads_singleton] at hcount
        omega
      obtain ⟨devices, hdevices, -⟩ := devicesOf_of_tick (isUse_of_reads hreads) htick
      exact hfinished.mem (hfrees.reads visited j rest hsplit' before devices hbefore hdevices id
        htemp (by omega) hcount user huser)

/-- While the operands of `i` are read, the pools hold what was free before the visit, and
operands of `i` that have been read by all their users. -/
structure Releasing (input : Input) (Finished : Finishing) (visited : List HloInstruction)
    (i : HloInstruction) (count : ℕ → ℕ) (s : State) : Prop where
  invariant : Invariant input Finished (visited ++ [i]) count s
  live : ∀ id other name, id ≠ other → s.names id = some name → s.names other = some name →
    IsTemp input id → IsTemp input other →
    (∀ user ∈ input.computation.users id,
      Finished visited user (s.clock.timesAvailable other)) ∨
    ∀ user ∈ input.computation.users other,
      Finished visited user (s.clock.timesAvailable id)
  pools : ∀ shape, shape ≠ input.defaultShape → ∀ use ∈ s.pools shape,
    (∀ id, s.names id = some use.name → ∀ user ∈ input.computation.users id, user ∈ visited) ∨
    ∃ id, IsTemp input id ∧ s.names id = some use.name ∧ i ∈ input.computation.users id ∧
      userCount input id ≤ s.timesVisited id

/-- A read that frees nothing. -/
theorem Releasing.read (h : Releasing input Finished visited i count s) (id : ℕ) :
    Releasing input Finished visited i (Function.update count id (count id + 1))
      { s with timesVisited :=
          Function.update s.timesVisited id (s.timesVisited id + 1) } := by
  have hle : ∀ other, s.timesVisited other ≤
      Function.update s.timesVisited id (s.timesVisited id + 1) other := by
    intro other
    by_cases heq : other = id
    · subst heq
      simp
    · simp [Function.update_of_ne heq]
  constructor
  · have hinv := h.invariant
    constructor
    · exact hinv.initial
    · exact hinv.own
    · exact hinv.shapes
    · exact hinv.owner
    · exact hinv.pool_shapes
    · exact hinv.pool_nodup
    · exact hinv.pool_finished
    · exact hinv.live
    · intro other
      by_cases heq : other = id
      · subst heq
        simpa using hinv.visits other
      · simpa [Function.update_of_ne heq] using hinv.visits other
  · exact h.live
  · intro shape hshape use huse
    rcases h.pools shape hshape use huse with hdone | ⟨other, htemp, hname, hreads, hcount⟩
    · exact .inl hdone
    · exact .inr ⟨other, htemp, hname, hreads, hcount.trans (hle other)⟩

/-- A free does not change which shape a name has. -/
theorem shapes_freeAtTime (time name : ℕ) {shape : ShardedShape}
    (hshape : shape ≠ input.defaultShape) (other : ℕ) :
    (freeAtTime input s time name).shapes other = some shape ↔ s.shapes other = some shape := by
  by_cases heq : other = name
  · subst heq
    simp only [freeAtTime, Function.update_self, Option.some.injEq, shapeOf]
    cases s.shapes other with
    | none => simpa using hshape.symm
    | some old => simp
  · simp [freeAtTime, Function.update_of_ne heq]

theorem shapeOf_freeAtTime (time name other : ℕ) :
    shapeOf input (freeAtTime input s time name) other = shapeOf input s other := by
  by_cases heq : other = name
  · subst heq
    simp [freeAtTime, shapeOf]
  · simp [freeAtTime, shapeOf, Function.update_of_ne heq]

theorem shapes_of_shapeOf {name : ℕ} (h : shapeOf input s name ≠ input.defaultShape) :
    s.shapes name = some (shapeOf input s name) := by
  unfold shapeOf at h ⊢
  cases hname : s.shapes name with
  | none => simp [hname] at h
  | some shape => rfl

theorem mem_pools_freeAtTime {time name : ℕ} {shape : ShardedShape} {use : BufferUse} :
    use ∈ (freeAtTime input s time name).pools shape ↔
      use ∈ s.pools shape ∨ (shape = shapeOf input s name ∧ use = ⟨name, time⟩) := by
  by_cases heq : shape = shapeOf input s name
  · subst heq
    simp only [freeAtTime, Function.update_self, true_and]
    rw [(input.queue.push_perm _ _).mem_iff, List.mem_cons, or_comm]
  · simp [freeAtTime, heq]

/-- A name that is freed when its last user is visited was in no pool, and what had it is
finished. -/
theorem Releasing.free (h : Releasing input Finished visited i count s)
    (hfrees : FreesFinished input Finished) (hfinished : Finished.Lawful) {id name done : ℕ}
    (hi : i ∉ visited) (huser : i ∈ input.computation.users id)
    (hname : s.names id = some name) (havailable : s.clock.timesAvailable id ≤ done)
    (hcount : s.timesVisited id = userCount input id)
    (hnot : ∀ shape ≠ input.defaultShape, ∀ use ∈ s.pools shape, use.name ≠ name)
    (husers : IsTemp input id → ∀ user ∈ input.computation.users id,
      Finished (visited ++ [i]) user done) :
    Releasing input Finished visited i count (freeAtTime input s done name) := by
  have hinv := h.invariant
  have htemp : shapeOf input s name ≠ input.defaultShape → ∀ other, s.names other = some name →
      IsTemp input other := fun hshape other hother => hinv.isTemp_of_shape hfrees hother hshape
  constructor
  · constructor
    · exact hinv.initial
    · exact hinv.own
    · intro other shape hother hshape
      exact hinv.shapes other shape ((shapes_freeAtTime done name hshape other).mp hother) hshape
    · intro other old hother hold
      rw [shapeOf_freeAtTime]
      exact hinv.owner other old hother hold
    · intro shape hshape use huse
      rw [shapes_freeAtTime done name hshape]
      rcases mem_pools_freeAtTime.mp huse with huse | ⟨rfl, rfl⟩
      · exact hinv.pool_shapes shape hshape use huse
      · exact shapes_of_shapeOf hshape
    · intro shape hshape
      by_cases heq : shape = shapeOf input s name
      · subst heq
        simp only [freeAtTime, Function.update_self]
        rw [((input.queue.push_perm _ _).map BufferUse.name).nodup_iff, List.map_cons,
          List.nodup_cons]
        refine ⟨?_, hinv.pool_nodup _ hshape⟩
        intro hmem
        obtain ⟨use, huse, heq⟩ := List.mem_map.mp hmem
        exact hnot _ hshape use huse heq
      · simpa [freeAtTime, heq] using hinv.pool_nodup shape hshape
    · intro shape hshape use huse other hother user hother'
      rcases mem_pools_freeAtTime.mp huse with huse | ⟨rfl, rfl⟩
      · exact hinv.pool_finished shape hshape use huse other hother user hother'
      · by_cases heq : other = id
        · subst heq
          exact husers (htemp hshape other hname) user hother'
        · rcases h.live other id name heq hother hname (htemp hshape other hother)
            (htemp hshape id hname) with hdone | hdone
          · exact hfinished.mono [i] havailable (hdone user hother')
          · exact absurd (hfinished.mem (hdone i huser)) hi
    · exact hinv.live
    · exact hinv.visits
  · exact h.live
  · intro shape hshape use huse
    rcases mem_pools_freeAtTime.mp huse with huse | ⟨rfl, rfl⟩
    · exact h.pools shape hshape use huse
    · exact .inr ⟨id, htemp hshape id hname, hname, huser, hcount.ge⟩

theorem Releasing.weaken (h : Releasing input Finished visited i count s) {count' : ℕ → ℕ}
    (hle : ∀ id, count id ≤ count' id) : Releasing input Finished visited i count' s where
  invariant := { h.invariant with visits := fun id => (h.invariant.visits id).trans (hle id) }
  live := h.live
  pools := h.pools

theorem le_update_succ (count : ℕ → ℕ) (id other : ℕ) :
    count other ≤ Function.update count id (count id + 1) other := by
  by_cases heq : other = id
  · subst heq
    simp
  · simp [Function.update_of_ne heq]

/-- The name of an operand that has reads to come is in no pool. -/
theorem Releasing.notMem_pool (h : Releasing input Finished visited i count s)
    (hfrees : FreesFinished input Finished) (hfinished : Finished.Lawful) (hi : i ∉ visited)
    {id name : ℕ} (huser : i ∈ input.computation.users id) (hname : s.names id = some name)
    (hcount : s.timesVisited id < userCount input id) {shape : ShardedShape}
    (hshape : shape ≠ input.defaultShape) : ∀ use ∈ s.pools shape, use.name ≠ name := by
  rintro use huse rfl
  rcases h.pools shape hshape use huse with hdone | ⟨other, htemp, hother, hreads, hvisits⟩
  · exact hi (hdone id hname i huser)
  · by_cases heq : other = id
    · subst heq
      omega
    · have hne := hshape
      rw [← Option.some.inj ((shapes_of_shapeOf (h.invariant.owner other _ htemp hother)).symm.trans
        (h.invariant.pool_shapes shape hshape use huse))] at hne
      have htemp' := h.invariant.isTemp_of_shape hfrees hname hne
      rcases h.live other id use.name heq hother hname htemp htemp' with hdone | hdone
      · exact hi (hfinished.mem (hdone i hreads))
      · exact hi (hfinished.mem (hdone i huser))

/-- Reading an operand keeps the invariant of the visit. -/
theorem Releasing.freeOperand (h : Releasing input Finished visited i count s)
    (hfrees : FreesFinished input Finished) (hfinished : Finished.Lawful) {done : ℕ}
    (hi : i ∉ visited) {operand : HloInstruction}
    (huser : i ∈ input.computation.users operand.id)
    (havailable : s.clock.timesAvailable operand.id ≤ done)
    (husers : IsTemp input operand.id → userCount input operand.id ≤ count operand.id + 1 →
      ∀ user ∈ input.computation.users operand.id, Finished (visited ++ [i]) user done)
    (hfree : freeOperand input done s operand = ok s') :
    Releasing input Finished visited i
      (Function.update count operand.id (count operand.id + 1)) s' ∧
      s'.names = s.names ∧ s'.clock = s.clock := by
  unfold BufferSchedulingName.freeOperand at hfree
  split at hfree
  · obtain rfl := ok.inj hfree
    exact ⟨h.weaken (le_update_succ count operand.id), rfl, rfl⟩
  · cases hname : s.names operand.id with
    | none =>
      simp only [hname] at hfree
      cases hfree
    | some name =>
      simp only [hname] at hfree
      have hread := h.read operand.id
      split at hfree
      · rename_i hlast
        obtain rfl := ok.inj hfree
        refine ⟨?_, rfl, rfl⟩
        apply hread.free hfrees hfinished hi huser hname havailable
        · simpa using hlast
        · intro shape hshape
          exact h.notMem_pool hfrees hfinished hi huser hname (by omega) hshape
        · intro htemp
          apply husers htemp
          have := h.invariant.visits operand.id
          omega
      · obtain rfl := ok.inj hfree
        exact ⟨hread, rfl, rfl⟩

/-- The operands of a task, `count` being what was read before. -/
theorem Releasing.freeOperands {done : ℕ} (hfrees : FreesFinished input Finished)
    (hfinished : Finished.Lawful) (hi : i ∉ visited) {values : List HloInstruction}
    {operands : List HloInstruction} : ∀ {count : ℕ → ℕ} {s s' : State},
      Releasing input Finished visited i count s →
      (∀ operand ∈ operands, i ∈ input.computation.users operand.id) →
      (∀ operand ∈ operands, s.clock.timesAvailable operand.id ≤ done) →
      (∀ operand ∈ operands, IsTemp input operand.id → userCount input operand.id ≤
          count operand.id + (operands.map HloInstruction.id).count operand.id →
        ∀ user ∈ input.computation.users operand.id, Finished (visited ++ [i]) user done) →
      freeOperands input done values operands s = ok s' →
      Releasing input Finished visited i
        (fun id => count id + (operands.map HloInstruction.id).count id) s' ∧
        s'.names = s.names ∧ s'.clock = s.clock := by
  induction operands with
  | nil =>
    intro count s s' h _ _ _ hrun
    obtain rfl : s = s' := by simpa [BufferSchedulingName.freeOperands] using hrun
    exact ⟨h.weaken fun id => by simp, rfl, rfl⟩
  | cons operand operands ih =>
    intro count s s' h huser havailable husers hrun
    rw [BufferSchedulingName.freeOperands, List.foldlM_cons, bind_eq_ok] at hrun
    obtain ⟨s₁, hstep, hrest⟩ := hrun
    have hsum : ∀ id, Function.update count operand.id (count operand.id + 1) id +
        (operands.map HloInstruction.id).count id =
        count id + ((operand :: operands).map HloInstruction.id).count id := by
      intro id
      rw [List.map_cons, List.count_cons]
      by_cases heq : id = operand.id
      · subst heq
        simp
        omega
      · have hne : (operand.id == id) = false := by simpa using Ne.symm heq
        simp [Function.update_of_ne heq, hne]
    have hone : Releasing input Finished visited i
        (Function.update count operand.id (count operand.id + 1)) s₁ ∧
        s₁.names = s.names ∧ s₁.clock = s.clock := by
      split at hstep
      · obtain rfl := ok.inj hstep
        exact ⟨h.weaken (le_update_succ count operand.id), rfl, rfl⟩
      · apply h.freeOperand hfrees hfinished hi (huser operand (by simp))
          (havailable operand (by simp)) ?_ hstep
        intro htemp hcount
        apply husers operand (by simp) htemp
        have := hsum operand.id
        rw [Function.update_self] at this
        omega
    obtain ⟨h₁, hnames₁, hclock₁⟩ := hone
    have hlast := ih h₁ (fun o ho => huser o (List.mem_cons_of_mem operand ho))
      (fun o ho => by
        rw [hclock₁]
        exact havailable o (List.mem_cons_of_mem operand ho))
      (fun o ho htemp hcount => by
        rw [hsum] at hcount
        exact husers o (List.mem_cons_of_mem operand ho) htemp hcount) hrest
    obtain ⟨h', hnames', hclock'⟩ := hlast
    exact ⟨h'.weaken fun id => (hsum id).le, hnames'.trans hnames₁, hclock'.trans hclock₁⟩

/-- Every temporary with a name was left by a task or a reshard. -/
def Produced (input : Input) (visited : List HloInstruction) (s : State) : Prop :=
  ∀ id name, IsTemp input id → s.names id = some name → ∃ producer ∈ visited,
    (producer.isCall = true ∨ isReshard producer = true) ∧
      id ∈ (outputs input producer).map HloInstruction.id

theorem mem_instructions_of_outputs (hi : i ∈ input.computation.instructions) :
    ∀ output ∈ outputs input i, output ∈ input.computation.instructions := by
  intro output houtput
  unfold outputs at houtput
  split at houtput
  · exact List.mem_of_mem_filter houtput
  · rwa [List.mem_singleton.mp houtput]

/-- Two instructions do not leave the same value. -/
theorem outputs_disjoint {j : HloInstruction} (hi : i ∈ input.computation.instructions)
    (hj : j ∈ input.computation.instructions) (huse : i.isCall = true ∨ isReshard i = true)
    (huse' : j.isCall = true ∨ isReshard j = true) {id : ℕ}
    (hid : id ∈ (outputs input i).map HloInstruction.id)
    (hid' : id ∈ (outputs input j).map HloInstruction.id) : i = j := by
  obtain ⟨o, ho, rfl⟩ := List.mem_map.mp hid
  obtain ⟨o', ho', heq⟩ := List.mem_map.mp hid'
  have hsame : o' = o := List.inj_on_of_nodup_map input.distinct
    (mem_instructions_of_outputs hj o' ho') (mem_instructions_of_outputs hi o ho) heq
  subst hsame
  have hgte : ∀ k : HloInstruction, isReshard k = true → k.isGetTupleElement = true → False := by
    intro k hk hk'
    have hop : k.opcode = .customCall kCustomCallReshard := by
      simpa [isReshard, HloInstruction.isCustomCall] using hk
    simp [HloInstruction.isGetTupleElement, hop] at hk'
  unfold outputs at ho ho'
  cases hcall : i.isCall <;> cases hcall' : j.isCall <;> simp only [hcall, hcall', if_true,
    Bool.false_eq_true, if_false, List.mem_singleton, false_or] at ho ho' huse huse'
  · rw [← ho, ho']
  · subst ho
    exact (hgte o' huse (input.outputs j hj hcall' o' ho').1).elim
  · subst ho'
    exact (hgte o' huse' (input.outputs i hi hcall o' ho).1).elim
  · have hone := (input.outputs i hi hcall o' ho).2
    have htwo := (input.outputs j hj hcall' o' ho').2
    rw [hone] at htwo
    exact List.inj_on_of_nodup_map input.distinct hi hj (List.cons.inj htwo).1

theorem mem_users {id : ℕ} (hi : i ∈ input.computation.instructions) (h : id ∈ i.operands) :
    i ∈ input.computation.users id := by
  simp only [HloComputation.users, List.mem_filter]
  exact ⟨hi, by simpa using h⟩

theorem le_timeStarted {clock : Clock} {devices : DeviceList} {id : ℕ} (hcall : i.isCall = true)
    (h : id ∈ i.operands) : clock.timesAvailable id ≤ timeStarted clock i devices := by
  have hfold : ∀ (ids : List ℕ) (time : ℕ), time ≤ ids.foldl
      (fun time operand => max (clock.timesAvailable operand) time) time ∧
      ∀ id ∈ ids, clock.timesAvailable id ≤ ids.foldl
        (fun time operand => max (clock.timesAvailable operand) time) time := by
    intro ids
    induction ids with
    | nil => simp
    | cons x ids ih =>
      intro time
      obtain ⟨hle, hmem⟩ := ih (max (clock.timesAvailable x) time)
      constructor
      · exact (le_max_right _ _).trans hle
      · intro id hid
        rcases List.mem_cons.mp hid with rfl | hid
        · exact (le_max_left _ _).trans hle
        · exact hmem id hid
  simp only [timeStarted, hcall, if_true]
  exact (hfold i.operands _).2 id h

section visit

variable {rest : List HloInstruction} {devices : DeviceList}

/-- The invariant after the outputs of an instruction have their names. -/
structure Named (input : Input) (Finished : Finishing) (visited : List HloInstruction)
    (i : HloInstruction) (devices : DeviceList) (s s' : State) : Prop where
  releasing : Releasing input Finished visited i (reads visited) s'
  produced : Produced input (visited ++ [i]) s'
  clock : s'.clock = advance input s.clock i devices
  reuses : ∀ temp name, IsTemp input temp → s.names temp = none → s'.names temp = some name →
    ∀ other, other ≠ temp → s'.names other = some name →
      ∀ user ∈ input.computation.users other, Finished visited user (timeStarted s.clock i devices)

theorem named_of_outputs (hfrees : FreesFinished input Finished) (hfinished : Finished.Lawful)
    (hsplit : input.computation.instructions = visited ++ i :: rest)
    (huse : i.isCall = true ∨ isReshard i = true)
    (h : Invariant input Finished visited (reads visited) s) (hproduced : Produced input visited s)
    (hrun : (outputs input i).foldlM
      (visitOutput input (timeStarted s.clock i devices) devices)
      { s with clock := advance input s.clock i devices } = ok s') :
    Named input Finished visited i devices s s' := by
  have hmem : i ∈ input.computation.instructions := by simp [hsplit]
  have hi : i ∉ visited := by
    have hnodup := (List.Nodup.of_map _ input.distinct)
    rw [hsplit, List.nodup_append] at hnodup
    exact fun hvisited => hnodup.2.2 i hvisited i (by simp) rfl
  have hkept : ∀ id name, IsTemp input id → s.names id = some name →
      (advance input s.clock i devices).timesAvailable id = s.clock.timesAvailable id := by
    intro id name htemp hname
    obtain ⟨producer, hvisited, huse', hid⟩ := hproduced id name htemp hname
    have hne : id ∉ (outputs input i).map HloInstruction.id := by
      intro hid'
      apply hi
      rw [outputs_disjoint hmem (by simp [hsplit, hvisited]) huse huse' hid' hid]
      exact hvisited
    simp only [advance, hne, if_false]
  have h₁ : Invariant input Finished visited (reads visited)
      { s with clock := advance input s.clock i devices } := by
    refine { h with live := ?_ }
    intro id other name hne hid hother htemp htemp'
    simp only [hkept id name htemp hid, hkept other name htemp' hother]
    exact h.live id other name hne hid hother htemp htemp'
  have hstarted : ∀ output ∈ outputs input i, timeStarted s.clock i devices ≤
      (advance input s.clock i devices).timesAvailable output.id := by
    intro output houtput
    have hid : output.id ∈ (outputs input i).map HloInstruction.id := List.mem_map_of_mem houtput
    simp only [advance, hid, if_true, timeDone]
    omega
  obtain ⟨h', hall⟩ := visitOutputs_names hfrees hfinished h₁
    (mem_instructions_of_outputs hmem) hstarted hrun
  constructor
  · constructor
    · exact h'.mono hfinished [i]
    · exact h'.live
    · intro shape hshape use huse'
      left
      intro id hid user huser
      exact hfinished.mem (h'.pool_finished shape hshape use huse' id hid user huser)
  · intro id name htemp hname
    by_cases hid : id ∈ (outputs input i).map HloInstruction.id
    · exact ⟨i, by simp, huse, hid⟩
    · rw [hall.other id hid] at hname
      obtain ⟨producer, hvisited, hrest⟩ := hproduced id name htemp hname
      exact ⟨producer, List.mem_append_left _ hvisited, hrest⟩
  · exact hall.clock
  · exact hall.finished

/-- The state of the traversal after some instructions. -/
structure Visited (input : Input) (Finished : Finishing) (visited : List HloInstruction)
    (s : State) : Prop where
  invariant : Invariant input Finished visited (reads visited) s
  produced : Produced input visited s
  clock : clockAfter input visited = ok s.clock

theorem tick_of_use {clock : Clock} (huse : i.isCall = true ∨ isReshard i = true)
    (hdevices : devicesOf input i = ok devices) :
    tick input clock i = ok (advance input clock i devices) := by
  unfold tick
  rw [if_pos (by simpa using huse), hdevices]
  rfl

/-- The values that an operand's users leave it with once the visit completes its reads. -/
theorem finished_of_reads (hfrees : FreesFinished input Finished) (hfinished : Finished.Lawful)
    (hsplit : input.computation.instructions = visited ++ i :: rest)
    (h : Visited input Finished visited s) (hdevices : devicesOf input i = ok devices)
    {id : ℕ} (hoperand : id ∈ i.operands) (htemp : IsTemp input id)
    (hcount : userCount input id ≤ reads visited id + operandReads i id) :
    ∀ user ∈ input.computation.users id,
      Finished (visited ++ [i]) user (timeDone s.clock i devices) := by
  have hmem : i ∈ input.computation.instructions := by simp [hsplit]
  have hlt : reads visited id < userCount input id := by
    by_contra hle
    have hnodup := (List.Nodup.of_map _ input.distinct)
    rw [hsplit, List.nodup_append] at hnodup
    have hvisited := hfrees.users_visited hfinished htemp visited hsplit h.clock (by omega) i
      (mem_users hmem hoperand)
    exact hnodup.2.2 i hvisited i (by simp) rfl
  apply hfrees.reads visited i rest hsplit s.clock devices h.clock hdevices id htemp hlt
  rwa [reads_append, reads_singleton]

/-- Reading the operands after the outputs are named. -/
theorem visited_of_named (hfrees : FreesFinished input Finished) (hfinished : Finished.Lawful)
    (hsplit : input.computation.instructions = visited ++ i :: rest)
    (huse : i.isCall = true ∨ isReshard i = true) (h : Visited input Finished visited s)
    (hdevices : devicesOf input i = ok devices) {s₁ : State}
    (hnamed : Named input Finished visited i devices s s₁) {operands : List HloInstruction}
    {values : List HloInstruction}
    (hoperands : ∀ operand ∈ operands, operand.id ∈ i.operands)
    (hreads : ∀ id, (operands.map HloInstruction.id).count id ≤ operandReads i id)
    (havailable : ∀ operand ∈ operands,
      s.clock.timesAvailable operand.id ≤ timeStarted s.clock i devices)
    (hrun : freeOperands input (timeDone s.clock i devices) values operands s₁ = ok s') :
    Visited input Finished (visited ++ [i]) s' ∧ s'.names = s₁.names := by
  have hmem : i ∈ input.computation.instructions := by simp [hsplit]
  have hi : i ∉ visited := by
    have hnodup := (List.Nodup.of_map _ input.distinct)
    rw [hsplit, List.nodup_append] at hnodup
    exact fun hvisited => hnodup.2.2 i hvisited i (by simp) rfl
  have hclock : ∀ operand ∈ operands,
      s₁.clock.timesAvailable operand.id ≤ timeDone s.clock i devices := by
    intro operand hoperand
    rw [hnamed.clock]
    simp only [advance]
    split
    · exact le_rfl
    · exact (havailable operand hoperand).trans (Nat.le_add_right _ _)
  have hlast : ∀ operand ∈ operands, IsTemp input operand.id → userCount input operand.id ≤
      reads visited operand.id + (operands.map HloInstruction.id).count operand.id →
      ∀ user ∈ input.computation.users operand.id,
        Finished (visited ++ [i]) user (timeDone s.clock i devices) := by
    intro operand hoperand htemp hcount
    have := hreads operand.id
    exact finished_of_reads hfrees hfinished hsplit h hdevices (hoperands operand hoperand) htemp
      (by omega)
  obtain ⟨h', hnames, hclock'⟩ := hnamed.releasing.freeOperands hfrees hfinished hi
    (fun operand hoperand => mem_users hmem (hoperands operand hoperand)) hclock hlast hrun
  refine ⟨?_, hnames⟩
  constructor
  · have hle : ∀ id, reads visited id + (operands.map HloInstruction.id).count id ≤
        reads (visited ++ [i]) id := by
      intro id
      rw [reads_append, reads_singleton]
      exact Nat.add_le_add_left (hreads id) _
    exact (h'.weaken hle).invariant
  · intro id name htemp hname
    rw [hnames] at hname
    exact hnamed.produced id name htemp hname
  · rw [clockAfter, List.foldlM_append, ← clockAfter, h.clock, hclock', hnamed.clock]
    simp [tick_of_use huse hdevices]

theorem map_id_of_mapM {c : HloComputation} {ids : List ℕ} {instructions : List HloInstruction}
    (h : ids.mapM c.getInstruction = ok instructions) :
    instructions.map HloInstruction.id = ids := by
  induction ids generalizing instructions with
  | nil =>
    obtain rfl : [] = instructions := by simpa using h
    rfl
  | cons id ids ih =>
    rw [List.mapM_cons] at h
    obtain ⟨i, hi, h⟩ := bind_eq_ok.mp h
    obtain ⟨others, hothers, h⟩ := bind_eq_ok.mp h
    obtain rfl := ok.inj h
    rw [List.map_cons, ih hothers, HloComputation.id_of_instruction (deref_eq_ok.mp hi)]

/-- What a visit does, for the instruction that is visited and for the names it hands out. -/
structure VisitStep (input : Input) (Finished : Finishing) (visited : List HloInstruction)
    (i : HloInstruction) (s s' : State) : Prop where
  state : Visited input Finished (visited ++ [i]) s'
  reuses : ∀ devices, devicesOf input i = ok devices →
    ∀ temp name, IsTemp input temp → s.names temp = none → s'.names temp = some name →
      ∀ other, other ≠ temp → s'.names other = some name →
        ∀ user ∈ input.computation.users other,
          Finished visited user (timeStarted s.clock i devices)

theorem visitStep_of_named (hdevices : devicesOf input i = ok devices) {s₁ : State}
    (hnamed : Named input Finished visited i devices s s₁)
    (h : Visited input Finished (visited ++ [i]) s' ∧ s'.names = s₁.names) :
    VisitStep input Finished visited i s s' where
  state := h.1
  reuses := by
    intro devices' hdevices'
    rw [hdevices] at hdevices'
    cases hdevices'
    rw [h.2]
    exact hnamed.reuses

theorem visitCall_step (hfrees : FreesFinished input Finished) (hfinished : Finished.Lawful)
    (hsplit : input.computation.instructions = visited ++ i :: rest) (hcall : i.isCall = true)
    (h : Visited input Finished visited s) (hvisit : visitCall input s i = ok s') :
    VisitStep input Finished visited i s s' := by
  unfold visitCall at hvisit
  obtain ⟨devices, hdevices, hvisit⟩ := bind_eq_ok.mp hvisit
  obtain ⟨operands, hoperands, hvisit⟩ := bind_eq_ok.mp hvisit
  obtain ⟨s₁, houtputs, hvisit⟩ := bind_eq_ok.mp hvisit
  have hids := map_id_of_mapM hoperands
  have hmem : ∀ operand ∈ operands, operand.id ∈ i.operands := by
    intro operand hoperand
    rw [← hids]
    exact List.mem_map_of_mem hoperand
  have hnamed := named_of_outputs hfrees hfinished hsplit (.inl hcall) h.invariant h.produced
    houtputs
  apply visitStep_of_named hdevices hnamed
  apply visited_of_named hfrees hfinished hsplit (.inl hcall) h hdevices hnamed hmem ?_ ?_ hvisit
  · intro id
    rw [hids]
    simp [operandReads, hcall]
  · intro operand hoperand
    exact le_timeStarted hcall (hmem operand hoperand)

theorem visitReshard_step (hfrees : FreesFinished input Finished) (hfinished : Finished.Lawful)
    (hsplit : input.computation.instructions = visited ++ i :: rest) (hcall : i.isCall = false)
    (hreshard : isReshard i = true) (h : Visited input Finished visited s)
    (hvisit : visitReshard input s i = ok s') : VisitStep input Finished visited i s s' := by
  unfold visitReshard at hvisit
  obtain ⟨devices, hdevices, hvisit⟩ := bind_eq_ok.mp hvisit
  obtain ⟨operandId, hget, hvisit⟩ := bind_eq_ok.mp hvisit
  obtain ⟨operand, hoperand, hvisit⟩ := bind_eq_ok.mp hvisit
  obtain ⟨s₁, houtput, hvisit⟩ := bind_eq_ok.mp hvisit
  have hid : operand.id = operandId := HloComputation.id_of_instruction (deref_eq_ok.mp hoperand)
  have hhead : i.operands.head? = some operand.id := by
    rw [hid, List.head?_eq_getElem?]
    exact elementAt_eq_ok.mp hget
  have hnamed : Named input Finished visited i devices s s₁ := by
    apply named_of_outputs hfrees hfinished hsplit (.inr hreshard) h.invariant h.produced
    simp only [outputs, hcall, Bool.false_eq_true, if_false, List.foldlM_cons, List.foldlM_nil]
    rw [houtput]
    rfl
  apply visitStep_of_named hdevices hnamed
  have hrest : ∀ operands : List HloInstruction, (∀ o ∈ operands, o = operand) →
      (operands.map HloInstruction.id).Nodup →
      freeOperands input (timeDone s.clock i devices) [] operands s₁ = ok s' →
      Visited input Finished (visited ++ [i]) s' ∧ s'.names = s₁.names := by
    intro operands heq hnodup hrun
    apply visited_of_named hfrees hfinished hsplit (.inr hreshard) h hdevices hnamed ?_ ?_ ?_ hrun
    · intro o ho
      rw [heq o ho]
      exact List.mem_of_head? hhead
    · intro id
      by_cases hmem : id ∈ operands.map HloInstruction.id
      · obtain ⟨o, ho, rfl⟩ := List.mem_map.mp hmem
        rw [List.count_eq_one_of_mem hnodup hmem, heq o ho]
        simp [operandReads, hcall, hreshard, hhead]
      · rw [List.count_eq_zero_of_not_mem hmem]
        exact Nat.zero_le _
    · intro o ho
      rw [heq o ho]
      have hheadD : i.operands.headD 0 = operand.id := by
        rw [List.headD_eq_head?_getD, hhead]
        rfl
      simp only [timeStarted, hcall, Bool.false_eq_true, if_false, hheadD, le_refl]
  split at hvisit
  · obtain rfl := ok.inj hvisit
    exact hrest [] (by simp) (by simp) rfl
  · split at hvisit
    · cases hvisit
    · apply hrest [operand] (by simp) (by simp)
      simp only [freeOperands, List.foldlM_cons, List.foldlM_nil, List.any_nil, Bool.and_false,
        Bool.false_eq_true, if_false]
      rw [hvisit]
      rfl

/-- A visit keeps the invariant, and the names that it hands out are free. -/
theorem visit_step (hfrees : FreesFinished input Finished) (hfinished : Finished.Lawful)
    (hsplit : input.computation.instructions = visited ++ i :: rest)
    (h : Visited input Finished visited s) (hvisit : visit input s i = ok s') :
    VisitStep input Finished visited i s s' := by
  unfold visit at hvisit
  cases hcall : i.isCall with
  | true =>
    rw [if_pos hcall] at hvisit
    exact visitCall_step hfrees hfinished hsplit hcall h hvisit
  | false =>
    simp only [hcall, Bool.false_eq_true, if_false] at hvisit
    cases hreshard : isReshard i with
    | true =>
      rw [if_pos hreshard] at hvisit
      exact visitReshard_step hfrees hfinished hsplit hcall hreshard h hvisit
    | false =>
      simp only [hreshard, Bool.false_eq_true, if_false] at hvisit
      obtain rfl := ok.inj hvisit
      constructor
      · constructor
        · refine { h.invariant.mono hfinished [i] with visits := ?_ }
          intro id
          rw [reads_append]
          exact (h.invariant.visits id).trans (Nat.le_add_right _ _)
        · intro id name htemp hname
          obtain ⟨producer, hproducer, hrest⟩ := h.produced id name htemp hname
          exact ⟨producer, List.mem_append_left _ hproducer, hrest⟩
        · rw [clockAfter, List.foldlM_append, ← clockAfter, h.clock]
          simp [tick, hcall, hreshard]
      · intro devices _ temp name _ hnone hname
        rw [hnone] at hname
        cases hname

end visit

/-- The invariant holds at every point of the traversal. -/
theorem visitAll_visited (hfrees : FreesFinished input Finished) (hfinished : Finished.Lawful) :
    ∀ {visited rest : List HloInstruction} {s : State},
      input.computation.instructions = visited ++ rest → visitAll input visited = ok s →
      Visited input Finished visited s := by
  intro visited
  induction visited using List.reverseRecOn with
  | nil =>
    intro rest s _ hrun
    obtain rfl := ok.inj hrun
    exact ⟨Invariant.start, fun id name htemp hname => absurd (hname.symm.trans htemp.1) (by simp),
      rfl⟩
  | append_singleton visited j ih =>
    intro rest s hsplit hrun
    rw [visitAll, List.foldlM_append] at hrun
    obtain ⟨before, hbefore, hvisit⟩ := bind_eq_ok.mp hrun
    have hsplit' : input.computation.instructions = visited ++ j :: rest := by simpa using hsplit
    exact (visit_step hfrees hfinished hsplit' (ih hsplit' hbefore) (by simpa using hvisit)).state

theorem reusesFinished (hfrees : FreesFinished input Finished) (hfinished : Finished.Lawful) :
    ReusesFinished input Finished := by
  intro visited i rest s s' devices hsplit hrun hvisit hdevices
  exact (visit_step hfrees hfinished hsplit (visitAll_visited hfrees hfinished hsplit hrun)
    hvisit).reuses devices hdevices

end BufferSchedulingName
end MultiMeshJax
