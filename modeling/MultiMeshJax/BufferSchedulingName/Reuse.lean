import MultiMeshJax.BufferSchedulingName.Pass

/-! A name is handed out again only after the values that had it before are finished with. -/
namespace MultiMeshJax
namespace BufferSchedulingName

open StatusOr

section conditions

variable (input : Input)

/-- The value has no name when the traversal starts, and gets that of a temporary. -/
def IsTemp (id : ℕ) : Prop := initialName input id = none ∧ usedByRoot input id = false

/-- In how many operand positions a task or a reshard reads the value. -/
def operandReads (i : HloInstruction) (id : ℕ) : ℕ :=
  if i.isCall then i.operands.count id
  else if isReshard i && i.operands.head? == some id then 1
  else 0

def reads (visited : List HloInstruction) (id : ℕ) : ℕ :=
  (visited.map (operandReads · id)).sum

def clockAfter (visited : List HloInstruction) : StatusOr Clock :=
  visited.foldlM (tick input) {}

/-- Of the instructions that have been visited, `user` is one and is finished by the time. -/
abbrev Finishing := List HloInstruction → HloInstruction → ℕ → Prop

structure Finishing.Lawful (Finished : Finishing) : Prop where
  mem : ∀ {visited user time}, Finished visited user time → user ∈ visited
  mono : ∀ {visited user time} (more : List HloInstruction) {time' : ℕ}, time ≤ time' →
    Finished visited user time → Finished (visited ++ more) user time'

/-- Once a temporary has been read as often as it has users, all of them are finished. No
other value has the name of a temporary's own buffer, and no temporary has the shape that
stands for the names that were there before. -/
structure FreesFinished (Finished : Finishing) : Prop where
  reads : ∀ visited i rest, input.computation.instructions = visited ++ i :: rest →
    ∀ clock devices, clockAfter input visited = ok clock → devicesOf input i = ok devices →
    ∀ id, IsTemp input id → reads visited id < userCount input id →
      userCount input id ≤ BufferSchedulingName.reads (visited ++ [i]) id →
      ∀ user ∈ input.computation.users id,
        Finished (visited ++ [i]) user (timeDone clock i devices)
  names : ∀ id ∈ input.computation.ids, IsTemp input id → ∀ other, initialName input other ≠ some id
  shape : ∀ i ∈ input.computation.instructions, IsTemp input i.id → ∀ devices,
    Sharding.xlaShapeToZukuShape i.shape devices i.shardingOrReplicated true ≠
      ok input.defaultShape

/-- A temporary that gets a name while `i` is visited shares it only with values whose users
are finished when `i` starts. -/
def ReusesFinished (Finished : Finishing) : Prop :=
  ∀ visited i rest s s' devices, input.computation.instructions = visited ++ i :: rest →
    visitAll input visited = ok s → visit input s i = ok s' → devicesOf input i = ok devices →
    ∀ temp name, IsTemp input temp → s.names temp = none → s'.names temp = some name →
      ∀ other, other ≠ temp → s'.names other = some name →
        ∀ user ∈ input.computation.users other,
          Finished visited user (timeStarted s.clock i devices)

end conditions

variable {input : Input} {Finished : Finishing}

theorem reads_append (visited more : List HloInstruction) (id : ℕ) :
    reads (visited ++ more) id = reads visited id + reads more id := by
  simp [reads]

theorem reads_singleton (i : HloInstruction) (id : ℕ) : reads [i] id = operandReads i id := by
  simp [reads]

/-- The invariant of the traversal. `count` bounds the visits of each value. -/
structure Invariant (input : Input) (Finished : Finishing) (visited : List HloInstruction)
    (count : ℕ → ℕ) (s : State) : Prop where
  initial : ∀ id name, initialName input id = some name → s.names id = some name
  own : ∀ id name, s.names id = some name → initialName input id = none →
    usedByRoot input id = true → name = id
  shapes : ∀ name shape, s.shapes name = some shape → shape ≠ input.defaultShape →
    IsTemp input name ∧ name ∈ input.computation.ids ∧ s.names name = some name
  owner : ∀ id name, IsTemp input id → s.names id = some name →
    shapeOf input s name ≠ input.defaultShape
  pool_shapes : ∀ shape, shape ≠ input.defaultShape → ∀ use ∈ s.pools shape,
    s.shapes use.name = some shape
  pool_nodup : ∀ shape, shape ≠ input.defaultShape → ((s.pools shape).map BufferUse.name).Nodup
  pool_finished : ∀ shape, shape ≠ input.defaultShape → ∀ use ∈ s.pools shape,
    ∀ id, s.names id = some use.name → ∀ user ∈ input.computation.users id,
      Finished visited user use.available
  live : ∀ id other name, id ≠ other → s.names id = some name → s.names other = some name →
    IsTemp input id → IsTemp input other →
    (∀ user ∈ input.computation.users id,
      Finished visited user (s.clock.timesAvailable other)) ∨
    ∀ user ∈ input.computation.users other,
      Finished visited user (s.clock.timesAvailable id)
  visits : ∀ id, s.timesVisited id ≤ count id

namespace Invariant

variable {visited : List HloInstruction} {count : ℕ → ℕ} {s : State}

theorem start : Invariant input Finished [] (fun _ => 0) (start input) where
  initial := fun _ _ h => h
  own := by
    intro id name hname hinitial
    exact absurd (hname.symm.trans hinitial) (by simp)
  shapes := by
    intro name shape h
    cases h
  owner := by
    intro id name htemp hname
    exact absurd (hname.symm.trans htemp.1) (by simp)
  pool_shapes := by simp [BufferSchedulingName.start]
  pool_nodup := by simp [BufferSchedulingName.start]
  pool_finished := by simp [BufferSchedulingName.start]
  live := by
    intro id other name _ hname _ htemp
    exact absurd (hname.symm.trans htemp.1) (by simp)
  visits := fun _ => le_rfl

/-- More instructions count as visited. -/
theorem mono (h : Invariant input Finished visited count s) (hfinished : Finished.Lawful)
    (more : List HloInstruction) : Invariant input Finished (visited ++ more) count s where
  initial := h.initial
  own := h.own
  shapes := h.shapes
  owner := h.owner
  pool_shapes := h.pool_shapes
  pool_nodup := h.pool_nodup
  pool_finished shape hshape use huse id hid user huser :=
    hfinished.mono more le_rfl (h.pool_finished shape hshape use huse id hid user huser)
  live id other name hne hid hother htemp htemp' := by
    rcases h.live id other name hne hid hother htemp htemp' with hdone | hdone
    · exact .inl fun user huser => hfinished.mono more le_rfl (hdone user huser)
    · exact .inr fun user huser => hfinished.mono more le_rfl (hdone user huser)
  visits := h.visits

theorem self_of_shape (h : Invariant input Finished visited count s) {name : ℕ}
    (hshape : shapeOf input s name ≠ input.defaultShape) :
    IsTemp input name ∧ name ∈ input.computation.ids ∧ s.names name = some name := by
  cases hshapes : s.shapes name with
  | none => exact absurd (by simp [shapeOf, hshapes]) hshape
  | some shape =>
    have hne : shape ≠ input.defaultShape := by simpa [shapeOf, hshapes] using hshape
    exact h.shapes name shape hshapes hne

/-- A value that has the name of a temporary's buffer is a temporary. -/
theorem isTemp_of_shape (h : Invariant input Finished visited count s)
    (hfrees : FreesFinished input Finished) {id name : ℕ} (hname : s.names id = some name)
    (hshape : shapeOf input s name ≠ input.defaultShape) : IsTemp input id := by
  obtain ⟨htemp, hmem, -⟩ := h.self_of_shape hshape
  cases hinitial : initialName input id with
  | some other =>
    rw [h.initial id other hinitial] at hname
    cases hname
    exact absurd hinitial (hfrees.names _ hmem htemp id)
  | none =>
    refine ⟨hinitial, ?_⟩
    by_contra hroot
    have hself := h.own id name hname hinitial (by simpa using hroot)
    rw [← hself] at hroot
    exact hroot htemp.2

end Invariant

section outputs

variable {visited : List HloInstruction} {count : ℕ → ℕ} {s s' : State}

/-- A buffer from the pool, or one of the temporary's own. -/
theorem allocateAtTime_cases {shape : ShardedShape} {time id name : ℕ}
    (h : allocateAtTime input s shape time id = (name, s')) :
    (∃ top uses, s.pools shape = top :: uses ∧ top.available ≤ time ∧ name = top.name ∧
      s' = { s with
        pools := Function.update s.pools shape (input.queue.pop (top :: uses))
        shapes := Function.update s.shapes top.name (some shape) }) ∨
    (name = id ∧ s' = { s with shapes := Function.update s.shapes id (some shape) }) := by
  unfold allocateAtTime at h
  split at h
  · rename_i top uses hpool
    split at h
    · rename_i hle
      left
      obtain ⟨rfl, rfl⟩ := Prod.mk.inj h
      exact ⟨top, uses, hpool, hle, rfl, rfl⟩
    · right
      obtain ⟨rfl, rfl⟩ := Prod.mk.inj h
      exact ⟨rfl, rfl⟩
  · right
    obtain ⟨rfl, rfl⟩ := Prod.mk.inj h
    exact ⟨rfl, rfl⟩

/-- What naming an output does. `name` is fresh in the sense that no pool has it any more. -/
structure Names (input : Input) (Finished : Finishing) (visited : List HloInstruction)
    (started : ℕ) (s s' : State) (id : ℕ) : Prop where
  clock : s'.clock = s.clock
  timesVisited : s'.timesVisited = s.timesVisited
  other : ∀ other, other ≠ id → s'.names other = s.names other
  pools : ∀ shape, ∀ use ∈ s'.pools shape, use ∈ s.pools shape
  keeps : ∀ name, s.names id = some name → s'.names id = some name
  finished : ∀ name, IsTemp input id → s.names id = none → s'.names id = some name →
    ∀ other, other ≠ id → s.names other = some name → ∀ user ∈ input.computation.users other,
      Finished visited user started
  taken : ∀ name, IsTemp input id → s.names id = none → s'.names id = some name →
    ∀ shape, shape ≠ input.defaultShape → ∀ use ∈ s'.pools shape, use.name ≠ name
  source : ∀ name, s.names id = none → s'.names id = some name →
    name = id ∨ ∃ shape, shape ≠ input.defaultShape ∧ ∃ use ∈ s.pools shape, use.name = name

theorem Names.refl (started id : ℕ) (h : ∃ name, s.names id = some name) :
    Names input Finished visited started s s id where
  clock := rfl
  timesVisited := rfl
  other _ _ := rfl
  pools _ _ h := h
  keeps _ h := h
  finished name _ hnone := by
    obtain ⟨other, hother⟩ := h
    rw [hother] at hnone
    cases hnone
  taken name _ hnone := by
    obtain ⟨other, hother⟩ := h
    rw [hother] at hnone
    cases hnone
  source name hnone := by
    obtain ⟨other, hother⟩ := h
    rw [hother] at hnone
    cases hnone

@[simp] theorem names_setName_self (s : State) (id name : ℕ) :
    (setName s id name).names id = some name := by
  simp [setName]

theorem names_setName_of_ne (s : State) {id other : ℕ} (h : other ≠ id) (name : ℕ) :
    (setName s id name).names other = s.names other := by
  simp [setName, Function.update_of_ne h]

/-- A name that is not given yet is in no pool. -/
theorem Invariant.notMem_pool (h : Invariant input Finished visited count s) {id : ℕ}
    (hnone : s.names id = none) {shape : ShardedShape} (hshape : shape ≠ input.defaultShape) :
    ∀ use ∈ s.pools shape, use.name ≠ id := by
  rintro use huse rfl
  have hself := (h.shapes _ shape (h.pool_shapes shape hshape use huse) hshape).2.2
  rw [hnone] at hself
  cases hself

/-- An output that the root uses keeps its own name. -/
theorem names_root (h : Invariant input Finished visited count s) {id : ℕ}
    (hnone : s.names id = none) (hroot : usedByRoot input id = true) (started : ℕ) :
    Invariant input Finished visited count (setName s id id) ∧
      Names input Finished visited started s (setName s id id) id := by
  have hne : ∀ other, IsTemp input other → other ≠ id := by
    rintro other htemp rfl
    rw [htemp.2] at hroot
    cases hroot
  constructor
  · constructor
    · intro other name hinitial
      have hname := h.initial other name hinitial
      rwa [names_setName_of_ne]
      rintro rfl
      rw [hnone] at hname
      cases hname
    · intro other name hname hinitial husedByRoot
      by_cases hid : other = id
      · subst hid
        rw [names_setName_self] at hname
        exact (Option.some.inj hname).symm
      · rw [names_setName_of_ne s hid] at hname
        exact h.own other name hname hinitial husedByRoot
    · intro name shape hname hshape
      obtain ⟨htemp, hmem, hself⟩ := h.shapes name shape hname hshape
      exact ⟨htemp, hmem, by rwa [names_setName_of_ne s (hne name htemp)]⟩
    · intro other name htemp hname
      rw [names_setName_of_ne s (hne other htemp)] at hname
      exact h.owner other name htemp hname
    · exact h.pool_shapes
    · exact h.pool_nodup
    · intro shape hshape use huse other hname
      by_cases hid : other = id
      · subst hid
        rw [names_setName_self] at hname
        exact absurd (Option.some.inj hname).symm (h.notMem_pool hnone hshape use huse)
      · rw [names_setName_of_ne s hid] at hname
        exact h.pool_finished shape hshape use huse other hname
    · intro one other name hdiff hone hother htemp htemp'
      rw [names_setName_of_ne s (hne one htemp)] at hone
      rw [names_setName_of_ne s (hne other htemp')] at hother
      exact h.live one other name hdiff hone hother htemp htemp'
    · exact h.visits
  · constructor
    · rfl
    · rfl
    · intro other hother
      exact names_setName_of_ne s hother id
    · exact fun _ _ huse => huse
    · intro name hname
      rw [hnone] at hname
      cases hname
    · intro name htemp
      exact absurd rfl (hne id htemp)
    · intro name htemp
      exact absurd rfl (hne id htemp)
    · intro name _ hname
      rw [names_setName_self] at hname
      exact .inl (Option.some.inj hname).symm

/-- The state in which a temporary's name has been taken, but not been given yet. -/
structure Allocated (input : Input) (Finished : Finishing) (visited : List HloInstruction)
    (started : ℕ) (s s' : State) (id name : ℕ) (shape : ShardedShape) : Prop where
  clock : s'.clock = s.clock
  timesVisited : s'.timesVisited = s.timesVisited
  names : s'.names = s.names
  shapes : s'.shapes = Function.update s.shapes name (some shape)
  pools : ∀ shape, ∀ use ∈ s'.pools shape, use ∈ s.pools shape
  pool_nodup : ∀ shape, shape ≠ input.defaultShape → ((s'.pools shape).map BufferUse.name).Nodup
  taken : ∀ shape, shape ≠ input.defaultShape → ∀ use ∈ s'.pools shape, use.name ≠ name
  source : name = id ∨ ∃ shape, shape ≠ input.defaultShape ∧ ∃ use ∈ s.pools shape, use.name = name
  temp : IsTemp input name ∧ name ∈ input.computation.ids ∧ (name = id ∨ s.names name = some name)
  finished : ∀ other, s.names other = some name → ∀ user ∈ input.computation.users other,
    Finished visited user started

theorem allocated (h : Invariant input Finished visited count s)
    (hfrees : FreesFinished input Finished) (hfinished : Finished.Lawful)
    {shape : ShardedShape} (hshape : shape ≠ input.defaultShape) {id started name : ℕ}
    (hid : id ∈ input.computation.ids) (htemp : IsTemp input id) (hnone : s.names id = none)
    (halloc : allocateAtTime input s shape started id = (name, s')) :
    Allocated input Finished visited started s s' id name shape := by
  rcases allocateAtTime_cases halloc with ⟨top, uses, hpool, hle, rfl, rfl⟩ | ⟨rfl, rfl⟩
  · have htop : top ∈ s.pools shape := by simp [hpool]
    have hperm := input.queue.pop_perm top uses
    have hshapes := h.pool_shapes shape hshape top htop
    obtain ⟨htemp', hmem, hself⟩ := h.shapes top.name shape hshapes hshape
    have hnodup := h.pool_nodup shape hshape
    rw [hpool, List.map_cons, List.nodup_cons] at hnodup
    have hpools : ∀ other, ∀ use ∈ Function.update s.pools shape
        (input.queue.pop (top :: uses)) other, use ∈ s.pools other := by
      intro other use huse
      by_cases hother : other = shape
      · subst hother
        rw [Function.update_self] at huse
        rw [hpool]
        exact List.mem_cons_of_mem _ (hperm.mem_iff.mp huse)
      · rwa [Function.update_of_ne hother] at huse
    constructor
    · rfl
    · rfl
    · rfl
    · rfl
    · exact hpools
    · intro other hother
      by_cases heq : other = shape
      · subst heq
        simp only [Function.update_self]
        exact (hperm.map BufferUse.name).nodup_iff.mpr hnodup.2
      · simp only [Function.update_of_ne heq]
        exact h.pool_nodup other hother
    · intro other hother use huse hname
      by_cases heq : other = shape
      · subst heq
        simp only [Function.update_self] at huse
        exact hnodup.1 (hname ▸ List.mem_map_of_mem (hperm.mem_iff.mp huse))
      · have hshapes' := h.pool_shapes other hother use (hpools other use huse)
        rw [hname, hshapes] at hshapes'
        exact heq (Option.some.inj hshapes').symm
    · exact .inr ⟨shape, hshape, top, htop, rfl⟩
    · exact ⟨htemp', hmem, .inr hself⟩
    · intro other hother user huser
      have hdone := h.pool_finished shape hshape top htop other hother user huser
      simpa using hfinished.mono [] hle hdone
  · constructor
    · rfl
    · rfl
    · rfl
    · rfl
    · exact fun _ _ huse => huse
    · exact h.pool_nodup
    · exact fun other hother => h.notMem_pool hnone hother
    · exact .inl rfl
    · exact ⟨htemp, hid, .inl rfl⟩
    · intro other hother
      cases hinitial : initialName input other with
      | some old =>
        rw [h.initial other old hinitial] at hother
        cases hother
        exact absurd hinitial (hfrees.names _ hid htemp other)
      | none =>
        by_cases hroot : usedByRoot input other = true
        · rw [← h.own other name hother hinitial hroot] at hother
          rw [hnone] at hother
          cases hother
        · have hshape' := h.owner other name ⟨hinitial, by simpa using hroot⟩ hother
          obtain ⟨-, -, hself⟩ := h.self_of_shape hshape'
          rw [hnone] at hself
          cases hself

/-- A temporary gets a name that only finished values have. -/
theorem names_temp (h : Invariant input Finished visited count s)
    (hfrees : FreesFinished input Finished) (hfinished : Finished.Lawful)
    {shape : ShardedShape} (hshape : shape ≠ input.defaultShape) {id started name : ℕ}
    (hid : id ∈ input.computation.ids) (htemp : IsTemp input id) (hnone : s.names id = none)
    (hstarted : started ≤ s.clock.timesAvailable id)
    (halloc : allocateAtTime input s shape started id = (name, s')) :
    Invariant input Finished visited count (setName s' id name) ∧
      Names input Finished visited started s (setName s' id name) id := by
  have ha := allocated h hfrees hfinished hshape hid htemp hnone halloc
  have hself : (setName s' id name).names id = some name := names_setName_self s' id name
  have hother : ∀ other, other ≠ id → (setName s' id name).names other = s.names other := by
    intro other hne
    rw [names_setName_of_ne s' hne, ha.names]
  have hstrictly : ∀ other old, s.names other = some old →
      (setName s' id name).names other = some old := by
    intro other old hold
    rw [hother, hold]
    rintro rfl
    rw [hnone] at hold
    cases hold
  constructor
  · constructor
    · intro other old hinitial
      exact hstrictly other old (h.initial other old hinitial)
    · intro other old hold hinitial hroot
      by_cases heq : other = id
      · rw [heq, htemp.2] at hroot
        cases hroot
      · rw [hother other heq] at hold
        exact h.own other old hold hinitial hroot
    · intro old other hold hne
      have hshapes : Function.update s.shapes name (some shape) old = some other := by
        rw [← ha.shapes]
        exact hold
      by_cases heq : old = name
      · subst heq
        obtain ⟨htemp', hmem, hid' | hnamed⟩ := ha.temp
        · rw [hid'] at htemp' hmem ⊢
          exact ⟨htemp', hmem, names_setName_self s' id id⟩
        · exact ⟨htemp', hmem, hstrictly old old hnamed⟩
      · rw [Function.update_of_ne heq] at hshapes
        obtain ⟨htemp', hmem, hnamed⟩ := h.shapes old other hshapes hne
        exact ⟨htemp', hmem, hstrictly old old hnamed⟩
    · intro other old htemp' hold
      have hshapes : shapeOf input (setName s' id name) old =
          (Function.update s.shapes name (some shape) old).getD input.defaultShape := by
        rw [shapeOf, ← ha.shapes]
        rfl
      rw [hshapes]
      by_cases heq : old = name
      · simpa [heq] using hshape
      · rw [Function.update_of_ne heq]
        have hne : other ≠ id := by
          rintro rfl
          rw [hself] at hold
          exact heq (Option.some.inj hold).symm
        rw [hother other hne] at hold
        exact h.owner other old htemp' hold
    · intro other hne use huse
      have hshapes := h.pool_shapes other hne use (ha.pools other use huse)
      show s'.shapes use.name = some other
      rwa [ha.shapes, Function.update_of_ne (ha.taken other hne use huse)]
    · exact ha.pool_nodup
    · intro other hne use huse one hone
      have hdiff : one ≠ id := by
        rintro rfl
        rw [hself] at hone
        exact ha.taken other hne use huse (Option.some.inj hone).symm
      rw [hother one hdiff] at hone
      exact h.pool_finished other hne use (ha.pools other use huse) one hone
    · intro one two old hdiff hone htwo htemp₁ htemp₂
      have hclock : (setName s' id name).clock = s.clock := ha.clock
      rw [hclock]
      by_cases heq : one = id
      · subst heq
        rw [hself] at hone
        cases hone
        rw [hother two hdiff.symm] at htwo
        right
        intro user huser
        simpa using hfinished.mono [] hstarted (ha.finished two htwo user huser)
      · rw [hother one heq] at hone
        by_cases heq' : two = id
        · subst heq'
          rw [hself] at htwo
          cases htwo
          left
          intro user huser
          simpa using hfinished.mono [] hstarted (ha.finished one hone user huser)
        · rw [hother two heq'] at htwo
          exact h.live one two old hdiff hone htwo htemp₁ htemp₂
    · intro one
      show s'.timesVisited one ≤ count one
      rw [ha.timesVisited]
      exact h.visits one
  · constructor
    · exact ha.clock
    · exact ha.timesVisited
    · exact hother
    · exact ha.pools
    · intro old hold
      exact hstrictly id old hold
    · intro old _ _ hold other hne hother'
      rw [hself] at hold
      cases hold
      exact ha.finished other hother'
    · intro old _ _ hold
      rw [hself] at hold
      cases hold
      exact ha.taken
    · intro old _ hold
      rw [hself] at hold
      cases hold
      exact ha.source

theorem visitOutput_names (h : Invariant input Finished visited count s)
    (hfrees : FreesFinished input Finished) (hfinished : Finished.Lawful)
    {i : HloInstruction} (hi : i ∈ input.computation.instructions) {devices : DeviceList}
    {started : ℕ} (hstarted : started ≤ s.clock.timesAvailable i.id)
    (hvisit : visitOutput input started devices s i = ok s') :
    Invariant input Finished visited count s' ∧ Names input Finished visited started s s' i.id := by
  unfold visitOutput at hvisit
  cases hname : s.names i.id with
  | some name =>
    simp only [hname, pure_eq, ok.injEq] at hvisit
    subst hvisit
    exact ⟨h, Names.refl started i.id ⟨name, hname⟩⟩
  | none =>
    simp only [hname] at hvisit
    cases hroot : usedByRoot input i.id with
    | true =>
      simp only [hroot, if_true, pure_eq, ok.injEq] at hvisit
      subst hvisit
      exact names_root h hname hroot started
    | false =>
      simp only [hroot, Bool.false_eq_true, if_false] at hvisit
      obtain ⟨shape, hshape, hvisit⟩ := bind_eq_ok.mp hvisit
      obtain rfl := ok.inj hvisit
      have htemp : IsTemp input i.id := by
        refine ⟨?_, hroot⟩
        cases hinitial : initialName input i.id with
        | none => rfl
        | some old =>
          rw [h.initial _ old hinitial] at hname
          cases hname
      have hne : shape ≠ input.defaultShape := by
        rintro rfl
        exact hfrees.shape i hi htemp devices hshape
      exact names_temp h hfrees hfinished hne (List.mem_map_of_mem hi) htemp hname hstarted
        (Prod.mk.eta (p := allocateAtTime input s shape started i.id)).symm

/-- What naming the outputs of an instruction does. -/
structure NamesAll (input : Input) (Finished : Finishing) (visited : List HloInstruction)
    (started : ℕ) (s s' : State) (ids : List ℕ) : Prop where
  clock : s'.clock = s.clock
  timesVisited : s'.timesVisited = s.timesVisited
  other : ∀ other ∉ ids, s'.names other = s.names other
  pools : ∀ shape, ∀ use ∈ s'.pools shape, use ∈ s.pools shape
  keeps : ∀ id name, s.names id = some name → s'.names id = some name
  finished : ∀ id name, IsTemp input id → s.names id = none → s'.names id = some name →
    ∀ other, other ≠ id → s'.names other = some name → ∀ user ∈ input.computation.users other,
      Finished visited user started
  source : ∀ id name, s.names id = none → s'.names id = some name →
    name = id ∨ ∃ shape, shape ≠ input.defaultShape ∧ ∃ use ∈ s.pools shape, use.name = name

theorem NamesAll.refl (started : ℕ) (s : State) :
    NamesAll input Finished visited started s s [] where
  clock := rfl
  timesVisited := rfl
  other _ _ := rfl
  pools _ _ h := h
  keeps _ _ h := h
  finished id name _ hnone hname := by
    rw [hnone] at hname
    cases hname
  source id name hnone hname := by
    rw [hnone] at hname
    cases hname

theorem NamesAll.cons {started id : ℕ} {ids : List ℕ} {s₁ : State}
    (h₁ : Invariant input Finished visited count s₁)
    (h : Names input Finished visited started s s₁ id)
    (hrest : NamesAll input Finished visited started s₁ s' ids) :
    NamesAll input Finished visited started s s' (id :: ids) where
  clock := hrest.clock.trans h.clock
  timesVisited := hrest.timesVisited.trans h.timesVisited
  other other hother := by
    rw [List.mem_cons, not_or] at hother
    exact (hrest.other other hother.2).trans (h.other other hother.1)
  pools shape use huse := h.pools shape use (hrest.pools shape use huse)
  keeps one name hname := by
    apply hrest.keeps
    by_cases heq : one = id
    · subst heq
      exact h.keeps name hname
    · rwa [h.other one heq]
  finished one name htemp hnone hname other hother hother' := by
    cases hone : s₁.names one with
    | none => exact hrest.finished one name htemp hone hname other hother hother'
    | some old =>
      -- the first output has got the name, so that no later output can get it again
      have heq : one = id := by
        by_contra hne
        rw [h.other one hne, hnone] at hone
        cases hone
      subst heq
      rw [hrest.keeps one old hone] at hname
      cases hname
      cases hold : s₁.names other with
      | some old' =>
        rw [hrest.keeps other old' hold] at hother'
        cases hother'
        rw [h.other other hother] at hold
        exact h.finished name htemp hnone hone other hother hold
      | none =>
        exfalso
        rcases hrest.source other name hold hother' with rfl | ⟨shape, hshape, use, huse, hname⟩
        · have hself := (h₁.self_of_shape (h₁.owner one name htemp hone)).2.2
          rw [hold] at hself
          cases hself
        · exact h.taken name htemp hnone hone shape hshape use huse hname
  source one name hnone hname := by
    cases hone : s₁.names one with
    | none =>
      rcases hrest.source one name hone hname with heq | ⟨shape, hshape, use, huse, heq⟩
      · exact .inl heq
      · exact .inr ⟨shape, hshape, use, h.pools shape use huse, heq⟩
    | some old =>
      have heq : one = id := by
        by_contra hne
        rw [h.other one hne, hnone] at hone
        cases hone
      subst heq
      rw [hrest.keeps one old hone] at hname
      cases hname
      exact h.source name hnone hone

theorem visitOutputs_names (hfrees : FreesFinished input Finished) (hfinished : Finished.Lawful)
    {devices : DeviceList} {started : ℕ} {values : List HloInstruction} :
    ∀ {s s' : State}, Invariant input Finished visited count s →
      (∀ i ∈ values, i ∈ input.computation.instructions) →
      (∀ i ∈ values, started ≤ s.clock.timesAvailable i.id) →
      values.foldlM (visitOutput input started devices) s = ok s' →
      Invariant input Finished visited count s' ∧
        NamesAll input Finished visited started s s' (values.map HloInstruction.id) := by
  induction values with
  | nil =>
    intro s s' h _ _ hrun
    obtain rfl : s = s' := by simpa using hrun
    exact ⟨h, NamesAll.refl started s⟩
  | cons i values ih =>
    intro s s' h hmem hstarted hrun
    rw [List.foldlM_cons, bind_eq_ok] at hrun
    obtain ⟨s₁, hvisit, hrest⟩ := hrun
    obtain ⟨h₁, hnames⟩ := visitOutput_names h hfrees hfinished (hmem i (by simp))
      (hstarted i (by simp)) hvisit
    obtain ⟨h', hall⟩ := ih h₁ (fun j hj => hmem j (List.mem_cons_of_mem i hj))
      (fun j hj => by
        rw [hnames.clock]
        exact hstarted j (List.mem_cons_of_mem i hj)) hrest
    exact ⟨h', NamesAll.cons h₁ hnames hall⟩

end outputs

end BufferSchedulingName
end MultiMeshJax
