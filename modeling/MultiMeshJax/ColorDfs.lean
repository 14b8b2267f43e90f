import MultiMeshJax.Hlo.Program

/-! `ColorSortedPostorder`: a depth-first order that keeps instructions of one colour close. -/
namespace MultiMeshJax

def HloInstruction.isTask (i : HloInstruction) : Bool :=
  match i.opcode with
  | .call _ => true
  | .whileLoop _ => true
  | _ => false

namespace ColorDfs

open StatusOr

/-- `toVisit` has the top of the stack first. What is `visited` is in the order already, or
waits for its operands. -/
structure State where
  toVisit : List ℕ
  dfs : List HloInstruction := []
  visited : ℕ → Option Bool := fun _ => none
  colorPriority : String → ℕ := fun _ => 0
  lastColor : Option String := none
  nextPriority : ℕ := 1

/-- Anything with a colour goes first, and of these what has the higher priority. -/
def goesFirst (colorPriority : String → ℕ) (lhs rhs : HloInstruction) : Bool :=
  match lhs.color, rhs.color with
  | some lhsColor, some rhsColor => decide (colorPriority rhsColor < colorPriority lhsColor)
  | some _, none => true
  | none, _ => false

/-- The sort is stable. -/
def sortOperands (colorPriority : String → ℕ) (operands : List HloInstruction) :
    List HloInstruction :=
  operands.insertionSort fun lhs rhs => goesFirst colorPriority rhs lhs = false

def setPriority (st : State) (next : HloInstruction) : State :=
  match next.color with
  | some color =>
    if st.lastColor = some color then st
    else { st with
      colorPriority := Function.update st.colorPriority color st.nextPriority
      lastColor := some color
      nextPriority := st.nextPriority + 1 }
  | none => st

def pushOperands (st : State) (next : HloInstruction) (operands : List HloInstruction) : State :=
  let st := setPriority st next
  { st with
    toVisit := ((sortOperands st.colorPriority operands).map HloInstruction.id).reverse ++ st.toVisit
    visited := Function.update st.visited next.id (some false) }

/-- All the elements that are taken from one custom call are put together. -/
def finish (c : HloComputation) (st : State) (next : HloInstruction) : StatusOr State :=
  let add (users : List HloInstruction) : State :=
    { st with
      dfs := st.dfs ++ users
      visited := fun id => if id ∈ users.map HloInstruction.id then some true else st.visited id }
  if next.isGetTupleElement then do
    let source ← elementAt next.operands 0
    let instruction ← c.getInstruction source
    match instruction.opcode with
    | .customCall _ => return add (c.users source)
    | _ => return add [next]
  else return add [next]

def step (c : HloComputation) (st : State) (id : ℕ) (rest : List ℕ) : StatusOr State := do
  let next ← c.getInstruction id
  match st.visited id with
  | none => do
    let operands ← next.operands.mapM c.getInstruction
    return pushOperands st next operands
  | some true => return { st with toVisit := rest }
  | some false => finish c { st with toVisit := rest } next

/-- The loop, which has no result if it takes more steps than these. -/
def loop (c : HloComputation) : ℕ → State → Option (StatusOr (List HloInstruction))
  | fuel, st =>
    match st.toVisit, fuel with
    | [], _ => some (ok st.dfs)
    | _ :: _, 0 => none
    | id :: rest, fuel + 1 =>
      match step c st id rest with
      | ok st => loop c fuel st
      | error message => some (error message)
      | fatal reason => some (fatal reason)

/-- The steps that are enough: each instruction pushes its operands once. -/
def steps (c : HloComputation) : ℕ :=
  (c.instructions.map fun i => i.operands.length + 1).sum + 1

def colorSortedPostorder (c : HloComputation) : Option (StatusOr (List HloInstruction)) :=
  loop c (steps c) { toVisit := [c.root] }

section termination

variable {c : HloComputation} {st st' : State}

/-- What an instruction that has not been visited still pushes. -/
def weight (visited : ℕ → Option Bool) (i : HloInstruction) : ℕ :=
  if visited i.id = none then i.operands.length + 1 else 0

def remaining (c : HloComputation) (st : State) : ℕ :=
  (c.instructions.map (weight st.visited)).sum + st.toVisit.length

theorem weight_mono {visited visited' : ℕ → Option Bool}
    (h : ∀ id, visited' id = none → visited id = none) (i : HloInstruction) :
    weight visited' i ≤ weight visited i := by
  unfold weight
  split
  · rename_i hnone
    rw [if_pos (h i.id hnone)]
  · exact Nat.zero_le _

theorem sum_weight_mono {visited visited' : ℕ → Option Bool}
    (h : ∀ id, visited' id = none → visited id = none) (is : List HloInstruction) :
    (is.map (weight visited')).sum ≤ (is.map (weight visited)).sum :=
  List.sum_le_sum fun i _ => weight_mono h i

/-- The first visit of an instruction takes its weight out of the sum. -/
theorem sum_weight_update {visited : ℕ → Option Bool} {is : List HloInstruction}
    {next : HloInstruction} (hnext : next ∈ is) (hnone : visited next.id = none) :
    (is.map (weight (Function.update visited next.id (some false)))).sum +
      (next.operands.length + 1) ≤ (is.map (weight visited)).sum := by
  have hmono : ∀ id, Function.update visited next.id (some false) id = none →
      visited id = none := by
    intro id h
    by_cases heq : id = next.id
    · rw [heq]
      exact hnone
    · rwa [Function.update_of_ne heq] at h
  obtain ⟨before, after, rfl⟩ := List.append_of_mem hnext
  have hbefore := sum_weight_mono hmono before
  have hafter := sum_weight_mono hmono after
  have hself : weight visited next = next.operands.length + 1 := by simp [weight, hnone]
  have hdone : weight (Function.update visited next.id (some false)) next = 0 := by simp [weight]
  simp only [List.map_append, List.map_cons, List.sum_append, List.sum_cons, hself, hdone]
  omega

theorem setPriority_toVisit (st : State) (next : HloInstruction) :
    (setPriority st next).toVisit = st.toVisit ∧ (setPriority st next).visited = st.visited ∧
      (setPriority st next).dfs = st.dfs := by
  unfold setPriority
  split
  · split <;> exact ⟨rfl, rfl, rfl⟩
  · exact ⟨rfl, rfl, rfl⟩

/-- The end of a visit, from which the order grows by the instruction or by the elements
that are taken from the same custom call. -/
theorem finish_eq_ok {next : HloInstruction} (h : finish c st next = ok st') : ∃ users,
    (users = [next] ∨ next.isGetTupleElement = true ∧ ∃ source i target,
      next.operands[0]? = some source ∧ c.instruction source = some i ∧
        i.opcode = .customCall target ∧ users = c.users source) ∧
    st'.toVisit = st.toVisit ∧ st'.dfs = st.dfs ++ users ∧
    st'.visited = fun id => if id ∈ users.map HloInstruction.id then some true
      else st.visited id := by
  unfold finish at h
  dsimp only at h
  split at h
  · rename_i hgte
    obtain ⟨source, hsource, h⟩ := bind_eq_ok.mp h
    obtain ⟨i, hi, h⟩ := bind_eq_ok.mp h
    split at h
    · rename_i target hop
      obtain rfl := ok.inj h
      exact ⟨_, .inr ⟨hgte, source, i, target, elementAt_eq_ok.mp hsource, deref_eq_ok.mp hi, hop,
        rfl⟩, rfl, rfl, rfl⟩
    · obtain rfl := ok.inj h
      exact ⟨_, .inl rfl, rfl, rfl, rfl⟩
  · obtain rfl := ok.inj h
    exact ⟨_, .inl rfl, rfl, rfl, rfl⟩

/-- A step pushes the operands of an instruction, or pops one. -/
theorem step_remaining {id : ℕ} {rest : List ℕ} (htop : st.toVisit = id :: rest)
    (h : step c st id rest = ok st') : remaining c st' < remaining c st := by
  unfold step at h
  obtain ⟨next, hnext, h⟩ := bind_eq_ok.mp h
  have hnext := deref_eq_ok.mp hnext
  have hid : next.id = id := HloComputation.id_of_instruction hnext
  unfold remaining
  rw [htop]
  split at h
  · rename_i hnone
    obtain ⟨operands, hoperands, h⟩ := bind_eq_ok.mp h
    obtain rfl := ok.inj h
    obtain ⟨htoVisit, hvisited, -⟩ := setPriority_toVisit st next
    rw [← hid] at hnone
    have hsum := sum_weight_update (HloComputation.mem_of_instruction hnext) hnone
    have hlength := (mapM_eq_ok.mp hoperands).length_eq
    simp only [pushOperands, sortOperands, htoVisit, hvisited, htop, List.length_append,
      List.length_reverse, List.length_map, List.length_insertionSort, List.length_cons]
    omega
  · obtain rfl := ok.inj h
    simp
  · obtain ⟨users, -, htoVisit, -, hvisited⟩ := finish_eq_ok h
    have hmono : ∀ id, st'.visited id = none → st.visited id = none := by
      intro id hnone
      rw [hvisited] at hnone
      dsimp only at hnone
      split at hnone
      · cases hnone
      · exact hnone
    have hsum := sum_weight_mono hmono c.instructions
    rw [htoVisit]
    simp only [List.length_cons]
    omega

theorem loop_isSome {fuel : ℕ} (h : remaining c st ≤ fuel) : (loop c fuel st).isSome := by
  induction fuel generalizing st with
  | zero =>
    have hempty : st.toVisit = [] := by
      rw [← List.length_eq_zero_iff]
      unfold remaining at h
      omega
    simp [loop, hempty]
  | succ fuel ih =>
    unfold loop
    split
    · rfl
    · rename_i hzero
      cases hzero
    · rename_i id rest fuel' htop hfuel
      obtain rfl : fuel' = fuel := by omega
      split
      · rename_i st' hstep
        apply ih
        have := step_remaining htop hstep
        omega
      · rfl
      · rfl

/-- The order is found in finitely many steps. -/
theorem colorSortedPostorder_isSome (c : HloComputation) : (colorSortedPostorder c).isSome := by
  apply loop_isSome
  have hweight : weight (fun _ => none) = fun i => i.operands.length + 1 := by
    funext i
    simp [weight]
  unfold remaining steps
  rw [hweight]
  exact le_rfl

end termination

section tasks

variable {c : HloComputation} {st st' : State}

/-- Where elements are taken from a custom call, no task uses it. -/
def CustomCallsTaken (c : HloComputation) : Prop :=
  ∀ source i target, c.instruction source = some i → i.opcode = .customCall target →
    ∀ gte ∈ c.users source, gte.isGetTupleElement = true →
      ∀ user ∈ c.users source, user.isTask = false

/-- The tasks of the order are there once, and have been visited. -/
structure Ordered (c : HloComputation) (st : State) : Prop where
  mem : ∀ i ∈ st.dfs, i ∈ c.instructions
  visited : ∀ i ∈ st.dfs, i.isTask = true → st.visited i.id = some true
  nodup : ((st.dfs.filter HloInstruction.isTask).map HloInstruction.id).Nodup

theorem finish_ordered (hc : CustomCallsTaken c) (h : Ordered c st) {next : HloInstruction}
    (hnext : next ∈ c.instructions) (hvisited : st.visited next.id ≠ some true)
    (hrun : finish c st next = ok st') : Ordered c st' := by
  obtain ⟨users, husers, -, hdfs, hvisited'⟩ := finish_eq_ok hrun
  have hmem : ∀ i ∈ users, i ∈ c.instructions := by
    intro i hi
    rcases husers with rfl | ⟨-, source, j, target, -, -, -, rfl⟩
    · rw [List.mem_singleton.mp hi]
      exact hnext
    · exact List.mem_of_mem_filter hi
  -- what is taken from a custom call has no task among it
  have htasks : users.filter HloInstruction.isTask = [] ∨
      users.filter HloInstruction.isTask = [next] := by
    rcases husers with rfl | ⟨hgte, source, j, target, hsource, hj, hop, rfl⟩
    · by_cases htask : next.isTask = true
      · exact .inr (by simp [htask])
      · exact .inl (by simp [htask])
    · left
      rw [List.filter_eq_nil_iff]
      intro user huser
      have hself : next ∈ c.users source := by
        simp [HloComputation.users, hnext, List.mem_of_getElem? hsource]
      simp [hc source j target hj hop next hself hgte user huser]
  constructor
  · intro i hi
    rw [hdfs] at hi
    rcases List.mem_append.mp hi with hi | hi
    · exact h.mem i hi
    · exact hmem i hi
  · intro i hi htask
    rw [hvisited']
    dsimp only
    split
    · rfl
    · rename_i hnew
      rw [hdfs] at hi
      rcases List.mem_append.mp hi with hi | hi
      · exact h.visited i hi htask
      · exact absurd (List.mem_map_of_mem hi) hnew
  · rw [hdfs, List.filter_append, List.map_append]
    rcases htasks with htasks | htasks
    · rw [htasks]
      simpa using h.nodup
    · rw [htasks, List.nodup_append]
      refine ⟨h.nodup, by simp, ?_⟩
      intro id hid id' hid' heq
      obtain ⟨i, hi, rfl⟩ := List.mem_map.mp hid
      obtain ⟨hi, htask⟩ := List.mem_filter.mp hi
      rw [List.map_singleton, List.mem_singleton] at hid'
      apply hvisited
      rw [← hid', ← heq]
      exact h.visited i hi htask

theorem step_ordered (hc : CustomCallsTaken c) (h : Ordered c st) {id : ℕ} {rest : List ℕ}
    (hrun : step c st id rest = ok st') : Ordered c st' := by
  unfold step at hrun
  obtain ⟨next, hnext, hrun⟩ := bind_eq_ok.mp hrun
  have hnext := deref_eq_ok.mp hnext
  have hid : next.id = id := HloComputation.id_of_instruction hnext
  split at hrun
  · rename_i hnone
    obtain ⟨operands, -, hrun⟩ := bind_eq_ok.mp hrun
    obtain rfl := ok.inj hrun
    obtain ⟨-, hvisited, hdfs⟩ := setPriority_toVisit st next
    have hdfs' : (pushOperands st next operands).dfs = st.dfs := hdfs
    constructor
    · intro i hi
      rw [hdfs'] at hi
      exact h.mem i hi
    · intro i hi htask
      rw [hdfs'] at hi
      have hdone := h.visited i hi htask
      have hne : i.id ≠ next.id := by
        intro heq
        rw [heq, hid, hnone] at hdone
        cases hdone
      show Function.update (setPriority st next).visited next.id (some false) i.id = some true
      rw [Function.update_of_ne hne, hvisited]
      exact hdone
    · rw [hdfs']
      exact h.nodup
  · obtain rfl := ok.inj hrun
    exact ⟨h.mem, h.visited, h.nodup⟩
  · rename_i hfalse
    apply finish_ordered hc _ (HloComputation.mem_of_instruction hnext) _ hrun
    · exact ⟨h.mem, h.visited, h.nodup⟩
    · rw [hid]
      simp [hfalse]

theorem loop_ordered (hc : CustomCallsTaken c) {fuel : ℕ} {order : List HloInstruction}
    (h : Ordered c st) (hrun : loop c fuel st = some (ok order)) :
    (∀ i ∈ order, i ∈ c.instructions) ∧
      ((order.filter HloInstruction.isTask).map HloInstruction.id).Nodup := by
  induction fuel generalizing st with
  | zero =>
    unfold loop at hrun
    split at hrun
    · obtain rfl := ok.inj (Option.some.inj hrun)
      exact ⟨h.mem, h.nodup⟩
    · cases hrun
    · rename_i hzero
      cases hzero
  | succ fuel ih =>
    unfold loop at hrun
    split at hrun
    · obtain rfl := ok.inj (Option.some.inj hrun)
      exact ⟨h.mem, h.nodup⟩
    · rename_i hzero
      cases hzero
    · rename_i id rest fuel' htop hfuel
      obtain rfl : fuel' = fuel := by omega
      split at hrun
      · rename_i st' hstep
        exact ih (step_ordered hc h hstep) hrun
      · cases Option.some.inj hrun
      · cases Option.some.inj hrun

/-- No task comes twice in the order. -/
theorem tasks_nodup (hc : CustomCallsTaken c) {order : List HloInstruction}
    (hrun : colorSortedPostorder c = some (ok order)) : (∀ i ∈ order, i ∈ c.instructions) ∧
      ((order.filter HloInstruction.isTask).map HloInstruction.id).Nodup := by
  apply loop_ordered hc _ hrun
  constructor
  · intro i hi
    cases hi
  · intro i hi
    cases hi
  · exact List.nodup_nil

end tasks

end ColorDfs
end MultiMeshJax
