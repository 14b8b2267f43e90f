import MultiMeshJax.Foundation.Renumbering
import MultiMeshJax.Foundation.Worklist

/-! The renumbering of the channel ids at the end of `MpmdShardMapLoopReduce`. -/
namespace MultiMeshJax
namespace ShardMapLoopReduce

open StatusOr

inductive Opcode where
  | allReduce | allGather | reduceScatter | allToAll | raggedAllToAll
  | collectivePermute | collectiveBroadcast
  | other
  deriving DecidableEq, Repr

structure Instruction where
  id : ℕ
  opcode : Opcode
  channelId : Option ℤ := none
  calledComputations : List ℕ := []
  deriving DecidableEq, Repr

/-- The computations, each with its instructions in post order. -/
structure Module where
  computations : List (List Instruction)
  entry : ℕ

/-- The cases of the switch. -/
def Opcode.isRenumbered : Opcode → Bool
  | allReduce | allGather | reduceScatter | allToAll | raggedAllToAll => true
  | _ => false

def Opcode.isCollective : Opcode → Bool
  | other => false
  | _ => true

namespace Module

variable (m : Module)

def instructions : List Instruction := m.computations.flatten

/-- The channel ids before the renumbering. -/
def channelIds (id : ℕ) : Option ℤ :=
  (m.instructions.find? fun i => i.id == id).bind Instruction.channelId

/-- The last computation that is pushed is visited next. -/
def toVisit (computation : List Instruction) : List ℕ :=
  ((computation.filter fun i => !i.opcode.isRenumbered).flatMap
    Instruction.calledComputations).reverse

def renumbered (computation : List Instruction) : List ℕ :=
  (computation.filter fun i => i.opcode.isRenumbered).map Instruction.id

def visitComputation (st : Numbers ℕ) (n : ℕ) : StatusOr (Numbers ℕ × List ℕ) := do
  let computation ← elementAt m.computations n
  return (st.run (renumbered computation), toVisit computation)

def start : Numbers ℕ where
  number := m.channelIds
  used := []
  nextAvailable := 1

def renumber (rounds : ℕ) : StatusOr (Numbers ℕ) :=
  Worklist.drain m.visitComputation rounds m.start [m.entry]

/-- The computations that come off a stack until it is empty, in their order. -/
inductive Visits : List ℕ → List ℕ → Prop
  | nil : Visits [] []
  | cons {n : ℕ} {rest order : List ℕ} {computation : List Instruction}
      (hn : m.computations[n]? = some computation)
      (hrest : Visits (toVisit computation ++ rest) order) : Visits (n :: rest) (n :: order)

/-- The renumbered instructions of the computations, as often as the computations come up. -/
def visited (order : List ℕ) : List ℕ :=
  order.flatMap fun n => renumbered (m.computations.getD n [])

/-- No two collectives carry the same id. -/
def UniqueChannelIds (channelId : ℕ → Option ℤ) : Prop :=
  ∀ i ∈ m.instructions, ∀ j ∈ m.instructions, i.opcode.isCollective = true →
    j.opcode.isCollective = true → i.id ≠ j.id →
      ∀ n, channelId i.id = some n → channelId j.id ≠ some n

/-- The collectives that the renumbering passes over. -/
def PassedOver (order : List ℕ) (i : Instruction) : Prop :=
  i ∈ m.instructions ∧ i.opcode.isCollective = true ∧ i.id ∉ m.visited order

/-- The ids that are passed over are different, and no other collective ends up with one of them:
at its last visit neither its own id, if that was not met before, nor otherwise the next one
that was not met is one of them. -/
structure ClearOfPassedOver (order : List ℕ) : Prop where
  distinct : ∀ i j, m.PassedOver order i → m.PassedOver order j → i.id ≠ j.id →
    ∀ n, i.channelId = some n → j.channelId ≠ some n
  lastVisit : ∀ before id after, m.visited order = before ++ id :: after → id ∉ after →
    ∀ n, (m.start.run before).number id = some n → ∀ j, m.PassedOver order j →
      (n ∉ (m.start.run before).used → j.channelId ≠ some n) ∧
        (n ∈ (m.start.run before).used →
          j.channelId ≠ some (nextUnused (m.start.run before).used
            (m.start.run before).nextAvailable))

/-- The computations do not call each other in a cycle, and the ids are distinct. -/
structure WellFormed : Prop where
  nodup : (m.instructions.map Instruction.id).Nodup
  calls : ∀ i ∈ m.instructions, ∀ n ∈ i.calledComputations, n < m.computations.length
  entry : m.entry < m.computations.length
  acyclic : WellFounded fun n n' => ∃ computation, m.computations[n']? = some computation ∧
    ∃ i : Instruction, i ∈ computation ∧ n ∈ i.calledComputations

variable {m} {order stack : List ℕ} {st st' : Numbers ℕ}

theorem channelIds_of_mem (hm : m.WellFormed) {i : Instruction} (hi : i ∈ m.instructions) :
    m.channelIds i.id = i.channelId := by
  have hfind : m.instructions.find? (fun j => j.id == i.id) = some i := by
    cases h : m.instructions.find? fun j => j.id == i.id with
    | none =>
      rw [List.find?_eq_none] at h
      exact absurd (beq_self_eq_true i.id) (h i hi)
    | some j =>
      have hid : j.id = i.id := by simpa using List.find?_some h
      rw [List.inj_on_of_nodup_map hm.nodup (List.mem_of_find?_eq_some h) hi hid]
  rw [channelIds, hfind, Option.bind_some]

/-- The run of the pass is a run over the instructions that are visited. -/
theorem exists_visits (h : Worklist.Reaches m.visitComputation st stack st' []) :
    ∃ order, m.Visits stack order ∧ st' = st.run (m.visited order) := by
  generalize hlast : ([] : List ℕ) = last at h
  induction h with
  | refl =>
    subst hlast
    exact ⟨[], .nil, rfl⟩
  | @visit st st₁ st' n pushed rest stack hvisit _ ih =>
    obtain ⟨order, horder, hst'⟩ := ih hlast
    obtain ⟨computation, hn, hvisit⟩ := bind_eq_ok.mp hvisit
    obtain ⟨rfl, rfl⟩ := Prod.mk.inj (ok.inj hvisit)
    have hget := elementAt_eq_ok.mp hn
    refine ⟨n :: order, .cons hget horder, ?_⟩
    rw [hst', visited, visited, List.flatMap_cons, Numbers.run_append, List.getD_eq_getElem?_getD,
      hget, Option.getD_some]

theorem mem_instructions {n : ℕ} {computation : List Instruction} {i : Instruction}
    (hn : m.computations[n]? = some computation) (hi : i ∈ computation) : i ∈ m.instructions :=
  List.mem_flatten.mpr ⟨computation, List.mem_of_getElem? hn, hi⟩

theorem mem_toVisit {computation : List Instruction} {n : ℕ} (h : n ∈ toVisit computation) :
    ∃ i ∈ computation, n ∈ i.calledComputations := by
  obtain ⟨i, hi, hn⟩ := List.mem_flatMap.mp (List.mem_reverse.mp h)
  exact ⟨i, List.mem_of_mem_filter hi, hn⟩

/-- Only numbers of computations get onto the stack. -/
theorem lt_of_reaches (hm : m.WellFormed) (h : Worklist.Reaches m.visitComputation st stack st' order)
    (hstack : ∀ n ∈ stack, n < m.computations.length) : ∀ n ∈ order, n < m.computations.length := by
  induction h with
  | refl => exact hstack
  | visit hvisit _ ih =>
    obtain ⟨computation, hget, hvisit⟩ := bind_eq_ok.mp hvisit
    obtain ⟨-, rfl⟩ := Prod.mk.inj (ok.inj hvisit)
    apply ih
    intro n hn
    rcases List.mem_append.mp hn with hn | hn
    · obtain ⟨i, hi, hn⟩ := mem_toVisit hn
      exact hm.calls i (mem_instructions (elementAt_eq_ok.mp hget) hi) n hn
    · exact hstack n (List.mem_cons_of_mem _ hn)

/-- The walk ends, since no computation calls itself. -/
theorem exists_renumber (hm : m.WellFormed) : ∃ rounds order,
    m.Visits [m.entry] order ∧ m.renumber rounds = ok (m.start.run (m.visited order)) := by
  have hacc : Acc (fun n n' => n ∈ toVisit (m.computations.getD n' [])) m.entry := by
    apply Subrelation.accessible _ (hm.acyclic.apply m.entry)
    intro n n' hn
    cases hget : m.computations[n']? with
    | none =>
      rw [List.getD_eq_getElem?_getD, hget] at hn
      simp [toVisit] at hn
    | some computation =>
      rw [List.getD_eq_getElem?_getD, hget] at hn
      obtain ⟨i, hi, hn⟩ := mem_toVisit hn
      exact ⟨computation, rfl, i, hi, hn⟩
  have hnext : ∀ st n st' pushed, m.visitComputation st n = ok (st', pushed) →
      pushed = toVisit (m.computations.getD n []) := by
    intro st n st' pushed hvisit
    obtain ⟨computation, hget, hvisit⟩ := bind_eq_ok.mp hvisit
    obtain ⟨-, rfl⟩ := Prod.mk.inj (ok.inj hvisit)
    rw [List.getD_eq_getElem?_getD, elementAt_eq_ok.mp hget, Option.getD_some]
  have hok : ∀ st' n rest', Worklist.Reaches m.visitComputation m.start [m.entry] st' (n :: rest') →
      (∃ pushed, rest' = pushed ++ []) → ∃ result, m.visitComputation st' n = ok result := by
    intro st' n rest' hreaches _
    have hlt := lt_of_reaches hm hreaches (by simpa using hm.entry) n (List.mem_cons_self ..)
    exact ⟨_, by rw [visitComputation, elementAt_of_lt hlt]; rfl⟩
  obtain ⟨st', hreaches⟩ := Worklist.exists_reaches hnext hacc hok
  obtain ⟨order, horder, rfl⟩ := exists_visits hreaches
  obtain ⟨rounds, hrun⟩ := hreaches.drain
  exact ⟨rounds, order, horder, hrun⟩

theorem mem_visited {id : ℕ} (h : id ∈ m.visited order) :
    ∃ i ∈ m.instructions, i.id = id ∧ i.opcode.isRenumbered = true := by
  obtain ⟨n, -, hid⟩ := List.mem_flatMap.mp h
  obtain ⟨i, hi, rfl⟩ := List.mem_map.mp hid
  obtain ⟨hi, hrenumbered⟩ := List.mem_filter.mp hi
  cases hget : m.computations[n]? with
  | none =>
    rw [List.getD_eq_getElem?_getD, hget] at hi
    cases hi
  | some computation =>
    rw [List.getD_eq_getElem?_getD, hget] at hi
    exact ⟨i, mem_instructions hget hi, rfl, hrenumbered⟩

theorem isCollective_of_isRenumbered {o : Opcode} (h : o.isRenumbered = true) :
    o.isCollective = true := by
  cases o <;> first | rfl | cases h

/-- What is passed over keeps its id. -/
theorem number_of_passedOver (hm : m.WellFormed) {i : Instruction} (h : m.PassedOver order i) :
    (m.start.run (m.visited order)).number i.id = i.channelId := by
  obtain ⟨hi, -, hnot⟩ := h
  rw [Numbers.number_run_of_notMem hnot]
  exact channelIds_of_mem hm hi

/-- The ids of a finished walk are all different exactly when those that it passes over are, and
stay apart from the others. -/
theorem uniqueChannelIds_run_iff (hm : m.WellFormed) (order : List ℕ) :
    m.UniqueChannelIds (m.start.run (m.visited order)).number ↔ m.ClearOfPassedOver order := by
  have hclear : ∀ before id after, m.visited order = before ++ id :: after → id ∉ after → ∀ n,
      (m.start.run before).number id = some n →
        (m.start.run (m.visited order)).number id = some ((m.start.run before).given n) := by
    intro before id after hsplit hlast n hn
    rw [hsplit]
    exact Numbers.number_run_last hlast hn
  constructor
  · intro hunique
    constructor
    · intro i j hi hj hne n hn hn'
      rw [← number_of_passedOver hm hi] at hn
      rw [← number_of_passedOver hm hj] at hn'
      exact hunique i hi.1 j hj.1 hi.2.1 hj.2.1 hne n hn hn'
    · intro before id after hsplit hlast n hn j hj
      have hgiven : j.channelId ≠ some ((m.start.run before).given n) := by
        intro hsame
        have hmem : id ∈ m.visited order := by
          rw [hsplit]
          exact List.mem_append_right _ (List.mem_cons_self ..)
        obtain ⟨i, hi, rfl, hrenumbered⟩ := mem_visited hmem
        rw [← number_of_passedOver hm hj] at hsame
        apply hunique i hi j hj.1 (isCollective_of_isRenumbered hrenumbered) hj.2.1 _ _
          (hclear before i.id after hsplit hlast n hn) hsame
        intro heq
        exact hj.2.2 (heq ▸ hmem)
      unfold Numbers.given at hgiven
      constructor
      · intro hunused
        rwa [if_neg hunused] at hgiven
      · intro hused
        rwa [if_pos hused] at hgiven
  · intro h i hi j hj hicollective hjcollective hne n hn hn'
    have hstart : Numbers.Apart [] m.start := ⟨by simp, by simp⟩
    have happart := hstart.run (m.visited order)
    rw [List.nil_append] at happart
    have hmixed : ∀ i j : Instruction, i.id ∈ m.visited order → m.PassedOver order j →
        (m.start.run (m.visited order)).number i.id = some n →
          (m.start.run (m.visited order)).number j.id ≠ some n := by
      intro i j hi hj hn
      obtain ⟨before, after, hsplit, hlast⟩ := exists_last_mem hi
      rw [number_of_passedOver hm hj]
      cases hold : (m.start.run before).number i.id with
      | none =>
        have hnone : (m.start.run (m.visited order)).number i.id = none :=
          Numbers.number_run_eq_none.mpr (Numbers.number_run_eq_none.mp hold)
        rw [hnone] at hn
        cases hn
      | some a =>
        rw [hclear before i.id after hsplit hlast a hold] at hn
        obtain rfl := Option.some.inj hn
        obtain ⟨hunused, hused⟩ := h.lastVisit before i.id after hsplit hlast a hold j hj
        unfold Numbers.given
        split
        · rename_i hin
          exact hused hin
        · rename_i hnot
          exact hunused hnot
    by_cases hvi : i.id ∈ m.visited order
    · by_cases hvj : j.id ∈ m.visited order
      · exact happart.apart i.id hvi j.id hvj hne n hn hn'
      · exact hmixed i j hvi ⟨hj, hjcollective, hvj⟩ hn hn'
    · have hpi : m.PassedOver order i := ⟨hi, hicollective, hvi⟩
      by_cases hvj : j.id ∈ m.visited order
      · exact hmixed j i hvj hpi hn' hn
      · have hpj : m.PassedOver order j := ⟨hj, hjcollective, hvj⟩
        rw [number_of_passedOver hm hpi] at hn
        rw [number_of_passedOver hm hpj] at hn'
        exact h.distinct i j hpi hpj hne n hn hn'

theorem Visits.unique {order' : List ℕ} (h : m.Visits stack order) (h' : m.Visits stack order') :
    order = order' := by
  induction h generalizing order' with
  | nil =>
    cases h'
    rfl
  | cons hn _ ih =>
    cases h' with
    | cons hn' hrest' =>
      rw [hn] at hn'
      obtain rfl := Option.some.inj hn'
      rw [ih hrest']

/-- The renumbering ends, with a unique id for each collective exactly when the collectives that it
passes over allow for it. -/
theorem renumber_unique_iff (hm : m.WellFormed) : ∃ order, m.Visits [m.entry] order ∧
    (∃ rounds st, m.renumber rounds = ok st) ∧
      ∀ rounds st, m.renumber rounds = ok st →
        (m.UniqueChannelIds st.number ↔ m.ClearOfPassedOver order) := by
  obtain ⟨rounds, order, horder, hrun⟩ := exists_renumber hm
  refine ⟨order, horder, ⟨rounds, _, hrun⟩, ?_⟩
  intro rounds' st' hrun'
  obtain ⟨order', horder', rfl⟩ := exists_visits (Worklist.reaches_of_drain hrun')
  obtain rfl := horder.unique horder'
  exact uniqueChannelIds_run_iff hm order

/-- Two all-reduces with one id next to a collective-permute. -/
def permuteInUse : Module where
  computations :=
    [[{ id := 0, opcode := .allReduce, channelId := some 1 },
      { id := 1, opcode := .allReduce, channelId := some 1 },
      { id := 2, opcode := .collectivePermute, channelId := some 2 }]]
  entry := 0

theorem permuteInUse_wellFormed : permuteInUse.WellFormed where
  nodup := by decide
  calls := by decide
  entry := by decide
  acyclic := by
    have hnone : ∀ n n' : ℕ, ¬∃ computation, permuteInUse.computations[n']? = some computation ∧
        ∃ i : Instruction, i ∈ computation ∧ n ∈ i.calledComputations := by
      rintro n n' ⟨computation, hget, i, hi, hn⟩
      have hcalls : ∀ i ∈ permuteInUse.instructions, i.calledComputations = [] := by decide
      rw [hcalls i (mem_instructions hget hi)] at hn
      cases hn
    exact ⟨fun n => ⟨n, fun n' h => absurd h (hnone n' n)⟩⟩

theorem renumber_unique_iff_permuteInUse : ∃ order, permuteInUse.Visits [0] order ∧
    (∃ rounds st, permuteInUse.renumber rounds = ok st) ∧
      ∀ rounds st, permuteInUse.renumber rounds = ok st →
        (permuteInUse.UniqueChannelIds st.number ↔ permuteInUse.ClearOfPassedOver order) :=
  renumber_unique_iff permuteInUse_wellFormed

/-- The second all-reduce gets the id of the collective-permute. -/
theorem permuteInUse_not_unique : ∃ st, permuteInUse.renumber 2 = ok st ∧
    ¬permuteInUse.UniqueChannelIds st.number := by
  refine ⟨_, rfl, ?_⟩
  intro h
  exact h { id := 1, opcode := .allReduce, channelId := some 1 } (by decide)
    { id := 2, opcode := .collectivePermute, channelId := some 2 } (by decide) rfl rfl (by decide) 2
    (by decide) (by decide)

end Module

end ShardMapLoopReduce
end MultiMeshJax
