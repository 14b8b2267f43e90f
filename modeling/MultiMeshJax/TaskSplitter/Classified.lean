import MultiMeshJax.ComputationFusion.Collected
import MultiMeshJax.TaskSplitter.SplitTask

/-! What is known of the two parts of a task: which values they take and which they give. -/
namespace MultiMeshJax
namespace TaskSplitter

open StatusOr CriticalPath HloComputation
open ComputationFusion (Reaches)

/-- A call of a computation in post order that has a tuple as its root. -/
structure TaskCall (p : TaskProgram) (task : HloInstruction) (n : ℕ)
    (computation : HloComputation) (taskRoot : HloInstruction) : Prop where
  distinct : p.ids.Nodup
  mem : task ∈ p.computation.instructions
  opcode : task.opcode = .call n
  called : p.called[n]? = some computation
  closed : ∀ i ∈ p.computation.instructions, ∀ o ∈ i.operands, o ∈ p.computation.ids
  calls : ∀ i ∈ p.computation.instructions, ∀ m, i.opcode = .call m → m < p.called.length
  acyclic : ¬Reaches p.computation task.id task.id
  root_mem : p.computation.root ∈ p.computation.ids
  caller : ∀ i ∈ p.computation.instructions, i.opcode = .call n → i = task
  users : ∀ user ∈ p.computation.users task.id, user.operands = [task.id] ∧
    ∃ index < taskRoot.operands.length, user.opcode = .getTupleElement index
  root : computation.instruction computation.root = some taskRoot
  tuple : taskRoot.opcode = .tuple
  listed : ∀ earlier i later, computation.instructions = earlier ++ i :: later →
    ∀ o ∈ i.operands ++ i.controlPredecessors, o ∈ earlier.map HloInstruction.id
  parameters : ∀ i ∈ computation.instructions, ∀ number, i.opcode = .parameter number →
    number < task.operands.length ∧ i.operands = []

namespace TaskCall

variable {p : TaskProgram} {task : HloInstruction} {n : ℕ} {computation : HloComputation}
  {taskRoot : HloInstruction}

theorem ids_nodup (h : TaskCall p task n computation taskRoot) : computation.ids.Nodup := by
  have hcalled := (List.nodup_append.mp h.distinct).2.1
  rw [List.nodup_flatMap] at hcalled
  exact hcalled.1 computation (List.mem_of_getElem? h.called)

theorem parent_nodup (h : TaskCall p task n computation taskRoot) : p.computation.ids.Nodup :=
  (List.nodup_append.mp h.distinct).1

theorem instruction_of_mem (h : TaskCall p task n computation taskRoot) {i : HloInstruction}
    (hi : i ∈ computation.instructions) : computation.instruction i.id = some i :=
  HloComputation.instruction_of_mem h.ids_nodup hi

/-- An operand is an instruction that is listed earlier. -/
theorem exists_operand (h : TaskCall p task n computation taskRoot) {i : HloInstruction}
    (hi : i ∈ computation.instructions) {o : ℕ} (ho : o ∈ i.operands) :
    ∃ j, computation.instruction o = some j := by
  obtain ⟨earlier, later, hsplit⟩ := List.append_of_mem hi
  obtain ⟨j, hj, rfl⟩ := List.mem_map.mp
    (h.listed earlier i later hsplit o (List.mem_append_left _ ho))
  exact ⟨j, h.instruction_of_mem (by simp [hsplit, hj])⟩

end TaskCall

section classify

variable {computation : HloComputation} {included : List ℕ} {S : ℕ → Prop}
  {st : TaskConfig × List ℕ}

/-- The operands that have been seen are sorted into those from outside and from other sets. -/
structure Seen (computation : HloComputation) (included : List ℕ) (S : ℕ → Prop)
    (st : TaskConfig × List ℕ) : Prop where
  visited : ∀ o, o ∈ st.2 ↔ S o
  external : ∀ i, i ∈ st.1.externalParameters ↔
    computation.instruction i.id = some i ∧ i.isParameter = true ∧ S i.id
  internal : ∀ i, i ∈ st.1.internalParameters ↔
    computation.instruction i.id = some i ∧ i.isParameter = false ∧ i.id ∉ included ∧ S i.id

def roots (config : TaskConfig) : List HloInstruction := config.externalRoots ++ config.internalRoots

theorem Seen.congr {S' : ℕ → Prop} (h : Seen computation included S st)
    (hS : ∀ o, S o ↔ S' o) : Seen computation included S' st := by
  have heq : S = S' := funext fun o => propext (hS o)
  exact heq ▸ h

theorem visitOperand_seen {operand : ℕ} {i : HloInstruction}
    (hi : computation.instruction operand = some i) (h : Seen computation included S st) :
    ∃ st', visitOperand computation included st operand = ok st' ∧
      Seen computation included (fun o => S o ∨ o = operand) st' ∧ roots st'.1 = roots st.1 := by
  obtain rfl := id_of_instruction hi
  unfold visitOperand
  split
  · rename_i hmem
    have hS : S i.id := (h.visited i.id).mp (by simpa using hmem)
    refine ⟨st, rfl, h.congr fun o => ⟨.inl, ?_⟩, rfl⟩
    rintro (ho | rfl)
    · exact ho
    · exact hS
  · rename_i hmem
    have hnew : ¬S i.id := fun hS => hmem (by simpa using (h.visited i.id).mpr hS)
    rw [show computation.getInstruction i.id = ok i from deref_eq_ok.mpr hi, ok_bind]
    have hone : ∀ {j}, computation.instruction j.id = some j → j.id = i.id → j = i := by
      intro j hj heq
      rw [heq, hi] at hj
      exact (Option.some.inj hj).symm
    refine ⟨_, rfl, ?_, ?_⟩
    · constructor
      · intro o
        simp [h.visited, or_comm]
      · intro j
        dsimp only
        split
        · rename_i hparam
          rw [List.mem_append, List.mem_singleton, h.external]
          constructor
          · rintro (⟨hj, hjparam, hS⟩ | rfl)
            · exact ⟨hj, hjparam, .inl hS⟩
            · exact ⟨hi, hparam, .inr rfl⟩
          · rintro ⟨hj, hjparam, hS | heq⟩
            · exact .inl ⟨hj, hjparam, hS⟩
            · exact .inr (hone hj heq)
        · rename_i hparam
          have hsame : j ∈ (if included.contains i.id = true then st.1 else
              { st.1 with internalParameters := st.1.internalParameters ++ [i] }).externalParameters ↔
              j ∈ st.1.externalParameters := by
            split <;> rfl
          rw [hsame, h.external]
          constructor
          · rintro ⟨hj, hjparam, hS⟩
            exact ⟨hj, hjparam, .inl hS⟩
          · rintro ⟨hj, hjparam, hS | heq⟩
            · exact ⟨hj, hjparam, hS⟩
            · exact absurd (hone hj heq ▸ hjparam) hparam
      · intro j
        dsimp only
        split
        · rename_i hparam
          rw [h.internal]
          constructor
          · rintro ⟨hj, hjparam, hnot, hS⟩
            exact ⟨hj, hjparam, hnot, .inl hS⟩
          · rintro ⟨hj, hjparam, hnot, hS | heq⟩
            · exact ⟨hj, hjparam, hnot, hS⟩
            · rw [hone hj heq, hparam] at hjparam
              cases hjparam
        · rename_i hparam
          split
          · rename_i hmem
            rw [h.internal]
            constructor
            · rintro ⟨hj, hjparam, hnot, hS⟩
              exact ⟨hj, hjparam, hnot, .inl hS⟩
            · rintro ⟨hj, hjparam, hnot, hS | heq⟩
              · exact ⟨hj, hjparam, hnot, hS⟩
              · rw [heq] at hnot
                exact absurd (by simpa using hmem) hnot
          · rename_i hmem
            rw [List.mem_append, List.mem_singleton, h.internal]
            constructor
            · rintro (⟨hj, hjparam, hnot, hS⟩ | rfl)
              · exact ⟨hj, hjparam, hnot, .inl hS⟩
              · exact ⟨hi, by simpa using hparam, by simpa using hmem, .inr rfl⟩
            · rintro ⟨hj, hjparam, hnot, hS | heq⟩
              · exact .inl ⟨hj, hjparam, hnot, hS⟩
              · exact .inr (hone hj heq)
    · split
      · rfl
      · split <;> rfl

/-- The operands of one instruction are sorted. -/
theorem visitOperands_seen {operands : List ℕ}
    (hoperands : ∀ o ∈ operands, ∃ i, computation.instruction o = some i)
    (h : Seen computation included S st) :
    ∃ st', operands.foldlM (visitOperand computation included) st = ok st' ∧
      Seen computation included (fun o => S o ∨ o ∈ operands) st' ∧ roots st'.1 = roots st.1 := by
  apply exists_foldlM_eq_ok (fun done st' =>
    Seen computation included (fun o => S o ∨ o ∈ done) st' ∧ roots st'.1 = roots st.1)
  · exact ⟨h.congr fun o => by simp, rfl⟩
  · intro done operand hinitial st' ⟨hst', hroots⟩
    obtain ⟨i, hi⟩ := hoperands operand (hinitial.subset (by simp))
    obtain ⟨st'', hrun, hseen, hroots'⟩ := visitOperand_seen hi hst'
    refine ⟨st'', hrun, hseen.congr fun o => ?_, hroots'.trans hroots⟩
    rw [List.mem_append, List.mem_singleton, or_assoc]

/-- The instruction is used by the root or by an instruction that is not included. -/
def IsGiven (computation : HloComputation) (included : List ℕ) (i : HloInstruction) : Prop :=
  ∃ user ∈ computation.users i.id, user.id = computation.root ∨ user.id ∉ included

/-- What the loop over a set of instructions has found. -/
structure Classified (computation : HloComputation) (included : List ℕ)
    (done : List HloInstruction) (st : TaskConfig × List ℕ) : Prop where
  seen : Seen computation included
    (fun o => ∃ i ∈ done, i.isParameter = false ∧ o ∈ i.operands) st
  roots : ∀ i, i ∈ roots st.1 ↔
    i ∈ done ∧ i.isParameter = false ∧ IsGiven computation included i

theorem mem_roots_visitUsers (order : UserOrder computation) (config : TaskConfig)
    (i j : HloInstruction) : j ∈ roots (visitUsers included order config i) ↔
      j ∈ roots config ∨ j = i ∧ IsGiven computation included i := by
  unfold visitUsers
  split
  · rename_i hnone
    constructor
    · exact .inl
    · rintro (hj | ⟨-, user, huser, hgiven⟩)
      · exact hj
      · rw [List.find?_eq_none] at hnone
        have hnot := hnone user (mem_users.mpr huser)
        simp only [Bool.or_eq_true, beq_iff_eq, Bool.not_eq_true', List.contains_eq_mem,
          decide_eq_false_iff_not] at hnot
        exact absurd hgiven hnot
  · rename_i user hfound
    have hgiven : IsGiven computation included i := by
      refine ⟨user, mem_users.mp (List.mem_of_find?_eq_some hfound), ?_⟩
      simpa using List.find?_some hfound
    have hmem : j ∈ roots (if user.id = computation.root then
        { config with externalRoots := config.externalRoots ++ [i] }
        else { config with internalRoots := config.internalRoots ++ [i] }) ↔
        j ∈ roots config ∨ j = i := by
      unfold roots
      split
      · simp only [List.mem_append, List.mem_singleton]
        tauto
      · simp only [List.mem_append, List.mem_singleton]
        tauto
    rw [hmem, and_iff_left hgiven]

theorem Seen.visitUsers (h : Seen computation included S st) (order : UserOrder computation)
    (i : HloInstruction) :
    Seen computation included S (visitUsers included order st.1 i, st.2) := by
  have hparameters : (TaskSplitter.visitUsers included order st.1 i).externalParameters =
        st.1.externalParameters ∧
      (TaskSplitter.visitUsers included order st.1 i).internalParameters =
        st.1.internalParameters := by
    unfold TaskSplitter.visitUsers
    split
    · exact ⟨rfl, rfl⟩
    · split <;> exact ⟨rfl, rfl⟩
  constructor
  · exact h.visited
  · intro j
    rw [hparameters.1]
    exact h.external j
  · intro j
    rw [hparameters.2]
    exact h.internal j

variable {p : TaskProgram} {task : HloInstruction} {n : ℕ} {taskRoot : HloInstruction}

/-- The loop over a set of instructions succeeds. -/
theorem taskConfig_classified (h : TaskCall p task n computation taskRoot)
    (order : UserOrder computation) {set : List HloInstruction}
    (hset : set ⊆ computation.instructions) : ∃ config operandsVisited,
      taskConfig order set = ok config ∧
        Classified computation (set.map HloInstruction.id) set (config, operandsVisited) := by
  obtain ⟨st, hrun, hst⟩ := exists_foldlM_eq_ok
    (Classified computation (set.map HloInstruction.id)) (l := set) (b := ({}, []))
    (f := visitInstruction (set.map HloInstruction.id) order) (by
      constructor
      · constructor <;> simp
      · simp [roots]) (by
      intro done i hinitial st hst
      have hi : i ∈ computation.instructions := hset (hinitial.subset (by simp))
      unfold visitInstruction
      split
      · rename_i hparam
        refine ⟨st, rfl, hst.seen.congr fun o => ?_, fun j => ?_⟩
        · simp [hparam]
        · rw [hst.roots]
          simp only [List.mem_append, List.mem_singleton]
          constructor
          · rintro ⟨hj, hjparam, hgiven⟩
            exact ⟨.inl hj, hjparam, hgiven⟩
          · rintro ⟨hj | rfl, hjparam, hgiven⟩
            · exact ⟨hj, hjparam, hgiven⟩
            · rw [hparam] at hjparam
              cases hjparam
      · rename_i hparam
        have hparam' : i.isParameter = false := by simpa using hparam
        obtain ⟨st', hrun, hseen, hroots⟩ := visitOperands_seen
          (fun o ho => h.exists_operand hi ho) hst.seen
        refine ⟨(visitUsers (set.map HloInstruction.id) order st'.1 i, st'.2),
          by rw [hrun]; rfl, ?_, fun j => ?_⟩
        · apply (hseen.visitUsers order i).congr
          intro o
          simp only [List.mem_append, List.mem_singleton]
          constructor
          · rintro (⟨j, hj, hjparam, ho⟩ | ho)
            · exact ⟨j, .inl hj, hjparam, ho⟩
            · exact ⟨i, .inr rfl, hparam', ho⟩
          · rintro ⟨j, hj | rfl, hjparam, ho⟩
            · exact .inl ⟨j, hj, hjparam, ho⟩
            · exact .inr ho
        · rw [mem_roots_visitUsers, hroots, hst.roots]
          simp only [List.mem_append, List.mem_singleton]
          constructor
          · rintro (⟨hj, hjparam, hgiven⟩ | ⟨rfl, hgiven⟩)
            · exact ⟨.inl hj, hjparam, hgiven⟩
            · exact ⟨.inr rfl, hparam', hgiven⟩
          · rintro ⟨hj | rfl, hjparam, hgiven⟩
            · exact .inl ⟨hj, hjparam, hgiven⟩
            · exact .inr ⟨rfl, hgiven⟩)
  refine ⟨st.1, st.2, ?_, hst⟩
  unfold taskConfig
  dsimp only
  rw [hrun]
  rfl

end classify

section critical

variable {p : TaskProgram} {task : HloInstruction} {n : ℕ} {computation : HloComputation}
  {taskRoot : HloInstruction}

def addReachable (reachable : ℕ → List ℕ) (i : HloInstruction) : ℕ → List ℕ :=
  Function.update reachable i.id
    (i.id :: (i.operands ++ i.controlPredecessors).flatMap reachable)

/-- What is reached from an instruction has been listed, and is closed under operands. -/
structure ReachableIn (done : List HloInstruction) (reachable : ℕ → List ℕ) : Prop where
  self : ∀ i ∈ done, i.id ∈ reachable i.id
  listed : ∀ b, ∀ a ∈ reachable b, a ∈ done.map HloInstruction.id
  closed : ∀ b, ∀ i ∈ done, i.id ∈ reachable b →
    ∀ o ∈ i.operands ++ i.controlPredecessors, o ∈ reachable b

theorem ReachableIn.add {done : List HloInstruction} {reachable : ℕ → List ℕ} {i : HloInstruction}
    (h : ReachableIn done reachable) (hnew : i.id ∉ done.map HloInstruction.id)
    (hinputs : ∀ o ∈ i.operands ++ i.controlPredecessors, o ∈ done.map HloInstruction.id) :
    ReachableIn (done ++ [i]) (addReachable reachable i) := by
  have hat : addReachable reachable i i.id =
      i.id :: (i.operands ++ i.controlPredecessors).flatMap reachable := Function.update_self ..
  have hother : ∀ b, b ≠ i.id → addReachable reachable i b = reachable b := fun b hb =>
    Function.update_of_ne hb ..
  have hne : ∀ j ∈ done, j.id ≠ i.id := fun j hj heq => hnew (heq ▸ List.mem_map_of_mem hj)
  have hmono : ∀ o ∈ i.operands ++ i.controlPredecessors, ∀ a ∈ reachable o,
      a ∈ addReachable reachable i i.id := by
    intro o ho a ha
    rw [hat]
    exact List.mem_cons_of_mem _ (List.mem_flatMap.mpr ⟨o, ho, ha⟩)
  have hdone : ∀ b, ∀ j ∈ done ++ [i], j.id ∈ reachable b → j ∈ done := by
    intro b j hj hmem
    rcases List.mem_append.mp hj with hj | hj
    · exact hj
    · rw [List.mem_singleton.mp hj] at hmem
      exact absurd (h.listed b i.id hmem) hnew
  constructor
  · intro j hj
    rcases List.mem_append.mp hj with hj | hj
    · rw [hother _ (hne j hj)]
      exact h.self j hj
    · rw [List.mem_singleton.mp hj, hat]
      exact List.mem_cons_self
  · intro b a ha
    rw [List.map_append, List.mem_append]
    by_cases hb : b = i.id
    · rw [hb, hat] at ha
      rcases List.mem_cons.mp ha with rfl | ha
      · exact .inr (by simp)
      · obtain ⟨o, -, ha⟩ := List.mem_flatMap.mp ha
        exact .inl (h.listed o a ha)
    · rw [hother b hb] at ha
      exact .inl (h.listed b a ha)
  · intro b j hj hmem o ho
    by_cases hb : b = i.id
    · subst hb
      have hcases := hmem
      rw [hat] at hcases
      rcases List.mem_cons.mp hcases with heq | hcases
      · -- the new instruction reaches its inputs, which reach themselves
        have hji : j = i := by
          rcases List.mem_append.mp hj with hj | hj
          · exact absurd heq (hne j hj)
          · exact List.mem_singleton.mp hj
        subst hji
        obtain ⟨k, hk, rfl⟩ := List.mem_map.mp (hinputs o ho)
        exact hmono k.id ho k.id (h.self k hk)
      · obtain ⟨o', ho', hcases⟩ := List.mem_flatMap.mp hcases
        exact hmono o' ho' o (h.closed o' j (hdone o' j hj hcases) hcases o ho)
    · rw [hother b hb] at hmem ⊢
      exact h.closed b j (hdone b j hj hmem) hmem o ho

/-- The reachability of the instructions listed so far. -/
theorem reachableIn_initial (h : TaskCall p task n computation taskRoot)
    {done : List HloInstruction} (hinitial : done <+: computation.instructions) :
    ReachableIn done (done.foldl addReachable fun _ => []) := by
  induction done using List.reverseRecOn with
  | nil => constructor <;> simp
  | append_singleton done i ih =>
    rw [List.foldl_append]
    obtain ⟨later, hsplit⟩ := hinitial
    have hsplit' : computation.instructions = done ++ i :: later := by simp [← hsplit]
    apply (ih ⟨i :: later, hsplit'.symm⟩).add
    · have hids := h.ids_nodup
      unfold HloComputation.ids at hids
      rw [hsplit', List.map_append, List.nodup_append] at hids
      intro hmem
      exact hids.2.2 i.id hmem i.id (by simp) rfl
    · exact h.listed done i later hsplit'

theorem reachableIn (h : TaskCall p task n computation taskRoot) :
    ReachableIn computation.instructions (reachability computation) :=
  reachableIn_initial h (List.prefix_refl _)

theorem foldl_addReachable {rest : List HloInstruction} {reachable : ℕ → List ℕ} {id : ℕ}
    (hid : id ∉ rest.map HloInstruction.id) :
    (rest.foldl addReachable reachable) id = reachable id := by
  induction rest generalizing reachable with
  | nil => rfl
  | cons i rest ih =>
    rw [List.map_cons, List.mem_cons, not_or] at hid
    rw [List.foldl_cons, ih hid.2]
    exact Function.update_of_ne hid.1 ..

/-- An instruction is not reached from its operands. -/
theorem notMem_reachability (h : TaskCall p task n computation taskRoot) {i : HloInstruction}
    (hi : i ∈ computation.instructions) {o : ℕ} (ho : o ∈ i.operands) :
    i.id ∉ reachability computation o := by
  obtain ⟨earlier, later, hsplit⟩ := List.append_of_mem hi
  have hearlier := h.listed earlier i later hsplit o (List.mem_append_left _ ho)
  have hids := h.ids_nodup
  unfold HloComputation.ids at hids
  rw [hsplit, List.map_append, List.nodup_append] at hids
  have hsame : reachability computation o = (earlier.foldl addReachable fun _ => []) o := by
    unfold reachability
    rw [hsplit, List.foldl_append]
    apply foldl_addReachable
    intro hmem
    exact hids.2.2 o hearlier o hmem rfl
  intro hmem
  rw [hsame] at hmem
  have hlisted := (reachableIn_initial h ⟨i :: later, hsplit.symm⟩).listed o i.id hmem
  exact hids.2.2 i.id hlisted i.id (by simp) rfl

end critical

end TaskSplitter
end MultiMeshJax
