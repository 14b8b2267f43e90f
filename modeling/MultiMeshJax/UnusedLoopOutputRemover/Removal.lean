import MultiMeshJax.UnusedLoopOutputRemover.Pass
import MultiMeshJax.UnusedLoopOutputRemover.Simulation

/-! What the removals of dead instructions keep. -/
namespace MultiMeshJax

namespace HloProgram

theorem instructions_removeInstruction (p : HloProgram) (id : ℕ) :
    (p.removeInstruction id).instructions = p.instructions.filter fun i => i.id != id := by
  show (p.computations.map fun c => c.removeInstruction id).flatMap HloComputation.instructions = _
  rw [List.flatMap_map, instructions, List.filter_flatMap]
  rfl

end HloProgram

namespace UnusedLoopOutputRemover

open StatusOr

theorem numOperands_removeInstruction_le {p : HloProgram} {i : HloInstruction}
    (hi : i ∈ p.instructions) :
    numOperands (p.removeInstruction i.id) + i.operands.length ≤ numOperands p := by
  have hsum : ∀ is : List HloInstruction,
      ((is.filter fun j => j.id != i.id).map fun j => j.operands.length).sum ≤
        (is.map fun j => j.operands.length).sum := by
    intro is
    exact ((List.filter_sublist).map _).sum_le_sum (by simp)
  rw [numOperands, numOperands, HloProgram.instructions_removeInstruction]
  obtain ⟨before, after, hsplit⟩ := List.append_of_mem hi
  have hbefore := hsum before
  have hafter := hsum after
  rw [hsplit, List.filter_append, List.filter_cons_of_neg (by simp)]
  simp only [List.map_append, List.sum_append, List.map_cons, List.sum_cons]
  omega

/-- The instructions that a tuple of the loop depends on, and the new ones. -/
def Below (p : HloProgram) (nextId tuple root id : ℕ) : Prop :=
  nextId ≤ id ∨ Relation.ReflTransGen p.HasOperand tuple id ∨
    Relation.ReflTransGen p.HasOperand root id

/-- A state of the pass in which the loop and its users have stayed. -/
structure Reduced (p : HloProgram) (nextId tuple root loop : ℕ) (keptInput keptOutput : ℕ → Prop)
    (st : ProgramState) : Prop where
  pruned : Pruned p st.program nextId tuple root keptInput keptOutput
  nextId_le : nextId ≤ st.nextId
  loop_stays : (st.program.instruction loop).isSome
  users_stay : ∀ id, p.HasOperand id loop → (st.program.instruction id).isSome

section removal

variable {p : HloProgram} {loop tuple root param : HloInstruction} {n nextId : ℕ}
  {body : HloComputation} {keptInput keptOutput : ℕ → Prop} {st : ProgramState} {lib : Library}

theorem below_operand {id o : ℕ} {i : HloInstruction}
    (h : Reduced p nextId tuple.id root.id loop.id keptInput keptOutput st)
    (hbelow : Below p nextId tuple.id root.id id) (hi : st.program.instruction id = some i)
    (ho : o ∈ i.operands) : Below p nextId tuple.id root.id o := by
  rcases Nat.lt_or_ge id nextId with hlt | hle
  · obtain ⟨i₀, hi₀, hedited⟩ := h.pruned.old id i hi hlt
    rcases hedited.operand o ho with ho | ho
    · have hoperand : p.HasOperand id o := ⟨i₀, hi₀, ho⟩
      rcases hbelow with hle | hpath | hpath
      · omega
      · exact .inr (.inl (hpath.tail hoperand))
      · exact .inr (.inr (hpath.tail hoperand))
    · exact .inl ho
  · rw [h.pruned.new id i hi hle] at ho
    cases ho

/-- Neither the loop nor a user of the loop is below its tuples. -/
theorem not_below {id : ℕ} (hsite : LoopSite p loop tuple root param n body)
    (hp : ∀ id i, p.instruction id = some i → id < nextId)
    (hbelow : Below p nextId tuple.id root.id id) : id ≠ loop.id ∧ ¬ p.HasOperand id loop.id := by
  constructor
  · rintro rfl
    rcases hbelow with hle | hpath | hpath
    · have := hp _ _ hsite.loop_mem
      omega
    · exact hsite.tuple_acyclic hpath
    · exact hsite.root_acyclic hpath
  · rintro hoperand
    rcases hbelow with hle | hpath | hpath
    · obtain ⟨i, hi, -⟩ := hoperand
      have := hp _ _ hi
      omega
    · exact hsite.tuple_acyclic (hpath.tail hoperand)
    · exact hsite.root_acyclic (hpath.tail hoperand)

theorem reduced_removeInstruction {i : HloInstruction}
    (h : Reduced p nextId tuple.id root.id loop.id keptInput keptOutput st)
    (hremovable : isRemovable lib st.program i = true) (hloop : i.id ≠ loop.id)
    (huser : ¬ p.HasOperand i.id loop.id) :
    Reduced p nextId tuple.id root.id loop.id keptInput keptOutput (st.removeInstruction i.id) := by
  unfold isRemovable isDead isRoot at hremovable
  simp only [Bool.and_eq_true, List.isEmpty_iff, Bool.not_eq_true', List.any_eq_false,
    beq_iff_eq] at hremovable
  obtain ⟨⟨⟨husers, hroot⟩, -⟩, -⟩ := hremovable
  have hother : ∀ id, id ≠ i.id → (st.program.instruction id).isSome →
      ((st.removeInstruction i.id).program.instruction id).isSome := by
    intro id hne hsome
    rw [ProgramState.removeInstruction, HloProgram.instruction_removeInstruction, if_neg hne]
    exact hsome
  refine ⟨h.pruned.removeInstruction husers hroot, h.nextId_le, ?_, ?_⟩
  · exact hother loop.id (Ne.symm hloop) h.loop_stays
  · intro id hid
    apply hother id ?_ (h.users_stay id hid)
    rintro rfl
    exact huser hid

variable (hsite : LoopSite p loop tuple root param n body)
  (hp : ∀ id i, p.instruction id = some i → id < nextId)

include hsite hp in
theorem safe_removeItems {first fuel : ℕ} {worklist : List ℕ}
    (h : Reduced p nextId tuple.id root.id loop.id keptInput keptOutput st)
    (hfuel : worklist.length + numOperands st.program ≤ fuel)
    (hbelow : ∀ id ∈ worklist, Below p nextId tuple.id root.id id) :
    Safe (Reduced p nextId tuple.id root.id loop.id keptInput keptOutput)
      (removeItems lib first fuel worklist st) := by
  induction fuel generalizing worklist st with
  | zero =>
    cases worklist with
    | nil => exact h
    | cons item worklist => simp at hfuel
  | succ fuel ih =>
    cases worklist with
    | nil => exact h
    | cons item worklist =>
      rw [removeItems]
      have hitem := hbelow item (by simp)
      have hrest : ∀ id ∈ worklist, Below p nextId tuple.id root.id id :=
        fun id hid => hbelow id (List.mem_cons_of_mem _ hid)
      rw [List.length_cons] at hfuel
      cases hi : st.program.instruction item with
      | none => exact ih h (by omega) hrest
      | some i =>
        obtain ⟨hmem, rfl⟩ := HloProgram.instruction_eq_some.mp hi
        dsimp only
        split
        · rename_i hremove
          rw [Bool.and_eq_true] at hremove
          have hlt := numOperands_removeInstruction_le hmem
          obtain ⟨hne, huser⟩ := not_below hsite hp hitem
          apply ih (reduced_removeInstruction h hremove.1 hne huser)
          · rw [List.length_append]
            show _ + numOperands (st.program.removeInstruction i.id) ≤ fuel
            omega
          · intro id hid
            rcases List.mem_append.mp hid with hid | hid
            · exact hrest id hid
            · exact below_operand h hitem hi hid
        · exact ih h (by omega) hrest

theorem safe_removeInstruction {i : HloInstruction}
    (h : Reduced p nextId tuple.id root.id loop.id keptInput keptOutput st)
    (hloop : i.id ≠ loop.id) (huser : ¬ p.HasOperand i.id loop.id) :
    Safe (fun st' => st' = st.removeInstruction i.id ∧
        Reduced p nextId tuple.id root.id loop.id keptInput keptOutput st')
      (removeInstruction lib st i) := by
  unfold removeInstruction
  split
  · rename_i hremovable
    exact ⟨rfl, reduced_removeInstruction h hremovable hloop huser⟩
  · trivial

include hsite hp in
theorem safe_removeTree {fuel : ℕ} {deleteTree : List ℕ}
    (h : Reduced p nextId tuple.id root.id loop.id keptInput keptOutput st)
    (hfuel : deleteTree.length + numOperands st.program ≤ fuel)
    (hbelow : ∀ id ∈ deleteTree, Below p nextId tuple.id root.id id) :
    Safe (Reduced p nextId tuple.id root.id loop.id keptInput keptOutput)
      (removeTree lib fuel deleteTree st) := by
  induction fuel generalizing deleteTree st with
  | zero =>
    cases deleteTree with
    | nil => exact h
    | cons next deleteTree => simp at hfuel
  | succ fuel ih =>
    cases deleteTree with
    | nil => exact h
    | cons next deleteTree =>
      rw [removeTree]
      have hnext := hbelow next (by simp)
      have hrest : ∀ id ∈ deleteTree, Below p nextId tuple.id root.id id :=
        fun id hid => hbelow id (List.mem_cons_of_mem _ hid)
      rw [List.length_cons] at hfuel
      cases hi : st.program.instruction next with
      | none => exact ih h (by omega) hrest
      | some i =>
        obtain ⟨hmem, rfl⟩ := HloProgram.instruction_eq_some.mp hi
        dsimp only
        split
        · obtain ⟨hne, huser⟩ := not_below hsite hp hnext
          apply (safe_removeInstruction h hne huser).bind
          rintro st' ⟨rfl, h'⟩
          have hlt := numOperands_removeInstruction_le hmem
          apply ih h'
          · rw [List.length_append, List.length_reverse]
            show _ + numOperands (st.program.removeInstruction i.id) ≤ fuel
            omega
          · intro id hid
            rcases List.mem_append.mp hid with hid | hid
            · exact below_operand h hnext hi (List.mem_reverse.mp hid)
            · exact hrest id hid
        · exact ih h (by omega) hrest

include hsite hp in
theorem safe_removeInstructionAndUnusedOperands {i : HloInstruction}
    (h : Reduced p nextId tuple.id root.id loop.id keptInput keptOutput st)
    (hbelow : Below p nextId tuple.id root.id i.id) :
    Safe (Reduced p nextId tuple.id root.id loop.id keptInput keptOutput)
      (removeInstructionAndUnusedOperands lib st i) := by
  unfold removeInstructionAndUnusedOperands
  split
  · apply safe_removeItems hsite hp h
    · simp [Nat.add_comm]
    · simpa using hbelow
  · trivial

include hsite hp in
theorem safe_removeInstructionBackToParameters {id : ℕ}
    (h : Reduced p nextId tuple.id root.id loop.id keptInput keptOutput st)
    (hbelow : Below p nextId tuple.id root.id id) :
    Safe (Reduced p nextId tuple.id root.id loop.id keptInput keptOutput)
      (removeInstructionBackToParameters lib st id) := by
  apply safe_removeTree hsite hp h
  · simp [Nat.add_comm]
  · simpa using hbelow

end removal

end UnusedLoopOutputRemover
end MultiMeshJax
