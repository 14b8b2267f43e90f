import MultiMeshJax.Hlo.ProgramState

/-! Modules in which operands of two tuples were replaced and dead instructions removed. -/
namespace MultiMeshJax

/-- `i` is `i₀` with some operands replaced by new instructions, if it is one of the tuples. -/
structure Edited (nextId tuple root : ℕ) (keptInput keptOutput : ℕ → Prop)
    (i₀ i : HloInstruction) : Prop where
  same : i = { i₀ with operands := i.operands }
  length : i.operands.length = i₀.operands.length
  other : i₀.id ≠ tuple → i₀.id ≠ root → i.operands = i₀.operands
  input : i₀.id = tuple → ∀ k, keptInput k → i.operands[k]? = i₀.operands[k]?
  output : i₀.id = root → ∀ k, keptOutput k → i.operands[k]? = i₀.operands[k]?
  operand : ∀ o ∈ i.operands, o ∈ i₀.operands ∨ nextId ≤ o

/-- `q` is `p` with dead instructions removed and new instructions without operands, some of
which replace operands of two tuples. -/
structure Pruned (p q : HloProgram) (nextId tuple root : ℕ) (keptInput keptOutput : ℕ → Prop) :
    Prop where
  old : ∀ id i, q.instruction id = some i → id < nextId →
    ∃ i₀, p.instruction id = some i₀ ∧ Edited nextId tuple root keptInput keptOutput i₀ i
  new : ∀ id i, q.instruction id = some i → nextId ≤ id → i.operands = []
  closed : ∀ id i o, q.instruction id = some i → o ∈ i.operands → (p.instruction o).isSome →
    (q.instruction o).isSome
  roots : q.computations.map HloComputation.root = p.computations.map HloComputation.root
  rootPresent : ∀ c ∈ p.computations, (p.instruction c.root).isSome → (q.instruction c.root).isSome

theorem Edited.mono {nextId tuple root : ℕ} {keptInput keptOutput keptInput' keptOutput' : ℕ → Prop}
    {i₀ i : HloInstruction} (h : Edited nextId tuple root keptInput keptOutput i₀ i)
    (hinput : ∀ k, keptInput' k → keptInput k) (houtput : ∀ k, keptOutput' k → keptOutput k) :
    Edited nextId tuple root keptInput' keptOutput' i₀ i where
  same := h.same
  length := h.length
  other := h.other
  input := fun hid k hk => h.input hid k (hinput k hk)
  output := fun hid k hk => h.output hid k (houtput k hk)
  operand := h.operand

namespace Pruned

variable {p : HloProgram} {st : ProgramState} {nextId tuple root : ℕ}
  {keptInput keptOutput : ℕ → Prop}

theorem refl (hfresh : ∀ id i, p.instruction id = some i → id < nextId) :
    Pruned p p nextId tuple root keptInput keptOutput where
  old := fun _ i hi _ => ⟨i, hi, rfl, rfl, fun _ _ => rfl, fun _ _ _ => rfl, fun _ _ _ => rfl,
    fun _ h => .inl h⟩
  new := by
    intro id i hi hle
    have := hfresh id i hi
    omega
  closed := fun _ _ _ _ _ h => h
  roots := rfl
  rootPresent := fun _ _ h => h

theorem mono {q : HloProgram} {keptInput' keptOutput' : ℕ → Prop}
    (h : Pruned p q nextId tuple root keptInput keptOutput)
    (hinput : ∀ k, keptInput' k → keptInput k) (houtput : ∀ k, keptOutput' k → keptOutput k) :
    Pruned p q nextId tuple root keptInput' keptOutput' where
  old := by
    intro id i hi hlt
    obtain ⟨i₀, hi₀, hedited⟩ := h.old id i hi hlt
    exact ⟨i₀, hi₀, hedited.mono hinput houtput⟩
  new := h.new
  closed := h.closed
  roots := h.roots
  rootPresent := h.rootPresent

theorem addInstruction (h : Pruned p st.program nextId tuple root keptInput keptOutput)
    (hnext : nextId ≤ st.nextId) (neighbor : ℕ) {i : HloInstruction} (hi : i.operands = []) :
    Pruned p (st.addInstruction neighbor i).1.program nextId tuple root keptInput keptOutput where
  old := by
    intro id j hj hlt
    rcases ProgramState.instruction_addInstruction hj with hj | ⟨rfl, -⟩
    · exact h.old id j hj hlt
    · omega
  new := by
    intro id j hj hle
    rcases ProgramState.instruction_addInstruction hj with hj | ⟨-, rfl⟩
    · exact h.new id j hj hle
    · exact hi
  closed := by
    intro id j o hj ho hold
    rcases ProgramState.instruction_addInstruction hj with hj | ⟨-, rfl⟩
    · obtain ⟨k, hk⟩ := Option.isSome_iff_exists.mp (h.closed id j o hj ho hold)
      exact Option.isSome_iff_exists.mpr ⟨k, ProgramState.instruction_addInstruction_of_some hk⟩
    · have hnone : o ∈ i.operands := ho
      rw [hi] at hnone
      cases hnone
  roots := by
    rw [← h.roots]
    refine @HloProgram.roots_mapComputations _ _ (st.distinct_addTo neighbor i) ?_
    intro c
    unfold ProgramState.addTo
    split <;> rfl
  rootPresent := by
    intro c hc hold
    obtain ⟨k, hk⟩ := Option.isSome_iff_exists.mp (h.rootPresent c hc hold)
    exact Option.isSome_iff_exists.mpr ⟨k, ProgramState.instruction_addInstruction_of_some hk⟩

/-- An operand that need not be kept is replaced by a new instruction. -/
theorem replaceOperandWith {user index new : ℕ}
    (h : Pruned p st.program nextId tuple root keptInput keptOutput)
    (hp : ∀ id i, p.instruction id = some i → id < nextId) (hnew : nextId ≤ new)
    (htuples : user = tuple ∨ user = root)
    (hinput : user = tuple → ¬ keptInput index) (houtput : user = root → ¬ keptOutput index) :
    Pruned p (st.replaceOperandWith user index new).program nextId tuple root keptInput
      keptOutput where
  old := by
    intro id j hj hlt
    rw [ProgramState.replaceOperandWith, HloProgram.instruction_replaceOperandWith,
      Option.map_eq_some_iff] at hj
    obtain ⟨i, hi, rfl⟩ := hj
    obtain ⟨i₀, hi₀, hedited⟩ := h.old id i hi hlt
    refine ⟨i₀, hi₀, ?_⟩
    have hid : i.id = i₀.id := by rw [hedited.same]
    have hset : ∀ k, ¬ k = index → (i.operands.set index new)[k]? = i.operands[k]? :=
      fun k hne => List.getElem?_set_ne (Ne.symm hne)
    split
    · rename_i huser
      refine ⟨by rw [hedited.same], by rw [List.length_set, hedited.length], ?_, ?_, ?_, ?_⟩
      · intro hne hne'
        rcases htuples with rfl | rfl
        · exact absurd (hid.symm.trans huser) hne
        · exact absurd (hid.symm.trans huser) hne'
      · intro hid' k hk
        have hne : ¬ k = index := by
          rintro rfl
          exact hinput (huser.symm.trans (hid.trans hid')) hk
        exact (hset k hne).trans (hedited.input hid' k hk)
      · intro hid' k hk
        have hne : ¬ k = index := by
          rintro rfl
          exact houtput (huser.symm.trans (hid.trans hid')) hk
        exact (hset k hne).trans (hedited.output hid' k hk)
      · intro o ho
        rcases List.mem_or_eq_of_mem_set ho with ho | rfl
        · exact hedited.operand o ho
        · exact .inr hnew
    · exact hedited
  new := by
    intro id j hj hle
    rw [ProgramState.replaceOperandWith, HloProgram.instruction_replaceOperandWith,
      Option.map_eq_some_iff] at hj
    obtain ⟨i, hi, rfl⟩ := hj
    have hnil := h.new id i hi hle
    split
    · simp [hnil]
    · exact hnil
  closed := by
    intro id j o hj ho hold
    rw [ProgramState.replaceOperandWith, HloProgram.instruction_replaceOperandWith,
      Option.map_eq_some_iff] at hj
    obtain ⟨i, hi, rfl⟩ := hj
    have hmem : o ∈ i.operands := by
      split at ho
      · rcases List.mem_or_eq_of_mem_set ho with ho | rfl
        · exact ho
        · obtain ⟨i₀, hi₀⟩ := Option.isSome_iff_exists.mp hold
          have := hp _ _ hi₀
          omega
      · exact ho
    rw [ProgramState.replaceOperandWith, HloProgram.instruction_replaceOperandWith,
      Option.isSome_map]
    exact h.closed id i o hi hmem hold
  roots := by
    rw [← h.roots]
    exact HloProgram.roots_mapComputations fun _ => rfl
  rootPresent := by
    intro c hc hold
    rw [ProgramState.replaceOperandWith, HloProgram.instruction_replaceOperandWith,
      Option.isSome_map]
    exact h.rootPresent c hc hold

/-- A dead instruction is removed. -/
theorem removeInstruction {removed : ℕ}
    (h : Pruned p st.program nextId tuple root keptInput keptOutput)
    (husers : st.program.users removed = [])
    (hroot : ∀ c ∈ st.program.computations, c.root ≠ removed) :
    Pruned p (st.removeInstruction removed).program nextId tuple root keptInput keptOutput where
  old := by
    intro id j hj hlt
    rw [ProgramState.removeInstruction, HloProgram.instruction_removeInstruction] at hj
    split at hj
    · cases hj
    · exact h.old id j hj hlt
  new := by
    intro id j hj hle
    rw [ProgramState.removeInstruction, HloProgram.instruction_removeInstruction] at hj
    split at hj
    · cases hj
    · exact h.new id j hj hle
  closed := by
    intro id j o hj ho hold
    rw [ProgramState.removeInstruction, HloProgram.instruction_removeInstruction] at hj ⊢
    split at hj
    · cases hj
    · have hne : o ≠ removed := by
        rintro rfl
        have huser : j ∈ st.program.users o := by
          refine List.mem_filter.mpr ⟨(HloProgram.instruction_eq_some.mp hj).1, ?_⟩
          exact List.contains_iff_mem.mpr ho
        rw [husers] at huser
        cases huser
      rw [if_neg hne]
      exact h.closed id j o hj ho hold
  roots := by
    rw [← h.roots]
    exact HloProgram.roots_mapComputations fun _ => rfl
  rootPresent := by
    intro c hc hold
    rw [ProgramState.removeInstruction, HloProgram.instruction_removeInstruction]
    have hne : c.root ≠ removed := by
      have hmem : c.root ∈ st.program.computations.map HloComputation.root := by
        rw [h.roots]
        exact List.mem_map_of_mem hc
      obtain ⟨d, hd, heq⟩ := List.mem_map.mp hmem
      exact heq ▸ hroot d hd
    rw [if_neg hne]
    exact h.rootPresent c hc hold

end Pruned

end MultiMeshJax
