import MultiMeshJax.Hlo.Program

/-! Edits of a module: instructions are added under new ids, get other operands, and are
removed. -/
namespace MultiMeshJax

namespace HloProgram

variable {p : HloProgram}

def ids (p : HloProgram) : List ℕ := p.instructions.map HloInstruction.id

theorem instruction_eq_some {id : ℕ} {i : HloInstruction} :
    p.instruction id = some i ↔ i ∈ p.instructions ∧ i.id = id := by
  constructor
  · exact mem_of_instruction
  · rintro ⟨hi, rfl⟩
    exact instruction_of_mem hi

/-- The module with an edit of every computation. -/
def mapComputations (p : HloProgram) (f : HloComputation → HloComputation)
    (distinct : (p.computations.flatMap fun c => (f c).ids).Nodup) : HloProgram where
  entry := f p.entry
  called := p.called.map f
  distinct := by
    have hmap : f p.entry :: p.called.map f = p.computations.map f := rfl
    rw [hmap, List.flatMap_map]
    exact distinct

theorem mem_instructions_mapComputations {f : HloComputation → HloComputation}
    {distinct : (p.computations.flatMap fun c => (f c).ids).Nodup} {i : HloInstruction} :
    i ∈ (p.mapComputations f distinct).instructions ↔
      ∃ c ∈ p.computations, i ∈ (f c).instructions := by
  have hmap : (p.mapComputations f distinct).computations = p.computations.map f := rfl
  rw [instructions, hmap, List.flatMap_map, List.mem_flatMap]

theorem roots_mapComputations {f : HloComputation → HloComputation}
    {distinct : (p.computations.flatMap fun c => (f c).ids).Nodup} (hf : ∀ c, (f c).root = c.root) :
    (p.mapComputations f distinct).computations.map HloComputation.root =
      p.computations.map HloComputation.root := by
  have hmap : (p.mapComputations f distinct).computations = p.computations.map f := rfl
  rw [hmap, List.map_map]
  apply List.map_congr_left
  intro c _
  exact hf c

theorem mem_instructions_iff {i : HloInstruction} :
    i ∈ p.instructions ↔ ∃ c ∈ p.computations, i ∈ c.instructions := List.mem_flatMap

section edits

def replaceOperandWith (p : HloProgram) (user index new : ℕ) : HloProgram :=
  p.mapComputations (fun c => c.replaceOperandWith user index new) (by
    simp only [HloComputation.ids_replaceOperandWith]
    exact p.distinct)

def removeInstruction (p : HloProgram) (id : ℕ) : HloProgram :=
  p.mapComputations (fun c => c.removeInstruction id) (by
    apply List.Nodup.sublist ?_ p.distinct
    apply List.Sublist.flatMap_right
    intro c _
    exact (List.filter_sublist).map HloInstruction.id)

theorem instruction_replaceOperandWith (user index new id : ℕ) :
    (p.replaceOperandWith user index new).instruction id =
      (p.instruction id).map fun i =>
        if i.id = user then { i with operands := i.operands.set index new } else i := by
  have hmem : ∀ j, j ∈ (p.replaceOperandWith user index new).instructions ↔
      ∃ i ∈ p.instructions,
        (if i.id = user then { i with operands := i.operands.set index new } else i) = j := by
    intro j
    constructor
    · intro hj
      obtain ⟨c, hc, hj⟩ := mem_instructions_mapComputations.mp hj
      obtain ⟨i, hi, rfl⟩ := List.mem_map.mp hj
      exact ⟨i, mem_instructions hc hi, rfl⟩
    · rintro ⟨i, hi, rfl⟩
      obtain ⟨c, hc, hi⟩ := mem_instructions_iff.mp hi
      exact mem_instructions_mapComputations.mpr ⟨c, hc, List.mem_map.mpr ⟨i, hi, rfl⟩⟩
  have hid : ∀ i : HloInstruction, (if i.id = user then
      { i with operands := i.operands.set index new } else i).id = i.id := by
    intro i
    split <;> rfl
  apply Option.ext
  intro j
  rw [instruction_eq_some, hmem, Option.map_eq_some_iff]
  constructor
  · rintro ⟨⟨i, hi, rfl⟩, hj⟩
    exact ⟨i, instruction_eq_some.mpr ⟨hi, (hid i).symm.trans hj⟩, rfl⟩
  · rintro ⟨i, hi, rfl⟩
    obtain ⟨hmem, rfl⟩ := instruction_eq_some.mp hi
    exact ⟨⟨i, hmem, rfl⟩, hid i⟩

theorem instruction_removeInstruction (removed id : ℕ) :
    (p.removeInstruction removed).instruction id =
      if id = removed then none else p.instruction id := by
  have hmem : ∀ j, j ∈ (p.removeInstruction removed).instructions ↔
      j ∈ p.instructions ∧ j.id ≠ removed := by
    intro j
    constructor
    · intro hj
      obtain ⟨c, hc, hj⟩ := mem_instructions_mapComputations.mp hj
      obtain ⟨hj, hne⟩ := List.mem_filter.mp hj
      exact ⟨mem_instructions hc hj, bne_iff_ne.mp hne⟩
    · rintro ⟨hj, hne⟩
      obtain ⟨c, hc, hj⟩ := mem_instructions_iff.mp hj
      exact mem_instructions_mapComputations.mpr
        ⟨c, hc, List.mem_filter.mpr ⟨hj, bne_iff_ne.mpr hne⟩⟩
  apply Option.ext
  intro j
  rw [instruction_eq_some, hmem]
  split
  · rename_i heq
    simp only [reduceCtorEq, iff_false]
    rintro ⟨⟨_, hne⟩, hj⟩
    exact hne (hj.trans heq)
  · rename_i hne
    rw [instruction_eq_some]
    constructor
    · rintro ⟨⟨hj, _⟩, hid⟩
      exact ⟨hj, hid⟩
    · rintro ⟨hj, rfl⟩
      exact ⟨⟨hj, hne⟩, rfl⟩

end edits

end HloProgram

/-- A module, and the id that the next new instruction gets. -/
structure ProgramState where
  program : HloProgram
  nextId : ℕ
  fresh : ∀ i ∈ program.instructions, i.id < nextId

namespace ProgramState

variable {st : ProgramState}

theorem lt_of_instruction {id : ℕ} {i : HloInstruction} (h : st.program.instruction id = some i) :
    id < st.nextId := by
  obtain ⟨hi, rfl⟩ := HloProgram.instruction_eq_some.mp h
  exact st.fresh i hi

def ofProgram (p : HloProgram) : ProgramState where
  program := p
  nextId := p.ids.foldr max 0 + 1
  fresh := by
    intro i hi
    have hle : i.id ≤ p.ids.foldr max 0 := HloComputation.le_foldr_max (List.mem_map_of_mem hi)
    omega

/-- `c` with a new instruction, if it is the computation of the instruction `neighbor`. -/
def addTo (neighbor : ℕ) (i : HloInstruction) (c : HloComputation) : HloComputation :=
  if neighbor ∈ c.ids then { c with instructions := c.instructions ++ [i] } else c

theorem distinct_addTo (st : ProgramState) (neighbor : ℕ) (i : HloInstruction) :
    (st.program.computations.flatMap fun c =>
      (addTo neighbor { i with id := st.nextId } c).ids).Nodup := by
  obtain ⟨hnodup, hdisjoint⟩ := List.nodup_flatMap.mp st.program.distinct
  have hold : ∀ c ∈ st.program.computations, st.nextId ∉ c.ids := by
    intro c hc hin
    obtain ⟨j, hj, hid⟩ := List.mem_map.mp hin
    have hlt := st.fresh j (HloProgram.mem_instructions hc hj)
    omega
  have hmem : ∀ c id, id ∈ (fun c => (addTo neighbor { i with id := st.nextId } c).ids) c →
      id ∈ c.ids ∨ (id = st.nextId ∧ neighbor ∈ c.ids) := by
    intro c id hid
    simp only [addTo] at hid
    split at hid
    · rename_i hneighbor
      simp only [HloComputation.ids, List.map_append, List.map_cons, List.map_nil,
        List.mem_append, List.mem_singleton] at hid
      exact hid.imp_right fun h => ⟨h, hneighbor⟩
    · exact .inl hid
  refine List.nodup_flatMap.mpr ⟨?_, ?_⟩
  · intro c hc
    unfold addTo
    split
    · simp only [HloComputation.ids, List.map_append, List.map_cons, List.map_nil]
      rw [List.nodup_append]
      refine ⟨hnodup c hc, by simp, ?_⟩
      intro a ha b hb heq
      rw [List.mem_singleton.mp hb] at heq
      exact hold c hc (heq ▸ ha)
    · exact hnodup c hc
  · refine hdisjoint.imp_of_mem ?_
    intro c d hc hd hcd id hid hid'
    rcases hmem c id hid with hin | ⟨heq, hneighbor⟩
    · rcases hmem d id hid' with hin' | ⟨heq, -⟩
      · exact hcd hin hin'
      · exact hold c hc (heq ▸ hin)
    · rcases hmem d id hid' with hin' | ⟨-, hneighbor'⟩
      · exact hold d hd (heq ▸ hin')
      · exact hcd hneighbor hneighbor'

/-- A new instruction in the computation of `neighbor`, and its id. -/
def addInstruction (st : ProgramState) (neighbor : ℕ) (i : HloInstruction) : ProgramState × ℕ :=
  ({ program := st.program.mapComputations (addTo neighbor { i with id := st.nextId })
      (st.distinct_addTo neighbor i)
     nextId := st.nextId + 1
     fresh := by
      intro j hj
      obtain ⟨c, hc, hj⟩ := HloProgram.mem_instructions_mapComputations.mp hj
      unfold addTo at hj
      split at hj
      · rcases List.mem_append.mp hj with hj | hj
        · have := st.fresh j (HloProgram.mem_instructions hc hj)
          omega
        · rw [List.mem_singleton.mp hj]
          exact Nat.lt_succ_self _
      · have := st.fresh j (HloProgram.mem_instructions hc hj)
        omega }, st.nextId)

def replaceOperandWith (st : ProgramState) (user index new : ℕ) : ProgramState where
  program := st.program.replaceOperandWith user index new
  nextId := st.nextId
  fresh := by
    intro i hi
    have hlookup := HloProgram.instruction_of_mem hi
    rw [HloProgram.instruction_replaceOperandWith, Option.map_eq_some_iff] at hlookup
    obtain ⟨j, hj, -⟩ := hlookup
    exact st.lt_of_instruction hj

def removeInstruction (st : ProgramState) (id : ℕ) : ProgramState where
  program := st.program.removeInstruction id
  nextId := st.nextId
  fresh := by
    intro i hi
    have hlookup := HloProgram.instruction_of_mem hi
    rw [HloProgram.instruction_removeInstruction] at hlookup
    split at hlookup
    · cases hlookup
    · exact st.lt_of_instruction hlookup

/-- The instructions after an addition are those before, and the new one. -/
theorem instruction_addInstruction {neighbor id : ℕ} {i j : HloInstruction}
    (h : (st.addInstruction neighbor i).1.program.instruction id = some j) :
    st.program.instruction id = some j ∨ (id = st.nextId ∧ j = { i with id := st.nextId }) := by
  obtain ⟨hj, rfl⟩ := HloProgram.instruction_eq_some.mp h
  obtain ⟨c, hc, hj⟩ :=
    (@HloProgram.mem_instructions_mapComputations _ _ (st.distinct_addTo neighbor i) _).mp hj
  unfold addTo at hj
  split at hj
  · rcases List.mem_append.mp hj with hj | hj
    · exact .inl (HloProgram.instruction_of_mem (HloProgram.mem_instructions hc hj))
    · rw [List.mem_singleton.mp hj]
      exact .inr ⟨rfl, rfl⟩
  · exact .inl (HloProgram.instruction_of_mem (HloProgram.mem_instructions hc hj))

theorem instruction_addInstruction_of_some {neighbor id : ℕ} {i j : HloInstruction}
    (h : st.program.instruction id = some j) :
    (st.addInstruction neighbor i).1.program.instruction id = some j := by
  obtain ⟨hj, rfl⟩ := HloProgram.instruction_eq_some.mp h
  obtain ⟨c, hc, hj⟩ := HloProgram.mem_instructions_iff.mp hj
  apply HloProgram.instruction_of_mem
  apply (@HloProgram.mem_instructions_mapComputations _ _ (st.distinct_addTo neighbor i) _).mpr
  refine ⟨c, hc, ?_⟩
  unfold addTo
  split
  · exact List.mem_append_left _ hj
  · exact hj

end ProgramState

end MultiMeshJax
