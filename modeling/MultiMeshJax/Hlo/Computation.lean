import MultiMeshJax.Hlo.Instruction

/-! HLO computations and the edits that the passes make in them. -/
namespace MultiMeshJax

/-- The instructions are listed in post order; an instruction that a pass adds goes to
the end. -/
structure HloComputation where
  instructions : List HloInstruction
  root : ℕ
  deriving DecidableEq, Repr

/-- The entry computation, and the parameters of each computation that is called. -/
structure HloModule where
  entry : HloComputation
  parameters : List (List HloInstruction)
  deriving DecidableEq, Repr

namespace HloComputation

def ids (c : HloComputation) : List ℕ := c.instructions.map HloInstruction.id

def instruction (c : HloComputation) (id : ℕ) : Option HloInstruction :=
  c.instructions.find? fun i => i.id == id

def users (c : HloComputation) (id : ℕ) : List HloInstruction :=
  c.instructions.filter fun i => i.operands.contains id

/-- An id that no instruction has. -/
def freshId (c : HloComputation) : ℕ := c.ids.foldr max 0 + 1

def addInstruction (c : HloComputation) (i : HloInstruction) : HloComputation :=
  { c with instructions := c.instructions ++ [{ i with id := c.freshId }] }

def mapInstructions (c : HloComputation) (f : HloInstruction → HloInstruction) : HloComputation :=
  { c with instructions := c.instructions.map f }

def replaceOperandWith (c : HloComputation) (user index new : ℕ) : HloComputation :=
  c.mapInstructions fun i =>
    if i.id = user then { i with operands := i.operands.set index new } else i

/-- The new producer may itself use what it replaces. -/
def replaceAllUsesWith (c : HloComputation) (old new : ℕ) : HloComputation :=
  c.mapInstructions fun i =>
    if i.id = new then i
    else { i with operands := i.operands.map fun o => if o = old then new else o }

def removeInstruction (c : HloComputation) (id : ℕ) : HloComputation :=
  { c with instructions := c.instructions.filter fun i => i.id != id }

variable {c : HloComputation}

theorem mem_users {id : ℕ} {j : HloInstruction} :
    j ∈ c.users id ↔ j ∈ c.instructions ∧ id ∈ j.operands := by
  simp [users]

theorem le_foldr_max {ids : List ℕ} {id : ℕ} (h : id ∈ ids) : id ≤ ids.foldr max 0 := by
  induction ids with
  | nil => cases h
  | cons x ids ih =>
    rcases List.mem_cons.mp h with rfl | h
    · exact le_max_left _ _
    · exact (ih h).trans (le_max_right _ _)

theorem lt_freshId {id : ℕ} (h : id ∈ c.ids) : id < c.freshId := by
  have hle : id ≤ c.ids.foldr max 0 := le_foldr_max h
  unfold freshId
  omega

theorem freshId_notMem : c.freshId ∉ c.ids := fun h => (lt_freshId h).false

theorem id_of_instruction {id : ℕ} {i : HloInstruction} (h : c.instruction id = some i) :
    i.id = id := by
  have := List.find?_some h
  simpa using this

theorem mem_of_instruction {id : ℕ} {i : HloInstruction} (h : c.instruction id = some i) :
    i ∈ c.instructions := List.mem_of_find?_eq_some h

theorem mem_ids_of_instruction {id : ℕ} {i : HloInstruction} (h : c.instruction id = some i) :
    id ∈ c.ids := by
  rw [← id_of_instruction h]
  exact List.mem_map_of_mem (mem_of_instruction h)

/-- With distinct ids an instruction is found under its id. -/
theorem instruction_of_mem (hids : c.ids.Nodup) {i : HloInstruction} (h : i ∈ c.instructions) :
    c.instruction i.id = some i := by
  cases hfind : c.instruction i.id with
  | none =>
    rw [instruction, List.find?_eq_none] at hfind
    exact absurd (beq_self_eq_true i.id) (hfind i h)
  | some j =>
    have hid := id_of_instruction hfind
    rw [List.inj_on_of_nodup_map hids (mem_of_instruction hfind) h hid]

section mapInstructions

variable {f : HloInstruction → HloInstruction}

theorem ids_mapInstructions (hf : ∀ i, (f i).id = i.id) : (c.mapInstructions f).ids = c.ids := by
  simp [ids, mapInstructions, Function.comp_def, hf]

theorem instruction_mapInstructions (hf : ∀ i, (f i).id = i.id) (id : ℕ) :
    (c.mapInstructions f).instruction id = (c.instruction id).map f := by
  simp [instruction, mapInstructions, List.find?_map, hf]

end mapInstructions

@[simp] theorem ids_replaceOperandWith (user index new : ℕ) :
    (c.replaceOperandWith user index new).ids = c.ids := by
  apply ids_mapInstructions
  intro i
  split <;> rfl

@[simp] theorem ids_replaceAllUsesWith (old new : ℕ) :
    (c.replaceAllUsesWith old new).ids = c.ids := by
  apply ids_mapInstructions
  intro i
  split <;> rfl

theorem ids_addInstruction (i : HloInstruction) :
    (c.addInstruction i).ids = c.ids ++ [c.freshId] := by
  simp [ids, addInstruction]

theorem ids_addInstruction_nodup (i : HloInstruction) (hids : c.ids.Nodup) :
    (c.addInstruction i).ids.Nodup := by
  rw [ids_addInstruction, List.nodup_append]
  refine ⟨hids, by simp, ?_⟩
  intro a ha b hb heq
  rw [List.mem_singleton.mp hb] at heq
  exact freshId_notMem (heq ▸ ha)

theorem instruction_addInstruction (i : HloInstruction) {id : ℕ} (h : id ≠ c.freshId) :
    (c.addInstruction i).instruction id = c.instruction id := by
  rw [instruction, addInstruction, List.find?_append, instruction,
    List.find?_cons_of_neg (by simpa using h.symm)]
  simp

theorem instruction_addInstruction_freshId (i : HloInstruction) :
    (c.addInstruction i).instruction c.freshId = some { i with id := c.freshId } := by
  have hnone : c.instructions.find? (fun i => i.id == c.freshId) = none := by
    rw [List.find?_eq_none]
    intro j hj heq
    have hid : j.id = c.freshId := by simpa using heq
    exact freshId_notMem (c := c) (hid ▸ (List.mem_map_of_mem hj : j.id ∈ c.ids))
  rw [instruction, addInstruction, List.find?_append, hnone]
  simp

theorem instruction_removeInstruction {removed id : ℕ} (h : id ≠ removed) :
    (c.removeInstruction removed).instruction id = c.instruction id := by
  unfold instruction removeInstruction
  rw [List.find?_filter]
  congr 1
  funext i
  by_cases hid : i.id = id
  · simp [hid, h]
  · simp [hid]

end HloComputation

end MultiMeshJax
