import MultiMeshJax.Hlo.Computation
import MultiMeshJax.Status

/-! Modules with the computations that they call, and the aliases of their instructions. -/
namespace MultiMeshJax

open StatusOr

/-- The entry computation, and the computations that calls and loops name by number. -/
structure HloProgram where
  entry : HloComputation
  called : List HloComputation
  distinct : ((entry :: called).flatMap HloComputation.ids).Nodup
  deriving DecidableEq, Repr

namespace HloInstruction

def tupleIndex (i : HloInstruction) : StatusOr ℕ :=
  match i.opcode with
  | .getTupleElement k => return k
  | _ => fatal "not a get-tuple-element"

theorem tupleIndex_eq_ok {i : HloInstruction} {k : ℕ} :
    i.tupleIndex = ok k ↔ i.opcode = .getTupleElement k := by
  unfold tupleIndex
  split
  · rename_i index hop
    rw [hop, HloOpcode.getTupleElement.injEq]
    exact ⟨ok.inj, congrArg ok⟩
  · rename_i hop
    constructor
    · intro h
      cases h
    · intro h
      exact absurd h (hop k)

end HloInstruction

namespace HloComputation

def getInstruction (c : HloComputation) (id : ℕ) : StatusOr HloInstruction :=
  deref "no such instruction" (c.instruction id)

def rootInstruction (c : HloComputation) : StatusOr HloInstruction := c.getInstruction c.root

def parameterInstructions (c : HloComputation) : List HloInstruction :=
  c.instructions.filter HloInstruction.isParameter

end HloComputation

namespace HloProgram

def computations (p : HloProgram) : List HloComputation := p.entry :: p.called

def instructions (p : HloProgram) : List HloInstruction :=
  p.computations.flatMap HloComputation.instructions

def instruction (p : HloProgram) (id : ℕ) : Option HloInstruction :=
  p.instructions.find? fun i => i.id == id

def operandInstructions (p : HloProgram) (i : HloInstruction) : List HloInstruction :=
  i.operands.filterMap p.instruction

def users (p : HloProgram) (id : ℕ) : List HloInstruction :=
  p.instructions.filter fun i => i.operands.contains id

def calledComputation (p : HloProgram) (n : ℕ) : StatusOr HloComputation := elementAt p.called n

end HloProgram

namespace InstructionProperties

/-- The properties of an instruction that have to do with aliases and constants. -/
structure Entry where
  derivedConstant : Bool := false
  forwardAlias : Option ℕ := none
  backwardAlias : Option ℕ := none

end InstructionProperties

abbrev InstructionProperties := ℕ → InstructionProperties.Entry

namespace InstructionProperties

def addForwardAlias (props : InstructionProperties) (id alias_ : ℕ) : InstructionProperties :=
  Function.update props id { props id with forwardAlias := some alias_ }

def addBackwardAlias (props : InstructionProperties) (id alias_ : ℕ) : InstructionProperties :=
  Function.update props id { props id with backwardAlias := some alias_ }

/-- `CopyFromAlias`: the aliases of the entry itself stay. -/
def copyFromAlias (props : InstructionProperties) (id alias_ : ℕ) : InstructionProperties :=
  Function.update props id { props id with derivedConstant := (props alias_).derivedConstant }

/-- A new entry that is copied from an alias. -/
def newFromAlias (props : InstructionProperties) (id alias_ : ℕ) : InstructionProperties :=
  Function.update props id
    { derivedConstant := (props alias_).derivedConstant, backwardAlias := some alias_ }

def isDataMovement (mnemonic : String) : Bool :=
  ["transpose", "broadcast", "reshape", "convert"].contains mnemonic

/-- The parameters of a called computation are aliases of the operands of the call. -/
def addCallParameters (call : HloInstruction) (comp : HloComputation)
    (props : InstructionProperties) : StatusOr InstructionProperties :=
  comp.parameterInstructions.foldlM (fun props param => do
    match param.opcode with
    | .parameter number => do
      let inputAlias ← elementAt call.operands number
      return newFromAlias props param.id inputAlias
    | _ => return props) props

/-- The users of the tuple of a call are aliases of the operands of the root. -/
def addCallUsers (users : List HloInstruction) (root : HloInstruction)
    (props : InstructionProperties) : StatusOr InstructionProperties :=
  users.foldlM (fun props user => do
    let index ← user.tupleIndex
    let matchingRoot ← elementAt root.operands index
    return addBackwardAlias (addForwardAlias props matchingRoot user.id) user.id matchingRoot) props

/-- The users of the tuple of a loop body are aliases of the operands of the loop's input. -/
def addLoopInputs (users : List HloInstruction) (inputTuple root : HloInstruction)
    (props : InstructionProperties) : StatusOr InstructionProperties :=
  users.foldlM (fun props user => do
    let index ← user.tupleIndex
    let inputAlias ← elementAt inputTuple.operands index
    let _ ← elementAt root.operands index
    return addBackwardAlias (copyFromAlias props user.id inputAlias) user.id inputAlias) props

/-- The users of a loop are aliases of the operands of the body's root. Their entries are
written anew. -/
def addLoopOutputs (users : List HloInstruction) (root : HloInstruction)
    (props : InstructionProperties) : StatusOr InstructionProperties :=
  users.foldlM (fun props user => do
    let index ← user.tupleIndex
    let matchingRoot ← elementAt root.operands index
    return newFromAlias (addForwardAlias props matchingRoot user.id) user.id matchingRoot) props

/-- The users of a barrier are aliases of the operands of its tuple. -/
def addBarrierUsers (users : List HloInstruction) (inputTuple : HloInstruction)
    (props : InstructionProperties) : StatusOr InstructionProperties :=
  users.foldlM (fun props user => do
    let index ← user.tupleIndex
    let inputAlias ← elementAt inputTuple.operands index
    return addBackwardAlias props user.id inputAlias) props

/-- The properties with those of one instruction, `visit` being the visit of a called
computation. -/
def addInstructionProperties (p : HloProgram) (c : HloComputation)
    (visit : HloComputation → InstructionProperties → StatusOr InstructionProperties)
    (props : InstructionProperties) (i : HloInstruction) : StatusOr InstructionProperties :=
  match i.opcode with
  | .constant => return Function.update props i.id { props i.id with derivedConstant := true }
  | .other mnemonic =>
    if isDataMovement mnemonic then do
      let operand ← elementAt i.operands 0
      return copyFromAlias props i.id operand
    else return props
  | .call n => do
    let comp ← p.calledComputation n
    let props ← addCallParameters i comp props
    let props ← visit comp props
    if i.shape.isTuple then do
      let root ← comp.rootInstruction
      addCallUsers (c.users i.id) root props
    else return addForwardAlias props comp.root i.id
  | .whileLoop n => do
    let input ← elementAt i.operands 0
    let inputTuple ← c.getInstruction input
    let comp ← p.calledComputation n
    let root ← comp.rootInstruction
    match root.opcode, comp.parameterInstructions with
    | .tuple, [param] => do
      let props ← addLoopInputs (comp.users param.id) inputTuple root props
      let props ← addLoopOutputs (c.users i.id) root props
      visit comp props
    | _, _ => fatal "a loop body has a tuple as its root and one parameter"
  | .optimizationBarrier =>
    if i.shape.isTuple then do
      let input ← elementAt i.operands 0
      let inputTuple ← c.getInstruction input
      addBarrierUsers (c.users i.id) inputTuple props
    else return props
  | _ => return props

/-- `nesting` bounds how deeply computations call each other. -/
def addForwardProperties (p : HloProgram) : ℕ → HloComputation → InstructionProperties →
    StatusOr InstructionProperties
  | 0, _, _ => fatal "the computations call each other in a cycle"
  | nesting + 1, c, props =>
    c.instructions.foldlM (addInstructionProperties p c (addForwardProperties p nesting)) props

def create (p : HloProgram) : StatusOr InstructionProperties :=
  addForwardProperties p (p.called.length + 1) p.entry fun _ => {}

/-- The instructions that are reached along the aliases in one direction, a chain being no
longer than `length`. -/
def chain (next : ℕ → Option ℕ) : ℕ → ℕ → List ℕ
  | 0, _ => []
  | length + 1, id =>
    match next id with
    | some alias_ => alias_ :: chain next length alias_
    | none => []

end InstructionProperties

namespace HloProgram

variable (p : HloProgram) (props : InstructionProperties)

def backwardAliases (id : ℕ) : List ℕ :=
  InstructionProperties.chain (fun i => (props i).backwardAlias) p.instructions.length id

def forwardAliases (id : ℕ) : List ℕ :=
  InstructionProperties.chain (fun i => (props i).forwardAlias) p.instructions.length id

/-- The aliases in the order of `ForEachAlias`. -/
def aliases (id : ℕ) : List ℕ := p.backwardAliases props id ++ p.forwardAliases props id

/-- `properties.Operands`: the operands of the instruction at the end of the aliases. -/
def aliasOperands (id : ℕ) : List HloInstruction :=
  ((p.instruction ((p.backwardAliases props id).getLastD id)).map p.operandInstructions).getD []

def aliasUsers (id : ℕ) : List HloInstruction :=
  p.users ((p.forwardAliases props id).getLastD id)

variable {p}

theorem mem_instructions {c : HloComputation} (hc : c ∈ p.computations) {i : HloInstruction}
    (hi : i ∈ c.instructions) : i ∈ p.instructions :=
  List.mem_flatMap.mpr ⟨c, hc, hi⟩

theorem mem_computations_of_called {n : ℕ} {c : HloComputation}
    (h : p.calledComputation n = .ok c) : c ∈ p.computations :=
  List.mem_cons_of_mem _ (List.mem_of_getElem? (StatusOr.elementAt_eq_ok.mp h))

theorem ids_nodup (p : HloProgram) : (p.instructions.map HloInstruction.id).Nodup := by
  rw [instructions, List.map_flatMap]
  exact p.distinct

theorem eq_of_id {i j : HloInstruction} (hi : i ∈ p.instructions) (hj : j ∈ p.instructions)
    (h : i.id = j.id) : i = j := List.inj_on_of_nodup_map p.ids_nodup hi hj h

theorem mem_of_instruction {id : ℕ} {i : HloInstruction} (h : p.instruction id = some i) :
    i ∈ p.instructions ∧ i.id = id := by
  have hid := List.find?_some h
  exact ⟨List.mem_of_find?_eq_some h, by simpa using hid⟩

theorem instruction_of_mem {i : HloInstruction} (h : i ∈ p.instructions) :
    p.instruction i.id = some i := by
  cases hfind : p.instruction i.id with
  | none =>
    rw [instruction, List.find?_eq_none] at hfind
    exact absurd (beq_self_eq_true i.id) (hfind i h)
  | some j =>
    obtain ⟨hj, hid⟩ := mem_of_instruction hfind
    rw [eq_of_id hj h hid]

end HloProgram

end MultiMeshJax
