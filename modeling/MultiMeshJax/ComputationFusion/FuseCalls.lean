import MultiMeshJax.Hlo.Program
import MultiMeshJax.Hlo.Semantics

/-! `FuseCalls`: a list of calls becomes one call of a computation that has their bodies. -/
namespace MultiMeshJax

/-- A computation whose tasks are calls, and the computations that they call by number. -/
structure TaskProgram where
  computation : HloComputation
  called : List HloComputation
  deriving DecidableEq, Repr

namespace TaskProgram

def ids (p : TaskProgram) : List ℕ := p.computation.ids ++ p.called.flatMap HloComputation.ids

def freshId (p : TaskProgram) : ℕ := p.ids.foldr max 0 + 1

end TaskProgram

namespace ComputationFusion

open StatusOr

def calledComputation (p : TaskProgram) (call : HloInstruction) : StatusOr HloComputation :=
  match call.opcode with
  | .call n => elementAt p.called n
  | _ => fatal "no called computation"

def parameterInstruction (comp : HloComputation) (number : ℕ) : StatusOr HloInstruction :=
  deref "no such parameter" (comp.instructions.find? fun i => i.opcode == .parameter number)

/-- The operand of the root tuple of a called computation that an output takes out. -/
def outputRoot (comp : HloComputation) (output : HloInstruction) : StatusOr ℕ := do
  let index ← output.tupleIndex
  let root ← comp.rootInstruction
  elementAt root.operands index

section collect

/-- What the calls need from outside and leave for outside. `operandsAdded` has the
parameters that an operand becomes, and `rootsNeeded` the outputs with what they alias. -/
structure Collected where
  producedBySet : List ℕ := []
  parametersNeeded : List ℕ := []
  rootsNeeded : List (ℕ × ℕ) := []
  operandsAdded : ℕ → List HloInstruction := fun _ => []

def collectOperand (comp : HloComputation) (st : Collected) (operand : ℕ × ℕ) :
    StatusOr Collected :=
  if st.producedBySet.contains operand.1 then return st
  else do
    let param ← parameterInstruction comp operand.2
    return { st with
      parametersNeeded :=
        if (st.operandsAdded operand.1).isEmpty then st.parametersNeeded ++ [operand.1]
        else st.parametersNeeded
      operandsAdded :=
        Function.update st.operandsAdded operand.1 (st.operandsAdded operand.1 ++ [param]) }

/-- The output is the root, or has a user that is not fused or is the root. -/
def isRootNeeded (c : HloComputation) (calls : List ℕ) (gte : HloInstruction) : Bool :=
  gte.id == c.root ||
    (c.users gte.id).any fun user => !calls.contains user.id || user.id == c.root

def collectOutput (c : HloComputation) (calls : List ℕ) (comp : HloComputation) (st : Collected)
    (gte : HloInstruction) : StatusOr Collected := do
  let st := { st with producedBySet := st.producedBySet ++ [gte.id] }
  if isRootNeeded c calls gte then do
    let root ← outputRoot comp gte
    return { st with rootsNeeded := st.rootsNeeded ++ [(gte.id, root)] }
  else return st

def collectCall (p : TaskProgram) (calls : List ℕ) (st : Collected) (id : ℕ) :
    StatusOr Collected := do
  let call ← p.computation.getInstruction id
  let comp ← calledComputation p call
  let st ← call.operands.zipIdx.foldlM (collectOperand comp) st
  (p.computation.users id).foldlM (collectOutput p.computation calls comp) st

end collect

section build

/-- A computation that is being built. A null pointer in one of the maps counts as an entry
that is not there. -/
structure Builder where
  instructions : List HloInstruction := []
  nextId : ℕ
  cloneMap : ℕ → Option ℕ := fun _ => none
  clonedOperandParams : ℕ → Option ℕ := fun _ => none

def Builder.add (b : Builder) (i : HloInstruction) : Builder :=
  { b with instructions := b.instructions ++ [{ i with id := b.nextId }], nextId := b.nextId + 1 }

def addParameter (st : Collected) (b : Builder) (operand : ℕ × ℕ) : StatusOr Builder := do
  let param ← elementAt (st.operandsAdded operand.1) 0
  let added := b.add { param with
    opcode := .parameter operand.2, operands := [], controlPredecessors := [] }
  return { added with
    cloneMap := fun id =>
      if id ∈ (st.operandsAdded operand.1).map HloInstruction.id then some b.nextId
      else b.cloneMap id
    clonedOperandParams := Function.update b.clonedOperandParams operand.1 (some b.nextId) }

def clonedOperand (b : Builder) (operand : ℕ) : StatusOr ℕ :=
  match b.cloneMap operand with
  | some id => return id
  | none => error "was never added to clone map when fusing "

def cloneInstruction (call : HloInstruction) (comp : HloComputation) (b : Builder)
    (i : HloInstruction) : StatusOr Builder :=
  match i.opcode with
  | .parameter number => do
    let operand ← elementAt call.operands number
    return { b with cloneMap := Function.update b.cloneMap i.id (b.clonedOperandParams operand) }
  | _ =>
    if i.id = comp.root then return b
    else do
      let operands ← i.operands.mapM (clonedOperand b)
      return { b.add { i with operands := operands, controlPredecessors := [] } with
        cloneMap := Function.update b.cloneMap i.id (some b.nextId) }

def cloneOutput (comp : HloComputation) (b : Builder) (user : HloInstruction) :
    StatusOr Builder := do
  let originalRoot ← outputRoot comp user
  return { b with
    clonedOperandParams := Function.update b.clonedOperandParams user.id (b.cloneMap originalRoot) }

def cloneCall (p : TaskProgram) (b : Builder) (id : ℕ) : StatusOr Builder := do
  let call ← p.computation.getInstruction id
  let comp ← calledComputation p call
  let b ← comp.instructions.foldlM (cloneInstruction call comp) b
  (p.computation.users id).foldlM (cloneOutput comp) b

def fusedRootOperand (b : Builder) (root : ℕ × ℕ) : StatusOr ℕ :=
  match b.cloneMap root.2 with
  | some id => return id
  | none => error "fused root is not in clone map"

/-- The shape of a tuple of arrays. -/
def tupleShape (shapes : List Shape) : Shape :=
  .tuple (shapes.filterMap fun
    | .array type dimensions => some (type, dimensions)
    | .tuple _ => none)

def Builder.shapeOf (b : Builder) (id : ℕ) : Shape :=
  match b.instructions.find? fun i => i.id == id with
  | some i => i.shape
  | none => .tuple []

def buildFused (p : TaskProgram) (calls : List ℕ) (st : Collected) :
    StatusOr (HloComputation × Shape × ℕ) := do
  let b ← st.parametersNeeded.zipIdx.foldlM (addParameter st) { nextId := p.freshId }
  let b ← calls.foldlM (cloneCall p) b
  let operands ← st.rootsNeeded.mapM (fusedRootOperand b)
  let shape := tupleShape (operands.map b.shapeOf)
  let rooted := b.add { id := 0, opcode := .tuple, operands := operands, shape := shape }
  return (⟨rooted.instructions, b.nextId⟩, shape, rooted.nextId)

end build

section parent

/-- The control edges of the calls to and from the instructions that are not fused. -/
def clearControlDependencies (c : HloComputation) (calls : List ℕ) : HloComputation :=
  c.mapInstructions fun i => { i with controlPredecessors :=
    if i.id ∈ calls then [] else i.controlPredecessors.filter fun id => !calls.contains id }

def controlPredecessors (c : HloComputation) (calls : List ℕ) : List ℕ :=
  (calls.flatMap fun id =>
    ((c.instruction id).map HloInstruction.controlPredecessors).getD []).filter
      fun id => !calls.contains id

def controlSuccessors (c : HloComputation) (calls : List ℕ) : List ℕ :=
  (c.instructions.filter fun i => !calls.contains i.id &&
    i.controlPredecessors.any calls.contains).map HloInstruction.id

def addControlDependency (newCall : ℕ) (predecessors successors : List ℕ) (i : HloInstruction) :
    HloInstruction :=
  if i.id = newCall then { i with controlPredecessors := predecessors.dedup }
  else if i.id ∈ successors then
    { i with controlPredecessors := i.controlPredecessors ++ [newCall] }
  else i

def addControlDependencies (c : HloComputation) (newCall : ℕ) (predecessors successors : List ℕ) :
    HloComputation :=
  c.mapInstructions (addControlDependency newCall predecessors successors)

/-- `AddInstruction`, for an id that is new in the module. -/
def append (c : HloComputation) (i : HloInstruction) : HloComputation :=
  { c with instructions := c.instructions ++ [i] }

/-- A parent that is being edited, with the id that the next instruction gets. -/
structure Parent where
  computation : HloComputation
  nextId : ℕ

/-- An output that is used outside is taken out of the new call. -/
def replaceOutput (newCall : ℕ) (parent : Parent) (root : (ℕ × ℕ) × ℕ) : StatusOr Parent := do
  let gte ← parent.computation.getInstruction root.1.1
  let new : HloInstruction := { gte with
    id := parent.nextId, opcode := .getTupleElement root.2, operands := [newCall]
    controlPredecessors := [] }
  let c := (append parent.computation new).replaceAllUsesWith gte.id new.id
  return ⟨if c.root = gte.id then { c with root := new.id } else c, parent.nextId + 1⟩

def removeOutput (c : HloComputation) (user : HloInstruction) : StatusOr HloComputation :=
  if !(c.users user.id).isEmpty then error "still has active user"
  else if user.id = c.root then error "is still the root instruction"
  else return c.removeInstruction user.id

/-- The library removes no instruction that is used or is the root. -/
def removeCall (c : HloComputation) (id : ℕ) : StatusOr HloComputation := do
  let c ← (c.users id).foldlM removeOutput c
  if !(c.users id).isEmpty || id == c.root then error "instruction cannot be removed"
  else return c.removeInstruction id

/-- The new call has the colour of the first one. -/
def fuseCalls (p : TaskProgram) (calls : List ℕ) : StatusOr (TaskProgram × ℕ) := do
  match calls with
  | [] => error "FuseComputations: got empty calls vector"
  | front :: _ => do
    let first ← p.computation.getInstruction front
    let st ← calls.foldlM (collectCall p calls) {}
    let (fused, shape, newCall) ← buildFused p calls st
    let call : HloInstruction :=
      { id := newCall, opcode := .call p.called.length, operands := st.parametersNeeded
        shape := shape, color := first.color }
    let parent ← st.rootsNeeded.zipIdx.foldlM (replaceOutput newCall)
      ⟨append (clearControlDependencies p.computation calls) call, newCall + 1⟩
    let c ← calls.reverse.foldlM removeCall parent.computation
    let c := addControlDependencies c newCall (controlPredecessors p.computation calls)
      (controlSuccessors p.computation calls)
    return (⟨c, p.called ++ [fused]⟩, newCall)

end parent

end ComputationFusion
end MultiMeshJax
