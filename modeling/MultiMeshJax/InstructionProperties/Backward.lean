import MultiMeshJax.Hlo.Program

/-! `AddBackwardProperties`: the computations are traversed from their roots, and what is known
of an instruction is passed on to its operands. -/
namespace MultiMeshJax

open StatusOr

namespace HloComputation

def parameterInstruction (c : HloComputation) (number : ℕ) : StatusOr HloInstruction :=
  deref "no such parameter" (c.instructions.find? fun i => decide (i.opcode = .parameter number))

end HloComputation

namespace InstructionProperties

/-- The properties that the backward traversal writes. -/
structure BackwardEntry where
  elementwiseConnectedToEntryOutput : Option ℕ := none
  equivalentToWhileOutput : Option ℕ := none
  additiveToWhileInput : List ℕ := []
  deriving DecidableEq, Repr

abbrev BackwardProperties := ℕ → BackwardEntry

def kNoOpCustomCalls : List String :=
  ["Reshard", "Sharding", "ArgumentRecolor", "SPMDFullToShardShape", "SPMDShardToFullShape"]

def isNoOpCustomCall (i : HloInstruction) : Bool :=
  match i.opcode with
  | .customCall target => kNoOpCustomCalls.contains target
  | _ => false

/-- The target that is looked up is that of `instruction`, at which the chain starts. -/
def dealiasFrom (c : HloComputation) (instruction : HloInstruction) :
    ℕ → HloInstruction → StatusOr (Option ℕ)
  | 0, _ => fatal "the operands form a cycle"
  | length + 1, operand =>
    match operand.opcode with
    | .customCall _ =>
      if isNoOpCustomCall instruction then do
        let next ← elementAt operand.operands 0
        let next ← c.getInstruction next
        dealiasFrom c instruction length next
      else return none
    | .getTupleElement _ => do
      let tuple ← elementAt operand.operands 0
      let tuple ← c.getInstruction tuple
      return if tuple.isParameter then some operand.id else none
    | _ => return none

def dealiasLoopInput (c : HloComputation) (instruction : HloInstruction) : StatusOr (Option ℕ) :=
  dealiasFrom c instruction (c.instructions.length + 1) instruction

def propagateElementwise (src target : ℕ) (props : BackwardProperties) : BackwardProperties :=
  if (props target).elementwiseConnectedToEntryOutput.isSome then props
  else Function.update props target { props target with
    elementwiseConnectedToEntryOutput := (props src).elementwiseConnectedToEntryOutput }

def setAdditive (target : ℕ) (additive : List ℕ) (props : BackwardProperties) :
    BackwardProperties :=
  Function.update props target { props target with additiveToWhileInput := additive }

def propagateAdditiveElementwise (src target : ℕ) (props : BackwardProperties) :
    BackwardProperties :=
  setAdditive target (props src).additiveToWhileInput (propagateElementwise src target props)

def setEquivalent (target : ℕ) (output : Option ℕ) (props : BackwardProperties) :
    BackwardProperties :=
  Function.update props target { props target with equivalentToWhileOutput := output }

def propagateNoOpElementwise (src target : ℕ) (props : BackwardProperties) :
    BackwardProperties :=
  setAdditive target (props src).additiveToWhileInput
    (setEquivalent target (props src).equivalentToWhileOutput
      (propagateElementwise src target props))

/-- The addition and its other operand are additive to the loop input. -/
def pushLoopInput (sum other input : ℕ) (props : BackwardProperties) : BackwardProperties :=
  let props := setAdditive sum ((props sum).additiveToWhileInput ++ [input]) props
  setAdditive other ((props other).additiveToWhileInput ++ [input]) props

/-- Operands with multiple users are not supported. -/
def propagateToTerm (c : HloComputation) (sum operand : ℕ) (props : BackwardProperties) :
    BackwardProperties :=
  if (c.users operand).length = 1 then propagateAdditiveElementwise sum operand props else props

def addSum (c : HloComputation) (i : HloInstruction) (props : BackwardProperties) :
    StatusOr BackwardProperties := do
  let lhs ← elementAt i.operands 0
  let lhsInstruction ← c.getInstruction lhs
  let lhsLoopInput ← dealiasLoopInput c lhsInstruction
  let rhs ← elementAt i.operands 1
  let rhsInstruction ← c.getInstruction rhs
  let rhsLoopInput ← dealiasLoopInput c rhsInstruction
  let props := propagateElementwise i.id rhs (propagateElementwise i.id lhs props)
  match lhsLoopInput, rhsLoopInput with
  | some input, _ => return pushLoopInput i.id rhs input props
  | none, some input => return pushLoopInput i.id lhs input props
  | none, none =>
    if (props i.id).additiveToWhileInput = [] then return props
    else return propagateToTerm c i.id rhs (propagateToTerm c i.id lhs props)

/-- `reducer` has the computation that a reduce applies. -/
def addReduce (p : HloProgram) (reducer : ℕ → Option ℕ) (i : HloInstruction)
    (props : BackwardProperties) : StatusOr BackwardProperties := do
  let n ← deref "no called computation" (reducer i.id)
  let comp ← p.calledComputation n
  let root ← comp.rootInstruction
  if root.opcode = .other "add" then do
    let operand ← elementAt i.operands 0
    return setAdditive operand (props i.id).additiveToWhileInput props
  else return props

def isValuePreserving (mnemonic : String) : Bool :=
  ["transpose", "reshape", "convert", "bitcast"].contains mnemonic

def isBinaryElementwise (mnemonic : String) : Bool :=
  ["multiply", "divide", "or", "subtract", "select", "and"].contains mnemonic

def isUnaryElementwise (mnemonic : String) : Bool :=
  ["sine", "cosine", "exponential", "ceil", "copy", "log", "negate", "not", "reduce-precision",
    "sqrt", "tan", "tanh"].contains mnemonic

/-- The properties of the users of a tuple go to the elements of the tuple. -/
def propagateUsers (users : List HloInstruction) (tuple : HloInstruction)
    (props : BackwardProperties) : StatusOr BackwardProperties :=
  users.foldlM (fun props user => do
    let index ← user.tupleIndex
    let element ← elementAt tuple.operands index
    return propagateElementwise user.id element props) props

def propagateParameters (comp : HloComputation) (operands : List ℕ)
    (props : BackwardProperties) : StatusOr BackwardProperties :=
  operands.zipIdx.foldlM (fun props (operand, index) => do
    let param ← comp.parameterInstruction index
    return propagateElementwise param.id operand props) props

/-- What the elements of the root of a loop body are equivalent to. -/
def setWhileOutputs (c comp : HloComputation) (root : HloInstruction)
    (props : BackwardProperties) : BackwardProperties :=
  if root.opcode = .tuple then
    root.operands.foldl (fun props operand => setEquivalent operand (some operand) props) props
  else setEquivalent comp.root (some c.root) props

/-- The properties with those that one instruction passes on, `visit` being the visit of a
called computation. -/
def addBackwardInstruction (p : HloProgram) (reducer : ℕ → Option ℕ) (c : HloComputation)
    (visit : HloComputation → BackwardProperties → StatusOr BackwardProperties)
    (props : BackwardProperties) (i : HloInstruction) : StatusOr BackwardProperties :=
  match i.opcode with
  | .other mnemonic =>
    if mnemonic = "add" then addSum c i props
    else if mnemonic = "reduce" then addReduce p reducer i props
    else if isValuePreserving mnemonic then do
      let operand ← elementAt i.operands 0
      return propagateNoOpElementwise i.id operand props
    else if isBinaryElementwise mnemonic then do
      let lhs ← elementAt i.operands 0
      let rhs ← elementAt i.operands 1
      return propagateElementwise i.id rhs (propagateElementwise i.id lhs props)
    else if isUnaryElementwise mnemonic then do
      let operand ← elementAt i.operands 0
      return propagateElementwise i.id operand props
    else return props
  | .customCall _ =>
    if isNoOpCustomCall i then do
      let operand ← elementAt i.operands 0
      return propagateNoOpElementwise i.id operand props
    else return props
  | .call n => do
    let comp ← p.calledComputation n
    let root ← comp.rootInstruction
    let props ← if i.shape.isTuple then propagateUsers (c.users i.id) root props else pure props
    let props ← visit comp props
    propagateParameters comp i.operands props
  | .whileLoop n => do
    let comp ← p.calledComputation n
    let root ← comp.rootInstruction
    let props ← propagateUsers (c.users i.id) root (setWhileOutputs c comp root props)
    let props ← visit comp props
    let input ← elementAt i.operands 0
    let inputTuple ← c.getInstruction input
    let param ← comp.parameterInstruction 0
    propagateUsers (comp.users param.id) inputTuple props
  | _ => return props

/-- `nesting` bounds how deeply computations call each other. -/
def addBackwardProperties (p : HloProgram) (reducer : ℕ → Option ℕ) :
    ℕ → HloComputation → BackwardProperties → StatusOr BackwardProperties
  | 0, _, _ => fatal "the computations call each other in a cycle"
  | nesting + 1, c, props =>
    c.instructions.reverse.foldlM
      (addBackwardInstruction p reducer c (addBackwardProperties p reducer nesting)) props

/-- The properties after the backward traversal of a module, from those before it. -/
def createBackward (p : HloProgram) (reducer : ℕ → Option ℕ) (props : BackwardProperties) :
    StatusOr BackwardProperties :=
  addBackwardProperties p reducer (p.called.length + 1) p.entry props

end InstructionProperties

end MultiMeshJax
