import MultiMeshJax.Hlo.Program
import MultiMeshJax.LoopScheduler.Dependences
import MultiMeshJax.LoopUnroll.LoopDependentColor

/-! `MpmdLoopUnroll::Unroll`: the body of a loop is cloned into the parent once for each
iteration, and the clones are ordered along the schedule. -/
namespace MultiMeshJax

namespace HloComputation

/-- `ReplaceAllUsesWith` of the library, which moves the root as well. -/
def replaceAllUsesAndRoot (c : HloComputation) (old new : ℕ) : HloComputation :=
  let c := c.replaceAllUsesWith old new
  if c.root = old then { c with root := new } else c

end HloComputation

namespace LoopUnroll

open StatusOr

/-- The entries of the instructions, with their `loop_carried_index`. -/
abbrev LoopProperties := ℕ → Option (Option ℕ)

def LoopProperties.get (properties : LoopProperties) (id : ℕ) : StatusOr (Option ℕ) :=
  deref "has no properties" (properties id)

/-- What `AddForwardProperties` writes for a loop: a value of the loop is carried unless it is
passed on as it is. -/
def addLoopProperties (users : List HloInstruction) (inputs rootOperands : List ℕ)
    (properties : LoopProperties) : StatusOr LoopProperties :=
  users.foldlM (fun properties user => do
    let parameterNumber ← user.tupleIndex
    let inputAlias ← elementAt inputs parameterNumber
    let inputProperties ← properties.get inputAlias
    let properties := Function.update properties user.id (some inputProperties)
    let matchingRootInput ← elementAt rootOperands parameterNumber
    let carried : Option (Option ℕ) := some (some parameterNumber)
    if matchingRootInput = user.id then return properties
    else return Function.update (Function.update (Function.update properties user.id carried)
      inputAlias carried) matchingRootInput carried) properties

/-- The loop that is unrolled. -/
structure Loop where
  body : HloComputation
  parameterTuple : ℕ
  inputTuple : ℕ
  inputs : List ℕ
  config : LoopConfig
  properties : LoopProperties

/-- The parent in the course of the cloning, with the clones of the iteration. -/
structure CloneState where
  parent : HloComputation
  nextId : ℕ
  colors : ColorState
  wasLoopDependent : List ℕ := []
  cloneMap : ℕ → Option ℕ := fun _ => none
  tasks : List ℕ := []
  prevLoopOutputTuple : ℕ
  dummyTuples : List ℕ := []

namespace CloneState

def add (st : CloneState) (i : HloInstruction) : CloneState :=
  { st with
    parent := { st.parent with
      instructions := st.parent.instructions ++ [{ i with id := st.nextId }] }
    nextId := st.nextId + 1 }

def setClone (st : CloneState) (id clone : ℕ) : CloneState :=
  { st with cloneMap := Function.update st.cloneMap id (some clone) }

def getClone (st : CloneState) (id : ℕ) : StatusOr ℕ :=
  match st.cloneMap id with
  | some clone => return clone
  | none => error (toString id ++ " has no clone")

def setSchedulingName (st : CloneState) (id name : ℕ) : CloneState :=
  { st with parent := st.parent.mapInstructions fun i =>
      if i.id = id then { i with schedulingName := some name } else i }

def assignColor (st : CloneState) (id : ℕ) (color : String) : CloneState :=
  { st with parent := st.parent.mapInstructions fun i =>
      if i.id = id then { i with color := some color } else i }

/-- Instructions that depended on the loop are not given a name. -/
def neverLoopDependent (st : CloneState) (id : ℕ) : StatusOr Bool :=
  if st.wasLoopDependent.contains id then return false
  else do
    let i ← st.parent.getInstruction id
    let dependent ← isLoopDependent st.colors.partition i
    return !dependent

/-- The value gets the name of the loop input, where names are given. -/
def shareName (st : CloneState) (id input : ℕ) : StatusOr CloneState := do
  let never ← st.neverLoopDependent id
  if never then return st.setSchedulingName id input else return st

end CloneState

/-- A guess whether nothing but the root waits for the outputs of the call. -/
def isNonCriticalCall (body : HloComputation) (call : HloInstruction) : Bool :=
  (body.users call.id).all fun user =>
    (body.users user.id).length == 1 && (body.users user.id).all fun u => u.id == body.root

section clone

variable (loop : Loop)

/-- The clone of a get-tuple-element, and whether it is an operand of the input tuple. -/
def cloneElement (st : CloneState) (i : HloInstruction) : StatusOr (CloneState × Bool) := do
  let index ← i.tupleIndex
  let input ← elementAt loop.inputs index
  let loopCarriedIndex ← loop.properties.get input
  let source ← elementAt i.operands 0
  if source = loop.parameterTuple then
    if loopCarriedIndex.isSome then do
      let prev ← st.parent.getInstruction st.prevLoopOutputTuple
      let alias_ ← elementAt prev.operands index
      let st ← st.shareName alias_ input
      return (st.setClone i.id alias_, st.prevLoopOutputTuple == loop.inputTuple)
    else return (st.setClone i.id input, true)
  else do
    let newOperand ← st.getClone source
    let clone : HloInstruction := { i with
      operands := [newOperand], controlPredecessors := [], schedulingName := none }
    return ((st.add clone).setClone i.id st.nextId, false)

def cloneCall (st : CloneState) (i : HloInstruction) : StatusOr CloneState :=
  if LoopScheduler.isNonCritical st.colors.partition i && !isNonCriticalCall loop.body i then
    error " tagged as non-critical, but does not satisfy condition"
  else do
    let newOperands ← i.operands.mapM st.getClone
    let clone : HloInstruction := { i with
      operands := newOperands, controlPredecessors := [], schedulingName := none, sharding := none }
    let added := (st.add clone).setClone i.id st.nextId
    return { added with tasks := added.tasks ++ [st.nextId] }

/-- An operand of the root tuple, which gets the name of the input in whose place it comes. -/
def cloneRootOperand (acc : CloneState × List ℕ) (operand : ℕ × ℕ) :
    StatusOr (CloneState × List ℕ) := do
  let newOperand ← acc.1.getClone operand.1
  let loopCarriedIndex ← loop.properties.get operand.1
  if loopCarriedIndex.isSome then do
    let never ← acc.1.neverLoopDependent newOperand
    if never then do
      let input ← elementAt loop.inputs operand.2
      return (acc.1.setSchedulingName newOperand input, acc.2 ++ [newOperand])
    else return (acc.1, acc.2 ++ [newOperand])
  else return (acc.1, acc.2 ++ [newOperand])

def cloneRoot (st : CloneState) (i : HloInstruction) : StatusOr CloneState :=
  if i.id ≠ loop.body.root then error "is not a root tuple"
  else do
    let (st, newOperands) ← i.operands.zipIdx.foldlM (cloneRootOperand loop) (st, [])
    let clone : HloInstruction := { i with
      operands := newOperands, controlPredecessors := [], schedulingName := none, color := none }
    return { st.add clone with
      prevLoopOutputTuple := st.nextId, dummyTuples := st.dummyTuples ++ [st.nextId] }

/-- Slice offsets get the offset of the iteration as an attribute. -/
def cloneCustomCall (st : CloneState) (iter : ℕ) (i : HloInstruction) : StatusOr CloneState :=
  if i.isCustomCall kCustomCallSliceOffset then do
    let offset ← int (iter * loop.config.microbatchSize)
    return (st.add { i with offset := some offset, controlPredecessors := [] }).setClone i.id
      st.nextId
  else if i.isCustomCall kCustomCallDummyOperation then
    return (st.add { i with controlPredecessors := [] }).setClone i.id st.nextId
  else error "has unsupported instruction"

def cloneOpcode (iter : ℕ) (st : CloneState) (i : HloInstruction) :
    StatusOr (CloneState × Bool) :=
  match i.opcode with
  | .parameter _ => return (st, false)
  | .getTupleElement _ => cloneElement loop st i
  | .call _ => do
    let st ← cloneCall loop st i
    return (st, false)
  | .tuple => do
    let st ← cloneRoot loop st i
    return (st, false)
  | .customCall _ => do
    let st ← cloneCustomCall loop st iter i
    return (st, false)
  | _ => error "has unsupported instruction"

/-- A clone whose devices depend on the iteration gets the colour of the iteration. -/
def colorClone (iter : ℕ) (st : CloneState) (id : ℕ) (cloneIsInputOperand : Bool) :
    StatusOr CloneState :=
  match st.cloneMap id with
  | none => return st
  | some clone => do
    let i ← st.parent.getInstruction clone
    let dependent ← isLoopDependent st.colors.partition i
    if dependent && !cloneIsInputOperand then do
      let (color, colors) ← applyLoopDependentColor st.colors i iter
      return { st.assignColor clone color with
        colors := colors, wasLoopDependent := st.wasLoopDependent ++ [clone] }
    else return st

def cloneInstruction (iter : ℕ) (st : CloneState) (i : HloInstruction) : StatusOr CloneState := do
  let (st, cloneIsInputOperand) ← cloneOpcode loop iter st i
  colorClone iter st i.id cloneIsInputOperand

/-- One iteration, whose tasks are the next row. -/
def cloneIteration (acc : CloneState × List (List ℕ)) (iter : ℕ) :
    StatusOr (CloneState × List (List ℕ)) := do
  let st ← loop.body.instructions.foldlM (cloneInstruction loop iter)
    { acc.1 with cloneMap := fun _ => none, tasks := [] }
  return (st, acc.2 ++ [st.tasks])

def cloneIterations (st : CloneState) : StatusOr (CloneState × List (List ℕ)) :=
  (List.range loop.config.numIterations).foldlM (cloneIteration loop) (st, [])

end clone

section parent

/-- The users of the loop are replaced by the last outputs. -/
def replaceUser (prevLoopOutputTuple : ℕ) (parent : HloComputation) (user : HloInstruction) :
    StatusOr HloComputation := do
  let index ← user.tupleIndex
  let prev ← parent.getInstruction prevLoopOutputTuple
  let output ← elementAt prev.operands index
  return parent.replaceAllUsesAndRoot user.id output

def addControlDependencyTo (parent : HloComputation) (edge : HloInstruction × HloInstruction) :
    HloComputation :=
  parent.mapInstructions fun i =>
    if i.id = edge.2.id ∧ edge.1.id ∉ i.controlPredecessors then
      { i with controlPredecessors := i.controlPredecessors ++ [edge.1.id] }
    else i

/-- The library removes no instruction that is used or is the root. -/
def removeInstruction (parent : HloComputation) (id : ℕ) : StatusOr HloComputation :=
  if !(parent.users id).isEmpty || id == parent.root then error "instruction cannot be removed"
  else return parent.removeInstruction id

/-- How the tasks of the loop are scheduled. -/
abbrev Scheduler := HloPartition → (ℕ → List ℕ) → LoopConfig → Tasks → StatusOr Tasks

def operandsOf (parent : HloComputation) (id : ℕ) : List ℕ :=
  ((parent.instruction id).map HloInstruction.operands).getD []

/-- What the unrolling leaves: the parent, the colours, the rows of the schedule, and what
is removed in the end. -/
structure Unrolled where
  parent : HloComputation
  colors : ColorState
  tasks : List (List ℕ)
  schedule : Tasks
  removed : List ℕ

def unroll (scheduleLoops : Scheduler) (body : HloComputation) (config : LoopConfig)
    (properties : LoopProperties) (parent : HloComputation) (nextId : ℕ) (colors : ColorState)
    (whileLoop : ℕ) : StatusOr Unrolled := do
  let loopInstruction ← parent.getInstruction whileLoop
  let inputTuple ← elementAt loopInstruction.operands 0
  let input ← parent.getInstruction inputTuple
  let parameter ← deref "the body has no parameter"
    (body.instructions.find? fun i => i.opcode == .parameter 0)
  let loop : Loop := ⟨body, parameter.id, inputTuple, input.operands, config, properties⟩
  let (st, tasks) ← cloneIterations loop
    { parent := parent, nextId := nextId, colors := colors, prevLoopOutputTuple := inputTuple }
  let users := parent.users whileLoop
  let c ← users.foldlM (replaceUser st.prevLoopOutputTuple) st.parent
  let rows ← tasks.mapM fun row => row.mapM c.getInstruction
  let schedule ← scheduleLoops st.colors.partition (operandsOf c) config rows
  let edges ← schedule.mapM (LoopScheduler.controlDependencies st.colors.partition)
  let c := edges.flatten.foldl addControlDependencyTo c
  let c := c.replaceAllUsesAndRoot whileLoop st.prevLoopOutputTuple
  let removed := users.map HloInstruction.id ++ st.dummyTuples ++ [whileLoop, inputTuple]
  return ⟨c, st.colors, tasks, schedule, removed⟩

/-- `CleanUp`. -/
def cleanUp (u : Unrolled) : StatusOr HloComputation := u.removed.foldlM removeInstruction u.parent

end parent

end LoopUnroll
end MultiMeshJax
