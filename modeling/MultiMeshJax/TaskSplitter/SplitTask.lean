import MultiMeshJax.ComputationFusion.FuseCalls
import MultiMeshJax.CriticalPath
import MultiMeshJax.Hlo.Removal

/-! `SplitTask`: a task becomes one call for each set of its instructions, and
`MpmdSplitCriticalPath` splits off the critical ones. -/
namespace MultiMeshJax
namespace TaskSplitter

open StatusOr CriticalPath HloComputation
open ComputationFusion (Builder tupleShape)

/-- What a set of instructions takes from outside the task, from the other sets, and gives. -/
structure TaskConfig where
  externalParameters : List HloInstruction := []
  internalParameters : List HloInstruction := []
  externalRoots : List HloInstruction := []
  internalRoots : List HloInstruction := []

section classify

variable (computation : HloComputation) (included : List ℕ)

def visitOperand (st : TaskConfig × List ℕ) (operand : ℕ) : StatusOr (TaskConfig × List ℕ) :=
  if st.2.contains operand then return st
  else do
    let i ← computation.getInstruction operand
    let config :=
      if i.isParameter then
        { st.1 with externalParameters := st.1.externalParameters ++ [i] }
      else if included.contains operand then st.1
      else { st.1 with internalParameters := st.1.internalParameters ++ [i] }
    return (config, operand :: st.2)

variable {computation} (order : UserOrder computation)

/-- The first user that is the root or is not included decides. -/
def visitUsers (config : TaskConfig) (i : HloInstruction) : TaskConfig :=
  match (order.users i.id).find? fun user =>
      user.id == computation.root || !included.contains user.id with
  | none => config
  | some user =>
    if user.id = computation.root then
      { config with externalRoots := config.externalRoots ++ [i] }
    else { config with internalRoots := config.internalRoots ++ [i] }

def visitInstruction (st : TaskConfig × List ℕ) (i : HloInstruction) :
    StatusOr (TaskConfig × List ℕ) :=
  if i.isParameter then return st
  else do
    let (config, operandsVisited) ← i.operands.foldlM (visitOperand computation included) st
    return (visitUsers included order config i, operandsVisited)

def taskConfig (taskInstructionSet : List HloInstruction) : StatusOr TaskConfig := do
  let included := taskInstructionSet.map HloInstruction.id
  let (config, _) ← taskInstructionSet.foldlM (visitInstruction included order) ({}, [])
  return config

end classify

section build

/-- A computation that is being built, with the operands of its call. -/
structure Subtask where
  builder : Builder
  newCallOperands : List ℕ := []

def cloneParam (st : Subtask) (param : HloInstruction) (operand : ℕ) : Subtask where
  builder := { st.builder.add
      { id := 0, opcode := .parameter st.newCallOperands.length, shape := param.shape
        sharding := param.sharding } with
    cloneMap := Function.update st.builder.cloneMap param.id (some st.builder.nextId) }
  newCallOperands := st.newCallOperands ++ [operand]

def addExternalParameter (task : HloInstruction) (st : Subtask) (param : HloInstruction) :
    StatusOr Subtask :=
  match param.opcode with
  | .parameter number => do
    let operand ← elementAt task.operands number
    return cloneParam st param operand
  | _ => fatal "not a parameter"

def addInternalParameter (externalReplacements : ℕ → Option ℕ) (st : Subtask)
    (param : HloInstruction) : StatusOr Subtask := do
  let operand ← deref "no replacement" (externalReplacements param.id)
  return cloneParam st param operand

def clonedOperand (b : Builder) (operand : ℕ) : StatusOr ℕ :=
  deref "operand is not in the clone map" (b.cloneMap operand)

def cloneInstruction (computation : HloComputation) (b : Builder) (i : HloInstruction) :
    StatusOr Builder :=
  if i.isParameter || i.id == computation.root then return b
  else do
    let newOperands ← i.operands.mapM (clonedOperand b)
    return { b.add { i with operands := newOperands, controlPredecessors := [] } with
      cloneMap := Function.update b.cloneMap i.id (some b.nextId) }

def assignColor (color : String) (i : HloInstruction) : HloInstruction :=
  { i with color := some color }

/-- The computation of a set of instructions, the operands of its call, and the next id. -/
def buildSubtask (task : HloInstruction) (computation : HloComputation)
    (externalReplacements : ℕ → Option ℕ) (config : TaskConfig)
    (taskInstructions : List HloInstruction) (nextId : ℕ) :
    StatusOr (HloComputation × Shape × List ℕ × ℕ) := do
  let st ← config.externalParameters.foldlM (addExternalParameter task) ⟨{ nextId := nextId }, []⟩
  let st ← config.internalParameters.foldlM (addInternalParameter externalReplacements) st
  let b ← taskInstructions.foldlM (cloneInstruction computation) st.builder
  let newRootOperands ← (config.externalRoots ++ config.internalRoots).mapM fun root =>
    clonedOperand b root.id
  let shape := tupleShape (newRootOperands.map b.shapeOf)
  let rooted := b.add { id := 0, opcode := .tuple, operands := newRootOperands, shape := shape }
  return (⟨rooted.instructions, b.nextId⟩, shape, st.newCallOperands, rooted.nextId)

end build

section split

/-- The module that is being edited. `externalReplacements` has what takes the value of an
instruction of the task out of its new call. -/
structure SplitState where
  parent : HloComputation
  called : List HloComputation
  partition : HloPartition
  nextId : ℕ
  newColors : List String := []
  externalReplacements : ℕ → Option ℕ := fun _ => none

/-- `clone_root`. -/
def cloneRoot (subtask : ℕ) (newColor : String) (st : SplitState) (root : HloInstruction × ℕ) :
    SplitState :=
  { st with
    parent := { st.parent with instructions := st.parent.instructions ++
      [{ id := st.nextId, opcode := .getTupleElement root.2, operands := [subtask]
         shape := root.1.shape, sharding := root.1.sharding, color := some newColor }] }
    nextId := st.nextId + 1
    externalReplacements :=
      Function.update st.externalReplacements root.1.id (some st.nextId) }

/-- The parts of a task: a set of instructions, what is known of it, and the suffix for it. -/
structure Part where
  instructions : List HloInstruction
  config : TaskConfig
  suffix : String

def addPart (task : HloInstruction) (computation : HloComputation) (color : String)
    (st : SplitState) (part : Part) : StatusOr SplitState := do
  let (newColor, partition) ← st.partition.cloneColor color (color ++ part.suffix) none none
  let (splitComputation, shape, newCallOperands, subtask) ← buildSubtask task computation
    st.externalReplacements part.config part.instructions st.nextId
  let st := { st with
    parent := { st.parent with instructions := st.parent.instructions ++
      [{ id := subtask, opcode := .call st.called.length, operands := newCallOperands
         shape := shape, color := some newColor }] }
    called := st.called ++ [splitComputation.mapInstructions (assignColor newColor)]
    partition := partition
    nextId := subtask + 1
    newColors := st.newColors ++ [newColor] }
  return (part.config.externalRoots ++ part.config.internalRoots).zipIdx.foldl
    (cloneRoot subtask newColor) st

/-- A user of the task becomes what takes its value out of a new call. -/
def replaceUser (hasSideEffect : SideEffects) (taskRoot : HloInstruction)
    (externalReplacements : ℕ → Option ℕ) (parent : HloComputation) (user : HloInstruction) :
    StatusOr HloComputation := do
  let index ← user.tupleIndex
  let operand ← elementAt taskRoot.operands index
  let clone ← deref "no replacement" (externalReplacements operand)
  let parent := parent.mapInstructions fun i =>
    if i.id = clone then { i with sharding := user.sharding } else i
  parent.replaceInstruction hasSideEffect user clone

/-- The computation of the task is removed, which no call may still name. Its number is not
used again. -/
def removeEmbeddedComputation (parent : HloComputation) (n : ℕ) : StatusOr HloComputation :=
  if parent.instructions.any fun i => i.opcode == .call n then
    fatal "a call of the computation is left"
  else return parent

/-- `SplitTask`, for sets of instructions with a suffix each. -/
def splitTask (hasSideEffect : SideEffects) (p : TaskProgram) (order : UserOrder p.computation)
    (task : HloInstruction) (n : ℕ) (computation : HloComputation)
    (computationOrder : UserOrder computation) (instructions : List (List HloInstruction × String))
    (partition : HloPartition) : StatusOr (TaskProgram × HloPartition × List String) := do
  let parts ← instructions.mapM fun set => do
    let config ← taskConfig computationOrder set.1
    return ({ instructions := set.1, config := config, suffix := set.2 } : Part)
  let color ← deref "task has no color" task.color
  let st ← parts.foldlM (addPart task computation color)
    { parent := p.computation, called := p.called, partition := partition, nextId := p.freshId }
  let taskRoot ← computation.rootInstruction
  let parent ← (order.users task.id).foldlM
    (replaceUser hasSideEffect taskRoot st.externalReplacements) st.parent
  let parent ← removeEmbeddedComputation parent n
  return (⟨parent, st.called⟩, st.partition, st.newColors)

end split

section critical

/-- What is reached from each instruction along operands and control predecessors, itself
included, for a computation in post order. -/
def reachability (c : HloComputation) : ℕ → List ℕ :=
  c.instructions.foldl (fun reachable i => Function.update reachable i.id
    (i.id :: (i.operands ++ i.controlPredecessors).flatMap reachable)) fun _ => []

/-- `ExecutesBefore` of the ordering by dependences. -/
def executesBefore (c : HloComputation) (a b : ℕ) : Bool :=
  a != b && (reachability c b).contains a

/-- The critical root, and what executes before it. -/
def isCritical (computation : HloComputation) (criticalRoot : ℕ) (i : HloInstruction) : Bool :=
  executesBefore computation i.id criticalRoot || i.id == criticalRoot

/-- The root tuple is in neither of the two sets. -/
def criticalInstructions (computation : HloComputation) (criticalRoot : ℕ) :
    List HloInstruction :=
  computation.instructions.filter fun i =>
    i.id != computation.root && isCritical computation criticalRoot i

def nonCriticalInstructions (computation : HloComputation) (criticalRoot : ℕ) :
    List HloInstruction :=
  computation.instructions.filter fun i =>
    i.id != computation.root && !isCritical computation criticalRoot i

/-- `SplitComputation`. -/
def splitComputation (hasSideEffect : SideEffects) (p : TaskProgram)
    (order : UserOrder p.computation) (callToSplit : HloInstruction) (n : ℕ)
    (computation : HloComputation) (computationOrder : UserOrder computation) (criticalRootId : ℕ)
    (partition : HloPartition) : StatusOr (TaskProgram × HloPartition) := do
  let root ← computation.rootInstruction
  if root.opcode ≠ .tuple then error "Root instruction to split along is not a tuple"
  else if root.operands.length ≤ criticalRootId then error "Critical root id is out of bounds"
  else do
    let originalColor ← deref "call has no color" callToSplit.color
    let options ← partition.getTaskOptions originalColor
    match options.splitBackprop with
    | none => error ("color " ++ originalColor ++ " is not configured for split backprop")
    | some (criticalSuffix, nonCriticalSuffix) => do
      let criticalRoot ← elementAt root.operands criticalRootId
      let (p, partition, newColors) ← splitTask hasSideEffect p order callToSplit n computation
        computationOrder [(criticalInstructions computation criticalRoot, criticalSuffix),
          (nonCriticalInstructions computation criticalRoot, nonCriticalSuffix)] partition
      let nonCriticalColor ← elementAt newColors 1
      return (p, partition.setColorAsNonCritical nonCriticalColor)

end critical

end TaskSplitter
end MultiMeshJax
