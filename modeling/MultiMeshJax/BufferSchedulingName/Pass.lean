import MultiMeshJax.HloPartition
import MultiMeshJax.Hlo.Program
import MultiMeshJax.Sharding.ZukuShape

/-! `MpmdAssignBufferSchedulingName`: the scheduling names of the temporaries, which are
handed out again once the buffer is free in a model of the times of the tasks. -/
namespace MultiMeshJax
namespace BufferSchedulingName

open StatusOr

structure BufferUse where
  name : ℕ
  available : ℕ
  deriving DecidableEq, Repr

/-- The library's priority queue, as the array that it keeps: the first use is the one that
is available first. Which of several such uses comes first is the library's choice. -/
structure UseQueue where
  IsHeap : List BufferUse → Prop
  push : BufferUse → List BufferUse → List BufferUse
  pop : List BufferUse → List BufferUse
  isHeap_nil : IsHeap []
  isHeap_push : ∀ use uses, IsHeap uses → IsHeap (push use uses)
  isHeap_pop : ∀ uses, IsHeap uses → IsHeap (pop uses)
  top_le : ∀ top uses, IsHeap (top :: uses) → ∀ use ∈ uses, top.available ≤ use.available
  push_perm : ∀ use uses, (push use uses).Perm (use :: uses)
  pop_perm : ∀ top uses, (pop (top :: uses)).Perm uses

/-- What the pass reads. `defaultShape` is the shape that the runtime's library constructs by
default. What uses a call takes an element out of its tuple. -/
structure Input where
  partition : HloPartition
  computation : HloComputation
  queue : UseQueue
  defaultShape : ShardedShape
  distinct : computation.ids.Nodup
  outputs : ∀ call ∈ computation.instructions, call.isCall = true →
    ∀ output ∈ computation.users call.id, output.isGetTupleElement = true ∧
      output.operands = [call.id]

/-- The time model of the pass: how far the tasks of each mesh have come, and when each
value is there. -/
structure Clock where
  timeOnMesh : DeviceList → ℕ := fun _ => 0
  timesAvailable : ℕ → ℕ := fun _ => 0

structure State where
  clock : Clock := {}
  timesVisited : ℕ → ℕ := fun _ => 0
  names : ℕ → Option ℕ
  pools : ShardedShape → List BufferUse := fun _ => []
  shapes : ℕ → Option ShardedShape := fun _ => none

def isReshard (i : HloInstruction) : Bool := i.isCustomCall kCustomCallReshard

section clock

variable (input : Input)

/-- The devices that a task or a reshard runs on. -/
def devicesOf (i : HloInstruction) : StatusOr DeviceList :=
  match i.color with
  | none => error "instruction was not assigned a color prior to buffer assignment"
  | some color => input.partition.devicesForColor color

/-- A task starts once its operands are there and the tasks before it on its mesh are done,
a reshard once its operand is there. -/
def timeStarted (clock : Clock) (i : HloInstruction) (devices : DeviceList) : ℕ :=
  if i.isCall then
    i.operands.foldl (fun time operand => max (clock.timesAvailable operand) time)
      (clock.timeOnMesh devices)
  else clock.timesAvailable (i.operands.headD 0)

/-- A task takes one unit of time, and two are reserved for communication. -/
def duration (i : HloInstruction) : ℕ := if i.isCall then 1 else 2

def timeDone (clock : Clock) (i : HloInstruction) (devices : DeviceList) : ℕ :=
  timeStarted clock i devices + duration i

/-- The values that a task or a reshard leaves. -/
def outputs (i : HloInstruction) : List HloInstruction :=
  if i.isCall then input.computation.users i.id else [i]

def advance (clock : Clock) (i : HloInstruction) (devices : DeviceList) : Clock where
  timeOnMesh := if i.isCall then
      Function.update clock.timeOnMesh devices (timeDone clock i devices)
    else clock.timeOnMesh
  timesAvailable := fun id =>
    if id ∈ (outputs input i).map HloInstruction.id then timeDone clock i devices
    else clock.timesAvailable id

/-- The time model alone, which the names do not enter. -/
def tick (clock : Clock) (i : HloInstruction) : StatusOr Clock :=
  if i.isCall || isReshard i then do
    let devices ← devicesOf input i
    return advance input clock i devices
  else return clock

end clock

section allocator

variable (input : Input)

/-- `shapes_[name]`, where a name that was never allocated gets the default shape. -/
def shapeOf (s : State) (name : ℕ) : ShardedShape := (s.shapes name).getD input.defaultShape

def freeAtTime (s : State) (time name : ℕ) : State :=
  let shape := shapeOf input s name
  { s with
    shapes := Function.update s.shapes name (some shape)
    pools := Function.update s.pools shape (input.queue.push ⟨name, time⟩ (s.pools shape)) }

/-- A temporary gets the buffer that has been available longest, or one of its own. -/
def allocateAtTime (s : State) (shape : ShardedShape) (time instruction : ℕ) : ℕ × State :=
  match s.pools shape with
  | top :: uses =>
    if top.available ≤ time then
      (top.name, { s with
        pools := Function.update s.pools shape (input.queue.pop (top :: uses))
        shapes := Function.update s.shapes top.name (some shape) })
    else (instruction, { s with shapes := Function.update s.shapes instruction (some shape) })
  | [] => (instruction, { s with shapes := Function.update s.shapes instruction (some shape) })

def userCount (id : ℕ) : ℕ := (input.computation.users id).length

def freeOperand (timeDone : ℕ) (s : State) (operand : HloInstruction) : StatusOr State :=
  if operand.isCustomCall kCustomCallSliceOffset || operand.isParameter then return s
  else
    match s.names operand.id with
    | none => error "was not assigned a scheduling name in MpmdAssignBufferSchedulingName"
    | some name =>
      let numVisits := s.timesVisited operand.id + 1
      let s := { s with timesVisited := Function.update s.timesVisited operand.id numVisits }
      if numVisits = userCount input operand.id then return freeAtTime input s timeDone name
      else return s

def usedByRoot (id : ℕ) : Bool :=
  (input.computation.users id).any fun i => i.id == input.computation.root

def setName (s : State) (id name : ℕ) : State :=
  { s with names := Function.update s.names id (some name) }

/-- An output that the root uses keeps a buffer of its own. -/
def visitOutput (timeStarted : ℕ) (devices : DeviceList) (s : State) (output : HloInstruction) :
    StatusOr State :=
  match s.names output.id with
  | some _ => return s
  | none =>
    if usedByRoot input output.id then return setName s output.id output.id
    else do
      let shape ← Sharding.xlaShapeToZukuShape output.shape devices output.shardingOrReplicated true
      let (name, s) := allocateAtTime input s shape timeStarted output.id
      return setName s output.id name

/-- The operands whose buffer an output has taken over stay in use. -/
def freeOperands (done : ℕ) (outputs : List HloInstruction) (operands : List HloInstruction)
    (s : State) : StatusOr State :=
  operands.foldlM (fun s operand =>
    if (s.names operand.id).isSome && outputs.any (fun o => s.names o.id == s.names operand.id)
    then return s
    else freeOperand input done s operand) s

def visitCall (s : State) (call : HloInstruction) : StatusOr State := do
  let devices ← devicesOf input call
  let operands ← call.operands.mapM input.computation.getInstruction
  let started := timeStarted s.clock call devices
  let done := timeDone s.clock call devices
  let s := { s with clock := advance input s.clock call devices }
  let s ← (outputs input call).foldlM (visitOutput input started devices) s
  freeOperands input done (outputs input call) operands s

def visitReshard (s : State) (reshard : HloInstruction) : StatusOr State := do
  let devices ← devicesOf input reshard
  let operandId ← elementAt reshard.operands 0
  let operand ← input.computation.getInstruction operandId
  let started := timeStarted s.clock reshard devices
  let done := timeDone s.clock reshard devices
  let s := { s with clock := advance input s.clock reshard devices }
  let s ← visitOutput input started devices s reshard
  if operand.isParameter then return s
  else if operand.color.isNone then
    error "instruction was not assigned a color prior to buffer assignment"
  else freeOperand input done s operand

def visit (s : State) (i : HloInstruction) : StatusOr State :=
  if i.isCall then visitCall input s i
  else if isReshard i then visitReshard input s i
  else return s

/-- The scheduling names before the traversal: a parameter has its own name. -/
def initialName (id : ℕ) : Option ℕ :=
  match input.computation.instruction id with
  | some i => if i.isParameter then some id else i.schedulingName
  | none => none

def start : State where
  names := initialName input

/-- The traversal, in post order. -/
def visitAll (instructions : List HloInstruction) : StatusOr State :=
  instructions.foldlM (visit input) (start input)

def run : StatusOr HloComputation := do
  let s ← visitAll input input.computation.instructions
  return input.computation.mapInstructions fun i => { i with schedulingName := s.names i.id }

end allocator

end BufferSchedulingName
end MultiMeshJax
