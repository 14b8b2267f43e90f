import MultiMeshJax.HloPartition
import MultiMeshJax.Hlo.Computation
import MultiMeshJax.Sharding.ZukuShape

/-! `MpmdInsertReshard`: an operand that is not where the task expects it is moved there by
a reshard. -/
namespace MultiMeshJax
namespace InsertReshard

open StatusOr Sharding

def needsReshard (operandDevices devices : DeviceList) (operandSharding sharding : HloSharding) :
    Bool :=
  if operandSharding.isReplicated && sharding.isReplicated &&
      decide (operandDevices.contains devices) then false
  else decide (operandDevices ≠ devices) || !meshEquivalentSharding operandSharding sharding

/-- A reshard of the producer into this runtime form exists. -/
structure ReshardKey where
  shardedShape : ShardedShape
  producer : ℕ
  deriving DecidableEq, Repr

structure State where
  entry : HloComputation
  partition : HloPartition
  reshardMap : List (ReshardKey × ℕ) := []
  changed : Bool := false

def getInstructionDevices (partition : HloPartition) (i : HloInstruction) : StatusOr DeviceList :=
  match i.color with
  | some color => partition.devicesForColor color
  | none =>
    if i.isParameter then
      match i.sharding with
      | none => return partition.devices
      | some sharding => getDevices sharding partition.devices
    else fatal "instruction has not been assigned a color"

def makeReshardIfNeeded (st : State) (userColor : String) (operandDevices devices : DeviceList)
    (operand user : HloInstruction) : StatusOr (State × Option ℕ) :=
  if needsReshard operandDevices devices operand.shardingOrReplicated user.shardingOrReplicated then
    do
      let parameterShape ←
        valueOrDie (xlaShapeToZukuShape user.shape devices user.shardingOrReplicated true)
      match st.reshardMap.lookup ⟨parameterShape, operand.id⟩ with
      | some reshard => return (st, some reshard)
      | none =>
        let reshard : HloInstruction :=
          { id := 0, opcode := .customCall kCustomCallReshard, operands := [operand.id],
            shape := user.shape, sharding := user.sharding, color := some userColor }
        return ({ st with
          entry := st.entry.addInstruction reshard
          reshardMap := (⟨parameterShape, operand.id⟩, st.entry.freshId) :: st.reshardMap },
          some st.entry.freshId)
  else return (st, none)

/-- Operands that no task computes. -/
def isPlaceholder (i : HloInstruction) : Bool :=
  i.isCustomCall kCustomCallDummyOperation || i.isCustomCall kCustomCallSliceOffset

def visitOperand (parameters : List HloInstruction) (color : String) (devices : DeviceList)
    (call : ℕ) (st : State) (position : ℕ × ℕ) : StatusOr State := do
  let (operandId, index) := position
  let operand ← deref "no such instruction" (st.entry.instruction operandId)
  if isPlaceholder operand then return st
  else do
    let parameter ← elementAt parameters index
    let operandDevices ← getInstructionDevices st.partition operand
    let (st, reshard) ← makeReshardIfNeeded st color operandDevices devices operand parameter
    match reshard with
    | some r =>
      return { st with entry := st.entry.replaceOperandWith call index r, changed := true }
    | none => return st

/-- The operands are those of the call before the visit, since a visit replaces the operand
at its own index only. -/
def visitInstruction (module : HloModule) (st : State) (i : HloInstruction) : StatusOr State :=
  match i.opcode with
  | .call toApply => do
    let parameters ← elementAt module.parameters toApply
    match i.color with
    | none =>
      error ("call instruction " ++ toString i.id ++ " has not been assigned a color")
    | some color => do
      let devices ← st.partition.devicesForColor color
      i.operands.zipIdx.foldlM (visitOperand parameters color devices i.id) st
  | _ => return st

/-- The root tuple takes the operand of the recoloring instruction, moved to its devices. -/
def visitRecolor (st : State) (recolor : HloInstruction) : StatusOr State :=
  match recolor.color with
  | none =>
    error ("custom call instruction " ++ toString recolor.id ++ " has not been assigned a color")
  | some color => do
    let devices ← st.partition.devicesForColor color
    match recolor.operands with
    | [operandId] =>
      if (st.entry.users recolor.id).length ≠ 1 then
        error ("recoloring instruction " ++ toString recolor.id ++
          " should have a single user (the root tuple)")
      else do
        let operand ← deref "no such instruction" (st.entry.instruction operandId)
        if isPlaceholder operand then
          error ("dummy operations/slice offsets " ++ toString operandId ++
            " cannot be a root tuple operand")
        else do
          let operandDevices ← getInstructionDevices st.partition operand
          let (st, reshard) ← makeReshardIfNeeded st color operandDevices devices operand recolor
          return { st with
            entry := (st.entry.replaceAllUsesWith recolor.id
              (reshard.getD operandId)).removeInstruction recolor.id
            changed := true }
    | _ => fatal "RootTupleRecolor has operands (expected 1)"

/-- A scalar output is copied to all devices, also for the other users of it. -/
def visitScalar (st : State) (operand : HloInstruction) : StatusOr State :=
  match operand.color with
  | none => error (toString operand.id ++ " has no assigned color")
  | some color => do
    let devices ← st.partition.devicesForColor color
    if devices.size < st.partition.totalDevices then do
      let (globalColor, partition) ← st.partition.findOrAllocateGlobalColor
      let reshard : HloInstruction :=
        { id := 0, opcode := .customCall kCustomCallReshard, operands := [operand.id],
          shape := operand.shape, sharding := some .replicated, color := some globalColor }
      return { st with
        entry := (st.entry.addInstruction reshard).replaceAllUsesWith operand.id st.entry.freshId
        partition := partition
        changed := true }
    else return st

def visitRootOperand (root : ℕ) (st : State) (index : ℕ) : StatusOr State := do
  let tuple ← deref "no such instruction" (st.entry.instruction root)
  let operandId ← elementAt tuple.operands index
  let operand ← deref "no such instruction" (st.entry.instruction operandId)
  if operand.isCustomCall kCustomCallRootTupleRecolor then visitRecolor st operand
  else if operand.shape.dimensions = [] then visitScalar st operand
  else return st

def visitRoot (st : State) : StatusOr State := do
  let root ← deref "no such instruction" (st.entry.instruction st.entry.root)
  if root.opcode = .tuple then
    (List.range root.operands.length).foldlM (visitRootOperand st.entry.root) st
  else return st

/-- `MpmdInsertReshard::Run`: the instructions are visited in the post order of the entry
computation as it was given. -/
def run (partition : HloPartition) (module : HloModule) :
    StatusOr (HloModule × HloPartition × Bool) := do
  let st ← module.entry.instructions.foldlM (visitInstruction module)
    { entry := module.entry, partition := partition }
  let st ← visitRoot st
  return ({ module with entry := st.entry }, st.partition, st.changed)

end InsertReshard
end MultiMeshJax
