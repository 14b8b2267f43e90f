import MultiMeshJax.ComputationFusion.FuseCalls
import MultiMeshJax.Hlo.RemoveTree
import MultiMeshJax.Hlo.Rewired

/-! `MpmdCrossTaskBarrierRemover::Visit`: the optimization barriers of a task are built anew for the
outputs that are used, without those that come from parameters. -/
namespace MultiMeshJax
namespace CrossTaskBarrierRemover

open StatusOr
open ComputationFusion (tupleShape)

/-- Which instructions are derived from parameters or constants; the ones that the pass adds have
no properties. -/
abbrev Properties := ℕ → Option Bool

def Properties.derivedInput (properties : Properties) (id : ℕ) : StatusOr Bool :=
  match properties id with
  | none => fatal "no properties assigned"
  | some derived => return derived

/-- The properties are asked for only where parameters are to be removed. -/
def isParameterInput (removeParameters : Bool) (properties : Properties) (operand : ℕ) :
    StatusOr Bool :=
  if removeParameters then properties.derivedInput operand else return false

structure Uses where
  newOperands : List ℕ := []
  operandsNeeded : List ℕ := []
  usersToReplace : List HloInstruction := []

section visit

variable (removeParameters : Bool) (properties : Properties)

def propagateProperties (source target : HloInstruction) : HloInstruction :=
  match source.color with
  | none => target
  | some color => { target with color := some color }

/-- A user of a barrier that takes an input of the task out of it reads the input. -/
def visitUser (inputTuple : HloInstruction) (acc : HloGraph × Uses) (user : HloInstruction) :
    StatusOr (HloGraph × Uses) := do
  let index ← user.tupleIndex
  let operand ← elementAt inputTuple.operands index
  let derived ← isParameterInput removeParameters properties operand
  if derived then do
    let g ← (acc.1.replaceUses user.id operand).removeInstruction user
    return (g, { acc.2 with operandsNeeded := acc.2.operandsNeeded ++ [operand] })
  else
    return (acc.1,
      { newOperands := acc.2.newOperands ++ [operand]
        operandsNeeded := acc.2.operandsNeeded ++ [operand]
        usersToReplace := acc.2.usersToReplace ++ [user] })

def shapeOf (g : HloGraph) (id : ℕ) : Shape :=
  match g.computation.instruction id with
  | some i => i.shape
  | none => .tuple []

/-- A user of the old barrier reads the next element of the new one. -/
def replaceUser (newBarrier : ℕ) (acc : HloGraph × ℕ) (user : HloInstruction) :
    StatusOr (HloGraph × ℕ) := do
  let newGte := propagateProperties user
    { id := 0, opcode := .getTupleElement acc.2, operands := [newBarrier], shape := user.shape }
  let g := (acc.1.addInstruction newGte).replaceUses user.id acc.1.nextId
  let g ← g.removeInstruction user
  return (g, acc.2 + 1)

/-- The new barrier has the operands that are left, once for each user. -/
def regroup (barrier inputTuple : HloInstruction) (g : HloGraph) (uses : Uses) :
    StatusOr HloGraph := do
  let shape := tupleShape (uses.newOperands.map (shapeOf g))
  let newTuple := propagateProperties inputTuple
    { id := 0, opcode := .tuple, operands := uses.newOperands, shape := shape }
  let newBarrier := propagateProperties barrier
    { id := 0, opcode := .optimizationBarrier, operands := [g.nextId], shape := shape }
  let (g, _) ← uses.usersToReplace.foldlM (replaceUser (g.nextId + 1))
    ((g.addInstruction newTuple).addInstruction newBarrier, 0)
  return g

/-- A barrier of one operand is not really a barrier anymore. -/
def replaceBarrier (barrier inputTuple : HloInstruction) (g : HloGraph) (uses : Uses) :
    StatusOr HloGraph :=
  match uses.newOperands, uses.usersToReplace with
  | [operand], user :: _ => (g.replaceUses user.id operand).removeInstruction user
  | _, _ => regroup barrier inputTuple g uses

def removeUnneeded (g : HloGraph) (id : ℕ) : StatusOr HloGraph := do
  let c ← g.computation.removeInstructionBackToParameters id
  return { g with computation := c }

def visitBarrier (g : HloGraph) (barrier : HloInstruction) : StatusOr HloGraph := do
  let input ← elementAt barrier.operands 0
  let inputTuple ← g.computation.getInstruction input
  let (peeled, uses) ← (g.computation.users barrier.id).foldlM
    (visitUser removeParameters properties inputTuple) (g, {})
  if uses.newOperands.length = inputTuple.operands.length then return peeled
  else do
    let replaced ← replaceBarrier barrier inputTuple peeled uses
    let toDel := inputTuple.operands.filter fun operand => operand ∉ uses.operandsNeeded
    let g ← replaced.removeInstruction barrier
    let g ← g.removeInstruction inputTuple
    toDel.foldlM removeUnneeded g

def isTupleBarrier (i : HloInstruction) : Bool :=
  decide (i.opcode = .optimizationBarrier) && i.shape.isTuple

/-- What an earlier visit has removed is no barrier: the operands of a barrier come before it in
the post order. -/
def visitInstruction (g : HloGraph) (id : ℕ) : StatusOr HloGraph :=
  match g.computation.instruction id with
  | none => return g
  | some i => if isTupleBarrier i then visitBarrier removeParameters properties g i else return g

/-- The instructions are visited in the post order that the computation has at the start. -/
def visit (g : HloGraph) : StatusOr HloGraph :=
  g.computation.ids.foldlM (visitInstruction removeParameters properties) g

end visit

end CrossTaskBarrierRemover
end MultiMeshJax
