import MultiMeshJax.LoopUnroll.Unroll

/-! `MpmdLoopUnroll::Run`: the loops of the entry computation that have a configuration are
unrolled one after the other, and what is left of them is removed in the end. -/
namespace MultiMeshJax
namespace LoopUnroll

open StatusOr

/-- What the pass reads: how loops are scheduled, the bodies by number, and the configurations
of the loops that have one. -/
structure Input where
  scheduleLoops : Scheduler
  called : List HloComputation
  config : ℕ → Option (StatusOr LoopConfig)

/-- `InstructionProperties::Create` comes to the loops in post order. -/
def addProperties (input : Input) (entry : HloComputation) (properties : LoopProperties)
    (i : HloInstruction) : StatusOr LoopProperties :=
  match i.opcode with
  | .whileLoop n => do
    let inputTuple ← elementAt i.operands 0
    let inputs ← entry.getInstruction inputTuple
    let body ← elementAt input.called n
    let root ← body.rootInstruction
    let parameter ← deref "the body has no parameter"
      (body.instructions.find? fun j => j.opcode == .parameter 0)
    addLoopProperties (body.users parameter.id) inputs.operands root.operands properties
  | _ => return properties

/-- The entry computation in the course of the pass. -/
structure PassState where
  entry : HloComputation
  nextId : ℕ
  colors : ColorState
  removed : List ℕ := []

def visit (input : Input) (properties : LoopProperties) (st : PassState) (i : HloInstruction) :
    StatusOr PassState :=
  match i.opcode, input.config i.id with
  | .whileLoop n, some config => do
    let config ← config
    let body ← elementAt input.called n
    let u ← unroll input.scheduleLoops body config properties st.entry st.nextId st.colors i.id
    return ⟨u.parent, max st.nextId u.parent.freshId, u.colors, st.removed ++ u.removed⟩
  | _, _ => return st

/-- `before` are the properties of the instructions that are no loops. -/
def run (input : Input) (before : LoopProperties) (entry : HloComputation) (nextId : ℕ)
    (colors : ColorState) : StatusOr HloComputation := do
  let properties ← entry.instructions.foldlM (addProperties input entry) before
  let st ← entry.instructions.foldlM (visit input properties)
    { entry := entry, nextId := nextId, colors := colors }
  st.removed.foldlM removeInstruction st.entry

end LoopUnroll
end MultiMeshJax
