import MultiMeshJax.Hlo.ProgramState

/-! `MpmdUnusedLoopOutputRemover`: the outputs of loops that nothing uses after the loop
become dummies. -/
namespace MultiMeshJax
namespace UnusedLoopOutputRemover

open StatusOr

/-- What the pass asks the compiler's library about an instruction. -/
structure Library where
  isSafelyRemovable : HloInstruction → Bool := fun _ => true
  hasSideEffect : HloInstruction → Bool := fun _ => false
  hasBackendConfig : HloInstruction → Bool := fun _ => true

def getInstruction (p : HloProgram) (id : ℕ) : StatusOr HloInstruction :=
  deref "no such instruction" (p.instruction id)

section removal

variable (lib : Library)

def isRoot (p : HloProgram) (id : ℕ) : Bool := p.computations.any fun c => c.root == id

def isDead (p : HloProgram) (id : ℕ) : Bool := (p.users id).isEmpty && !isRoot p id

/-- Parameters are only removed from fused computations. -/
def isRemovable (p : HloProgram) (i : HloInstruction) : Bool :=
  isDead p i.id && !i.isParameter && lib.isSafelyRemovable i

def removeInstruction (st : ProgramState) (i : HloInstruction) : StatusOr ProgramState :=
  if isRemovable lib st.program i then return st.removeInstruction i.id
  else error "instruction cannot be removed"

def numOperands (p : HloProgram) : ℕ := (p.instructions.map fun i => i.operands.length).sum

/-- The items of the work list are taken in their order. -/
def removeItems (first : ℕ) : ℕ → List ℕ → ProgramState → StatusOr ProgramState
  | _, [], st => return st
  | 0, _ :: _, _ => fatal "more removals than the fuel allows"
  | fuel + 1, item :: worklist, st =>
    match st.program.instruction item with
    | none => removeItems first fuel worklist st
    | some i =>
      if isRemovable lib st.program i && (!lib.hasSideEffect i || item == first) then
        removeItems first fuel (worklist ++ i.operands) (st.removeInstruction item)
      else removeItems first fuel worklist st

def removeInstructionAndUnusedOperands (st : ProgramState) (i : HloInstruction) :
    StatusOr ProgramState :=
  if isRemovable lib st.program i then
    removeItems lib i.id (numOperands st.program + 1) [i.id] st
  else error "instruction cannot be removed"

/-- `delete_tree` is a stack, its top first. -/
def removeTree : ℕ → List ℕ → ProgramState → StatusOr ProgramState
  | _, [], st => return st
  | 0, _ :: _, _ => fatal "more removals than the fuel allows"
  | fuel + 1, next :: deleteTree, st =>
    match st.program.instruction next with
    | none => removeTree fuel deleteTree st
    | some i =>
      if (st.program.users next).isEmpty && !i.isParameter then do
        let st ← removeInstruction lib st i
        removeTree fuel (i.operands.reverse ++ deleteTree) st
      else removeTree fuel deleteTree st

def removeInstructionBackToParameters (st : ProgramState) (id : ℕ) : StatusOr ProgramState :=
  removeTree lib (numOperands st.program + 1) [id] st

end removal

section dealias

variable (p : HloProgram)

/-- An output of a barrier is an alias of the operand of the barrier with its index. -/
def dealias : ℕ → HloInstruction → StatusOr HloInstruction
  | 0, _ => fatal "more barriers than the fuel allows"
  | fuel + 1, i =>
    match i.opcode with
    | .getTupleElement k => do
      let operand ← elementAt i.operands 0
      let o ← getInstruction p operand
      if o.opcode = .optimizationBarrier then do
        let next ← elementAt o.operands k
        let next ← getInstruction p next
        dealias fuel next
      else return i
    | _ => return i

def isRepeatedUseParameter (i : HloInstruction) : StatusOr Bool := do
  let dealiased ← dealias p (p.instructions.length + 1) i
  match dealiased.opcode with
  | .getTupleElement _ => do
    let operand ← elementAt dealiased.operands 0
    let o ← getInstruction p operand
    return o.isParameter
  | _ => return false

/-- The output is replaced by a dummy. -/
def isUnused (outputsUsed : List ℕ) (index : ℕ) (unusedRoot : HloInstruction) : StatusOr Bool :=
  if outputsUsed.contains index then return false
  else if unusedRoot.color.isNone then return true
  else do
    let repeated ← isRepeatedUseParameter p unusedRoot
    return !repeated

end dealias

section loops

variable (lib : Library)

def dummyOperation (shape : Shape) : HloInstruction :=
  { id := 0, opcode := .customCall kCustomCallDummyOperation, shape := shape }

def removeOutput (root inputTuple : ℕ) (outputsUsed : List ℕ) (st : ProgramState) (index : ℕ) :
    StatusOr ProgramState := do
  let bodyRoot ← getInstruction st.program root
  let unusedRoot ← elementAt bodyRoot.operands index
  let unused ← getInstruction st.program unusedRoot
  let replaced ← isUnused st.program outputsUsed index unused
  if replaced then do
    let tuple ← getInstruction st.program inputTuple
    let input ← elementAt tuple.operands index
    let input ← getInstruction st.program input
    let (st, dummy) := st.addInstruction root (dummyOperation input.shape)
    let st := st.replaceOperandWith root index dummy
    if (st.program.users unusedRoot).isEmpty then
      removeInstructionAndUnusedOperands lib st unused
    else return st
  else return st

/-- An element of the body's argument is removed, or its index is used. -/
def removeArgument (st : ProgramState × List ℕ) (user : HloInstruction) :
    StatusOr (ProgramState × List ℕ) :=
  if (st.1.program.users user.id).isEmpty then do
    let program ← removeInstruction lib st.1 user
    return (program, st.2)
  else do
    let index ← user.tupleIndex
    return (st.1, index :: st.2)

def removeInput (loop : HloInstruction) (inputTuple : ℕ) (inputsUsed : List ℕ) (st : ProgramState)
    (index : ℕ) : StatusOr ProgramState :=
  if inputsUsed.contains index then return st
  else do
    let tuple ← getInstruction st.program inputTuple
    let operand ← elementAt tuple.operands index
    let original ← getInstruction st.program operand
    let (st, dummy) := st.addInstruction loop.id (dummyOperation original.shape)
    let st := st.replaceOperandWith inputTuple index dummy
    if (st.program.users operand).isEmpty then removeInstructionBackToParameters lib st operand
    else return st

def loopBody (i : HloInstruction) : StatusOr ℕ :=
  match i.opcode with
  | .whileLoop n => return n
  | _ => fatal "not a loop"

def visitLoop (st : ProgramState) (loopId : ℕ) : StatusOr ProgramState := do
  let loop ← getInstruction st.program loopId
  let n ← loopBody loop
  let body ← st.program.calledComputation n
  let outputsUsed ← (st.program.users loop.id).mapM HloInstruction.tupleIndex
  let inputTuple ← elementAt loop.operands 0
  let tuple ← getInstruction st.program inputTuple
  let indices := List.range tuple.operands.length
  let st ← indices.foldlM (removeOutput lib body.root inputTuple outputsUsed) st
  let param ← elementAt body.parameterInstructions 0
  let (st, inputsUsed) ← (st.program.users param.id).foldlM (removeArgument lib) (st, [])
  indices.foldlM (removeInput lib loop inputTuple inputsUsed) st

/-- `none` is the entry computation. -/
def visitedComputation (p : HloProgram) : Option ℕ → StatusOr HloComputation
  | none => return p.entry
  | some n => p.calledComputation n

/-- The bodies of the loops of a computation, with the loops. -/
def bodiesOfLoops (c : HloComputation) : List (ℕ × ℕ) :=
  c.instructions.filterMap fun i =>
    match i.opcode with
    | .whileLoop n => if lib.hasBackendConfig i then some (n, i.id) else none
    | _ => none

/-- A computation is pushed for each loop, and popped once its own loops are visited. -/
def whileLoopDfs (p : HloProgram) :
    ℕ → List (Option ℕ) → List (Option ℕ) → (ℕ → Option ℕ) → List ℕ → StatusOr (List ℕ)
  | _, [], _, _, loops => return loops
  | 0, _ :: _, _, _, _ => fatal "more visits than the fuel allows"
  | fuel + 1, computation :: toVisit, visiting, parentLoops, loops =>
    if visiting.contains computation then
      whileLoopDfs p fuel toVisit visiting parentLoops
        (loops ++ (computation.bind parentLoops).toList)
    else do
      let c ← visitedComputation p computation
      let found := bodiesOfLoops lib c
      whileLoopDfs p fuel ((found.map fun f => some f.1).reverse ++ computation :: toVisit)
        (computation :: visiting)
        (found.foldl (fun parents f => Function.update parents f.1 (some f.2)) parentLoops) loops

/-- Every computation is expanded once, and every loop is pushed once. -/
def run (program : HloProgram) : StatusOr ProgramState := do
  let fuel := program.instructions.length + program.computations.length + 1
  let loops ← whileLoopDfs lib program fuel [none] [] (fun _ => none) []
  loops.foldlM (visitLoop lib) (.ofProgram program)

end loops

end UnusedLoopOutputRemover
end MultiMeshJax
