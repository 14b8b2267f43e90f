import MultiMeshJax.Foundation.Worklist
import MultiMeshJax.Hlo.Program
import MultiMeshJax.LogicalSharding.DotAxes

/-! `MpmdLogicalShardingPropagation`: the logical axes of the sharding calls go to the values that
they name, to their aliases, into called computations and loops, and through dots. -/
namespace MultiMeshJax
namespace LogicalSharding

open StatusOr

def kCustomCallAutoSharding : String := "AutoSharding"

/-- A dot with the ranks of its operands. -/
structure Dot where
  lhsRank : ℕ
  rhsRank : ℕ
  numbers : DotDimensionNumbers lhsRank rhsRank

/-- The module, and what the pass reads of its instructions. Computations call others, but never
in a cycle, and no value depends on itself. -/
structure Input where
  program : HloProgram
  library : JsonLibrary
  calledComputations : ℕ → List ℕ
  rawBackendConfig : ℕ → String
  dot : ℕ → Dot
  frontendAttributes : ℕ → FrontendAttributes
  elementwiseConnectedToEntryOutput : ℕ → Option ℕ
  inputOutputAliasConfig : List (List ℕ × ℕ)
  level : ℕ → ℕ
  order : ℕ → ℕ
  callee_called : ∀ i ∈ program.instructions, ∀ n, i.opcode = .call n →
    calledComputations i.id = [n]
  body_called : ∀ i ∈ program.instructions, ∀ n, i.opcode = .whileLoop n →
    ∃ others, calledComputations i.id = n :: others
  called_exists : ∀ i ∈ program.instructions, ∀ n ∈ calledComputations i.id,
    n < program.called.length
  calls_deeper : ∀ n c, program.called[n]? = some c → ∀ i ∈ c.instructions,
    ∀ m ∈ calledComputations i.id, level m < level n
  operands_before : ∀ i ∈ program.instructions, ∀ operand ∈ i.operands,
    order operand < order i.id

structure State where
  operands : ℕ → List ℕ
  roots : List ℕ
  attributes : ℕ → FrontendAttributes
  instructionsToRemove : List ℕ := []

namespace PrimitiveType

def isFloatingPoint : PrimitiveType → Bool
  | .f16 | .bf16 | .f32 | .f64 => true
  | .other name => name.startsWith "f"
  | _ => false

end PrimitiveType

/-- The same dimensions, and the same types up to their precision. -/
def compatibleIgnoringFpPrecision (x y : PrimitiveType × List ℕ) : Bool :=
  x.2 == y.2 && (x.1 == y.1 ||
    (PrimitiveType.isFloatingPoint x.1 && PrimitiveType.isFloatingPoint y.1))

def shapesCompatible : Shape → Shape → Bool
  | .array type dims, .array type' dims' => compatibleIgnoringFpPrecision (type, dims) (type', dims')
  | .tuple shapes, .tuple shapes' =>
    shapes.length == shapes'.length &&
      (shapes.zip shapes').all fun pair => compatibleIgnoringFpPrecision pair.1 pair.2
  | _, _ => false

/-- The instructions for which `InstructionProperties::Create` makes an entry: it goes into calls
and loop bodies. -/
def collected (p : HloProgram) : ℕ → HloComputation → List ℕ
  | 0, _ => []
  | nesting + 1, c => c.ids ++ c.instructions.flatMap fun i =>
    match i.opcode with
    | .call n | .whileLoop n => (p.called[n]?.map (collected p nesting)).getD []
    | _ => []

namespace State

def assignAxes (st : State) (axes : String) (id : ℕ) : State :=
  { st with attributes := Function.update st.attributes id (assignAxesText (st.attributes id) axes) }

def assignAll (st : State) (axes : String) (ids : List ℕ) : State :=
  ids.foldl (fun st id => st.assignAxes axes id) st

/-- The new producer may itself use what it replaces. -/
def replaceAllUsesWith (st : State) (old new : ℕ) : State :=
  { st with
    operands := fun id =>
      if id = new then st.operands id
      else (st.operands id).map fun operand => if operand = old then new else operand
    roots := st.roots.map fun root => if root = old then new else root }

end State

section run

variable (input : Input) (props : InstructionProperties)

def users (st : State) (id : ℕ) : List HloInstruction :=
  input.program.instructions.filter fun i => (st.operands i.id).contains id

/-- The chain of aliases in one direction; the walk never ends when they go round. -/
def aliasesAlong (next : ℕ → Option ℕ) (id : ℕ) : StatusOr (List ℕ) :=
  let aliases := InstructionProperties.chain next input.program.instructions.length id
  let entries := collected input.program (input.program.called.length + 1) input.program.entry
  if (id :: aliases).all fun alias_ => entries.contains alias_ then
    if aliases.length < input.program.instructions.length then return aliases
    else fatal "the aliases go round in a circle"
  else fatal "Check failed: iter != entries_.end()"

def backwardAliases (id : ℕ) : StatusOr (List ℕ) :=
  aliasesAlong input (fun i => (props i).backwardAlias) id

def forwardAliases (id : ℕ) : StatusOr (List ℕ) :=
  aliasesAlong input (fun i => (props i).forwardAlias) id

def forEachAlias (id : ℕ) : StatusOr (List ℕ) := do
  let backward ← backwardAliases input props id
  let forward ← forwardAliases input props id
  return backward ++ forward

/-- The sharding call is replaced by its operand, which takes its axes, as do the aliases of the
operand; any connected output is given a matching autosharding. -/
def applyAutoSharding (st : State) (i : HloInstruction) : StatusOr State := do
  let operand ← elementAt (st.operands i.id) 0
  let producer ← deref "no such instruction" (input.program.instruction operand)
  if shapesCompatible i.shape producer.shape then
    let axes := input.rawBackendConfig i.id
    let aliases ← forEachAlias input props operand
    let st := { st.replaceAllUsesWith i.id operand with
      instructionsToRemove := st.instructionsToRemove ++ [i.id] }
    let st := st.assignAll axes aliases
    let st := st.assignAll axes (input.elementwiseConnectedToEntryOutput i.id).toList
    return st.assignAxes axes operand
  else error "ReplaceAllUsesWith: the shapes differ"

def parameterInstruction (c : HloComputation) (number : ℕ) : StatusOr HloInstruction :=
  deref "no such parameter" (c.instructions.find? fun i => i.opcode == .parameter number)

/-- The axes of one operand go to the parameter of its position. -/
def propagateOperand (callee : HloComputation) (st : State) (operand index : ℕ) :
    StatusOr State :=
  match getAxesString (st.attributes operand) with
  | some axes => do
    let param ← parameterInstruction callee index
    return st.assignAxes axes param.id
  | none => return st

/-- The loop over the operands counts up the pointer to the call, and not the index. -/
def propagateCall (st : State) (i : HloInstruction) (n : ℕ) : StatusOr State :=
  match st.operands i.id with
  | [] => return st
  | operand :: _ => do
    let callee ← input.program.calledComputation n
    let _ ← propagateOperand callee st operand 0
    fatal "the operand count is read past the end of the call"

/-- The tuple whose elements have the axes of the operands: the parameter of the loop that uses
it, or the barrier. -/
def userTuple (user : HloInstruction) : StatusOr (Option HloInstruction) :=
  match user.opcode with
  | .whileLoop n => do
    let body ← input.program.calledComputation n
    return some (← parameterInstruction body 0)
  | .optimizationBarrier => return some user
  | _ => return none

def propagateElement (tuple : HloInstruction) (st : State) (user : HloInstruction) :
    StatusOr State := do
  let index ← user.tupleIndex
  let matchingOperand ← elementAt (st.operands tuple.id) index
  match getAxesString (st.attributes matchingOperand) with
  | some axes => return st.assignAxes axes user.id
  | none => return st

def propagateTuple (st : State) (i : HloInstruction) : StatusOr State :=
  match users input st i.id with
  | [user] => do
    match ← userTuple input user with
    | some tuple => (users input st tuple.id).foldlM (propagateElement i) st
    | none => return st
  | _ => return st

def propagateDot (st : State) (i : HloInstruction) : StatusOr State := do
  if hasAssignedAxes (st.attributes i.id) then return st
  else
    let lhs ← elementAt (st.operands i.id) 0
    let rhs ← elementAt (st.operands i.id) 1
    let lhsAxes ← getAxes input.library (toString lhs) (st.attributes lhs)
    let rhsAxes ← getAxes input.library (toString rhs) (st.attributes rhs)
    match lhsAxes, rhsAxes with
    | some lhsAxes, some rhsAxes => do
      let dotAxes ← inferDotAxes (input.dot i.id).numbers lhsAxes rhsAxes
      return st.assignAxes (axesText input.library dotAxes) i.id
    | _, _ => return st

def propagateInstruction (st : State) (i : HloInstruction) : StatusOr State :=
  if i.isCustomCall kCustomCallAutoSharding then applyAutoSharding input props st i
  else match i.opcode with
  | .call n => propagateCall input st i n
  | .tuple => propagateTuple input st i
  | .other "dot" => propagateDot input st i
  | _ => return st

/-- The computations to visit next: a callee, and then all called computations. -/
def toVisit (i : HloInstruction) : List HloComputation :=
  let called := (input.calledComputations i.id).filterMap (input.program.called[·]?)
  (if i.isCall then called.take 1 else []) ++ called

/-- The last computation that was pushed is the first to be visited. -/
def visitComputation (st : State) (c : HloComputation) :
    StatusOr (State × List HloComputation) := do
  let st ← c.instructions.foldlM (propagateInstruction input props) st
  return (st, (c.instructions.flatMap (toVisit input)).reverse)

/-- The output of the module at an index. -/
def aliasedOutput (st : State) (index : List ℕ) : StatusOr ℕ := do
  let root ← elementAt st.roots 0
  let rootInstruction ← deref "no such instruction" (input.program.instruction root)
  if rootInstruction.opcode = .tuple then
    let front ← elementAt index 0
    elementAt (st.operands root) front
  else return root

/-- Share the axes between an aliased input and output, if they have been assigned to one. -/
def shareAliasedAxes (st : State) (entry : List ℕ × ℕ) : StatusOr State := do
  let parameter ← parameterInstruction input.program.entry entry.2
  let output ← aliasedOutput input st entry.1
  match getAxesString (st.attributes parameter.id),
      hasAssignedAxes (st.attributes output) with
  | some axes, false => do
    let aliases ← backwardAliases input props output
    return st.assignAll axes (output :: aliases)
  | _, _ =>
    match getAxesString (st.attributes output) with
    | some axes => do
      let aliases ← forwardAliases input props parameter.id
      return st.assignAll axes (parameter.id :: aliases)
    | none => return st

/-- An instruction that is gone has no computation to be removed from. -/
def removeInstruction (st : State) (removed : List ℕ) (id : ℕ) : StatusOr (List ℕ) :=
  if id ∈ removed then fatal "the parent of a removed instruction is null"
  else if id ∈ st.roots ∨ (users input st id).any fun user => user.id ∉ removed then
    error "instruction is live and cannot be removed"
  else return id :: removed

def initialState : State where
  operands id := ((input.program.instruction id).map HloInstruction.operands).getD []
  roots := input.program.computations.map HloComputation.root
  attributes := input.frontendAttributes

def run (rounds : ℕ) : StatusOr State := do
  let props ← InstructionProperties.create input.program
  let st ← Worklist.drain (visitComputation input props) rounds (initialState input)
    [input.program.entry]
  let st ← input.inputOutputAliasConfig.foldlM (shareAliasedAxes input props) st
  let _ ← st.instructionsToRemove.foldlM (removeInstruction input st) []
  return st

end run

end LogicalSharding
end MultiMeshJax
