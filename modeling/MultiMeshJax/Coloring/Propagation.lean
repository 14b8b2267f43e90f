import MultiMeshJax.Hlo.Program
import MultiMeshJax.HloPartition

/-! `MpmdColoring`: the colours spread from the instructions that carry one to the others. -/
namespace MultiMeshJax
namespace Coloring

open StatusOr

/-- The colour that each instruction carries. -/
abbrev Colors := ℕ → Option String

/-- The order in which a hash map of colours hands out its keys: some permutation. -/
structure ColorHashOrder where
  order : List String → List String
  perm : ∀ xs, (order xs).Perm xs

def identityOrder : ColorHashOrder where
  order := id
  perm := List.Perm.refl

inductive ColorPropagationPriority where
  | weight | depth | topological
  deriving DecidableEq, Repr

/-- What the pass reads and does not change. `byteSizeOf` and `isElementwise` are those of
the compiler's library. -/
structure Input where
  program : HloProgram
  properties : InstructionProperties
  created : InstructionProperties.create program = ok properties
  priority : ColorPropagationPriority := .weight
  byteSizeOf : Shape → ℕ
  isElementwise : HloInstruction → Bool

namespace Input

def aliases (input : Input) (id : ℕ) : List ℕ := input.program.aliases input.properties id

end Input

def assignColor (colors : Colors) (id : ℕ) (color : String) : Colors :=
  Function.update colors id (some color)

def isAssignedColor (colors : Colors) (id : ℕ) : Bool := (colors id).isSome

def colorOrDefault (colors : Colors) (id : ℕ) : String := (colors id).getD "unassigned"

/-- A tuple gets the colour that all of its operands carry. -/
def colorTuple (colors : Colors) (i : HloInstruction) : Colors :=
  match i.operands with
  | [] => colors
  | operand :: rest =>
    match colors operand with
    | some color =>
      if rest.all fun o => colors o == some color then assignColor colors i.id color else colors
    | none => colors

/-- The instructions without a colour get this one. -/
def colorUnassigned (color : String) (ids : List ℕ) (colors : Colors) : Colors :=
  ids.foldl (fun colors id =>
    if isAssignedColor colors id then colors else assignColor colors id color) colors

section directional

/-- The aliases of an instruction that is coloured, unless they have a fixed colour. -/
def colorAliases (fixed : List ℕ) (color : String) (ids : List ℕ) (colors : Colors) : Colors :=
  ids.foldl (fun colors id =>
    if !isAssignedColor colors id || !fixed.contains id then assignColor colors id color
    else colors) colors

variable (input : Input) (ifVisit : HloInstruction → Bool) (fixed : List ℕ)

def visitRelated (color : String) (colors : Colors) (related : HloInstruction) : Colors :=
  let colors := if ifVisit related && !fixed.contains related.id then
      colorAliases fixed color (input.aliases related.id) (assignColor colors related.id color)
    else colors
  if related.opcode = .tuple then colorTuple colors related else colors

def processInstruction (color : String) (colors : Colors) (i : HloInstruction)
    (related : List HloInstruction) : Colors :=
  if colorOrDefault colors i.id = color then
    related.foldl (visitRelated input ifVisit fixed color) colors
  else colors

/-- A colour goes on to the users, in post order, or to the operands, in reverse. -/
def propagateDirectionally (comp : HloComputation) (propagateForward : Bool)
    (colors : Colors) (color : String) : Colors :=
  if propagateForward then
    comp.instructions.foldl (fun colors i =>
      processInstruction input ifVisit fixed color colors i (comp.users i.id)) colors
  else
    comp.instructions.reverse.foldl (fun colors i =>
      processInstruction input ifVisit fixed color colors i
        (i.operands.filterMap comp.instruction)) colors

end directional

/-- The length of the longest chain of operands below each instruction. -/
def computeDepthMap (comp : HloComputation) : ℕ → Option ℕ :=
  comp.instructions.foldl (fun depth i => Function.update depth i.id
    (some (i.operands.foldl (fun d operand => max d ((depth operand).getD 0 + 1)) 0))) fun _ => none

def createTopologicalIndexMap (comp : HloComputation) (id : ℕ) : Option ℕ :=
  comp.instructions.findIdx? fun i => i.id == id

/-- The colours of a computation, which the source keeps as the keys of a hash map. -/
def computationColors (comp : HloComputation) (colors : Colors) : List String :=
  (comp.instructions.filterMap fun i => colors i.id).dedup

/-- The greatest depth at which a colour occurs. -/
def colorDepth (comp : HloComputation) (colors : Colors) (depth : ℕ → Option ℕ)
    (color : String) : ℕ :=
  ((comp.instructions.filter fun i => colors i.id == some color).map fun i =>
    (depth i.id).getD 0).foldl max 0

/-- `depth_to_color[depth] = color` on the entries of an ordered map. -/
def insertDepth (depth : ℕ) (color : String) : List (ℕ × String) → List (ℕ × String)
  | [] => [(depth, color)]
  | entry :: entries =>
    if depth < entry.1 then (depth, color) :: entry :: entries
    else if depth = entry.1 then (depth, color) :: entries
    else entry :: insertDepth depth color entries

/-- The colour at each depth, in the order of the depths. Of two colours of one depth the
one that the hash map hands out last stays. -/
def computeColorDepthMap (hash : ColorHashOrder) (comp : HloComputation) (colors : Colors)
    (depth : ℕ → Option ℕ) : List (ℕ × String) :=
  (hash.order (computationColors comp colors)).foldl (fun depthToColor color =>
    insertDepth (colorDepth comp colors depth color) color depthToColor) []

/-- The colours of a computation go on to the aliases of its instructions. -/
def fixColors (input : Input) (comp : HloComputation) (st : Colors × List ℕ) : Colors × List ℕ :=
  comp.instructions.foldl (fun (colors, fixed) i =>
    match colors i.id with
    | some color => (colorUnassigned color (input.aliases i.id) colors, i.id :: fixed)
    | none => (colors, fixed)) st

/-- The body of the last loop of a computation. -/
def lastLoop (comp : HloComputation) : Option ℕ :=
  comp.instructions.foldl (fun last i =>
    match i.opcode with
    | .whileLoop body => some body
    | _ => last) none

def propagateLoopColorDepth (hash : ColorHashOrder) (input : Input)
    (ifVisit : HloInstruction → Bool) (comp : HloComputation) (colors : Colors) :
    StatusOr Colors := do
  let (colors, fixed) := fixColors input comp (colors, [])
  match lastLoop comp with
  | none => return colors
  | some n => do
    let body ← input.program.calledComputation n
    let (colors, fixed) := fixColors input body (colors, fixed)
    let depthToColors := (computeColorDepthMap hash body colors (computeDepthMap body)).map Prod.snd
    let colors := depthToColors.foldl (propagateDirectionally input ifVisit fixed body true) colors
    return depthToColors.reverse.foldl
      (propagateDirectionally input ifVisit fixed body false) colors

section weighing

def maxInt64 : ℕ := 2 ^ 63 - 1

/-- The scores of the colours of an instruction's operands and users. -/
structure Scores where
  weights : String → ℕ := fun _ => 0
  depths : String → ℕ := fun _ => maxInt64
  topologicalIndices : String → ℕ := fun _ => maxInt64
  maxColor : Option String := none
  maxWeight : ℕ := 0
  maxDepth : ℕ := maxInt64
  maxTopologicalIndex : ℕ := maxInt64

/-- A colour with these scores takes the place of the best one so far. -/
def Scores.updatesMax (s : Scores) (priority : ColorPropagationPriority)
    (weight depth topologicalIndex : ℕ) : Bool :=
  s.maxColor.isNone ||
  match priority with
  | .weight => decide (s.maxWeight < weight ∨ (weight = s.maxWeight ∧ (depth < s.maxDepth ∨
      (depth = s.maxDepth ∧ topologicalIndex < s.maxTopologicalIndex))))
  | .depth => decide (depth < s.maxDepth ∨ (depth = s.maxDepth ∧ (s.maxWeight < weight ∨
      (weight = s.maxWeight ∧ topologicalIndex < s.maxTopologicalIndex))))
  | .topological => decide (topologicalIndex < s.maxTopologicalIndex)

def distance (map : ℕ → Option ℕ) (id id' : ℕ) : ℕ :=
  (((map id).getD maxInt64 : ℤ) - (map id').getD maxInt64).natAbs

variable (input : Input) (ifVisit : HloInstruction → Bool) (depth topologicalIndex : ℕ → Option ℕ)

def addUserOrOperand (colors : Colors) (self : HloInstruction) (s : Scores) (i : HloInstruction) :
    Scores :=
  if ifVisit i then
    let i := if i.opcode = .other "broadcast" then
      ((input.program.operandInstructions i).head?).getD i else i
    match colors i.id with
    | none => s
    | some color =>
      let weight := s.weights color + input.byteSizeOf i.shape
      let colorDepth := min (s.depths color) (distance depth i.id self.id)
      let colorIndex := min (s.topologicalIndices color) (distance topologicalIndex i.id self.id)
      let s := { s with
        weights := Function.update s.weights color weight
        depths := Function.update s.depths color colorDepth
        topologicalIndices := Function.update s.topologicalIndices color colorIndex }
      if s.updatesMax input.priority weight colorDepth colorIndex then
        { s with maxColor := some color, maxWeight := weight, maxDepth := colorDepth
                 maxTopologicalIndex := colorIndex }
      else s
  else s

/-- An instruction takes the best colour of its operands and users, and its aliases with it. -/
def propagateFromUsersAndOperands (colors : Colors) (i : HloInstruction) : Colors × Bool :=
  let related := input.program.aliasOperands input.properties i.id ++
    input.program.aliasUsers input.properties i.id
  let scores :=
    related.foldl (addUserOrOperand input ifVisit depth topologicalIndex colors i) {}
  match scores.maxColor with
  | some color => (colorUnassigned color (input.aliases i.id) (assignColor colors i.id color), true)
  | none => (colors, false)

end weighing

/-- One round over a computation, `propagate` being the propagation in a loop body. -/
def propagateRound (input : Input) (ifVisit : HloInstruction → Bool)
    (propagate : HloComputation → Colors → StatusOr (Colors × Bool)) (comp : HloComputation)
    (colors : Colors) : StatusOr (Colors × Bool) :=
  comp.instructions.foldlM (fun (colors, propagated) i => do
    if i.opcode = .tuple then return (colorTuple colors i, propagated)
    else
      let st := if ifVisit i && !isAssignedColor colors i.id then
          propagateFromUsersAndOperands input ifVisit (computeDepthMap comp)
            (createTopologicalIndexMap comp) colors i
        else (colors, false)
      match i.opcode with
      | .whileLoop n => do
        let body ← input.program.calledComputation n
        let (colors, inner) ← propagate body st.1
        return (colors, propagated || st.2 || inner)
      | _ => return (st.1, propagated || st.2)) (colors, false)

/-- Rounds until nothing is propagated any more. -/
def propagateIf (input : Input) (ifVisit : HloInstruction → Bool) :
    ℕ → HloComputation → Colors → StatusOr (Colors × Bool)
  | 0, _, _ => fatal "more rounds than the fuel allows"
  | fuel + 1, comp, colors => do
    let (colors, propagated) ←
      propagateRound input ifVisit (propagateIf input ifVisit fuel) comp colors
    if propagated then do
      let (colors, _) ← propagateIf input ifVisit fuel comp colors
      return (colors, true)
    else return (colors, false)

section root

variable (input : Input)

/-- The instructions from which a colour goes on backwards: the operands that are no argument
tuples, and the backward aliases. -/
def backwardVisits (id : ℕ) : List ℕ :=
  let operands := ((input.program.instruction id).map input.program.operandInstructions).getD []
  (operands.filter fun o => !o.isParameter || !o.shape.isTuple).map HloInstruction.id ++
    input.program.backwardAliases input.properties id

/-- The list of visits is a stack, its top first. -/
def colorBackwardsLoop (root : HloInstruction) (color : String) :
    ℕ → List ℕ → Colors → StatusOr Colors
  | _, [], colors => return colors
  | 0, _ :: _, _ => fatal "more visits than the fuel allows"
  | fuel + 1, next :: toVisit, colors =>
    if root.isCustomCall kCustomCallSliceOffset || (input.properties next).derivedConstant ||
        isAssignedColor colors next then
      colorBackwardsLoop root color fuel toVisit colors
    else
      colorBackwardsLoop root color fuel ((backwardVisits input next).reverse ++ toVisit)
        (assignColor colors next color)

def colorBackwards (fuel : ℕ) (color : String) (root : HloInstruction) (colors : Colors) :
    StatusOr Colors :=
  if isAssignedColor colors root.id then
    colorBackwardsLoop input root color fuel (backwardVisits input root.id).reverse colors
  else fatal "instruction was not assigned color before coloring backward"

/-- A root that is left without a colour gets the colour of all devices. -/
def colorRoot (fuel : ℕ) (st : Colors × HloPartition) (i : HloInstruction) :
    StatusOr (Colors × HloPartition) :=
  if isAssignedColor st.1 i.id then return st
  else do
    let (color, partition) ← st.2.findOrAllocateGlobalColor
    let colors ← colorBackwards input fuel color i (assignColor st.1 i.id color)
    return (colors, partition)

end root

def isConstant (i : HloInstruction) : Bool := decide (i.opcode = .constant)

def hasMnemonic (mnemonic : String) (i : HloInstruction) : Bool :=
  decide (i.opcode = .other mnemonic)

def elementsIn (shape : Shape) : ℕ := shape.dimensions.prod

/-- The instructions that the passes over the colours visit, in the order of the passes. -/
def visitLoopDepth (i : HloInstruction) : Bool :=
  !isConstant i && (!i.shape.isTuple || hasMnemonic "rng-bit-generator" i)

def visitElementwise (input : Input) (i : HloInstruction) : Bool :=
  !isConstant i && !i.shape.isTuple &&
    (input.isElementwise i || i.isParameter || hasMnemonic "reduce" i)

def visitNontrivial (i : HloInstruction) : Bool :=
  !isConstant i && !i.shape.isTuple && decide (1 < elementsIn i.shape)

/-- The colours that the instructions carry before the propagation. -/
def initialColors (program : HloProgram) : Colors := fun id =>
  (program.instruction id).bind HloInstruction.color

theorem initialColors_of_mem {program : HloProgram} {i : HloInstruction}
    (hi : i ∈ program.instructions) : initialColors program i.id = i.color := by
  rw [initialColors, HloProgram.instruction_of_mem hi]
  rfl

/-- The propagation, between the passes that prepare the module and the repacking of the
barriers. -/
def run (hash : ColorHashOrder) (input : Input) (partition : HloPartition) (fuel : ℕ) :
    StatusOr (Colors × HloPartition) := do
  let entry := input.program.entry
  let colors ← propagateLoopColorDepth hash input visitLoopDepth entry
    (initialColors input.program)
  let (colors, _) ← propagateIf input (visitElementwise input) fuel entry colors
  let (colors, _) ← propagateIf input visitNontrivial fuel entry colors
  let (colors, _) ← propagateIf input visitLoopDepth fuel entry colors
  let root ← entry.rootInstruction
  if root.shape.isTuple then do
    let operands ← root.operands.mapM entry.getInstruction
    operands.foldlM (colorRoot input fuel) (colors, partition)
  else colorRoot input fuel (colors, partition) root

end Coloring

end MultiMeshJax
