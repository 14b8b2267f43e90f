import MultiMeshJax.Foundation.PostorderSearch
import MultiMeshJax.Foundation.Worklist
import MultiMeshJax.Hlo.Program
import MultiMeshJax.Hlo.Removal
import MultiMeshJax.HloPartition
import MultiMeshJax.Sharding.SpmdShape

/-! The pass that lets a task recompute a cheap argument instead of receiving it from another
task: the tree of instructions under the operand is cloned in the colour of the task. -/
namespace MultiMeshJax

def kCustomCallSharding : String := "Sharding"

namespace ArgumentRecompute

open StatusOr PostorderSearch

def kLargeBufferSize : ℕ := 1024 * 1024 * 8
def kCrossMeshCommComputeRatio : ℕ := 1000
def kGlobalMemToComputeRatio : ℤ := 100

/-- The properties of an instruction that the pass reads. -/
structure Entry where
  derivedConstant : Bool := false
  derivedParameter : Bool := false
  parameterNumber : Option ℕ := none
  parameterCopy : Bool := false

/-- What the pass is given. `byteSizeOf`, `partitionedDimensions` and `postOrder` are those of
the library, and the properties those of the module at the start. -/
structure Input where
  program : HloProgram
  properties : ℕ → Option Entry
  tupleElements : ℕ → Option (List HloSharding) := fun _ => none
  partition : HloPartition
  partitionedDimensions : List ℕ → HloSharding → List ℕ
  byteSizeOf : Shape → ℕ
  postOrder : HloComputation → List ℕ
  maxRecomputeCostAllowed : ℤ
  globalMemToComputeRatio : ℤ := kGlobalMemToComputeRatio

/-- A computation with the properties of its instructions. `cloned` has the instructions that
have been cloned, each with the colour of the clone; the last three fields are those of the
current visit. -/
structure Graph where
  computation : HloComputation
  properties : ℕ → Option Entry
  tupleElements : ℕ → Option (List HloSharding)
  cloned : List (ℕ × String) := []
  clonesPerColor : String → ℕ → Option ℕ := fun _ _ => none
  instructionsToRemove : List ℕ := []
  changed : Bool := false

def elementsIn : Shape → ℕ
  | .array _ dims => dims.prod
  | .tuple shapes => (shapes.map fun shape => shape.2.prod).sum

/-- The size of the tile assignment, where `ShardingHasTileAssignment`. -/
def tileElements (i : HloInstruction) : Option ℕ :=
  match i.sharding with
  | some (.tiled assignment _) => some assignment.dimensions.prod
  | _ => none

def isTiled : HloSharding → Bool
  | .tiled _ _ => true
  | _ => false

namespace Graph

def isReplicatedOrNotSharded (g : Graph) (i : HloInstruction) : Bool :=
  match i.sharding with
  | some sharding => !isTiled sharding
  | none => ((g.tupleElements i.id).getD []).all fun sharding => !isTiled sharding

def inputOrReplicatedInputCopy (g : Graph) (i : HloInstruction) : StatusOr Bool :=
  if i.isParameter && !i.shape.isTuple then return true
  else do
    let entry ← deref "no properties assigned" (g.properties i.id)
    return entry.parameterNumber.isSome || (g.isReplicatedOrNotSharded i && entry.parameterCopy)

/-- The operand has no clone in the colour, and is no input. -/
def needsClone (g : Graph) (color : String) (operand : ℕ) : StatusOr Bool :=
  if (g.clonesPerColor color operand).isSome then return false
  else do
    let i ← g.computation.getInstruction operand
    let isInput ← g.inputOrReplicatedInputCopy i
    return !isInput

def operandsToVisit (g : Graph) (color : String) (operands : List ℕ) : StatusOr (List ℕ) :=
  operands.foldlM (fun toVisit operand => do
    let needed ← g.needsClone color operand
    return if needed then toVisit ++ [operand] else toVisit) []

def spmdShape (g : Graph) (input : Input) (i : HloInstruction) : StatusOr Shape :=
  Partitioning.getSpmdShape ⟨input.partitionedDimensions, g.tupleElements⟩ i

end Graph

section recompute

variable (input : Input) (color : String)

def crossMeshCost (operand : HloInstruction) (byteSize : ℕ) : StatusOr ℕ :=
  if kLargeBufferSize < byteSize then do
    let devices ← input.partition.devicesForColor color
    match operand.color with
    | none => return 0
    | some operandColor => do
      let operandDevices ← input.partition.devicesForColor operandColor
      return if operandDevices = devices then 0 else byteSize * kCrossMeshCommComputeRatio
  else return 0

def costCutoff (g : Graph) (instruction operand : HloInstruction) : StatusOr ℤ := do
  let shape ← g.spmdShape input instruction
  let byteSize := input.byteSizeOf shape
  let memoryCost := byteSize * input.globalMemToComputeRatio
  let crossMesh ← crossMeshCost input color operand byteSize
  return max memoryCost (max (crossMesh : ℤ) input.maxRecomputeCostAllowed)

/-- Only an array adds costs. -/
def elementCost (g : Graph) (i : HloInstruction) : StatusOr ℕ :=
  if i.shape.isTuple then return 0
  else do
    let shape ← g.spmdShape input i
    return elementsIn shape

/-- The cost of an instruction and what it has visited at once, if it can be recomputed. -/
def visitOpcode (g : Graph) (next : HloInstruction) : StatusOr (Option (ℕ × List ℕ)) :=
  match next.opcode with
  | .customCall target =>
    if target = kCustomCallArgumentRecolor ∨ target = kCustomCallSharding then do
      let operand ← elementAt next.operands 0
      let toVisit ← g.operandsToVisit color [operand]
      return some (0, toVisit)
    else return none
  | .parameter _ => do
    let isInput ← g.inputOrReplicatedInputCopy next
    return if isInput then some (0, []) else none
  | .call _ => return none
  | .whileLoop _ => return none
  | .constant => return some (0, [])
  | .other mnemonic =>
    if mnemonic = "dot" then return none
    else if ["iota", "broadcast", "reshape"].contains mnemonic then return some (0, [])
    else if mnemonic = "reduce" then do
      let operand ← elementAt next.operands 0
      let i ← g.computation.getInstruction operand
      let shape ← g.spmdShape input i
      return some (elementsIn shape, [])
    else do
      let cost ← elementCost input g next
      return some (cost, [])
  | _ => do
    let cost ← elementCost input g next
    return some (cost, [])

def tilesMismatch (next instruction : HloInstruction) : Bool :=
  match tileElements next, tileElements instruction with
  | some m, some n => decide (m ≠ n)
  | _, _ => false

/-- The first visit of an instruction of the tree, after the costs so far. -/
def visitNext (g : Graph) (instruction : HloInstruction) (cutoff : ℤ) (total id : ℕ) :
    StatusOr (Expansion ℕ ℕ) := do
  let next ← g.computation.getInstruction id
  if tilesMismatch next instruction then return .abandon
  else if next.isCustomCall kCustomCallSliceOffset then return .leaf
  else
    match ← visitOpcode input color g next with
    | none => return .abandon
    | some (cost, first) =>
      if cutoff < ((total + cost : ℕ) : ℤ) then return .abandon
      else do
        let toVisit ← g.operandsToVisit color next.operands
        return .push (total + cost) (first ++ toVisit)

/-- Every instruction is opened once, and pushes its operands; the first one maybe twice. -/
def searchFuel (c : HloComputation) : ℕ :=
  (c.instructions.map fun i => i.operands.length + 2).sum + 2

/-- The clone reads the clones that its operands have. -/
def cloneInstruction (numDevices : ℕ) (g : Graph) (id : ℕ) : StatusOr Graph :=
  if (g.clonesPerColor color id).isSome then return g
  else do
    let toClone ← g.computation.getInstruction id
    let clone := g.computation.freshId
    let cleared := (tileElements toClone).any fun elements => decide (elements ≠ numDevices)
    let entry := (g.properties id).getD {}
    return { g with
      computation := g.computation.addInstruction { toClone with
        operands := toClone.operands.map fun o => (g.clonesPerColor color o).getD o
        controlPredecessors := []
        sharding := if cleared then none else toClone.sharding
        color := some color }
      properties := Function.update (Function.update g.properties id (some entry)) clone
        (some entry)
      tupleElements := Function.update g.tupleElements clone (g.tupleElements id)
      cloned := (id, color) :: g.cloned
      clonesPerColor := Function.update g.clonesPerColor color
        (Function.update (g.clonesPerColor color) id (some clone)) }

def maybeRecomputeOperandFromArguments (g : Graph) (instruction operand : HloInstruction) :
    StatusOr (Graph × Bool) := do
  let cutoff ← costCutoff input color g instruction operand
  let devices ← input.partition.devicesForInstruction instruction
  let needed ← g.needsClone color operand.id
  if !needed then return (g, false)
  else
    match ← search (visitNext input color g instruction cutoff) (searchFuel g.computation)
        [operand.id] (fun _ => none) [] 0 with
    | none => return (g, false)
    | some dfsTree => do
      let g' ← dfsTree.foldlM (cloneInstruction color devices.size) g
      match g'.clonesPerColor color operand.id with
      | none => error (toString operand.id ++ " was not found in clone map for " ++
          toString instruction.id)
      | some clone => do
        let index := instruction.operands.idxOf operand.id
        let c := g'.computation.replaceOperandWith instruction.id index clone
        return ({ g' with computation := c }, true)

/-- The mark of an argument recolor is no longer needed once it reads a tree of its colour. -/
def dropRecolor (g : Graph) (id : ℕ) : StatusOr Graph := do
  let i ← g.computation.getInstruction id
  let operand ← elementAt i.operands 0
  return { g with
    computation := g.computation.replaceUses id operand
    instructionsToRemove := g.instructionsToRemove ++ [id] }

/-- The operand is on another mesh, maybe. -/
def isForeign (operand : HloInstruction) : Bool :=
  operand.color.isSome && decide (operand.color ≠ some color) &&
    !operand.isCustomCall kCustomCallSliceOffset

def recomputeOperand (id : ℕ) (g : Graph) (index : ℕ) : StatusOr Graph := do
  let instruction ← g.computation.getInstruction id
  let operandId ← elementAt instruction.operands index
  let operand ← g.computation.getInstruction operandId
  if isForeign color operand then do
    let (g', clonedOperand) ← maybeRecomputeOperandFromArguments input color g instruction operand
    let g'' := { g' with changed := g'.changed || clonedOperand }
    if clonedOperand && instruction.isCustomCall kCustomCallArgumentRecolor then dropRecolor g'' id
    else return g''
  else return g

end recompute

section run

variable (input : Input)

/-- The colour in which the operands of an instruction may be recomputed. -/
def recomputesIn (g : Graph) (i : HloInstruction) : StatusOr (Option String) :=
  match i.opcode with
  | .whileLoop _ => return none
  | .tuple => return none
  | _ => do
    let entry ← deref "no properties assigned" (g.properties i.id)
    return if entry.derivedParameter || entry.derivedConstant then none else i.color

def visitInstruction (g : Graph) (id : ℕ) : StatusOr Graph := do
  let i ← g.computation.getInstruction id
  match ← recomputesIn g i with
  | none => return g
  | some color => (List.range i.operands.length).foldlM (recomputeOperand input color id) g

def Graph.startVisit (g : Graph) : Graph :=
  { g with clonesPerColor := fun _ _ => none, instructionsToRemove := [], changed := false }

/-- Computations are known by their position, the entry being the first. -/
structure State where
  graphs : List Graph
  instructionsToRemove : List (ℕ × ℕ) := []
  computationsToPrune : List ℕ := []

def toVisit (c : HloComputation) (id : ℕ) : Option ℕ :=
  match (c.instruction id).map HloInstruction.opcode with
  | some (.whileLoop body) => some (body + 1)
  | _ => none

def visitComputation (st : State) (k : ℕ) : StatusOr (State × List ℕ) := do
  let g ← elementAt st.graphs k
  let order := input.postOrder g.computation
  let g' ← order.foldlM (visitInstruction input) g.startVisit
  let removed := g'.instructionsToRemove.map fun id => (k, id)
  let pruned := if g'.changed then [k] else []
  let st' := { st with
    graphs := st.graphs.set k g'
    instructionsToRemove := st.instructionsToRemove ++ removed
    computationsToPrune := st.computationsToPrune ++ pruned }
  return (st', (order.filterMap (toVisit g.computation)).reverse)

def removeInstruction (c : HloComputation) (id : ℕ) : StatusOr HloComputation := do
  let i ← c.getInstruction id
  if c.isRemovable (fun _ => false) id i then return c.removeInstruction id
  else error "cannot remove instruction"

def removeUnusedInstruction (c : HloComputation) (id : ℕ) : StatusOr HloComputation := do
  let i ← c.getInstruction id
  if id ≠ c.root ∧ c.users id = [] ∧ i.isParameter = false then removeInstruction c id
  else return c

def removeUnusedInstructions (c : HloComputation) : StatusOr HloComputation :=
  (input.postOrder c).reverse.foldlM removeUnusedInstruction c

/-- An edit of one computation. -/
def editComputation (edit : HloComputation → StatusOr HloComputation) (graphs : List Graph)
    (k : ℕ) : StatusOr (List Graph) := do
  let g ← elementAt graphs k
  let c ← edit g.computation
  return graphs.set k { g with computation := c }

def cleanUp (st : State) : StatusOr (List Graph) := do
  let graphs ← st.instructionsToRemove.foldlM (fun graphs entry =>
    editComputation (fun c => removeInstruction c entry.2) graphs entry.1) st.graphs
  st.computationsToPrune.foldlM (editComputation (removeUnusedInstructions input)) graphs

def initialGraph (c : HloComputation) : Graph where
  computation := c
  properties := input.properties
  tupleElements := input.tupleElements

def initialState : State where
  graphs := input.program.computations.map (initialGraph input)

def run (rounds : ℕ) : StatusOr (List Graph) := do
  let st ← Worklist.drain (visitComputation input) rounds (initialState input) [0]
  cleanUp input st

end run

end ArgumentRecompute
end MultiMeshJax
