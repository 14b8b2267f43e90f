import MultiMeshJax.Foundation.Concatenation
import MultiMeshJax.Hlo.Evaluation
import MultiMeshJax.Hlo.Program
import MultiMeshJax.Hlo.Removal

/-! The pass that concatenates the operands of each colour before those of all colours, where a
reduce of everything is the only user of the concatenation. -/
namespace MultiMeshJax
namespace ConcatenateGrouper

open StatusOr

def kDefaultColorName : String := "unassigned"

def colorOrDefault (i : HloInstruction) : String := i.color.getD kDefaultColorName

def isConcatenate (i : HloInstruction) : Bool := decide (i.opcode = .other "concatenate")

def isReduce (i : HloInstruction) : Bool := decide (i.opcode = .other "reduce")

/-- The entry computation, with the dimension of each concatenate. -/
structure Graph where
  computation : HloComputation
  dimension : ℕ → ℕ

/-- The count of an array; a tuple has none. -/
def elementsIn : Shape → StatusOr ℕ
  | .array _ dims => return dims.prod
  | .tuple _ => fatal "not an array shape"

def Graph.addConcatenate (g : Graph) (shape : Shape) (operands : List ℕ) (dimension : ℕ)
    (color : Option String) : Graph where
  computation := g.computation.addInstruction
    { id := 0, opcode := .other "concatenate", operands := operands, shape := shape, color := color }
  dimension := Function.update g.dimension g.computation.freshId dimension

/-- The shape of the first input, with its size along the dimension once for every input. -/
def subShape (dimension : ℕ) (inputs : List HloInstruction) : StatusOr Shape := do
  let front ← elementAt inputs 0
  match front.shape with
  | .tuple _ => fatal "dimensions of a tuple shape"
  | .array elementType dims => do
    let size ← elementAt dims dimension
    return .array elementType (dims.set dimension (inputs.length * size))

def inputsOf (operands : List HloInstruction) (color : String) : List HloInstruction :=
  operands.filter fun operand => colorOrDefault operand = color

def colorsOf (operands : List HloInstruction) : List String :=
  firstKeys (operands.map colorOrDefault)

def addSubConcatenate (dimension : ℕ) (operands : List HloInstruction)
    (acc : Graph × List ℕ) (color : String) : StatusOr (Graph × List ℕ) := do
  let inputs := inputsOf operands color
  let shape ← subShape dimension inputs
  let g := acc.1.addConcatenate shape (inputs.map HloInstruction.id) dimension (some color)
  return (g, acc.2 ++ [acc.1.computation.freshId])

def groupOperands (g : Graph) (i : HloInstruction) : StatusOr Graph := do
  let operands ← i.operands.mapM g.computation.getInstruction
  let dimension := g.dimension i.id
  let (subs, subConcatenates) ← (colorsOf operands).foldlM (addSubConcatenate dimension operands)
    (g, [])
  let grouped := subs.addConcatenate i.shape subConcatenates dimension i.color
  let aggregate := subs.computation.freshId
  let c ← (grouped.computation.replaceUses i.id aggregate).tryRemoveInstruction i
  return { grouped with computation := c }

/-- A reduce to one element is the only user. -/
def isGroupable (g : Graph) (i : HloInstruction) : StatusOr Bool :=
  if isConcatenate i then
    match g.computation.users i.id with
    | [user] =>
      if isReduce user then do
        let elements ← elementsIn user.shape
        return decide (elements = 1)
      else return false
    | _ => return false
  else return false

def visit (g : Graph) (id : ℕ) : StatusOr Graph := do
  let i ← g.computation.getInstruction id
  let groupable ← isGroupable g i
  if groupable then groupOperands g i else return g

/-- The instructions are visited in the post order that the computation has at the start. -/
def run (g : Graph) (postOrder : List ℕ) : StatusOr Graph := postOrder.foldlM visit g

def Step (g : Graph) (id : ℕ) (g' : Graph) : Prop := visit g id = ok g'

end ConcatenateGrouper
end MultiMeshJax
