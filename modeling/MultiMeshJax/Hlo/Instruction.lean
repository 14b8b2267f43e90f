import MultiMeshJax.Hlo.TileAssignment

/-! HLO instructions, with the attributes that the MPMD passes read and write. -/
namespace MultiMeshJax

inductive PrimitiveType where
  | pred | f16 | bf16 | f32 | f64 | s8 | s16 | s32 | s64 | u8 | u16 | u32 | u64 | c64 | c128
  | other (name : String)
  deriving DecidableEq, Repr

inductive Shape where
  | array (elementType : PrimitiveType) (dimensions : List ℕ)
  | tuple (shapes : List (PrimitiveType × List ℕ))
  deriving DecidableEq, Repr

namespace Shape

def isTuple : Shape → Bool
  | array _ _ => false
  | tuple _ => true

def dimensions : Shape → List ℕ
  | array _ ds => ds
  | tuple _ => []

end Shape

/-- The opcodes that the passes tell apart. Called computations are given by number. -/
inductive HloOpcode where
  | parameter (number : ℕ)
  | constant
  | getTupleElement (tupleIndex : ℕ)
  | tuple
  | optimizationBarrier
  | call (toApply : ℕ)
  | whileLoop (body : ℕ)
  | customCall (target : String)
  | other (mnemonic : String)
  deriving DecidableEq, Repr

/-- An instruction is known by its `id`, which stands for its address and, since names
are unique in a module, for its name. A scheduling name is always the name of some
instruction, and is kept as that instruction's `id`. `offset` is the attribute that an
unrolled slice offset has. -/
structure HloInstruction where
  id : ℕ
  opcode : HloOpcode
  operands : List ℕ := []
  controlPredecessors : List ℕ := []
  shape : Shape := .array .f32 []
  sharding : Option HloSharding := none
  color : Option String := none
  schedulingName : Option ℕ := none
  offset : Option ℤ := none
  deriving DecidableEq, Repr

def kCustomCallArgumentRecolor : String := "ArgumentRecolor"
def kCustomCallReshard : String := "Reshard"
def kCustomCallSliceOffset : String := "SliceOffset"
def kCustomCallRootTupleRecolor : String := "RootTupleRecolor"
def kCustomCallDummyOperation : String := "DummyOperation"

namespace HloInstruction

def isCustomCall (i : HloInstruction) (target : String) : Bool :=
  decide (i.opcode = .customCall target)

def isCall (i : HloInstruction) : Bool :=
  match i.opcode with
  | .call _ => true
  | _ => false

def isGetTupleElement (i : HloInstruction) : Bool :=
  match i.opcode with
  | .getTupleElement _ => true
  | _ => false

def isParameter (i : HloInstruction) : Bool :=
  match i.opcode with
  | .parameter _ => true
  | _ => false

end HloInstruction

end MultiMeshJax
