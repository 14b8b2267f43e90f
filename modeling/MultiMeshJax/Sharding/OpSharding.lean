import MultiMeshJax.Foundation.Transpose
import MultiMeshJax.Hlo.TileAssignment

/-! The protocol buffers of shardings, and the device that an iota form gives to each tile. -/
namespace MultiMeshJax

inductive OpShardingType where
  | replicated | maximal | other
  deriving DecidableEq, Repr

/-- The assignment is either listed, or the iota that is reshaped and transposed. -/
structure OpSharding where
  type : OpShardingType
  tileAssignmentDimensions : List ℕ := []
  tileAssignmentDevices : List ℕ := []
  iotaReshapeDims : List ℕ := []
  iotaTransposePerm : List ℕ := []
  iotaOffset : ℕ := 0
  replicateOnLastTileDim : Bool := false
  deriving DecidableEq, Repr

namespace OpSharding

/-- The device of a tile in the iota form. -/
def deviceAt (s : OpSharding) (coordinate : List ℕ) : ℕ :=
  s.iotaOffset + MixedRadix.transposedAt s.iotaReshapeDims s.iotaTransposePerm
    (MixedRadix.rowMajor s.tileAssignmentDimensions coordinate)

/-- What the library asks of a protocol buffer: as many devices as there are tiles. -/
def isValid (s : OpSharding) : Bool :=
  if s.iotaReshapeDims = [] then s.tileAssignmentDevices.length == s.tileAssignmentDimensions.prod
  else s.iotaReshapeDims.prod == s.tileAssignmentDimensions.prod

/-- The coordinates of the tiles. -/
def Tiles (s : OpSharding) : Set (List ℕ) :=
  {coordinate | List.Forall₂ (· < ·) coordinate s.tileAssignmentDimensions}

/-- The dimensions and the permutation of the iota fit each other and the tiles. -/
structure IsIota (s : OpSharding) : Prop where
  perm : s.iotaTransposePerm.Perm (List.range s.iotaReshapeDims.length)
  prod : s.iotaReshapeDims.prod = s.tileAssignmentDimensions.prod

end OpSharding

open MixedRadix in
/-- In canonical form the assignment is the same. -/
theorem IotaTileAssignment.deviceAt_eq_transposedAt (iota : IotaTileAssignment)
    (coordinate : List ℕ) : iota.deviceAt coordinate =
      iota.offset + transposedAt iota.reshapeDims iota.transposePerm
        (rowMajor iota.dims coordinate) := rfl

end MultiMeshJax
