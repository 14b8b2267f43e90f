import MultiMeshJax.Status
import MultiMeshJax.Foundation.Transpose

/-! Device lists and the sharding annotations of the HLO instructions. -/
namespace MultiMeshJax

/-- A contiguous range of devices. -/
structure DeviceList where
  start : ℕ
  numDevices : ℕ
  deriving DecidableEq, Repr

namespace DeviceList

def size (d : DeviceList) : ℕ := d.numDevices

def stop (d : DeviceList) : ℕ := d.start + d.numDevices

def toList (d : DeviceList) : List ℕ := List.range' d.start d.numDevices

/-- Every device of `other` is a device of `d`. -/
def contains (d other : DeviceList) : Prop := ∀ x ∈ other.toList, x ∈ d.toList

instance (d other : DeviceList) : Decidable (d.contains other) :=
  inferInstanceAs (Decidable (∀ x ∈ other.toList, x ∈ d.toList))

end DeviceList

/-- The assignment `iota(offset, n).reshape(reshapeDims).transpose(transposePerm)`, read
row-major in the shape `dims`. XLA creates these in canonical form: the reshape has no
unit dimensions, unless it is a single one, and none that could be merged. -/
structure IotaTileAssignment where
  dims : List ℕ
  reshapeDims : List ℕ
  transposePerm : List ℕ
  offset : ℕ
  dims_pos : ∀ d ∈ dims, 0 < d
  prod_eq : reshapeDims.prod = dims.prod
  perm : transposePerm.Perm (List.range reshapeDims.length)
  two_le : reshapeDims.length = 1 ∨ reshapeDims ≠ [] ∧ ∀ r ∈ reshapeDims, 2 ≤ r
  unmerged : transposePerm.IsChain fun a b => b ≠ a + 1
  deriving DecidableEq, Repr

namespace IotaTileAssignment

def numElements (iota : IotaTileAssignment) : ℕ := iota.dims.prod

/-- The extents of the transposed iota. -/
def permutedReshapeDims (iota : IotaTileAssignment) : List ℕ :=
  iota.transposePerm.map fun a => iota.reshapeDims.getD a 1

/-- The device that XLA places at a tile coordinate. -/
def deviceAt (iota : IotaTileAssignment) (coordinate : List ℕ) : ℕ :=
  let linear := MixedRadix.rowMajor iota.dims coordinate
  let permutedIndex := MixedRadix.digits iota.permutedReshapeDims linear
  let reshapeIndex := (List.range iota.reshapeDims.length).map fun a =>
    permutedIndex.getD (iota.transposePerm.idxOf a) 0
  iota.offset + MixedRadix.rowMajor iota.reshapeDims reshapeIndex

/-- The extents of the transposed iota with their strides in the device order. -/
def system (iota : IotaTileAssignment) : MixedRadix.System :=
  iota.transposePerm.map fun a => (iota.reshapeDims.getD a 1, (iota.reshapeDims.drop (a + 1)).prod)

variable {iota : IotaTileAssignment}

theorem transposePerm_nodup : iota.transposePerm.Nodup :=
  iota.perm.nodup_iff.mpr List.nodup_range

theorem transposePerm_lt {a : ℕ} (h : a ∈ iota.transposePerm) : a < iota.reshapeDims.length := by
  simpa using iota.perm.mem_iff.mp h

theorem length_transposePerm : iota.transposePerm.length = iota.reshapeDims.length := by
  simpa using iota.perm.length_eq

theorem length_pos : 0 < iota.reshapeDims.length := by
  rcases iota.two_le with h | h
  · omega
  · exact List.length_pos_iff.mpr h.1

@[simp] theorem map_fst_system : iota.system.map Prod.fst = iota.permutedReshapeDims := by
  simp [system, permutedReshapeDims]

theorem prod_permutedReshapeDims : iota.permutedReshapeDims.prod = iota.dims.prod := by
  rw [← iota.prod_eq]
  exact MixedRadix.prod_permute iota.perm

theorem prod_pos : 0 < iota.dims.prod := List.prod_pos iota.dims_pos

/-- The device is the sum of the digits in the transposed extents, each times its stride. -/
theorem deviceAt_eq (coordinate : List ℕ) :
    iota.deviceAt coordinate =
      iota.offset + MixedRadix.eval iota.system (MixedRadix.rowMajor iota.dims coordinate) :=
  congrArg (iota.offset + ·) (MixedRadix.transposedAt_eq_eval iota.perm _)

end IotaTileAssignment

/-- A tile assignment lists the device of every tile, either as an iota or one by one. -/
inductive TileAssignment where
  | iota (assignment : IotaTileAssignment)
  | array (dims : List ℕ) (devices : List ℕ)
  deriving DecidableEq, Repr

def TileAssignment.dimensions : TileAssignment → List ℕ
  | iota a => a.dims
  | array dims _ => dims

inductive HloSharding where
  | replicated
  | maximal (device : ℕ)
  | tiled (assignment : TileAssignment) (replicateOnLastTileDim : Bool)
  deriving DecidableEq, Repr

end MultiMeshJax
