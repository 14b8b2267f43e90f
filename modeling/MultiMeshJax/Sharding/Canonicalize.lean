import MultiMeshJax.Hlo.Instruction

/-! `CanonicalizeSharding`: the form in which the runtime keeps a sharding, a list of dims
each with its extent and its position in the device order. -/
namespace MultiMeshJax

/-- `permutation` is the position of the dim in the device order, slowest first. -/
structure ShardingDim where
  size : ℕ
  sharding : ℕ
  permutation : ℕ
  deriving DecidableEq, Repr

structure ShardedShape where
  type : PrimitiveType
  dims : List ShardingDim
  devices : DeviceList
  deriving DecidableEq, Repr

namespace ShardedShape

/-- How many devices one step along a dim skips. -/
def stride (dims : List ShardingDim) (d : ShardingDim) : ℕ :=
  ((dims.filter fun e => d.permutation < e.permutation).map ShardingDim.sharding).prod

/-- The extents of the dims with their strides. -/
def system (s : ShardedShape) : MixedRadix.System :=
  s.dims.map fun d => (d.sharding, stride s.dims d)

/-- The device that the dims enumerate at a tile coordinate. -/
def deviceAt (s : ShardedShape) (coordinate : List ℕ) : ℕ :=
  s.devices.start + ((coordinate.zip s.system).map fun x => x.1 * x.2.2).sum

end ShardedShape

namespace Sharding

open StatusOr

/-- The number, by position, and the extent of each tile dimension. -/
def tileDims (dims : List ℕ) : List (ℕ × ℕ) := dims.zipIdx.map Prod.swap

/-- The iota reshape might group several tile dimensions: a group is closed once the
extents in it span the next of the permuted reshape extents, and what is left over goes
into the last group. -/
def groupTileDims : List ℕ → ℕ → List ℕ → List (ℕ × ℕ) → StatusOr (List (List ℕ))
  | _, _, group, [] => return [group]
  | [], spanned, group, tile :: tiles => groupTileDims [] spanned (group ++ [tile.1]) tiles
  | span :: spans, spanned, group, tile :: tiles =>
    if span < tile.2 then
      error ("CanonicalizeSharding: has multiple iota dims within a single tensor dimension, " ++
        "which is not yet supported")
    else if span ≤ spanned * tile.2 then
      if spans = [] then groupTileDims [] 1 (group ++ [tile.1]) tiles
      else do
        let groups ← groupTileDims spans 1 [] tiles
        return (group ++ [tile.1]) :: groups
    else groupTileDims (span :: spans) (spanned * tile.2) (group ++ [tile.1]) tiles

/-- `permuted_groups[j] = dimension_groups[perm[j]]`, one slot for each group. -/
def permuteGroups (perm : List ℕ) (groups : List (List ℕ)) : StatusOr (List (List ℕ)) :=
  perm.zipIdx.foldlM (fun permuted (src, j) => do
    let group ← elementAt groups src
    assignAt permuted (j : ℤ) group) (List.replicate groups.length [])

def numShapeDims (dims : List ℕ) (replicateOnLastTileDim : Bool) : ℕ :=
  if replicateOnLastTileDim then dims.length - 1 else dims.length

/-- The dim that is written for the tile dimension at a position of the permutation. -/
def shardingDim (iota : IotaTileAssignment) (replicateOnLastTileDim : Bool)
    (shapeDims : List ℕ) (shapeIsGlobal : Bool) (dim position : ℕ) : StatusOr ShardingDim := do
  let extent ← elementAt iota.dims dim
  if dim = numShapeDims iota.dims replicateOnLastTileDim then return ⟨1, extent, position⟩
  else do
    let dimSize ← elementAt shapeDims dim
    return ⟨if shapeIsGlobal then dimSize else dimSize * extent, extent, position⟩

/-- The element types that the runtime knows. -/
def supportedType : Shape → StatusOr PrimitiveType
  | .array (.other name) _ => error ("Unsupported type: " ++ name)
  | .array type _ => return type
  | .tuple _ => error "Unsupported type: TUPLE"

def canonicalizeIotaSharding (iota : IotaTileAssignment) (replicateOnLastTileDim : Bool)
    (shape : Shape) (shapeIsGlobal : Bool) : StatusOr ShardedShape := do
  let groups ← groupTileDims iota.permutedReshapeDims 1 [] (tileDims iota.dims)
  let permuted ← permuteGroups iota.transposePerm groups
  let fullPermutation := permuted.flatten
  let nexts ← fullPermutation.zipIdx.mapM fun (dim, position) =>
    shardingDim iota replicateOnLastTileDim shape.dimensions shapeIsGlobal dim position
  let slots ← scatter (fullPermutation.map Nat.cast) nexts iota.dims.length
  let dims ← slots.mapM (deref "dim is left as it was constructed")
  let type ← supportedType shape
  return ⟨type, dims, ⟨iota.offset, iota.numElements⟩⟩

/-- `IotaTileAssignment::Create(dims, {n}, {0}, first)`. -/
def consecutiveIota (dims : List ℕ) (first : ℕ) (h : ∀ d ∈ dims, 0 < d) : IotaTileAssignment where
  dims := dims
  reshapeDims := [dims.prod]
  transposePerm := [0]
  offset := first
  dims_pos := h
  prod_eq := by simp
  perm := by simp
  two_le := Or.inl rfl
  unmerged := by simp

/-- The public overload: a device by device assignment is taken if it is an iota that is
only not structured as one. -/
def canonicalizeSharding (assignment : TileAssignment) (replicateOnLastTileDim : Bool)
    (shape : Shape) (shapeIsGlobal : Bool) : StatusOr ShardedShape :=
  match assignment with
  | .iota iota => canonicalizeIotaSharding iota replicateOnLastTileDim shape shapeIsGlobal
  | .array dims devices => do
    let first ← deref "empty tile assignment" devices.head?
    if devices = List.range' first devices.length then
      if h : ∀ d ∈ dims, 0 < d then
        canonicalizeIotaSharding (consecutiveIota dims first h) replicateOnLastTileDim shape
          shapeIsGlobal
      else fatal "tile dimension without tiles"
    else error "CanonicalizeSharding: only supported for iota tile assignment"

end Sharding
end MultiMeshJax
