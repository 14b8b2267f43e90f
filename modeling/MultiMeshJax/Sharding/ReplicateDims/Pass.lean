import MultiMeshJax.Sharding.CanonicalLayout
import MultiMeshJax.Sharding.OpSharding

/-! `ReplicateDims`: the tiles along some dimensions of an iota sharding are given up, and the
devices on them replicate the tiles that stay. -/
namespace MultiMeshJax
namespace Sharding

open StatusOr

/-- The iota reshape might group together multiple dimensions: a group is closed once its
extents span the next of the permuted reshape extents, and what is left over goes into the
last group. -/
def dimensionGroups : List ℕ → ℕ → List ℕ → List (ℕ × ℕ) → List (List ℕ)
  | _, _, group, [] => [group]
  | [], spanned, group, tile :: tiles => dimensionGroups [] spanned (group ++ [tile.1]) tiles
  | span :: spans, spanned, group, tile :: tiles =>
    if span ≤ spanned * tile.2 then
      if spans = [] then dimensionGroups [] 1 (group ++ [tile.1]) tiles
      else (group ++ [tile.1]) :: dimensionGroups spans 1 [] tiles
    else dimensionGroups (span :: spans) (spanned * tile.2) (group ++ [tile.1]) tiles

def iotaGroups (iota : IotaTileAssignment) : List (List ℕ) :=
  dimensionGroups iota.permutedReshapeDims 1 [] (tileDims iota.dims)

def currentPermutation (iota : IotaTileAssignment) : StatusOr (List ℕ) :=
  if iota.transposePerm = [] then return List.range iota.dims.length
  else do
    let permutedGroups ← permuteGroups iota.transposePerm (iotaGroups iota)
    return permutedGroups.flatten

/-- Each replicated dim changes places with an extra dim at the end. -/
def newPermutation (permutation replicatedDims : List ℕ) : StatusOr (List ℕ) :=
  replicatedDims.zipIdx.foldlM (fun acc (dim, j) => do
    let position ← elementAt permutation dim
    assignAt (acc ++ [position]) (dim : ℤ) (permutation.length + j)) permutation

def totalReplication (dims replicatedDims : List ℕ) (replicateOnLastTileDim : Bool) :
    StatusOr ℕ := do
  let last ← if replicateOnLastTileDim then elementAt dims (numShapeDims dims true) else pure 1
  let extents ← replicatedDims.mapM (elementAt dims)
  return last * extents.prod

def replicatedTileDims (dims replicatedDims : List ℕ) (replicateOnLastTileDim : Bool)
    (replication : ℕ) : StatusOr (List ℕ) := do
  let dims ←
    if replicateOnLastTileDim then assignAt dims (numShapeDims dims true : ℤ) replication
    else pure (dims ++ [replication])
  replicatedDims.foldlM (fun dims (dim : ℕ) => assignAt dims (dim : ℤ) 1) dims

def replicateDims (replicatedDims : List ℕ) (sharding : HloSharding) : StatusOr OpSharding :=
  match sharding with
  | .tiled (.iota iota) replicateOnLastTileDim => do
    let permutation ← currentPermutation iota
    let reshapeDims ← permutation.mapM (elementAt iota.dims)
    let transposePerm ← newPermutation permutation replicatedDims
    let replication ← totalReplication iota.dims replicatedDims replicateOnLastTileDim
    if replication = iota.numElements then return { type := .replicated }
    else
      let tileDims ←
        replicatedTileDims iota.dims replicatedDims replicateOnLastTileDim replication
      return {
        type := .other
        tileAssignmentDimensions := tileDims
        iotaReshapeDims := reshapeDims ++ replicatedDims.map fun _ => 1
        iotaTransposePerm := transposePerm
        replicateOnLastTileDim := true }
  | _ => error "ReplicateDims only supported for iota tile assignment"

end Sharding
end MultiMeshJax
