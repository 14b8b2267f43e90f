import MultiMeshJax.Sharding.CanonicalLayout

/-! What the passes ask of a sharding: whether it is replicated, when two of them count as
the same, and the form that the runtime keeps. -/
namespace MultiMeshJax

namespace HloSharding

def isReplicated (s : HloSharding) : Bool := decide (s = replicated)

/-- A sharding that assigns the whole to a single device is tile maximal as well. -/
def isTileMaximal : HloSharding → Bool
  | tiled _ _ => false
  | _ => true

end HloSharding

/-- `instruction->sharding_or_default(HloSharding::Replicate())`. -/
def HloInstruction.shardingOrReplicated (i : HloInstruction) : HloSharding :=
  i.sharding.getD .replicated

namespace Sharding

open StatusOr

def isReplicatedOnAssignedSubmesh : HloSharding → Bool
  | .replicated => true
  | .tiled assignment true => assignment.dimensions.dropLast.all (· == 1)
  | _ => false

def isReplicatedOrSubmeshReplicate (s : HloSharding) : Bool :=
  s.isReplicated || isReplicatedOnAssignedSubmesh s || s.isTileMaximal

def meshEquivalentSharding (lhs rhs : HloSharding) : Bool :=
  if isReplicatedOrSubmeshReplicate lhs then isReplicatedOrSubmeshReplicate rhs
  else if isReplicatedOrSubmeshReplicate rhs then false
  else
    match lhs, rhs with
    | .tiled a _, .tiled b _ => a.dimensions == b.dimensions
    | _, _ => false

/-- `GetDevices`: the devices from the first of the tile assignment on. -/
def getDevices (s : HloSharding) (defaultDevices : DeviceList) : StatusOr DeviceList :=
  match s with
  | .replicated => return defaultDevices
  | .maximal device => return ⟨device, 1⟩
  | .tiled (.iota iota) _ => return ⟨iota.offset, iota.numElements⟩
  | .tiled (.array _ devices) _ => do
    let first ← deref "empty tile assignment" devices.head?
    return ⟨first, devices.length⟩

def replicatedZukuDims (dimensions : List ℕ) (devices : DeviceList) : List ShardingDim :=
  (dimensions.zipIdx.map fun x => ⟨x.1, 1, x.2⟩) ++
    if 1 < devices.size then [⟨1, devices.size, dimensions.length⟩] else []

def xlaShapeToZukuShape (shape : Shape) (devices : DeviceList) (sharding : HloSharding)
    (shapeIsGlobal : Bool) : StatusOr ShardedShape := do
  let type ← supportedType shape
  match sharding with
  | .tiled assignment replicateOnLastTileDim => do
    let s ← canonicalizeSharding assignment replicateOnLastTileDim shape shapeIsGlobal
    if devices ≠ s.devices ∧ devices.size ≠ s.devices.size then
      error "devices given to XlaShapeToZukuShape differs from sharding"
    else return { s with devices := devices }
  | _ => return ⟨type, replicatedZukuDims shape.dimensions devices, devices⟩

/-- How often each dimension of a shape of this rank is divided. -/
def tileExtents (rank : ℕ) : HloSharding → List ℕ
  | .tiled assignment _ => assignment.dimensions.take rank
  | _ => List.replicate rank 1

theorem canonicalizeIotaSharding_extents {iota : IotaTileAssignment} {replicated : Bool}
    {shape : Shape} {shapeIsGlobal : Bool} {s : ShardedShape}
    (hshape : ShapeMatches iota.dims replicated shape)
    (h : canonicalizeIotaSharding iota replicated shape shapeIsGlobal = ok s) :
    s.dims.map ShardingDim.sharding = iota.dims := by
  have hne : iota.permutedReshapeDims ≠ [] := by
    intro hnil
    have hlen := congrArg List.length hnil
    rw [IotaTileAssignment.permutedReshapeDims, List.length_map,
      IotaTileAssignment.length_transposePerm] at hlen
    exact iota.length_pos.ne' hlen
  have hcases := groupTileDims_cases hne 1 [] (tileDims iota.dims)
  rw [tileDims_map_fst, List.nil_append] at hcases
  rcases hcases with ⟨-, message, hrun⟩ | ⟨-, groups, hrun, hflat, hle, -⟩
  · rw [canonicalizeIotaSharding, hrun, error_bind] at h
    cases h
  rw [IotaTileAssignment.permutedReshapeDims, List.length_map,
    IotaTileAssignment.length_transposePerm] at hle
  rcases hle.lt_or_eq with hlt | heq
  · obtain ⟨reason, hfatal⟩ := @permuteGroups_fatal iota.transposePerm groups
      (iota.length_transposePerm.symm ▸ hlt)
    rw [canonicalizeIotaSharding, hrun, ok_bind, hfatal, fatal_bind] at h
    cases h
  · obtain ⟨dims, hlayout, hresult⟩ := @canonicalizeIotaSharding_of_groups iota replicated
      shapeIsGlobal shape groups hshape hrun hflat heq
    rw [hresult] at h
    obtain ⟨type, -, hs⟩ := bind_eq_ok.mp h
    obtain rfl := ok.inj hs
    have hfst := (hlayout type).map_fst_system
    rwa [ShardedShape.system, List.map_map] at hfst

theorem canonicalizeSharding_extents {assignment : TileAssignment} {replicated : Bool}
    {shape : Shape} {shapeIsGlobal : Bool} {s : ShardedShape}
    (hshape : ShapeMatches assignment.dimensions replicated shape)
    (h : canonicalizeSharding assignment replicated shape shapeIsGlobal = ok s) :
    s.dims.map ShardingDim.sharding = assignment.dimensions := by
  cases assignment with
  | iota iota => exact canonicalizeIotaSharding_extents hshape h
  | array dims devices =>
    obtain ⟨first, -, h⟩ := bind_eq_ok.mp h
    split at h
    · split at h
      · rename_i hpos
        exact @canonicalizeIotaSharding_extents (consecutiveIota dims first hpos) _ _ _ _ hshape h
      · cases h
    · cases h

/-- The runtime form keeps the device list and the extents of the tiles. -/
theorem xlaShapeToZukuShape_eq_ok {shape : Shape} {devices : DeviceList} {sharding : HloSharding}
    {shapeIsGlobal : Bool} {z : ShardedShape}
    (hshape : ∀ assignment replicated, sharding = .tiled assignment replicated →
      ShapeMatches assignment.dimensions replicated shape)
    (h : xlaShapeToZukuShape shape devices sharding shapeIsGlobal = ok z) :
    z.devices = devices ∧ (z.dims.map ShardingDim.sharding).take shape.dimensions.length =
      tileExtents shape.dimensions.length sharding := by
  obtain ⟨type, -, h⟩ := bind_eq_ok.mp h
  have hreplicated : ((replicatedZukuDims shape.dimensions devices).map
      ShardingDim.sharding).take shape.dimensions.length =
      List.replicate shape.dimensions.length 1 := by
    have hones : (shape.dimensions.zipIdx.map fun x => (⟨x.1, 1, x.2⟩ : ShardingDim)).map
        ShardingDim.sharding = List.replicate shape.dimensions.length 1 := by
      rw [List.map_map, List.eq_replicate_iff]
      refine ⟨by simp, ?_⟩
      intro b hb
      obtain ⟨x, -, rfl⟩ := List.mem_map.mp hb
      rfl
    rw [replicatedZukuDims, List.map_append, hones, List.take_left' (by simp)]
  cases sharding with
  | replicated =>
    obtain rfl := ok.inj h
    exact ⟨rfl, hreplicated⟩
  | maximal device =>
    obtain rfl := ok.inj h
    exact ⟨rfl, hreplicated⟩
  | tiled assignment replicated =>
    obtain ⟨s, hs, h⟩ := bind_eq_ok.mp h
    have hextents := canonicalizeSharding_extents (hshape _ _ rfl) hs
    split at h
    · cases h
    · obtain rfl := ok.inj h
      exact ⟨rfl, by rw [hextents]; rfl⟩

end Sharding
end MultiMeshJax
