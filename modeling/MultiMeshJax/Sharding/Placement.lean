import MultiMeshJax.Sharding.ZukuShape

/-! Which device holds which part of the data, for a device list and a sharding. -/
namespace MultiMeshJax

namespace TileAssignment

/-- The devices in row-major order of the tiles, counted from the first device of the
assignment. -/
def order : TileAssignment → List ℕ
  | iota a => (List.range a.numElements).map fun n =>
    a.deviceAt (MixedRadix.digits a.dims n) - a.offset
  | array _ devices => devices.map fun d => d - devices.min?.getD 0

/-- How many devices hold each tile of a shape of this rank. -/
def replicas (rank : ℕ) (a : TileAssignment) : ℕ := (a.dimensions.drop rank).prod

/-- The tile, by its row-major number, that a device holds. -/
def tileOf (rank : ℕ) (a : TileAssignment) (device : ℕ) : ℕ :=
  a.order.idxOf device / a.replicas rank

end TileAssignment

namespace Sharding

open StatusOr

/-- The part of the data with a row-major number when its dimensions are divided. -/
structure DataTile where
  extents : List ℕ
  number : ℕ
  deriving DecidableEq, Repr

/-- The undivided data. -/
def whole (rank : ℕ) : DataTile := ⟨List.replicate rank 1, 0⟩

/-- A device of the list holds the data tile. As in the runtime form of a sharding, the
assigned devices are those of the list in order, and a tile maximal sharding has the
undivided data on all of them. -/
def Holds (rank : ℕ) (devices : DeviceList) (sharding : HloSharding) (device : ℕ)
    (tile : DataTile) : Prop :=
  match sharding with
  | .tiled a _ => ∃ i x : ℕ, a.order[i]? = some x ∧ device = devices.start + x ∧
      tile = ⟨a.dimensions.take rank, i / a.replicas rank⟩
  | _ => device ∈ devices.toList ∧ tile = whole rank

/-- The sharding is one of the shape, and assigns every device of the list once. -/
def Placed (shape : Shape) (devices : DeviceList) (sharding : HloSharding) : Prop :=
  match sharding with
  | .tiled a replicated => ShapeMatches a.dimensions replicated shape ∧
      a.dimensions.prod = devices.numDevices ∧ a.order.Perm (List.range devices.numDevices)
  | _ => True

def SamePlacement (rank : ℕ) (devices devices' : DeviceList) (sharding sharding' : HloSharding) :
    Prop :=
  ∀ device tile, Holds rank devices sharding device tile ↔
    Holds rank devices' sharding' device tile

def FullyReplicated (rank : ℕ) (devices : DeviceList) (sharding : HloSharding) : Prop :=
  ∀ device ∈ devices.toList, Holds rank devices sharding device (whole rank)

/-- An operand is where its user expects it: the same tiles on the same devices, or all of
it on all devices of the user. -/
def Agrees (rank : ℕ) (operandDevices devices : DeviceList)
    (operandSharding sharding : HloSharding) : Prop :=
  SamePlacement rank operandDevices devices operandSharding sharding ∨
    FullyReplicated rank operandDevices operandSharding ∧ FullyReplicated rank devices sharding ∧
      operandDevices.contains devices

/-- The two shardings list every device at the same tile. -/
def SameTileOrder (rank numDevices : ℕ) : HloSharding → HloSharding → Prop
  | .tiled a _, .tiled b _ => ∀ x < numDevices, a.tileOf rank x = b.tileOf rank x
  | _, _ => True

variable {shape : Shape} {rank : ℕ} {devices : DeviceList} {s s' : HloSharding}

theorem SameTileOrder.refl (rank numDevices : ℕ) (s : HloSharding) :
    SameTileOrder rank numDevices s s := by
  cases s with
  | replicated => trivial
  | maximal _ => trivial
  | tiled a _ => exact fun _ _ => rfl

theorem mem_toList {d : ℕ} :
    d ∈ devices.toList ↔ ∃ x < devices.numDevices, d = devices.start + x := by
  rw [DeviceList.toList, List.mem_range'_1]
  constructor
  · rintro ⟨h, h'⟩
    exact ⟨d - devices.start, by omega, by omega⟩
  · rintro ⟨x, hx, rfl⟩
    omega

theorem holds_tiled_iff {a : TileAssignment} {replicated : Bool} {device : ℕ} {tile : DataTile}
    (h : Placed shape devices (.tiled a replicated)) :
    Holds rank devices (.tiled a replicated) device tile ↔
      ∃ x < devices.numDevices, device = devices.start + x ∧
        tile = ⟨a.dimensions.take rank, a.tileOf rank x⟩ := by
  obtain ⟨-, -, hperm⟩ := h
  have hnodup : a.order.Nodup := hperm.nodup_iff.mpr List.nodup_range
  constructor
  · rintro ⟨i, x, hi, hdevice, htile⟩
    obtain ⟨hlt, rfl⟩ := List.getElem?_eq_some_iff.mp hi
    refine ⟨a.order[i], ?_, hdevice, ?_⟩
    · simpa using hperm.mem_iff.mp (List.getElem_mem hlt)
    · rw [htile, TileAssignment.tileOf, hnodup.idxOf_getElem i hlt]
  · rintro ⟨x, hx, hdevice, htile⟩
    have hmem : x ∈ a.order := hperm.mem_iff.mpr (List.mem_range.mpr hx)
    refine ⟨a.order.idxOf x, x, ?_, hdevice, htile⟩
    rw [List.getElem?_eq_getElem (List.idxOf_lt_length_iff.mpr hmem), List.getElem_idxOf]

/-- Tiles that divide nothing are the whole. -/
theorem tileOf_eq_zero {a : TileAssignment} {replicated : Bool}
    (h : Placed shape devices (.tiled a replicated))
    (hextents : a.dimensions.take rank = List.replicate rank 1) {x : ℕ}
    (hx : x < devices.numDevices) : a.tileOf rank x = 0 := by
  obtain ⟨-, hprod, hperm⟩ := h
  have hreplicas : a.replicas rank = devices.numDevices := by
    rw [← hprod, ← List.prod_take_mul_prod_drop a.dimensions rank, hextents, List.prod_replicate,
      one_pow, one_mul, TileAssignment.replicas]
  have hmem : x ∈ a.order := hperm.mem_iff.mpr (List.mem_range.mpr hx)
  have hidx : a.order.idxOf x < devices.numDevices := by
    have hlt := List.idxOf_lt_length_iff.mpr hmem
    rwa [hperm.length_eq, List.length_range] at hlt
  rw [TileAssignment.tileOf, hreplicas, Nat.div_eq_of_lt hidx]

/-- Where the data is not divided, every device of the list holds all of it. -/
theorem holds_iff_whole (h : Placed shape devices s)
    (hextents : tileExtents rank s = List.replicate rank 1) (device : ℕ) (tile : DataTile) :
    Holds rank devices s device tile ↔ device ∈ devices.toList ∧ tile = whole rank := by
  cases s with
  | replicated => exact Iff.rfl
  | maximal _ => exact Iff.rfl
  | tiled a replicated =>
    have hextents : a.dimensions.take rank = List.replicate rank 1 := hextents
    rw [holds_tiled_iff h, mem_toList, hextents]
    constructor
    · rintro ⟨x, hx, hdevice, htile⟩
      rw [tileOf_eq_zero h hextents hx] at htile
      exact ⟨⟨x, hx, hdevice⟩, htile⟩
    · rintro ⟨⟨x, hx, hdevice⟩, htile⟩
      refine ⟨x, hx, hdevice, ?_⟩
      rw [tileOf_eq_zero h hextents hx, htile]
      rfl

theorem fullyReplicated_of_extents (h : Placed shape devices s)
    (hextents : tileExtents rank s = List.replicate rank 1) : FullyReplicated rank devices s := by
  intro device hdevice
  rw [holds_iff_whole h hextents]
  exact ⟨hdevice, rfl⟩

/-- Shardings that divide the data alike place it alike exactly if they list every device
at the same tile. -/
theorem samePlacement_iff (h : Placed shape devices s) (h' : Placed shape devices s')
    (hextents : tileExtents rank s = tileExtents rank s') :
    SamePlacement rank devices devices s s' ↔ SameTileOrder rank devices.numDevices s s' := by
  have hwhole : tileExtents rank s = List.replicate rank 1 →
      SamePlacement rank devices devices s s' := by
    intro hs device tile
    rw [holds_iff_whole h hs, holds_iff_whole h' (hextents ▸ hs)]
  cases s with
  | replicated => exact iff_of_true (hwhole rfl) trivial
  | maximal _ => exact iff_of_true (hwhole rfl) trivial
  | tiled a _ =>
    cases s' with
    | replicated => exact iff_of_true (hwhole hextents) trivial
    | maximal _ => exact iff_of_true (hwhole hextents) trivial
    | tiled b _ =>
      have hdims : a.dimensions.take rank = b.dimensions.take rank := hextents
      constructor
      · intro hsame x hx
        have hheld := (hsame (devices.start + x) ⟨_, a.tileOf rank x⟩).mp
          ((holds_tiled_iff h).mpr ⟨x, hx, rfl, rfl⟩)
        obtain ⟨y, -, hy, htile⟩ := (holds_tiled_iff h').mp hheld
        obtain rfl : x = y := by omega
        exact congrArg DataTile.number htile
      · intro hsame device tile
        rw [holds_tiled_iff h, holds_tiled_iff h', hdims]
        constructor
        · rintro ⟨x, hx, hdevice, htile⟩
          exact ⟨x, hx, hdevice, by rw [htile, hsame x hx]⟩
        · rintro ⟨x, hx, hdevice, htile⟩
          exact ⟨x, hx, hdevice, by rw [htile, hsame x hx]⟩

theorem tileOf_of_fullyReplicated {a : TileAssignment} {replicated : Bool}
    (h : Placed shape devices (.tiled a replicated))
    (hfull : FullyReplicated rank devices (.tiled a replicated)) {x : ℕ}
    (hx : x < devices.numDevices) : a.tileOf rank x = 0 := by
  have hheld := hfull (devices.start + x) (mem_toList.mpr ⟨x, hx, rfl⟩)
  obtain ⟨y, -, hy, htile⟩ := (holds_tiled_iff h).mp hheld
  obtain rfl : x = y := by omega
  exact (congrArg DataTile.number htile).symm

/-- On the same devices agreement is that every device has the same tile. -/
theorem agrees_iff (h : Placed shape devices s) (h' : Placed shape devices s')
    (hextents : tileExtents rank s = tileExtents rank s') :
    Agrees rank devices devices s s' ↔ SameTileOrder rank devices.numDevices s s' := by
  rw [← samePlacement_iff h h' hextents]
  constructor
  · rintro (hsame | ⟨hfull, hfull', -⟩)
    · exact hsame
    · rw [samePlacement_iff h h' hextents]
      cases s with
      | replicated => trivial
      | maximal _ => trivial
      | tiled a _ =>
        cases s' with
        | replicated => trivial
        | maximal _ => trivial
        | tiled b _ =>
          intro x hx
          rw [tileOf_of_fullyReplicated h hfull hx, tileOf_of_fullyReplicated h' hfull' hx]
  · exact Or.inl

/-- A scalar is not divided. -/
theorem tileExtents_zero (s : HloSharding) : tileExtents 0 s = List.replicate 0 1 := by
  cases s <;> rfl

theorem sameTileOrder_zero (h : Placed shape devices s) (h' : Placed shape devices s') :
    SameTileOrder 0 devices.numDevices s s' := by
  have hextents : tileExtents 0 s = tileExtents 0 s' := by
    rw [tileExtents_zero, tileExtents_zero]
  apply (samePlacement_iff h h' hextents).mp
  intro device tile
  rw [holds_iff_whole h (tileExtents_zero s), holds_iff_whole h' (tileExtents_zero s')]

theorem SamePlacement.symm {devices' : DeviceList} (h : SamePlacement rank devices devices' s s') :
    SamePlacement rank devices' devices s' s := fun d t => (h d t).symm

theorem SamePlacement.trans {devices' devices'' : DeviceList} {s'' : HloSharding}
    (h : SamePlacement rank devices devices' s s')
    (h' : SamePlacement rank devices' devices'' s' s'') :
    SamePlacement rank devices devices'' s s'' := fun d t => (h d t).trans (h' d t)

theorem tileExtents_of_submeshReplicate
    (h : Placed shape devices s) (hs : isReplicatedOrSubmeshReplicate s = true) :
    tileExtents shape.dimensions.length s = List.replicate shape.dimensions.length 1 := by
  cases s with
  | replicated => rfl
  | maximal _ => rfl
  | tiled a replicated =>
    cases replicated with
    | false => simp [isReplicatedOrSubmeshReplicate, HloSharding.isReplicated,
        isReplicatedOnAssignedSubmesh, HloSharding.isTileMaximal] at hs
    | true =>
      have hones : ∀ e ∈ a.dimensions.dropLast, e = 1 := by
        simpa [isReplicatedOrSubmeshReplicate, HloSharding.isReplicated,
          isReplicatedOnAssignedSubmesh, HloSharding.isTileMaximal] using hs
      have hlen : shape.dimensions.length = a.dimensions.length - 1 := h.1
      rw [tileExtents, hlen, ← List.dropLast_eq_take, List.eq_replicate_iff]
      exact ⟨List.length_dropLast, hones⟩

/-- Shardings that count as equivalent divide the data alike. -/
theorem tileExtents_of_meshEquivalent {devices' : DeviceList} (h : Placed shape devices s)
    (h' : Placed shape devices' s') (hequivalent : meshEquivalentSharding s s' = true) :
    tileExtents shape.dimensions.length s = tileExtents shape.dimensions.length s' := by
  unfold meshEquivalentSharding at hequivalent
  split at hequivalent
  · rename_i hs
    rw [tileExtents_of_submeshReplicate h hs, tileExtents_of_submeshReplicate h' hequivalent]
  · split at hequivalent
    · cases hequivalent
    · split at hequivalent
      · rw [tileExtents, tileExtents, beq_iff_eq.mp hequivalent]
      · cases hequivalent

end Sharding
end MultiMeshJax
