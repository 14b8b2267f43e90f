import MultiMeshJax.Sharding.ZukuShape

/-! `ToIotaSharding`: device lists that count up are rewritten as iotas, and all assignments
are counted from device zero. -/
namespace MultiMeshJax

/-- The devices of the tiles in row-major order. -/
def TileAssignment.devices : TileAssignment → List ℕ
  | iota a => (List.range a.numElements).map fun n => a.deviceAt (MixedRadix.digits a.dims n)
  | array _ devices => devices

/-- There are tiles, and a device for each. -/
def TileAssignment.WellFormed (a : TileAssignment) : Prop :=
  (∀ d ∈ a.dimensions, 0 < d) ∧ a.devices.length = a.dimensions.prod

def TileAssignment.isIota : TileAssignment → Bool
  | iota _ => true
  | array _ _ => false

namespace Sharding

open StatusOr

inductive ArraySharding where
  | placed (s : HloSharding)
  | manual
  deriving DecidableEq, Repr

/-- An instruction with a tuple shape has a sharding for each element. -/
inductive InstructionSharding where
  | array (s : ArraySharding)
  | tuple (elements : List ArraySharding)
  deriving DecidableEq, Repr

namespace InstructionSharding

def isReplicated : InstructionSharding → Bool
  | array s => s == .placed .replicated
  | tuple elements => elements.all (· == .placed .replicated)

def isManual : InstructionSharding → Bool
  | array s => s == .manual
  | tuple elements => elements.all (· == .manual)

end InstructionSharding

/-- The branches for an assignment of tiles. -/
def toIotaAssignment (assignment : TileAssignment) (replicateOnLastTileDim : Bool) :
    StatusOr ArraySharding :=
  match assignment with
  | .array dims array => do
    let next ← deref "empty tile assignment" array.head?
    if array = List.range' next array.length then
      if h : ∀ d ∈ dims, 0 < d then
        return .placed (.tiled (.iota (consecutiveIota dims 0 h)) false)
      else fatal "tile dimension without tiles"
    else error "only support iota sharding, got "
  | .iota iota => return .placed (.tiled (.iota { iota with offset := 0 }) replicateOnLastTileDim)

/-- The sharding is on all of the devices along its last dimension. -/
def coversDevices (devices : DeviceList) (assignment : TileAssignment)
    (replicateOnLastTileDim : Bool) : Bool :=
  replicateOnLastTileDim && assignment.dimensions.getLast? == some devices.size

/-- The branches for a sharding that is no tuple. -/
def toIotaArraySharding (devices : DeviceList) : ArraySharding → StatusOr ArraySharding
  | .manual => return .manual
  | .placed .replicated => return .placed .replicated
  | .placed (.maximal _) => return .placed (.maximal 0)
  | .placed (.tiled assignment replicateOnLastTileDim) =>
    if coversDevices devices assignment replicateOnLastTileDim then return .placed .replicated
    else toIotaAssignment assignment replicateOnLastTileDim

def toIotaSharding (devices : DeviceList) (sharding : InstructionSharding) :
    StatusOr InstructionSharding :=
  if sharding.isReplicated then return .array (.placed .replicated)
  else if sharding.isManual then return .array .manual
  else
    match sharding with
    | .tuple elements => .tuple <$> elements.mapM (toIotaArraySharding devices)
    | .array s => .array <$> toIotaArraySharding devices s

/-- The tiles and the replication are kept, and each device sits on its tile, counted from the
first one. A sharding becomes replicated only if it has a single tile. -/
def ArrayRewritten : ArraySharding → ArraySharding → Prop
  | .manual, .manual => True
  | .placed .replicated, .placed .replicated => True
  | .placed (.maximal _), .placed (.maximal d) => d = 0
  | .placed (.tiled a replicated), .placed (.tiled b replicated') =>
    b.dimensions = a.dimensions ∧ replicated' = replicated ∧
      b.devices = a.devices.map fun d => d - a.devices.headD 0
  | .placed (.tiled a replicated), .placed .replicated =>
    replicated = true ∧ ∀ d ∈ a.dimensions.dropLast, d = 1
  | _, _ => False

/-- A tuple is written as one sharding where all of its elements are the same. -/
def Rewritten : InstructionSharding → InstructionSharding → Prop
  | .array s, .array s' => ArrayRewritten s s'
  | .tuple elements, .tuple elements' => List.Forall₂ ArrayRewritten elements elements'
  | .tuple elements, .array s => (s = .placed .replicated ∨ s = .manual) ∧ ∀ e ∈ elements, e = s
  | _, _ => False

section rewrite

variable (devices : DeviceList)

/-- What becomes a replicated sharding. -/
def IsWhole : ArraySharding → Prop
  | .placed .replicated => True
  | .placed (.tiled a replicated) => coversDevices devices a replicated = true
  | _ => False

/-- What is listed device by device has to count up. -/
def Convertible : ArraySharding → Prop
  | .placed (.tiled (.array dims array) replicated) =>
    coversDevices devices (.array dims array) replicated = true ∨
      ∃ next, array.head? = some next ∧ array = List.range' next array.length
  | _ => True

/-- A whole sharding has no other tiles, and no other one is both listed and replicated. -/
def Keeps : ArraySharding → Prop
  | .placed (.tiled a replicated) =>
    if coversDevices devices a replicated then ∀ d ∈ a.dimensions.dropLast, d = 1
    else a.isIota = true ∨ replicated = false
  | _ => True

def WellFormed : ArraySharding → Prop
  | .placed (.tiled a _) => a.WellFormed
  | _ => True

end rewrite

section devices

open MixedRadix

theorem devices_iota (iota : IotaTileAssignment) : (TileAssignment.iota iota).devices =
    (List.range iota.numElements).map fun n =>
      iota.offset + eval iota.system (rowMajor iota.dims (digits iota.dims n)) := by
  apply List.map_congr_left
  intro n _
  exact IotaTileAssignment.deviceAt_eq _

theorem rowMajor_digits {dims : List ℕ} {n : ℕ} (h : n < dims.prod) :
    rowMajor dims (digits dims n) = n := by
  obtain ⟨ds, hds, rfl⟩ := exists_rowMajor h
  rw [digits_rowMajor hds]

/-- The first device of an iota is its offset. -/
theorem headD_devices_iota (iota : IotaTileAssignment) :
    (TileAssignment.iota iota).devices.headD 0 = iota.offset := by
  obtain ⟨n, hn⟩ : ∃ n, iota.numElements = n + 1 :=
    Nat.exists_eq_succ_of_ne_zero iota.prod_pos.ne'
  rw [devices_iota, hn, List.range_succ_eq_map, List.map_cons, List.headD_cons,
    rowMajor_digits iota.prod_pos, eval_zero, Nat.add_zero]

theorem devices_offset_zero (iota : IotaTileAssignment) :
    (TileAssignment.iota { iota with offset := 0 }).devices =
      (TileAssignment.iota iota).devices.map fun d =>
        d - (TileAssignment.iota iota).devices.headD 0 := by
  rw [headD_devices_iota, devices_iota, devices_iota, List.map_map]
  apply List.map_congr_left
  intro n _
  have hsystem : { iota with offset := 0 }.system = iota.system := rfl
  simp [hsystem]

theorem devices_consecutiveIota {dims : List ℕ} (h : ∀ d ∈ dims, 0 < d) :
    (TileAssignment.iota (consecutiveIota dims 0 h)).devices = List.range dims.prod := by
  rw [devices_iota]
  apply List.ext_getElem (by simp [IotaTileAssignment.numElements, consecutiveIota])
  intro n hn hn'
  have hlt : n < dims.prod := by simpa using hn'
  simp [consecutiveIota, IotaTileAssignment.system, rowMajor_digits hlt, eval]

theorem map_sub_of_counts {xs : List ℕ} {first : ℕ} (h : xs = List.range' first xs.length) :
    (xs.map fun x => x - first) = List.range xs.length := by
  conv_lhs => rw [h]
  apply List.ext_getElem (by simp)
  intro n hn hn'
  simp

end devices

section array

variable {devices : DeviceList} {s s' : ArraySharding}

/-- A sharding is rewritten unless it is a list that does not count up. -/
theorem toIotaArraySharding_isOk_iff (hwf : WellFormed s) :
    (∃ s', toIotaArraySharding devices s = ok s') ↔ Convertible devices s := by
  match s, hwf with
  | .manual, _ => exact ⟨fun _ => trivial, fun _ => ⟨_, rfl⟩⟩
  | .placed .replicated, _ => exact ⟨fun _ => trivial, fun _ => ⟨_, rfl⟩⟩
  | .placed (.maximal d), _ => exact ⟨fun _ => trivial, fun _ => ⟨_, rfl⟩⟩
  | .placed (.tiled (.iota iota) replicated), _ =>
    refine ⟨fun _ => trivial, fun _ => ?_⟩
    rw [toIotaArraySharding]
    split <;> exact ⟨_, rfl⟩
  | .placed (.tiled (.array dims array) replicated), hwf =>
    rw [toIotaArraySharding, Convertible]
    split
    · rename_i hwhole
      exact ⟨fun _ => Or.inl hwhole, fun _ => ⟨_, rfl⟩⟩
    · rename_i hwhole
      rw [or_iff_right hwhole]
      have hpos : ∀ d ∈ dims, 0 < d := hwf.1
      constructor
      · rintro ⟨s', h⟩
        obtain ⟨next, hnext, h⟩ := bind_eq_ok.mp h
        split at h
        · rename_i hcounts
          exact ⟨next, deref_eq_ok.mp hnext, hcounts⟩
        · cases h
      · rintro ⟨next, hnext, hcounts⟩
        rw [toIotaAssignment, deref_eq_ok.mpr hnext, ok_bind, if_pos hcounts, dif_pos hpos]
        exact ⟨_, rfl⟩

/-- What is rewritten is rewritten well if it keeps its replication. -/
theorem arrayRewritten_iff (hwf : WellFormed s) (h : toIotaArraySharding devices s = ok s') :
    ArrayRewritten s s' ↔ Keeps devices s := by
  match s, hwf with
  | .manual, _ =>
    obtain rfl := ok.inj h
    exact Iff.rfl
  | .placed .replicated, _ =>
    obtain rfl := ok.inj h
    exact Iff.rfl
  | .placed (.maximal d), _ =>
    obtain rfl := ok.inj h
    exact ⟨fun _ => trivial, fun _ => rfl⟩
  | .placed (.tiled a replicated), hwf =>
    rw [toIotaArraySharding] at h
    rw [Keeps]
    split at h
    · rename_i hwhole
      obtain rfl := ok.inj h
      rw [if_pos hwhole]
      have hflag : replicated = true := (Bool.and_eq_true_iff.mp hwhole).1
      exact ⟨fun hone => hone.2, fun hone => ⟨hflag, hone⟩⟩
    · rename_i hwhole
      rw [if_neg hwhole]
      match a, hwf with
      | .iota iota, _ =>
        obtain rfl := ok.inj h
        exact ⟨fun _ => Or.inl rfl, fun _ => ⟨rfl, rfl, devices_offset_zero iota⟩⟩
      | .array dims array, hwf =>
        obtain ⟨next, hnext, h⟩ := bind_eq_ok.mp h
        split at h
        case isFalse => cases h
        rename_i hcounts
        split at h
        case isFalse => cases h
        rename_i hpos
        obtain rfl := ok.inj h
        have hhead := deref_eq_ok.mp hnext
        have hlen : array.length = dims.prod := hwf.2
        have hlist : (TileAssignment.iota (consecutiveIota dims 0 hpos)).devices =
            array.map fun d => d - array.headD 0 := by
          have hfirst : array.headD 0 = next := by
            rw [List.headD_eq_head?_getD, hhead]
            rfl
          rw [devices_consecutiveIota, hfirst, ← hlen]
          exact (map_sub_of_counts hcounts).symm
        constructor
        · rintro ⟨-, hflag, -⟩
          exact Or.inr hflag.symm
        · rintro (hfalse | rfl)
          · cases hfalse
          · exact ⟨rfl, rfl, hlist⟩

/-- A sharding that has been rewritten is left as it is. -/
theorem toIotaArraySharding_idempotent (h : toIotaArraySharding devices s = ok s') :
    toIotaArraySharding devices s' = ok s' := by
  match s with
  | .manual =>
    obtain rfl := ok.inj h
    rfl
  | .placed .replicated =>
    obtain rfl := ok.inj h
    rfl
  | .placed (.maximal d) =>
    obtain rfl := ok.inj h
    rfl
  | .placed (.tiled a replicated) =>
    rw [toIotaArraySharding] at h
    split at h
    · obtain rfl := ok.inj h
      rfl
    · rename_i hwhole
      match a with
      | .iota iota =>
        obtain rfl := ok.inj h
        have hsame : coversDevices devices (.iota { iota with offset := 0 }) replicated =
            coversDevices devices (.iota iota) replicated := rfl
        rw [toIotaArraySharding, hsame, if_neg hwhole]
        rfl
      | .array dims array =>
        obtain ⟨next, -, h⟩ := bind_eq_ok.mp h
        split at h
        case isFalse => cases h
        split at h
        case isFalse => cases h
        obtain rfl := ok.inj h
        rfl

/-- Only what is whole becomes replicated, and only what is manual stays so. -/
theorem toIotaArraySharding_eq_replicated_iff (h : toIotaArraySharding devices s = ok s') :
    (s' = .placed .replicated ↔ IsWhole devices s) ∧ (s' = .manual ↔ s = .manual) := by
  match s with
  | .manual =>
    obtain rfl := ok.inj h
    simp [IsWhole]
  | .placed .replicated =>
    obtain rfl := ok.inj h
    simp [IsWhole]
  | .placed (.maximal d) =>
    obtain rfl := ok.inj h
    simp [IsWhole]
  | .placed (.tiled a replicated) =>
    rw [toIotaArraySharding] at h
    split at h
    · rename_i hwhole
      obtain rfl := ok.inj h
      simp [IsWhole, hwhole]
    · rename_i hwhole
      match a with
      | .iota iota =>
        obtain rfl := ok.inj h
        simp [IsWhole, hwhole]
      | .array dims array =>
        obtain ⟨next, -, h⟩ := bind_eq_ok.mp h
        split at h
        case isFalse => cases h
        split at h
        case isFalse => cases h
        obtain rfl := ok.inj h
        simp [IsWhole, hwhole]

end array

section instruction

variable (devices : DeviceList)

def InstructionSharding.elements : InstructionSharding → List ArraySharding
  | array s => [s]
  | tuple elements => elements

/-- What the pass writes is right, and a second run leaves it. -/
def SanitizedWell (s : InstructionSharding) : Prop :=
  ∀ s', toIotaSharding devices s = ok s' → Rewritten s s' ∧ toIotaSharding devices s' = ok s'

/-- Every element keeps its replication, and a tuple does not come to be replicated as a whole
unless it was. -/
def Sanitizable : InstructionSharding → Prop
  | .array s => Keeps devices s
  | .tuple elements => (∀ e ∈ elements, e = .placed .replicated) ∨ (∀ e ∈ elements, e = .manual) ∨
      (∀ e ∈ elements, Keeps devices e) ∧ ∃ e ∈ elements, ¬IsWhole devices e

variable {devices}

theorem toIotaSharding_array (s : ArraySharding) :
    toIotaSharding devices (.array s) = .array <$> toIotaArraySharding devices s := by
  unfold toIotaSharding
  split
  · rename_i h
    obtain rfl : s = .placed .replicated := by simpa [InstructionSharding.isReplicated] using h
    rfl
  · split
    · rename_i h
      obtain rfl : s = .manual := by simpa [InstructionSharding.isManual] using h
      rfl
    · rfl

theorem sanitizedWell_array_iff {s : ArraySharding} (hwf : WellFormed s)
    (hconvertible : Convertible devices s) :
    SanitizedWell devices (.array s) ↔ Keeps devices s := by
  obtain ⟨s', hs'⟩ := (toIotaArraySharding_isOk_iff hwf).mpr hconvertible
  have hrun : toIotaSharding devices (.array s) = ok (.array s') := by
    rw [toIotaSharding_array, hs']
    rfl
  have hagain : toIotaSharding devices (.array s') = ok (.array s') := by
    rw [toIotaSharding_array, toIotaArraySharding_idempotent hs']
    rfl
  constructor
  · intro h
    exact (arrayRewritten_iff hwf hs').mp (h _ hrun).1
  · intro h s'' hs''
    obtain rfl := ok.inj (hrun.symm.trans hs'')
    exact ⟨(arrayRewritten_iff hwf hs').mpr h, hagain⟩

section tuple

variable {elements elements' : List ArraySharding}

theorem toIotaSharding_tuple (hreplicated : ¬∀ e ∈ elements, e = .placed .replicated)
    (hmanual : ¬∀ e ∈ elements, e = .manual) : toIotaSharding devices (.tuple elements) =
      .tuple <$> elements.mapM (toIotaArraySharding devices) := by
  unfold toIotaSharding
  rw [if_neg (by simpa [InstructionSharding.isReplicated] using hreplicated),
    if_neg (by simpa [InstructionSharding.isManual] using hmanual)]

theorem forall₂_rewritten_iff (hwf : ∀ e ∈ elements, WellFormed e)
    (h : List.Forall₂ (fun e e' => toIotaArraySharding devices e = ok e') elements elements') :
    List.Forall₂ ArrayRewritten elements elements' ↔ ∀ e ∈ elements, Keeps devices e := by
  induction h with
  | nil => simp
  | cons he _ ih =>
    rw [List.forall₂_cons, List.forall_mem_cons, arrayRewritten_iff (hwf _ List.mem_cons_self) he,
      ih fun e he => hwf e (List.mem_cons_of_mem _ he)]

theorem forall_replicated_iff
    (h : List.Forall₂ (fun e e' => toIotaArraySharding devices e = ok e') elements elements') :
    ((∀ e ∈ elements', e = .placed .replicated) ↔ ∀ e ∈ elements, IsWhole devices e) ∧
      ((∀ e ∈ elements', e = .manual) ↔ ∀ e ∈ elements, e = .manual) := by
  induction h with
  | nil => simp
  | cons he _ ih =>
    obtain ⟨hreplicated, hmanual⟩ := toIotaArraySharding_eq_replicated_iff he
    rw [List.forall_mem_cons, List.forall_mem_cons, List.forall_mem_cons, List.forall_mem_cons,
      hreplicated, hmanual, ih.1, ih.2]
    exact ⟨Iff.rfl, Iff.rfl⟩

theorem sanitizedWell_tuple_iff (hwf : ∀ e ∈ elements, WellFormed e)
    (hconvertible : ∀ e ∈ elements, Convertible devices e) :
    SanitizedWell devices (.tuple elements) ↔ Sanitizable devices (.tuple elements) := by
  by_cases hreplicated : ∀ e ∈ elements, e = .placed .replicated
  · have hrun : toIotaSharding devices (.tuple elements) = ok (.array (.placed .replicated)) := by
      unfold toIotaSharding
      rw [if_pos (by simpa [InstructionSharding.isReplicated] using hreplicated)]
      rfl
    refine ⟨fun _ => Or.inl hreplicated, fun _ s' hs' => ?_⟩
    obtain rfl := ok.inj (hrun.symm.trans hs')
    exact ⟨⟨Or.inl rfl, hreplicated⟩, rfl⟩
  by_cases hmanual : ∀ e ∈ elements, e = .manual
  · have hrun : toIotaSharding devices (.tuple elements) = ok (.array .manual) := by
      unfold toIotaSharding
      rw [if_neg (by simpa [InstructionSharding.isReplicated] using hreplicated),
        if_pos (by simpa [InstructionSharding.isManual] using hmanual)]
      rfl
    refine ⟨fun _ => Or.inr (Or.inl hmanual), fun _ s' hs' => ?_⟩
    obtain rfl := ok.inj (hrun.symm.trans hs')
    exact ⟨⟨Or.inr rfl, hmanual⟩, rfl⟩
  obtain ⟨elements', helements⟩ := exists_mapM_eq_ok (toIotaArraySharding devices) fun e he =>
    (toIotaArraySharding_isOk_iff (hwf e he)).mpr (hconvertible e he)
  have hrun : toIotaSharding devices (.tuple elements) = ok (.tuple elements') := by
    rw [toIotaSharding_tuple hreplicated hmanual, helements]
    rfl
  have hrel := mapM_eq_ok.mp helements
  have hagain : elements'.mapM (toIotaArraySharding devices) = ok elements' := by
    rw [mapM_eq_ok, List.forall₂_same]
    intro e' he'
    obtain ⟨e, -, he⟩ := exists_of_mem_mapM helements he'
    exact toIotaArraySharding_idempotent he
  rw [Sanitizable, or_iff_right hreplicated, or_iff_right hmanual, ← forall₂_rewritten_iff hwf hrel]
  have hmanual' : ¬∀ e ∈ elements', e = .manual := fun h =>
    hmanual ((forall_replicated_iff hrel).2.mp h)
  have hkeeps : toIotaSharding devices (.tuple elements') = ok (.tuple elements') ↔
      ∃ e ∈ elements, ¬IsWhole devices e := by
    have hwhole : (∃ e ∈ elements, ¬IsWhole devices e) ↔
        ¬∀ e ∈ elements', e = .placed .replicated := by
      rw [(forall_replicated_iff hrel).1]
      simp
    rw [hwhole]
    constructor
    · intro h hall
      unfold toIotaSharding at h
      rw [if_pos (by simpa [InstructionSharding.isReplicated] using hall)] at h
      cases h
    · intro hnot
      rw [toIotaSharding_tuple hnot hmanual', hagain]
      rfl
  rw [← hkeeps]
  constructor
  · exact fun h => h _ hrun
  · intro h s' hs'
    obtain rfl := ok.inj (hrun.symm.trans hs')
    exact h

end tuple

/-- Where a sharding is rewritten, each of its elements can be. -/
theorem convertible_of_ok {s s' : InstructionSharding} (hwf : ∀ e ∈ s.elements, WellFormed e)
    (h : toIotaSharding devices s = ok s') : ∀ e ∈ s.elements, Convertible devices e := by
  cases s with
  | array s =>
    intro e he
    obtain rfl : e = s := by simpa [InstructionSharding.elements] using he
    apply (toIotaArraySharding_isOk_iff (hwf e he)).mp
    rw [toIotaSharding_array] at h
    cases hs : toIotaArraySharding devices e with
    | ok s' => exact ⟨s', rfl⟩
    | error _ | fatal _ =>
      rw [hs] at h
      cases h
  | tuple elements =>
    intro e he
    by_cases hreplicated : ∀ e ∈ elements, e = .placed .replicated
    · rw [hreplicated e he]
      trivial
    by_cases hmanual : ∀ e ∈ elements, e = .manual
    · rw [hmanual e he]
      trivial
    rw [toIotaSharding_tuple hreplicated hmanual] at h
    apply (toIotaArraySharding_isOk_iff (hwf e he)).mp
    cases hs : elements.mapM (toIotaArraySharding devices) with
    | ok elements' => exact exists_mapM_iff.mp ⟨elements', hs⟩ e he
    | error _ | fatal _ =>
      rw [hs] at h
      cases h

/-- A sharding that can be rewritten is rewritten well, once and for all, just where no list
loses its replication, no other tile is lost, and no tuple comes to be replicated. -/
theorem toIotaSharding_sanitizesWell_iff (devices : DeviceList) (s : InstructionSharding)
    (hwf : ∀ e ∈ s.elements, WellFormed e) :
    SanitizedWell devices s ↔
      ((∀ e ∈ s.elements, Convertible devices e) → Sanitizable devices s) := by
  by_cases hconvertible : ∀ e ∈ s.elements, Convertible devices e
  · rw [forall_prop_of_true hconvertible]
    cases s with
    | array s =>
      have hmem : s ∈ (InstructionSharding.array s).elements := List.mem_singleton_self s
      exact sanitizedWell_array_iff (hwf s hmem) (hconvertible s hmem)
    | tuple elements => exact sanitizedWell_tuple_iff hwf hconvertible
  · refine ⟨fun _ h => absurd h hconvertible, fun _ s' hs' => ?_⟩
    exact absurd (convertible_of_ok hwf hs') hconvertible

end instruction

/-- Two tiles, each on two devices, listed device by device. -/
def listedPairs : InstructionSharding :=
  .array (.placed (.tiled (.array [2, 2] [4, 5, 6, 7]) true))

theorem listedPairs_loses_replication : ¬SanitizedWell ⟨4, 4⟩ listedPairs := by
  intro h
  have hrun : toIotaSharding ⟨4, 4⟩ listedPairs =
      ok (.array (.placed (.tiled (.iota (consecutiveIota [2, 2] 0 (by decide))) false))) := rfl
  have hflag : false = true := (h _ hrun).1.2.1
  cases hflag

theorem toIotaSharding_sanitizesWell_iff_listedPairs :
    SanitizedWell ⟨4, 4⟩ listedPairs ↔
      ((∀ e ∈ listedPairs.elements, Convertible ⟨4, 4⟩ e) → Sanitizable ⟨4, 4⟩ listedPairs) := by
  apply toIotaSharding_sanitizesWell_iff
  intro e he
  obtain rfl := List.mem_singleton.mp he
  exact ⟨by decide, rfl⟩

end Sharding
end MultiMeshJax
