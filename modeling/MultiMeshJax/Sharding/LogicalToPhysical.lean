import MultiMeshJax.Sharding.OpSharding

/-! `LogicalToPhysicalSharding`: the axes of a device grid are assigned to the dimensions of a
tensor. -/
namespace MultiMeshJax
namespace Sharding

open StatusOr MixedRadix

/-- The device axes that are used, and whether all of them have extent one. -/
def markUsedAxes (logicalToDeviceAxes : List (List ℕ)) (dims : List ℕ) :
    StatusOr (List Bool × Bool) :=
  logicalToDeviceAxes.flatten.foldlM (fun acc (dim : ℕ) => do
    let deviceAxesUsed ← assignAt acc.1 dim true
    let extent ← elementAt dims dim
    return (deviceAxesUsed, acc.2 && !decide (1 < extent))) (List.replicate dims.length false, true)

def sortAxes (axes : List ℕ) : List ℕ := axes.insertionSort (· ≤ ·)

/-- A single iota dimension is written where the axes are in their own order. -/
def logicalToPhysicalSharding (logicalToDeviceAxes : List (List ℕ)) (devices : DeviceList)
    (dims : List ℕ) (listAllDevices : Bool := false) : StatusOr OpSharding := do
  let (deviceAxesUsed, fullyReplicated) ← markUsedAxes logicalToDeviceAxes dims
  if logicalToDeviceAxes = [] ∨ fullyReplicated = true ∧ listAllDevices = false then
    return { type := .replicated }
  else
    let replicatedDeviceAxes := (List.range dims.length).filter fun dim =>
      !deviceAxesUsed.getD dim false
    let assignedDeviceAxes := logicalToDeviceAxes.map sortAxes
    let tileDims := assignedDeviceAxes.map fun axes => (permute 1 axes dims).prod
    let dimPermutation := assignedDeviceAxes.flatten ++ replicatedDeviceAxes
    let needPermutation := (List.range dims.length).any fun idx =>
      decide (dimPermutation[idx]? ≠ some idx)
    return {
      type := .other
      tileAssignmentDimensions :=
        if replicatedDeviceAxes = [] then tileDims
        else tileDims ++ [(permute 1 replicatedDeviceAxes dims).prod]
      iotaTransposePerm := if needPermutation then dimPermutation else [0]
      iotaReshapeDims := if needPermutation then dims else [dims.prod]
      replicateOnLastTileDim := !replicatedDeviceAxes.isEmpty
      iotaOffset := devices.start }

section grid

variable (axes : List (List ℕ)) (dims : List ℕ)

/-- The axes of the grid that no dimension is assigned. -/
def unassignedAxes : List ℕ := (List.range dims.length).filter fun a => !axes.flatten.contains a

/-- The groups of axes that the components of a tile coordinate are formed on. -/
def axisGroups : List (List ℕ) :=
  axes.map sortAxes ++ if unassignedAxes axes dims = [] then [] else [unassignedAxes axes dims]

/-- The tile coordinate that an index of the grid has. -/
def tileCoordinate (index : List ℕ) : List ℕ :=
  (axisGroups axes dims).map fun group => rowMajor (permute 1 group dims) (permute 0 group index)

/-- Each component of a tile coordinate counts as far as its axes do. -/
def gridTileDims : List ℕ := (axisGroups axes dims).map fun group => (permute 1 group dims).prod

variable {axes dims}

theorem flatten_axisGroups :
    (axisGroups axes dims).flatten = (axes.map sortAxes).flatten ++ unassignedAxes axes dims := by
  unfold axisGroups
  split
  · rename_i hnone
    simp [hnone]
  · simp

theorem flatten_sortAxes_perm : (axes.map sortAxes).flatten.Perm axes.flatten := by
  induction axes with
  | nil => rfl
  | cons assigned axes ih =>
    rw [List.map_cons, List.flatten_cons, List.flatten_cons]
    exact (List.perm_insertionSort _ assigned).append ih

/-- Every axis of the grid stands in one group. -/
theorem flatten_axisGroups_perm (hrange : ∀ a ∈ axes.flatten, a < dims.length)
    (hdisjoint : axes.flatten.Nodup) :
    (axisGroups axes dims).flatten.Perm (List.range dims.length) := by
  rw [flatten_axisGroups]
  have hperm : (axes.flatten ++ unassignedAxes axes dims).Perm (List.range dims.length) := by
    rw [List.perm_ext_iff_of_nodup _ List.nodup_range]
    · intro a
      simp only [List.mem_append, unassignedAxes, List.mem_filter, List.mem_range]
      by_cases ha : a ∈ axes.flatten
      · simp [ha, hrange a ha]
      · simp [ha]
    · rw [List.nodup_append]
      refine ⟨hdisjoint, List.nodup_range.filter _, ?_⟩
      intro a ha b hb heq
      have hb := (List.mem_filter.mp hb).2
      rw [← heq] at hb
      simp [ha] at hb
  exact (flatten_sortAxes_perm.append_right _).trans hperm

theorem permute_flatten (default : ℕ) (groups : List (List ℕ)) (xs : List ℕ) :
    (groups.map fun group => permute default group xs).flatten =
      permute default groups.flatten xs := by
  simp [permute, List.map_flatten]

/-- The components of the coordinate are the digits of the index in the order of the groups. -/
theorem rowMajor_tileCoordinate (index : List ℕ) :
    rowMajor (gridTileDims axes dims) (tileCoordinate axes dims index) =
      rowMajor (permute 1 (axisGroups axes dims).flatten dims)
        (permute 0 (axisGroups axes dims).flatten index) := by
  have hlength : ∀ g ∈ (axisGroups axes dims).map fun group =>
      (permute 1 group dims, permute 0 group index), g.2.length = g.1.length := by
    simp
  have h := rowMajor_flatten hlength
  rw [List.map_map, List.map_map, List.flatMap_map, List.flatMap_map] at h
  rw [← permute_flatten, ← permute_flatten]
  exact h

theorem prod_gridTileDims (hrange : ∀ a ∈ axes.flatten, a < dims.length)
    (hdisjoint : axes.flatten.Nodup) : (gridTileDims axes dims).prod = dims.prod := by
  rw [← prod_permute (flatten_axisGroups_perm hrange hdisjoint), ← permute_flatten,
    List.prod_flatten, List.map_map]
  rfl

theorem forall₂_tileCoordinate {index : List ℕ} (hrange : ∀ a ∈ axes.flatten, a < dims.length)
    (hdisjoint : axes.flatten.Nodup) (hindex : List.Forall₂ (· < ·) index dims) :
    List.Forall₂ (· < ·) (tileCoordinate axes dims index) (gridTileDims axes dims) := by
  rw [tileCoordinate, gridTileDims, List.forall₂_map_left_iff, List.forall₂_map_right_iff,
    List.forall₂_same]
  intro group hgroup
  apply rowMajor_lt
  rw [permute, permute, List.forall₂_map_left_iff, List.forall₂_map_right_iff, List.forall₂_same]
  intro a ha
  have hmem : a ∈ (axisGroups axes dims).flatten := List.mem_flatten.mpr ⟨group, hgroup, ha⟩
  have ha : a < dims.length :=
    List.mem_range.mp ((flatten_axisGroups_perm hrange hdisjoint).mem_iff.mp hmem)
  have ha' : a < index.length := hindex.length_eq ▸ ha
  rw [List.getD_eq_getElem _ _ ha, List.getD_eq_getElem _ _ ha']
  exact (List.forall₂_iff_get.mp hindex).2 a ha' ha

/-- Every tile is that of an index of the grid. -/
theorem exists_index {coordinate : List ℕ} (hrange : ∀ a ∈ axes.flatten, a < dims.length)
    (hdisjoint : axes.flatten.Nodup)
    (h : List.Forall₂ (· < ·) coordinate (gridTileDims axes dims)) :
    ∃ index, List.Forall₂ (· < ·) index dims ∧ tileCoordinate axes dims index = coordinate := by
  have hperm := flatten_axisGroups_perm hrange hdisjoint
  have hlt : rowMajor (gridTileDims axes dims) coordinate <
      (permute 1 (axisGroups axes dims).flatten dims).prod := by
    rw [prod_permute hperm, ← prod_gridTileDims hrange hdisjoint]
    exact rowMajor_lt h
  obtain ⟨ds, hds, hval⟩ := exists_rowMajor hlt
  have hlen : ds.length = dims.length := by
    have h' := hds.length_eq
    rw [length_permute, hperm.length_eq, List.length_range] at h'
    exact h'
  refine ⟨unpermute (axisGroups axes dims).flatten ds dims.length, forall₂_unpermute hperm hds, ?_⟩
  rw [← digits_rowMajor h, ← hval, ← permute_unpermute hperm hlen, ← rowMajor_tileCoordinate,
    digits_rowMajor]
  · rw [permute_unpermute hperm hlen]
  · exact forall₂_tileCoordinate hrange hdisjoint (forall₂_unpermute hperm hds)

end grid

section spec

variable {axes : List (List ℕ)} {dims : List ℕ}

theorem markUsedAxes_eq_ok (hrange : ∀ a ∈ axes.flatten, a < dims.length) :
    ∃ used replicated, markUsedAxes axes dims = ok (used, replicated) ∧
      (∀ a < dims.length, used.getD a false = axes.flatten.contains a) ∧
      (replicated = true → ∀ a ∈ axes.flatten, dims.getD a 1 ≤ 1) := by
  have h : ∀ (todo : List ℕ) (acc : List Bool × Bool), (∀ a ∈ todo, a < dims.length) →
      acc.1.length = dims.length → ∃ used replicated,
        todo.foldlM (fun (acc : List Bool × Bool) (dim : ℕ) => do
          let deviceAxesUsed ← assignAt acc.1 dim true
          let extent ← elementAt dims dim
          return (deviceAxesUsed, acc.2 && !decide (1 < extent))) acc = ok (used, replicated) ∧
        (∀ a < dims.length, used.getD a false = (acc.1.getD a false || todo.contains a)) ∧
        (replicated = true → acc.2 = true ∧ ∀ a ∈ todo, dims.getD a 1 ≤ 1) := by
    intro todo
    induction todo with
    | nil => exact fun acc _ _ => ⟨acc.1, acc.2, rfl, fun a _ => by simp, by simp⟩
    | cons dim todo ih =>
      intro acc hlt hlen
      have hdim := hlt dim List.mem_cons_self
      rw [List.foldlM_cons, assignAt_natCast (hlen ▸ hdim), ok_bind, elementAt_of_lt hdim, ok_bind,
        pure_eq, ok_bind]
      obtain ⟨used, replicated, hrun, hused, hone⟩ := ih (acc.1.set dim true, _)
        (fun a ha => hlt a (List.mem_cons_of_mem dim ha)) (by simpa using hlen)
      refine ⟨used, replicated, hrun, fun a ha => ?_, fun htrue => ?_⟩
      · rw [hused a ha]
        by_cases heq : a = dim
        · subst heq
          simp [List.getD_eq_getElem?_getD, hlen, ha]
        · simp [List.getD_eq_getElem?_getD, List.getElem?_set_ne (Ne.symm heq), heq]
      · obtain ⟨hboth, hrest⟩ := hone htrue
        have hextent : dims.getD dim 1 ≤ 1 := by
          simpa [List.getD_eq_getElem?_getD, hdim] using (Bool.and_eq_true_iff.mp hboth).2
        exact ⟨(Bool.and_eq_true_iff.mp hboth).1, List.forall_mem_cons.mpr ⟨hextent, hrest⟩⟩
  obtain ⟨used, replicated, hrun, hused, hone⟩ := h axes.flatten
    (List.replicate dims.length false, true) hrange (by simp)
  refine ⟨used, replicated, hrun, fun a ha => ?_, fun htrue => (hone htrue).2⟩
  rw [hused a ha]
  simp [List.getD_eq_getElem?_getD, ha]

/-- What is written for a sharding that is not replicated. -/
theorem logicalToPhysicalSharding_eq_ok {devices : DeviceList} {listAllDevices : Bool}
    (hrange : ∀ a ∈ axes.flatten, a < dims.length) :
    ∃ s, logicalToPhysicalSharding axes devices dims listAllDevices = ok s ∧
      (s.type = .replicated ∧ (∀ a ∈ axes.flatten, dims.getD a 1 ≤ 1) ∨ s.type = .other ∧
        s.tileAssignmentDimensions = gridTileDims axes dims ∧ s.iotaOffset = devices.start ∧
        s.replicateOnLastTileDim = !(unassignedAxes axes dims).isEmpty ∧
        (s.iotaReshapeDims = dims ∧ s.iotaTransposePerm = (axisGroups axes dims).flatten ∨
          (∀ a < dims.length, (axisGroups axes dims).flatten[a]? = some a) ∧
            s.iotaReshapeDims = [dims.prod] ∧ s.iotaTransposePerm = [0])) := by
  obtain ⟨used, replicated, hmark, hused, hone⟩ := markUsedAxes_eq_ok hrange
  unfold logicalToPhysicalSharding
  rw [hmark, ok_bind]
  dsimp only
  split
  · rename_i hreplicated
    refine ⟨_, rfl, Or.inl ⟨rfl, ?_⟩⟩
    rcases hreplicated with rfl | hreplicated
    · simp
    · exact hone hreplicated.1
  · have hunassigned : ((List.range dims.length).filter fun dim => !used.getD dim false) =
        unassignedAxes axes dims := by
      apply List.filter_congr
      intro a ha
      rw [hused a (List.mem_range.mp ha)]
    rw [hunassigned, ← flatten_axisGroups]
    refine ⟨_, rfl, Or.inr ⟨rfl, ?_, rfl, rfl, ?_⟩⟩
    · unfold gridTileDims axisGroups
      split
      · simp
      · simp
    · dsimp only
      split
      · exact Or.inl ⟨rfl, rfl⟩
      · rename_i hsorted
        refine Or.inr ⟨?_, rfl, rfl⟩
        simpa using hsorted

/-- The device at an index of the grid sits at the tile that the digits of the index on the
assigned axes give, and the tiles and the devices correspond one to one. -/
structure PlacesGrid (axes : List (List ℕ)) (devices : DeviceList) (dims : List ℕ)
    (s : OpSharding) : Prop where
  iota : s.IsIota
  tile : ∀ index, List.Forall₂ (· < ·) index dims → tileCoordinate axes dims index ∈ s.Tiles
  place : ∀ index, List.Forall₂ (· < ·) index dims →
    s.deviceAt (tileCoordinate axes dims index) = devices.start + rowMajor dims index
  bijective : Set.BijOn s.deviceAt s.Tiles
    {device | device ∈ (DeviceList.mk devices.start dims.prod).toList}

theorem logicalToPhysicalSharding_places (axes : List (List ℕ)) (devices : DeviceList)
    (dims : List ℕ) (listAllDevices : Bool) (hrange : ∀ a ∈ axes.flatten, a < dims.length)
    (hdisjoint : axes.flatten.Nodup) :
    ∃ s, logicalToPhysicalSharding axes devices dims listAllDevices = ok s ∧
      (s.type ≠ .replicated → PlacesGrid axes devices dims s) := by
  obtain ⟨s, hrun, hs⟩ := logicalToPhysicalSharding_eq_ok hrange
  refine ⟨s, hrun, fun hother => ?_⟩
  rcases hs with ⟨hs, -⟩ | ⟨-, htiles, hoffset, -, hiota⟩
  · exact absurd hs hother
  have hperm := flatten_axisGroups_perm hrange hdisjoint
  have hvalid : s.IsIota := by
    rcases hiota with ⟨hreshape, htranspose⟩ | ⟨-, hreshape, htranspose⟩
    · exact ⟨by rw [hreshape, htranspose]; exact hperm,
        by rw [hreshape, htiles, prod_gridTileDims hrange hdisjoint]⟩
    · exact ⟨by rw [hreshape, htranspose]; exact .refl _,
        by rw [hreshape, htiles, prod_gridTileDims hrange hdisjoint, List.prod_singleton]⟩
  have hplace : ∀ index, List.Forall₂ (· < ·) index dims →
      s.deviceAt (tileCoordinate axes dims index) = devices.start + rowMajor dims index := by
    intro index hindex
    rw [OpSharding.deviceAt, hoffset, htiles, rowMajor_tileCoordinate]
    congr 1
    rcases hiota with ⟨hreshape, htranspose⟩ | ⟨hsorted, hreshape, htranspose⟩
    · rw [hreshape, htranspose, transposedAt_rowMajor hperm hindex]
    · have hidentity : (axisGroups axes dims).flatten = List.range dims.length := by
        apply List.ext_getElem (by simpa using hperm.length_eq)
        intro a ha ha'
        have ha' : a < dims.length := by simpa using ha'
        simpa [List.getElem?_eq_getElem ha] using hsorted a ha'
      have hindex' : permute 0 (List.range dims.length) index = index := by
        rw [← hindex.length_eq, permute_range]
      rw [hreshape, htranspose, hidentity, permute_range, hindex', transposedAt_single]
  have hinTiles : ∀ index, List.Forall₂ (· < ·) index dims →
      tileCoordinate axes dims index ∈ s.Tiles := by
    intro index hindex
    rw [OpSharding.Tiles, htiles]
    exact forall₂_tileCoordinate hrange hdisjoint hindex
  have hindexed : ∀ coordinate ∈ s.Tiles, ∃ index, List.Forall₂ (· < ·) index dims ∧
      tileCoordinate axes dims index = coordinate := by
    intro coordinate hcoordinate
    rw [OpSharding.Tiles, htiles] at hcoordinate
    exact exists_index hrange hdisjoint hcoordinate
  refine ⟨hvalid, hinTiles, hplace, ?_, ?_, ?_⟩
  · intro coordinate hcoordinate
    obtain ⟨index, hindex, rfl⟩ := hindexed coordinate hcoordinate
    have hlt := rowMajor_lt hindex
    rw [Set.mem_ofPred_eq, hplace index hindex, DeviceList.toList, List.mem_range'_1]
    exact ⟨Nat.le_add_right _ _, by dsimp only; omega⟩
  · intro coordinate hcoordinate coordinate' hcoordinate' heq
    obtain ⟨index, hindex, rfl⟩ := hindexed coordinate hcoordinate
    obtain ⟨index', hindex', rfl⟩ := hindexed coordinate' hcoordinate'
    rw [hplace index hindex, hplace index' hindex', Nat.add_left_cancel_iff] at heq
    rw [← digits_rowMajor hindex, heq, digits_rowMajor hindex']
  · intro device hdevice
    rw [Set.mem_ofPred_eq, DeviceList.toList, List.mem_range'_1] at hdevice
    dsimp only at hdevice
    obtain ⟨index, hindex, hval⟩ := exists_rowMajor
      (by omega : device - devices.start < dims.prod)
    refine ⟨tileCoordinate axes dims index, hinTiles index hindex, ?_⟩
    rw [hplace index hindex, hval]
    omega

theorem logicalToPhysicalSharding_places_doubleAxis :
    ∃ s, logicalToPhysicalSharding [[0, 2], [], [1]] ⟨0, 12⟩ [3, 2, 2] = ok s ∧
      (s.type ≠ .replicated → PlacesGrid [[0, 2], [], [1]] ⟨0, 12⟩ [3, 2, 2] s) :=
  logicalToPhysicalSharding_places _ _ _ _ (by decide) (by decide)

example : (logicalToPhysicalSharding [[1], [], [0]] ⟨0, 6⟩ [3, 2]).toOption.map
    (fun s => [0, 1].flatMap fun a => [0, 1, 2].map fun b => s.deviceAt [a, 0, b]) =
      some [0, 2, 4, 1, 3, 5] := by decide

end spec

end Sharding
end MultiMeshJax
