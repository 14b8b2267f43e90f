import MultiMeshJax.Foundation.IndexedDigits
import MultiMeshJax.Sharding.ReplicateDims.Result

/-! What `ReplicateDims` has to keep, and the digits that it reads the devices by. -/
namespace MultiMeshJax
namespace Sharding

open StatusOr MixedRadix

section spec

variable (iota : IotaTileAssignment) (replicated : Bool) (replicatedDims : List ℕ)

/-- The tiles have the same coordinates along the dims that stay. -/
def AgreesOnKept (coordinate coordinate' : List ℕ) : Prop :=
  ∀ d ∈ keptDims iota replicated replicatedDims, coordinate.getD d 0 = coordinate'.getD d 0

/-- The extents of the dims that stay are kept and the others are one. Each tile is given
exactly the devices, counted from the first one, of the tiles that agree with it. -/
structure ReplicatesDims (s : OpSharding) : Prop where
  isIota : s.IsIota
  last : s.replicateOnLastTileDim = true
  length : s.tileAssignmentDimensions.length = numShapeDims iota.dims replicated + 1
  extent : ∀ d < numShapeDims iota.dims replicated, s.tileAssignmentDimensions[d]? =
    some (if d ∈ replicatedDims then 1 else iota.dims.getD d 1)
  devices : ∀ tile, List.Forall₂ (· < ·) tile
      (s.tileAssignmentDimensions.take (numShapeDims iota.dims replicated)) →
    s.deviceAt '' {c | c ∈ s.Tiles ∧ c.take (numShapeDims iota.dims replicated) = tile} =
      {device | ∃ coordinate, List.Forall₂ (· < ·) coordinate iota.dims ∧
        AgreesOnKept iota replicated replicatedDims coordinate tile ∧
        iota.deviceAt coordinate = iota.offset + device}

/-- A replicated sharding has one tile, on all devices. -/
def Replicated (s : OpSharding) : Prop :=
  s.type = .replicated ∧
      (∀ d ∈ keptDims iota replicated replicatedDims, iota.dims.getD d 1 = 1) ∨
    s.type = .other ∧ ReplicatesDims iota replicated replicatedDims s

/-- Each group of dims has the extent of its reshape dim. -/
def GroupsFit : Prop :=
  (iotaGroups iota).map (fun group => (permute 1 group iota.dims).prod) = iota.permutedReshapeDims

/-- The extents of the dims and how many devices a step along each of them skips, where the
groups fit. -/
def tileDigits : System :=
  ((iotaGroups iota).zip iota.system).flatMap fun x => run x.2.2 (permute 1 x.1 iota.dims)

/-- The digits that the function reads instead: it takes the order of the groups in the
permutation for their order on the devices, and this order for its own inverse. -/
def assumedDigits : System :=
  transposedSystem (permute 1 (assumedOrder iota) iota.dims) (assumedOrder iota)

def digitsAt (s : System) (dims : List ℕ) : System := dims.map fun d => s.getD d (1, 0)

/-- The digits of the dims that stay, followed by those that are given up, in any order, are
read as they are, but for digits that carry on from each other or have a single value. -/
def DigitsAgree : Prop :=
  ∃ order, order.Perm (givenUpDims iota replicated replicatedDims) ∧
    reduce (digitsAt (assumedDigits iota) (keptDims iota replicated replicatedDims ++
        givenUpDims iota replicated replicatedDims)) =
      reduce (digitsAt (tileDigits iota) (keptDims iota replicated replicatedDims ++ order))

end spec

variable {iota : IotaTileAssignment} {replicated : Bool} {replicatedDims : List ℕ}

theorem getD_dims_pos (d : ℕ) : 0 < iota.dims.getD d 1 := by
  rcases Nat.lt_or_ge d iota.dims.length with hlt | hge
  · rw [List.getD_eq_getElem _ _ hlt]
    exact iota.dims_pos _ (List.getElem_mem hlt)
  · rw [List.getD_eq_default _ _ hge]
    exact Nat.one_pos

namespace GroupsFit

theorem grouped (h : GroupsFit iota) : Grouped iota := by
  have hlen := congrArg List.length h
  rwa [List.length_map, IotaTileAssignment.permutedReshapeDims, List.length_map,
    IotaTileAssignment.length_transposePerm] at hlen

theorem length_eq (h : GroupsFit iota) : (iotaGroups iota).length = iota.system.length := by
  rw [h.grouped, IotaTileAssignment.system, List.length_map,
    IotaTileAssignment.length_transposePerm]

theorem map_fst_tileDigits (h : GroupsFit iota) : (tileDigits iota).map Prod.fst = iota.dims := by
  have hfst : ((iotaGroups iota).zip iota.system).map Prod.fst = iotaGroups iota :=
    List.map_fst_zip h.length_eq.le
  calc (tileDigits iota).map Prod.fst
      = (((iotaGroups iota).zip iota.system).map Prod.fst).flatMap
          fun group => permute 1 group iota.dims := by
        simp [tileDigits, List.map_flatMap, List.flatMap_map]
    _ = permute 1 (iotaGroups iota).flatten iota.dims := by
        rw [hfst, permute, List.map_flatten, List.flatMap]
        rfl
    _ = iota.dims := by rw [flatten_iotaGroups, permute_range]

/-- The digits of the dims are those of the reshape dims, taken apart. -/
theorem eval_tileDigits (h : GroupsFit iota) {n : ℕ} (hn : n < iota.dims.prod) :
    eval (tileDigits iota) n = eval iota.system n := by
  set runs := ((iotaGroups iota).zip iota.system).map fun x => (x.2.2, permute 1 x.1 iota.dims)
    with hruns
  have hsystem : runs.map (fun x => (x.2.prod, x.1)) = iota.system := by
    apply List.ext_getElem
    · simp [hruns, h.length_eq]
    · intro j hj hj'
      have hgroup : j < (iotaGroups iota).length := h.length_eq ▸ hj'
      have hextent := congrArg (fun l => l[j]?) h
      have hradix := congrArg (fun l => l[j]?) iota.map_fst_system
      rw [← hradix] at hextent
      simp only [List.getElem?_map, List.getElem?_eq_getElem hgroup, List.getElem?_eq_getElem hj',
        Option.map_some, Option.some.injEq] at hextent
      simp [hruns, hextent]
  have hflat : (runs.map fun x => run x.1 x.2).flatten = tileDigits iota := by
    rw [hruns, List.map_map, tileDigits, List.flatMap]
    rfl
  have hsize : size (runs.map fun x => (x.2.prod, x.1)) = iota.dims.prod := by
    rw [hsystem, size, iota.map_fst_system, iota.prod_permutedReshapeDims]
  rw [← hflat, eval_flatten_run (by rwa [hsize]), hsystem]

theorem getD_fst (h : GroupsFit iota) (d : ℕ) :
    ((tileDigits iota).getD d (1, 0)).1 = iota.dims.getD d 1 := by
  conv_rhs => rw [← h.map_fst_tileDigits]
  simp only [List.getD_eq_getElem?_getD, List.getElem?_map]
  cases (tileDigits iota)[d]? <;> rfl

theorem digitsAt_range (h : GroupsFit iota) :
    digitsAt (tileDigits iota) (List.range iota.dims.length) = tileDigits iota := by
  have hlength : (tileDigits iota).length = iota.dims.length := by
    rw [← h.map_fst_tileDigits, List.length_map]
  rw [← hlength]
  apply List.ext_getElem (by simp [digitsAt])
  intro d hd hd'
  simp [digitsAt, hd']

end GroupsFit

theorem idxOf_extra_map (hnodup : replicatedDims.Nodup) (n : ℕ) :
    replicatedDims.map (fun d => n + replicatedDims.idxOf d) =
      (List.range replicatedDims.length).map (n + ·) := by
  apply List.ext_getElem (by simp)
  intro j hj hj'
  have hj : j < replicatedDims.length := by simpa using hj
  simp [hnodup.idxOf_getElem j hj]

theorem extendedPermutation_perm {permutation : List ℕ}
    (hperm : permutation.Perm (List.range permutation.length)) (hnodup : replicatedDims.Nodup)
    (hlt : ∀ d ∈ replicatedDims, d < permutation.length) :
    (extendedPermutation permutation replicatedDims).Perm
      (List.range (permutation.length + replicatedDims.length)) := by
  set n := permutation.length
  set kept := (List.range n).filter fun d => decide (d ∉ replicatedDims) with hkept
  have hall : (replicatedDims ++ kept).Perm (List.range n) := by
    rw [List.perm_ext_iff_of_nodup _ List.nodup_range]
    · intro d
      have := hlt d
      by_cases hd : d ∈ replicatedDims <;> simp_all
    · rw [List.nodup_append]
      refine ⟨hnodup, List.nodup_range.filter _, ?_⟩
      intro d hd e he heq
      exact of_decide_eq_true (List.mem_filter.mp he).2 (heq ▸ hd)
  have hidentity : (List.range n).map (fun d => permutation.getD d 0) = permutation :=
    permute_range 0 permutation
  set extra : ℕ → ℕ := fun d =>
    if d ∈ replicatedDims then n + replicatedDims.idxOf d else permutation.getD d 0 with hextra
  have hreplicated : replicatedDims.map extra = (List.range replicatedDims.length).map (n + ·) := by
    rw [← idxOf_extra_map hnodup n]
    apply List.map_congr_left
    intro d hd
    simp [hextra, hd]
  have hstay : kept.map extra = kept.map fun d => permutation.getD d 0 := by
    apply List.map_congr_left
    intro d hd
    simp [hextra, of_decide_eq_true (List.mem_filter.mp hd).2]
  have hpermuted : (((replicatedDims ++ kept).map extra) ++
      replicatedDims.map fun d => permutation.getD d 0).Perm
      (permutation ++ (List.range replicatedDims.length).map (n + ·)) := by
    rw [List.map_append, hreplicated, hstay, List.append_assoc, ← List.map_append]
    apply List.perm_append_comm.trans
    apply List.Perm.append_right
    exact ((List.perm_append_comm.trans hall).map _).trans (.of_eq hidentity)
  apply ((hall.symm.map extra).append_right _).trans
  apply hpermuted.trans
  rw [List.range_add]
  exact hperm.append_right _

theorem prod_iotaReshapeDims (hgrouped : Grouped iota) :
    (replicatedSharding iota replicated replicatedDims).iotaReshapeDims.prod = iota.dims.prod := by
  simp [replicatedSharding, prod_permute (assumedOrder_perm hgrouped)]

/-- The assignment that is written has a device for each of its tiles. -/
theorem isIota_replicatedSharding (hgrouped : Grouped iota)
    (h : Replicable iota replicated replicatedDims) :
    (replicatedSharding iota replicated replicatedDims).IsIota := by
  have horder := assumedOrder_perm hgrouped
  have hlength : (assumedOrder iota).length = iota.dims.length := by simpa using horder.length_eq
  refine ⟨?_, ?_⟩
  · have horder : (assumedOrder iota).Perm (List.range (assumedOrder iota).length) := by
      rwa [hlength]
    have hperm := extendedPermutation_perm horder h.nodup fun d hd => by
      rw [hlength]
      exact h.lt_length hd
    simpa [replicatedSharding] using hperm
  · have hshape : ((List.range (numShapeDims iota.dims replicated)).map fun d =>
        if d ∈ replicatedDims then 1 else iota.dims.getD d 1).prod =
        ((keptDims iota replicated replicatedDims).map fun d =>
          if d ∈ replicatedDims then 1 else iota.dims.getD d 1).prod :=
      prod_indexed_filter (fun d => decide (d ∉ replicatedDims)) (by intro d _ hd; simp_all)
    have hkept : (permute 1 (keptDims iota replicated replicatedDims) iota.dims).prod =
        ((keptDims iota replicated replicatedDims).map fun d =>
          if d ∈ replicatedDims then 1 else iota.dims.getD d 1).prod := by
      congr 1
      apply List.map_congr_left
      intro d hd
      rw [if_neg (of_decide_eq_true (List.mem_filter.mp hd).2)]
    calc (replicatedSharding iota replicated replicatedDims).iotaReshapeDims.prod
        = iota.dims.prod := prod_iotaReshapeDims hgrouped
      _ = (permute 1 (keptDims iota replicated replicatedDims ++
            givenUpDims iota replicated replicatedDims) iota.dims).prod :=
          (prod_permute h.perm_range).symm
      _ = _ := by
          rw [replicatedSharding, List.prod_append, List.prod_singleton, hshape, replicationOf,
            permute, List.map_append, List.prod_append]
          exact congrArg (· * _) hkept

/-- The digits by which the assignment that is written reads the devices. -/
def writtenDigits (iota : IotaTileAssignment) (replicated : Bool) (replicatedDims : List ℕ) :
    System :=
  transposedSystem (replicatedSharding iota replicated replicatedDims).iotaReshapeDims
    (replicatedSharding iota replicated replicatedDims).iotaTransposePerm

theorem size_writtenDigits (hgrouped : Grouped iota)
    (h : Replicable iota replicated replicatedDims) :
    size (writtenDigits iota replicated replicatedDims) = iota.dims.prod := by
  rw [size, writtenDigits, map_fst_transposedSystem,
    prod_permute (isIota_replicatedSharding hgrouped h).perm]
  exact prod_iotaReshapeDims hgrouped

theorem writtenDigits_pos (hgrouped : Grouped iota)
    (h : Replicable iota replicated replicatedDims) :
    ∀ p ∈ writtenDigits iota replicated replicatedDims, 0 < p.1 := by
  intro p hp
  have hdvd := List.dvd_prod (List.mem_map_of_mem (f := Prod.fst) hp)
  exact Nat.pos_of_dvd_of_pos hdvd
    (by rw [← size, size_writtenDigits hgrouped h]; exact iota.prod_pos)

theorem deviceAt_eq_eval (hgrouped : Grouped iota)
    (h : Replicable iota replicated replicatedDims) (coordinate : List ℕ) :
    (replicatedSharding iota replicated replicatedDims).deviceAt coordinate =
      eval (writtenDigits iota replicated replicatedDims) (rowMajor
        (replicatedSharding iota replicated replicatedDims).tileAssignmentDimensions
        coordinate) := by
  rw [OpSharding.deviceAt, transposedAt_eq_eval (isIota_replicatedSharding hgrouped h).perm]
  exact Nat.zero_add _

/-- The system of the assignment that is written, for the dims that stay and the others. -/
theorem reduce_writtenDigits (hgrouped : Grouped iota)
    (h : Replicable iota replicated replicatedDims) :
    reduce (writtenDigits iota replicated replicatedDims) =
      reduce (digitsAt (assumedDigits iota) (keptDims iota replicated replicatedDims ++
        givenUpDims iota replicated replicatedDims)) := by
  have horder := assumedOrder_perm hgrouped
  set order := assumedOrder iota with horderEq
  have hlength : order.length = iota.dims.length := by simpa using horder.length_eq
  set reshape := permute 1 order iota.dims with hreshape
  set reshape' := reshape ++ replicatedDims.map (fun _ => 1) with hreshape'
  have hreshapeLength : reshape.length = iota.dims.length := by
    rw [hreshape, length_permute, hlength]
  have hdigit : ∀ d < iota.dims.length, (reshape'.getD (order.getD d 0) 1,
      (reshape'.drop (order.getD d 0 + 1)).prod) = (assumedDigits iota).getD d (1, 0) := by
    intro d hd
    have hd' : d < order.length := hlength ▸ hd
    have hlt : order[d] < reshape.length := by
      rw [hreshapeLength]
      exact List.mem_range.mp (horder.mem_iff.mp (List.getElem_mem hd'))
    have hdrop : (reshape'.drop (order[d] + 1)).prod = (reshape.drop (order[d] + 1)).prod := by
      rw [hreshape', List.drop_append_of_le_length (by omega), List.prod_append]
      simp
    rw [List.getD_eq_getElem _ _ hd', hdrop, hreshape', List.getD_append _ _ _ _ hlt]
    simp [assumedDigits, transposedSystem, ← horderEq, ← hreshape, hd']
  have hsplit : transposedSystem reshape' (extendedPermutation order replicatedDims) =
      (List.range iota.dims.length).map (fun d =>
        (reshape'.getD (if d ∈ replicatedDims then order.length + replicatedDims.idxOf d
          else order.getD d 0) 1,
        (reshape'.drop ((if d ∈ replicatedDims then order.length + replicatedDims.idxOf d
          else order.getD d 0) + 1)).prod)) ++
      digitsAt (assumedDigits iota) replicatedDims := by
    rw [transposedSystem, extendedPermutation, List.map_append, List.map_map, List.map_map, hlength,
      digitsAt]
    congr 1
    apply List.map_congr_left
    intro d hd
    exact hdigit d (h.lt_length hd)
  have hstay : (List.range iota.dims.length).filter (fun d => decide (d ∉ replicatedDims)) =
      keptDims iota replicated replicatedDims ++
        if replicated then [numShapeDims iota.dims true] else [] := by
    cases replicated with
    | false => simp [keptDims, numShapeDims]
    | true =>
      have hfresh : numShapeDims iota.dims true ∉ replicatedDims := fun hmem =>
        (h.lt _ hmem).false
      rw [h.length_eq, List.range_succ, List.filter_append]
      simp [keptDims, hfresh]
  calc reduce (transposedSystem reshape' (extendedPermutation order replicatedDims))
      = reduce (((List.range iota.dims.length).filter fun d => decide (d ∉ replicatedDims)).map
          (fun d => (assumedDigits iota).getD d (1, 0)) ++
            digitsAt (assumedDigits iota) replicatedDims) := by
        rw [hsplit]
        apply reduce_indexed_filter
        · intro d _ hd
          have hd : d ∈ replicatedDims := by simpa using hd
          rw [if_pos hd, hreshape', List.getD_append_right _ _ _ _ (by omega)]
          simp [List.getD_eq_getElem?_getD]
        · intro d hrange hd
          rw [if_neg (of_decide_eq_true hd)]
          exact hdigit d (List.mem_range.mp hrange)
    _ = _ := by
        rw [hstay, digitsAt, digitsAt, givenUpDims, List.map_append, List.map_append,
          List.map_append, List.append_assoc]

end Sharding
end MultiMeshJax
