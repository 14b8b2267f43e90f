import MultiMeshJax.Sharding.ReplicateDims.Digits

/-! `ReplicateDims` keeps the devices of the tiles where the order that it takes the dims to
have counts the devices as their true order does. -/
namespace MultiMeshJax
namespace Sharding

open StatusOr MixedRadix

variable {iota : IotaTileAssignment} {replicated : Bool} {replicatedDims : List ℕ}
  {order : List ℕ} {g : ℕ → ℕ}

theorem forall₂_coordinate (hg : ∀ d < iota.dims.length, g d < iota.dims.getD d 1) :
    List.Forall₂ (· < ·) ((List.range iota.dims.length).map g) iota.dims := by
  have hall : (List.range iota.dims.length).map (fun d => iota.dims.getD d 1) = iota.dims :=
    permute_range 1 iota.dims
  have hbound := forall₂_indexed (f := fun d => (iota.dims.getD d 1, 0)) (g := g)
    fun d hd => hg d (List.mem_range.mp hd)
  rwa [hall] at hbound

/-- The extents of the dims, taken at the dims that stay and then the others. -/
theorem prod_digitsAt (hfit : GroupsFit iota) (h : Replicable iota replicated replicatedDims)
    (horder : order.Perm (givenUpDims iota replicated replicatedDims)) :
    ((keptDims iota replicated replicatedDims ++ order).map fun d =>
      ((tileDigits iota).getD d (1, 0)).1).prod = iota.dims.prod := by
  have hperm := (horder.append_left (keptDims iota replicated replicatedDims)).trans h.perm_range
  rw [List.map_congr_left fun d _ => hfit.getD_fst d]
  exact prod_permute hperm

/-- The coordinates of a tile count the devices in any order of the dims. -/
theorem eval_digitsAt (hfit : GroupsFit iota) (h : Replicable iota replicated replicatedDims)
    (horder : order.Perm (givenUpDims iota replicated replicatedDims))
    (hg : ∀ d < iota.dims.length, g d < iota.dims.getD d 1) :
    eval (digitsAt (tileDigits iota) (keptDims iota replicated replicatedDims ++ order))
        (rowMajor ((keptDims iota replicated replicatedDims ++ order).map fun d =>
            ((tileDigits iota).getD d (1, 0)).1)
          ((keptDims iota replicated replicatedDims ++ order).map g)) =
      eval iota.system (rowMajor iota.dims ((List.range iota.dims.length).map g)) := by
  have hperm := (horder.append_left (keptDims iota replicated replicatedDims)).trans h.perm_range
  have hbound : ∀ d ∈ keptDims iota replicated replicatedDims ++ order,
      g d < ((tileDigits iota).getD d (1, 0)).1 := by
    intro d hd
    rw [hfit.getD_fst]
    exact hg d (List.mem_range.mp (hperm.mem_iff.mp hd))
  have htile := forall₂_coordinate hg
  have hdigits := hfit.digitsAt_range
  rw [digitsAt] at hdigits
  have hradices : (List.range iota.dims.length).map
      (fun d => ((tileDigits iota).getD d (1, 0)).1) = iota.dims := by
    rw [List.map_congr_left fun d _ => hfit.getD_fst d]
    exact permute_range 1 iota.dims
  rw [← hfit.eval_tileDigits (rowMajor_lt htile), digitsAt, eval_indexed_perm hperm hbound,
    hdigits, hradices]

/-- Where the digits agree, a tile of the result has the device of any tile that it has the
coordinates of along the dims that stay. -/
theorem deviceAt_replicatedSharding (hfit : GroupsFit iota)
    (h : Replicable iota replicated replicatedDims)
    (horder : order.Perm (givenUpDims iota replicated replicatedDims))
    (hreduce : reduce (digitsAt (assumedDigits iota) (keptDims iota replicated replicatedDims ++
        givenUpDims iota replicated replicatedDims)) =
      reduce (digitsAt (tileDigits iota) (keptDims iota replicated replicatedDims ++ order)))
    (hg : ∀ d < iota.dims.length, g d < iota.dims.getD d 1) {tile : List ℕ}
    (htile : List.Forall₂ (· < ·) tile ((List.range (numShapeDims iota.dims replicated)).map
      fun d => if d ∈ replicatedDims then 1 else iota.dims.getD d 1))
    (hagree : ∀ d ∈ keptDims iota replicated replicatedDims, tile.getD d 0 = g d) :
    (replicatedSharding iota replicated replicatedDims).deviceAt
        (tile ++ [rowMajor (permute 1 order iota.dims) (order.map g)]) =
      eval iota.system (rowMajor iota.dims ((List.range iota.dims.length).map g)) := by
  set s := replicatedSharding iota replicated replicatedDims with hs
  set kept := keptDims iota replicated replicatedDims with hkept
  set n := numShapeDims iota.dims replicated with hn
  have hperm := (horder.append_left kept).trans h.perm_range
  -- the position of the tile, with the digits of the dims that stay in front
  have hposition : rowMajor s.tileAssignmentDimensions
      (tile ++ [rowMajor (permute 1 order iota.dims) (order.map g)]) =
      rowMajor ((kept ++ order).map fun d => ((tileDigits iota).getD d (1, 0)).1)
        ((kept ++ order).map g) := by
    have hall : (List.range n).map (fun d => tile.getD d 0) = tile := by
      have hlen : tile.length = n := by simpa using htile.length_eq
      rw [← hlen]
      exact permute_range 0 tile
    have hshape : rowMajor ((List.range n).map fun d =>
        if d ∈ replicatedDims then 1 else iota.dims.getD d 1) tile =
        rowMajor (permute 1 kept iota.dims) (kept.map g) := by
      conv_lhs => rw [← hall]
      rw [rowMajor_indexed_filter (fun d => decide (d ∉ replicatedDims))]
      · congr 1
        · apply List.map_congr_left
          intro d hd
          exact if_neg (of_decide_eq_true (List.mem_filter.mp hd).2)
        · exact List.map_congr_left hagree
      · intro d _ hd
        simp_all
      · intro d hrange hd
        have hd : d ∈ replicatedDims := by simpa using hd
        have hlt : d < n := List.mem_range.mp hrange
        have hlen : d < tile.length := by
          have := htile.length_eq
          simp only [List.length_map, List.length_range] at this
          omega
        have hone := (List.forall₂_iff_get.mp htile).2 d hlen (by simpa using hlt)
        rw [List.getD_eq_getElem _ _ hlen]
        simpa [hd] using hone
    have hreplication : replicationOf iota replicated replicatedDims =
        (permute 1 order iota.dims).prod := ((horder.map _).prod_eq).symm
    have hradices : (kept ++ order).map (fun d => ((tileDigits iota).getD d (1, 0)).1) =
        permute 1 kept iota.dims ++ permute 1 order iota.dims := by
      rw [List.map_congr_left fun d _ => hfit.getD_fst d, List.map_append]
      rfl
    rw [hs, replicatedSharding, rowMajor_append (by simpa using htile.length_eq), hshape, hradices,
      List.map_append, rowMajor_append (by simp)]
    simp [rowMajor, hreplication]
  have hlt : rowMajor s.tileAssignmentDimensions
      (tile ++ [rowMajor (permute 1 order iota.dims) (order.map g)]) < iota.dims.prod := by
    rw [hposition, ← prod_digitsAt hfit h horder]
    apply rowMajor_lt
    apply forall₂_indexed (f := fun d => (tileDigits iota).getD d (1, 0))
    intro d hd
    rw [hfit.getD_fst]
    exact hg d (List.mem_range.mp (hperm.mem_iff.mp hd))
  have hpos : ∀ p ∈ digitsAt (tileDigits iota) (kept ++ order), 0 < p.1 := by
    intro p hp
    obtain ⟨d, -, rfl⟩ := List.mem_map.mp hp
    rw [hfit.getD_fst]
    exact getD_dims_pos d
  have hsize : size (digitsAt (tileDigits iota) (kept ++ order)) = iota.dims.prod := by
    rw [← prod_digitsAt hfit h horder, size, digitsAt, List.map_map]
    rfl
  rw [deviceAt_eq_eval hfit.grouped h, ← eval_reduce (writtenDigits_pos hfit.grouped h)
      (by rwa [size_writtenDigits hfit.grouped h]), reduce_writtenDigits hfit.grouped h, hreduce,
    eval_reduce hpos (by rwa [hsize]), ← hs, hposition, eval_digitsAt hfit h horder hg]

theorem take_tileDims :
    (replicatedSharding iota replicated replicatedDims).tileAssignmentDimensions.take
      (numShapeDims iota.dims replicated) =
      (List.range (numShapeDims iota.dims replicated)).map fun d =>
        if d ∈ replicatedDims then 1 else iota.dims.getD d 1 := by
  rw [replicatedSharding, List.take_left' (by simp)]

theorem getD_lt_of_kept {tile : List ℕ} {d : ℕ}
    (htile : List.Forall₂ (· < ·) tile ((List.range (numShapeDims iota.dims replicated)).map
      fun d => if d ∈ replicatedDims then 1 else iota.dims.getD d 1))
    (hd : d ∈ keptDims iota replicated replicatedDims) : tile.getD d 0 < iota.dims.getD d 1 := by
  obtain ⟨hrange, hkept⟩ := List.mem_filter.mp hd
  have hlt := List.mem_range.mp hrange
  have hlen : d < tile.length := by
    have := htile.length_eq
    simp only [List.length_map, List.length_range] at this
    omega
  have hbound := (List.forall₂_iff_get.mp htile).2 d hlen (by simpa using hlt)
  rw [List.getD_eq_getElem _ _ hlen]
  simpa [of_decide_eq_true hkept] using hbound

/-- The devices of a tile are numbered by the coordinates along the dims that are given up. -/
theorem exists_coordinate (h : Replicable iota replicated replicatedDims)
    (horder : order.Perm (givenUpDims iota replicated replicatedDims)) {tile : List ℕ} {k : ℕ}
    (htile : List.Forall₂ (· < ·) tile ((List.range (numShapeDims iota.dims replicated)).map
      fun d => if d ∈ replicatedDims then 1 else iota.dims.getD d 1))
    (hk : k < (permute 1 order iota.dims).prod) :
    ∃ g : ℕ → ℕ, (∀ d < iota.dims.length, g d < iota.dims.getD d 1) ∧
      (∀ d ∈ keptDims iota replicated replicatedDims, tile.getD d 0 = g d) ∧
      rowMajor (permute 1 order iota.dims) (order.map g) = k := by
  have hperm := (horder.append_left (keptDims iota replicated replicatedDims)).trans h.perm_range
  have hnodup := List.nodup_append.mp (hperm.nodup_iff.mpr List.nodup_range)
  obtain ⟨f, hf, hvalue⟩ := exists_indexed hnodup.2.1 hk
  have hfresh : ∀ d ∈ order, d ∉ keptDims iota replicated replicatedDims :=
    fun d hgiven hkept => hnodup.2.2 d hkept d hgiven rfl
  refine ⟨fun d => if d ∈ keptDims iota replicated replicatedDims then tile.getD d 0 else f d,
    ?_, fun d hkept => (if_pos hkept).symm, ?_⟩
  · intro d hd
    dsimp only
    rcases List.mem_append.mp (hperm.mem_iff.mpr (List.mem_range.mpr hd)) with hkept | hgiven
    · rw [if_pos hkept]
      exact getD_lt_of_kept htile hkept
    · rw [if_neg (hfresh d hgiven)]
      exact hf d hgiven
  · rw [← hvalue]
    apply congrArg (rowMajor _)
    apply List.map_congr_left
    intro d hgiven
    exact if_neg (hfresh d hgiven)

/-- Where the digits agree, each tile keeps the devices of the tiles that agree with it. -/
theorem replicatesDims_replicatedSharding (hfit : GroupsFit iota)
    (h : Replicable iota replicated replicatedDims)
    (hdigits : DigitsAgree iota replicated replicatedDims) :
    ReplicatesDims iota replicated replicatedDims
      (replicatedSharding iota replicated replicatedDims) := by
  obtain ⟨order, horder, hreduce⟩ := hdigits
  have hperm := (horder.append_left (keptDims iota replicated replicatedDims)).trans h.perm_range
  have hreplication : replicationOf iota replicated replicatedDims =
      (permute 1 order iota.dims).prod := ((horder.map _).prod_eq).symm
  refine ⟨isIota_replicatedSharding hfit.grouped h, rfl, by simp [replicatedSharding], ?_, ?_⟩
  · intro d hd
    rw [replicatedSharding, List.getElem?_append_left (by simpa using hd), List.getElem?_map,
      List.getElem?_range hd]
    rfl
  · intro tile htile
    rw [take_tileDims] at htile
    have hlen : tile.length = numShapeDims iota.dims replicated := by simpa using htile.length_eq
    ext device
    constructor
    · rintro ⟨c, ⟨hc, htake⟩, rfl⟩
      obtain ⟨k, hk, hsplit⟩ := exists_concat_of_forall₂ hc
      rw [List.length_map, List.length_range, htake] at hsplit
      obtain ⟨g, hbound, hagree, hvalue⟩ :=
        exists_coordinate h horder htile (k := k) (hreplication ▸ hk)
      refine ⟨(List.range iota.dims.length).map g, forall₂_coordinate hbound, ?_, ?_⟩
      · intro d hkept
        have hd := List.mem_range.mp (hperm.mem_iff.mp (List.mem_append_left order hkept))
        rw [hagree d hkept]
        simp [hd]
      · have hdevice := deviceAt_replicatedSharding hfit h horder hreduce hbound htile hagree
        rw [hsplit, ← hvalue, hdevice, iota.deviceAt_eq]
    · rintro ⟨coordinate, hcoordinate, hagree, hdevice⟩
      have hbound : ∀ d < iota.dims.length, coordinate.getD d 0 < iota.dims.getD d 1 := by
        intro d hd
        have hd' : d < coordinate.length := hcoordinate.length_eq ▸ hd
        rw [List.getD_eq_getElem _ _ hd, List.getD_eq_getElem _ _ hd']
        exact (List.forall₂_iff_get.mp hcoordinate).2 d hd' hd
      have hall :
          (List.range iota.dims.length).map (fun d => coordinate.getD d 0) = coordinate := by
        rw [← hcoordinate.length_eq]
        exact permute_range 0 coordinate
      have hnumber := deviceAt_replicatedSharding hfit h horder hreduce hbound htile
        fun d hkept => (hagree d hkept).symm
      rw [hall] at hnumber
      refine ⟨_, ⟨?_, List.take_left' hlen⟩, hnumber.trans ?_⟩
      · have hlast : rowMajor (permute 1 order iota.dims)
            (order.map fun d => coordinate.getD d 0) <
              replicationOf iota replicated replicatedDims := by
          rw [hreplication]
          apply rowMajor_lt
          apply forall₂_indexed (f := fun d => (iota.dims.getD d 1, 0))
          intro d hd
          exact hbound d (List.mem_range.mp (hperm.mem_iff.mp (List.mem_append_right _ hd)))
        exact List.rel_append htile (.cons hlast .nil)
      · rw [iota.deviceAt_eq] at hdevice
        exact Nat.add_left_cancel hdevice

/-- Every dim that stays has a single tile. -/
def GivesUpAll (iota : IotaTileAssignment) (replicated : Bool) (replicatedDims : List ℕ) : Prop :=
  ∀ d ∈ keptDims iota replicated replicatedDims, iota.dims.getD d 1 = 1

theorem replicationOf_eq_iff (h : Replicable iota replicated replicatedDims) :
    replicationOf iota replicated replicatedDims = iota.numElements ↔
      GivesUpAll iota replicated replicatedDims := by
  have hall : (permute 1 (keptDims iota replicated replicatedDims) iota.dims).prod *
      replicationOf iota replicated replicatedDims = iota.numElements := by
    rw [replicationOf, IotaTileAssignment.numElements, ← List.prod_append,
      ← prod_permute h.perm_range, permute, permute, permute, List.map_append]
  have hone : (permute 1 (keptDims iota replicated replicatedDims) iota.dims).prod = 1 ↔
      GivesUpAll iota replicated replicatedDims := by
    constructor
    · intro hprod d hd
      have hdvd := List.dvd_prod (List.mem_map_of_mem (f := fun d => iota.dims.getD d 1) hd)
      rw [permute] at hprod
      rw [hprod] at hdvd
      exact Nat.dvd_one.mp hdvd
    · intro hunit
      apply List.prod_eq_one
      intro r hr
      obtain ⟨d, hd, rfl⟩ := List.mem_map.mp hr
      exact hunit d hd
  rw [← hone]
  constructor
  · intro hwhole
    rw [hwhole] at hall
    have hpos : 0 < iota.numElements := iota.prod_pos
    exact Nat.eq_of_mul_eq_mul_right hpos (by rw [hall, one_mul])
  · intro hunit
    rw [← hall, hunit, one_mul]

/-- Tiles are given up faithfully where all of them are, and where the order that is taken for
the order of the dims on the devices has the digits of the true one. -/
theorem replicateDims_replicated (h : Replicable iota replicated replicatedDims)
    (hgrouped : Grouped iota)
    (hdigits : GivesUpAll iota replicated replicatedDims ∨
      GroupsFit iota ∧ DigitsAgree iota replicated replicatedDims) :
    ∃ s, replicateDims replicatedDims (.tiled (.iota iota) replicated) = ok s ∧
      Replicated iota replicated replicatedDims s := by
  refine ⟨_, replicateDims_eq_ok hgrouped h, ?_⟩
  split
  · rename_i hwhole
    exact Or.inl ⟨rfl, (replicationOf_eq_iff h).mp hwhole⟩
  · rename_i hpart
    rcases hdigits with hall | ⟨hfit, hdigits⟩
    · exact absurd ((replicationOf_eq_iff h).mpr hall) hpart
    · exact Or.inr ⟨rfl, replicatesDims_replicatedSharding hfit h hdigits⟩

/-- Where no dim is given up, the digits have to agree. -/
theorem digitsAgree_of_replicatesDims (hfit : GroupsFit iota)
    (h : ReplicatesDims iota false [] (replicatedSharding iota false [])) :
    DigitsAgree iota false [] := by
  have hreplicable : Replicable iota false [] := ⟨by simp, by simp, by simp⟩
  have hkept : keptDims iota false [] = List.range iota.dims.length := by
    simp [keptDims, numShapeDims]
  have hgiven : givenUpDims iota false [] = [] := by simp [givenUpDims]
  refine ⟨[], by simp [hgiven], ?_⟩
  have hgrouped := hfit.grouped
  have hpos := writtenDigits_pos hgrouped hreplicable
  have hsize := size_writtenDigits hgrouped hreplicable
  rw [← reduce_writtenDigits hgrouped hreplicable, hkept, List.append_nil, hfit.digitsAt_range]
  have hpos' : ∀ p ∈ tileDigits iota, 0 < p.1 := by
    intro p hp
    apply iota.dims_pos
    rw [← hfit.map_fst_tileDigits]
    exact List.mem_map_of_mem hp
  have hsize' : size (tileDigits iota) = iota.dims.prod := by
    rw [size, hfit.map_fst_tileDigits]
  have htileDims : (replicatedSharding iota false []).tileAssignmentDimensions =
      iota.dims ++ [1] := by
    have hall : (List.range iota.dims.length).map (fun d => iota.dims.getD d 1) = iota.dims :=
      permute_range 1 iota.dims
    simpa [replicatedSharding, replicationOf, hgiven, numShapeDims, permute] using hall
  have heval : ∀ n < iota.dims.prod,
      eval (writtenDigits iota false []) n = eval (tileDigits iota) n := by
    intro n hn
    obtain ⟨coordinate, hcoordinate, rfl⟩ := exists_rowMajor hn
    have hdevices := h.devices coordinate (by
      rw [htileDims]
      simpa [numShapeDims] using hcoordinate)
    have hmem : eval iota.system (rowMajor iota.dims coordinate) ∈
        {device | ∃ c, List.Forall₂ (· < ·) c iota.dims ∧
          AgreesOnKept iota false [] c coordinate ∧
          iota.deviceAt c = iota.offset + device} :=
      ⟨coordinate, hcoordinate, fun _ _ => rfl, iota.deviceAt_eq coordinate⟩
    rw [← hdevices] at hmem
    obtain ⟨c, ⟨hc, htake⟩, hdevice⟩ := hmem
    rw [OpSharding.Tiles, htileDims] at hc
    obtain ⟨k, hk, hsplit⟩ := exists_concat_of_forall₂ hc
    obtain rfl : k = 0 := by omega
    have htake : c.take iota.dims.length = coordinate := htake
    rw [htake] at hsplit
    have hposition : rowMajor (replicatedSharding iota false []).tileAssignmentDimensions c =
        rowMajor iota.dims coordinate := by
      rw [htileDims, hsplit, rowMajor_append hcoordinate.length_eq]
      simp [rowMajor]
    rw [hfit.eval_tileDigits hn, ← hdevice, deviceAt_eq_eval hgrouped hreplicable, hposition]
  apply (reduce_spec hpos).1.eq_of_eval (reduce_spec hpos').1
  · rw [(reduce_spec hpos).2.1, (reduce_spec hpos').2.1, hsize, hsize']
  · intro n hn
    rw [(reduce_spec hpos).2.1, hsize] at hn
    rw [eval_reduce hpos (hsize ▸ hn), eval_reduce hpos' (hsize' ▸ hn), heval n hn]

theorem isChain_swap : [1, 0].IsChain fun a b : ℕ => b ≠ a + 1 := by decide

/-- Eight by two devices, the first axis slowest on the tensor and fastest on the devices. -/
def transposedInput : IotaTileAssignment where
  dims := [1, 8, 1, 2, 1]
  reshapeDims := [2, 8]
  transposePerm := [1, 0]
  offset := 0
  dims_pos := by decide
  prod_eq := by decide
  perm := by decide
  two_le := by decide
  unmerged := isChain_swap

theorem replicateDims_replicated_transposedInput :
    Replicable transposedInput false [3] ∧ Grouped transposedInput ∧
      (GivesUpAll transposedInput false [3] ∨
        GroupsFit transposedInput ∧ DigitsAgree transposedInput false [3]) ∧
      ∃ s, replicateDims [3] (.tiled (.iota transposedInput) false) = ok s ∧
        Replicated transposedInput false [3] s := by
  have h : Replicable transposedInput false [3] := ⟨by decide, by decide, by decide⟩
  have hgrouped : Grouped transposedInput := by unfold Grouped; decide
  have hfit : GroupsFit transposedInput := by unfold GroupsFit; decide
  have hdigits : DigitsAgree transposedInput false [3] := ⟨[3], by decide, by decide⟩
  exact ⟨h, hgrouped, Or.inr ⟨hfit, hdigits⟩,
    replicateDims_replicated h hgrouped (Or.inr ⟨hfit, hdigits⟩)⟩

/-- The second dim is given up instead: the first tile of the fourth gets device 8, which has
the second one. -/
theorem transposedInput_not_replicated :
    Replicable transposedInput false [1] ∧
      ∃ s, replicateDims [1] (.tiled (.iota transposedInput) false) = ok s ∧
        ¬ Replicated transposedInput false [1] s := by
  refine ⟨⟨by decide, by decide, by decide⟩, _, rfl, ?_⟩
  rintro (⟨htype, -⟩ | ⟨-, hreplicates⟩)
  · exact absurd htype (by decide)
  · have hdevices := hreplicates.devices [0, 0, 0, 0, 0] (by decide)
    have hmem : 8 ∈ {device | ∃ coordinate, List.Forall₂ (· < ·) coordinate transposedInput.dims ∧
        AgreesOnKept transposedInput false [1] coordinate [0, 0, 0, 0, 0] ∧
        transposedInput.deviceAt coordinate = transposedInput.offset + device} := by
      rw [← hdevices]
      have htile : List.Forall₂ (· < ·) [0, 0, 0, 0, 0, 1] [1, 1, 1, 2, 1, 8] := by decide
      exact ⟨[0, 0, 0, 0, 0, 1], ⟨htile, by decide⟩, by decide⟩
    obtain ⟨coordinate, hcoordinate, hagree, hdevice⟩ := hmem
    rw [← digits_rowMajor hcoordinate] at hagree hdevice
    have hlt : rowMajor transposedInput.dims coordinate < 16 := rowMajor_lt hcoordinate
    have hother : ∀ n < 16,
        (∀ d ∈ keptDims transposedInput false [1], (digits transposedInput.dims n).getD d 0 =
          [0, 0, 0, 0, 0].getD d 0) →
        transposedInput.deviceAt (digits transposedInput.dims n) ≠ 8 := by decide
    exact hother _ hlt hagree (by rw [hdevice]; rfl)

end Sharding
end MultiMeshJax
