import MultiMeshJax.Sharding.Canonicalize

/-! When the layout that `CanonicalizeSharding` returns is the one XLA means. -/
namespace MultiMeshJax
namespace Sharding

open StatusOr

/-- While the extents of the tile dimensions are multiplied up to the next of the permuted
reshape extents, one of them is larger than that extent. -/
def TileExceedsSpan : List ℕ → ℕ → List ℕ → Prop
  | span :: spans, spanned, tile :: tiles =>
    span < tile ∨
      if span ≤ spanned * tile then TileExceedsSpan spans 1 tiles
      else TileExceedsSpan (span :: spans) (spanned * tile) tiles
  | _, _, _ => False

/-- While the extents of the tile dimensions are multiplied up, each of the permuted
reshape extents but the last is reached. -/
def SpansReached : List ℕ → ℕ → List ℕ → Prop
  | span :: span' :: spans, spanned, tile :: tiles =>
    if span ≤ spanned * tile then SpansReached (span' :: spans) 1 tiles
    else SpansReached (span :: span' :: spans) (spanned * tile) tiles
  | _ :: _ :: _, _, [] => False
  | _, _, _ => True

theorem groupTileDims_nil (spanned : ℕ) (group : List ℕ) (tiles : List (ℕ × ℕ)) :
    groupTileDims [] spanned group tiles = ok [group ++ tiles.map Prod.fst] := by
  induction tiles generalizing group with
  | nil => simp [groupTileDims]
  | cons tile tiles ih => simp [groupTileDims, ih]

/-- The two ways in which the grouping ends. -/
theorem groupTileDims_cases {spans : List ℕ} (hne : spans ≠ []) (spanned : ℕ)
    (group : List ℕ) (tiles : List (ℕ × ℕ)) :
    (TileExceedsSpan spans spanned (tiles.map Prod.snd) ∧
      ∃ message, groupTileDims spans spanned group tiles = error message) ∨
    (¬ TileExceedsSpan spans spanned (tiles.map Prod.snd) ∧
      ∃ groups, groupTileDims spans spanned group tiles = ok groups ∧
        groups.flatten = group ++ tiles.map Prod.fst ∧ groups.length ≤ spans.length ∧
        (groups.length = spans.length ↔ SpansReached spans spanned (tiles.map Prod.snd))) := by
  induction tiles generalizing spans spanned group with
  | nil =>
    refine Or.inr ⟨by simp [TileExceedsSpan], [group], rfl, by simp, ?_, ?_⟩
    · exact List.length_pos_iff.mpr hne
    · match spans with
      | [] => exact absurd rfl hne
      | [_] => simp [SpansReached]
      | _ :: _ :: _ => simp [SpansReached]
  | cons tile tiles ih =>
    match spans with
    | [] => exact absurd rfl hne
    | span :: spans =>
      simp only [groupTileDims, List.map_cons, TileExceedsSpan]
      by_cases hexceeds : span < tile.2
      · exact Or.inl ⟨Or.inl hexceeds, _, if_pos hexceeds⟩
      · simp only [hexceeds, if_false, false_or]
        by_cases hreached : span ≤ spanned * tile.2
        · simp only [hreached, if_true]
          match spans with
          | [] =>
            right
            rw [if_pos rfl, groupTileDims_nil]
            refine ⟨by simp [TileExceedsSpan], _, rfl, by simp, by simp, ?_⟩
            simp [SpansReached]
          | span' :: spans =>
            rw [if_neg (List.cons_ne_nil _ _)]
            rcases ih (List.cons_ne_nil span' spans) 1 [] with
              ⟨h, message, hrun⟩ | ⟨h, groups, hrun, hflat, hlen, hiff⟩
            · exact Or.inl ⟨h, message, by rw [hrun]; rfl⟩
            · refine Or.inr ⟨h, (group ++ [tile.1]) :: groups, by rw [hrun]; rfl, ?_, ?_, ?_⟩
              · simp [hflat]
              · simpa using hlen
              · simpa [SpansReached, hreached] using hiff
        · simp only [hreached, if_false]
          have h := ih hne (spanned * tile.2) (group ++ [tile.1])
          match spans with
          | [] => simpa [SpansReached] using h
          | _ :: _ => simpa [SpansReached, hreached] using h

/-- The product of the extents of a group of tile dimensions. -/
def extent (block : List (ℕ × ℕ)) : ℕ := (block.map Prod.snd).prod

/-- Where the products of the first reshape extents are products of first tile extents,
the groups have exactly these extents. -/
theorem groupTileDims_of_prefixes {span spanned : ℕ} {spans group : List ℕ}
    {tiles : List (ℕ × ℕ)} (hpos : 0 < spanned) (hlt : spanned < span)
    (hspans : ∀ r ∈ spans, 2 ≤ r) (htiles : ∀ t ∈ tiles, 0 < t.2)
    (hinitial : ∀ j, ∃ i,
      spanned * ((tiles.map Prod.snd).take i).prod = ((span :: spans).take (j + 1)).prod)
    (hprod : spanned * (tiles.map Prod.snd).prod = (span :: spans).prod) :
    ∃ (block : List (ℕ × ℕ)) (blocks : List (List (ℕ × ℕ))), tiles = block ++ blocks.flatten ∧
      groupTileDims (span :: spans) spanned group tiles =
        ok ((group ++ block.map Prod.fst) :: blocks.map (List.map Prod.fst)) ∧
      spanned * extent block = span ∧ blocks.map extent = spans := by
  induction tiles generalizing span spanned spans group with
  | nil =>
    obtain ⟨i, hi⟩ := hinitial 0
    simp at hi
    omega
  | cons tile tiles ih =>
    have htile : 0 < tile.2 := htiles tile (by simp)
    have htiles' : ∀ t ∈ tiles, 0 < t.2 := fun t ht => htiles t (List.mem_cons_of_mem tile ht)
    have htake : ∀ i, 0 < ((tiles.map Prod.snd).take i).prod := by
      intro i
      apply List.prod_pos
      intro r hr
      obtain ⟨t, ht, rfl⟩ := List.mem_map.mp (List.mem_of_mem_take hr)
      exact htiles' t ht
    -- the prefix that reaches the span contains this tile dimension
    have hle : spanned * tile.2 ≤ span := by
      obtain ⟨i, hi⟩ := hinitial 0
      cases i with
      | zero =>
        simp at hi
        omega
      | succ i =>
        simp only [List.map_cons, List.take_succ_cons, List.prod_cons, Nat.zero_add,
          List.take_zero, List.prod_nil, mul_one] at hi
        rw [← hi, ← mul_assoc]
        exact Nat.le_mul_of_pos_right _ (htake i)
    have hnot : ¬ span < tile.2 := by
      have := Nat.le_mul_of_pos_left tile.2 hpos
      omega
    rw [groupTileDims, if_neg hnot]
    rcases Nat.lt_or_ge (spanned * tile.2) span with hless | hge
    · rw [if_neg (by omega)]
      obtain ⟨block, blocks, htilesEq, hrun, hblock, hblocks⟩ := ih
        (Nat.mul_pos hpos htile) hless hspans htiles'
        (fun j => by
          obtain ⟨i, hi⟩ := hinitial j
          cases i with
          | zero =>
            have hone : span ≤ ((span :: spans).take (j + 1)).prod := by
              rw [List.take_succ_cons, List.prod_cons]
              apply Nat.le_mul_of_pos_right
              apply List.prod_pos
              intro r hr
              have := hspans r (List.mem_of_mem_take hr)
              omega
            simp only [List.take_zero, List.prod_nil, mul_one] at hi
            omega
          | succ i => exact ⟨i, by rw [← hi]; simp [mul_assoc]⟩)
        (by rw [← hprod]; simp [mul_assoc])
      refine ⟨tile :: block, blocks, by rw [htilesEq]; rfl, ?_, ?_, hblocks⟩
      · rw [hrun]
        simp
      · rw [← hblock]
        simp [extent, mul_assoc]
    · have heq : spanned * tile.2 = span := le_antisymm hle hge
      rw [if_pos hge]
      cases spans with
      | nil =>
        rw [if_pos rfl, groupTileDims_nil]
        refine ⟨tile :: tiles, [], by simp, by simp, ?_, rfl⟩
        simpa [extent] using hprod
      | cons span' spans =>
        have hspan : 0 < span := by omega
        have htwo := hspans span' (by simp)
        obtain ⟨block, blocks, htilesEq, hrun, hblock, hblocks⟩ := @ih span' 1 spans [] Nat.one_pos
          (by omega) (fun r hr => hspans r (List.mem_cons_of_mem _ hr)) htiles'
          (fun j => by
            obtain ⟨i, hi⟩ := hinitial (j + 1)
            rw [List.take_succ_cons, List.prod_cons] at hi
            cases i with
            | zero =>
              have hone : 0 < ((span' :: spans).take (j + 1)).prod := by
                apply List.prod_pos
                intro r hr
                have := hspans r (List.mem_of_mem_take hr)
                omega
              have := Nat.le_mul_of_pos_right span hone
              simp only [List.take_zero, List.prod_nil, mul_one] at hi
              omega
            | succ i =>
              refine ⟨i, Nat.eq_of_mul_eq_mul_left hspan ?_⟩
              rw [← hi, one_mul, ← heq]
              simp [mul_assoc])
          (by
            apply Nat.eq_of_mul_eq_mul_left hspan
            rw [List.prod_cons] at hprod
            rw [← hprod, one_mul, ← heq]
            simp [mul_assoc])
        rw [if_neg (List.cons_ne_nil _ _), hrun]
        refine ⟨[tile], block :: blocks, by simp [htilesEq], rfl, by simpa [extent] using heq, ?_⟩
        rw [List.map_cons, hblocks, ← hblock, one_mul]

private theorem permuteGroups_short {groups : List (List ℕ)} {perm : List ℕ} {start : ℕ}
    {permuted : List (List ℕ)} (hstart : start ≤ permuted.length)
    (hshort : permuted.length < start + perm.length) :
    ∃ reason, (perm.zipIdx start).foldlM (fun permuted (src, j) => do
        let group ← elementAt groups src
        assignAt permuted (j : ℤ) group) permuted = fatal reason := by
  induction perm generalizing start permuted with
  | nil =>
    simp at hshort
    omega
  | cons src perm ih =>
    simp only [List.length_cons] at hshort
    simp only [List.zipIdx_cons, List.foldlM_cons]
    rcases Nat.lt_or_ge src groups.length with hsrc | hsrc
    · rw [elementAt_of_lt hsrc, ok_bind]
      rcases Nat.lt_or_ge start permuted.length with hlt | hge
      · rw [assignAt_natCast hlt, ok_bind]
        apply ih
        · simpa using hlt
        · rw [List.length_set]
          omega
      · exact ⟨_, by rw [assignAt_of_le hge, fatal_bind]⟩
    · exact ⟨_, by rw [elementAt_of_le hsrc, fatal_bind, fatal_bind]⟩

private theorem permuteGroups_loop {groups done : List (List ℕ)} {perm : List ℕ}
    (hperm : ∀ a ∈ perm, a < groups.length) :
    (perm.zipIdx done.length).foldlM (fun permuted (src, j) => do
        let group ← elementAt groups src
        assignAt permuted (j : ℤ) group) (done ++ List.replicate perm.length []) =
      ok (done ++ perm.map fun a => groups.getD a []) := by
  induction perm generalizing done with
  | nil => simp
  | cons src perm ih =>
    have hsrc := hperm src (by simp)
    have hset : (done ++ List.replicate (perm.length + 1) []).set done.length groups[src] =
        done ++ [groups[src]] ++ List.replicate perm.length [] := by
      rw [List.replicate_succ, List.set_append_right _ _ le_rfl]
      simp
    have hrest := @ih (done ++ [groups[src]]) fun a ha => hperm a (List.mem_cons_of_mem src ha)
    simp only [List.zipIdx_cons, List.foldlM_cons, List.length_cons]
    rw [elementAt_of_lt hsrc, ok_bind, assignAt_natCast (by simp), hset, ok_bind]
    rw [List.length_append, List.length_singleton] at hrest
    rw [hrest]
    simp [hsrc]

/-- With fewer groups than reshape dims the move is out of range. -/
theorem permuteGroups_fatal {perm : List ℕ} {groups : List (List ℕ)}
    (h : groups.length < perm.length) : ∃ reason, permuteGroups perm groups = fatal reason :=
  permuteGroups_short (Nat.zero_le _) (by simpa using h)

theorem permuteGroups_eq_ok {perm : List ℕ} {groups : List (List ℕ)}
    (hperm : perm.Perm (List.range groups.length)) :
    permuteGroups perm groups = ok (perm.map fun a => groups.getD a []) := by
  have hlen : perm.length = groups.length := by simpa using hperm.length_eq
  have hlt : ∀ a ∈ perm, a < groups.length := fun a ha => by simpa using hperm.mem_iff.mp ha
  have h := @permuteGroups_loop groups [] perm hlt
  rw [permuteGroups, ← hlen]
  exact h

/-- The tile dimensions in the order of the permuted groups. -/
def deviceOrder (perm : List ℕ) (groups : List (List ℕ)) : List ℕ :=
  (perm.map fun a => groups.getD a []).flatten

theorem deviceOrder_perm {perm : List ℕ} {groups : List (List ℕ)}
    (hperm : perm.Perm (List.range groups.length)) :
    (deviceOrder perm groups).Perm groups.flatten := by
  have hall : (List.range groups.length).map (fun a => groups.getD a []) = groups := by
    apply List.ext_getElem (by simp)
    intro i hi hi'
    simp [hi']
  have h := (hperm.map fun a => groups.getD a []).flatten
  rwa [hall] at h

/-- The dims that are returned: at each position of the order the dim with that position. -/
structure IsLayout (iota : IotaTileAssignment) (order : List ℕ) (s : ShardedShape) : Prop where
  order_perm : order.Perm (List.range iota.dims.length)
  devices : s.devices = ⟨iota.offset, iota.numElements⟩
  length : s.dims.length = iota.dims.length
  dim : ∀ p d : ℕ, order[p]? = some d →
    ∃ size, s.dims[d]? = some (ShardingDim.mk size (iota.dims.getD d 1) p)

/-- The tile dimensions of the sharding are those of the shape, and the last of them may be
replicated. -/
def ShapeMatches (dims : List ℕ) (replicateOnLastTileDim : Bool) (shape : Shape) : Prop :=
  shape.dimensions.length = numShapeDims dims replicateOnLastTileDim

theorem shardingDim_eq_ok {iota : IotaTileAssignment} {replicated : Bool} {shape : Shape}
    (shapeIsGlobal : Bool) (hshape : ShapeMatches iota.dims replicated shape) {d : ℕ}
    (hd : d < iota.dims.length) (p : ℕ) :
    ∃ size, shardingDim iota replicated shape.dimensions shapeIsGlobal d p =
      ok ⟨size, iota.dims.getD d 1, p⟩ := by
  unfold shardingDim
  simp only [elementAt, List.getElem?_eq_getElem hd, deref_some, ok_bind,
    List.getD_eq_getElem _ _ hd]
  split
  · exact ⟨1, rfl⟩
  · rename_i hne
    have hlt : d < shape.dimensions.length := by
      rw [hshape]
      unfold numShapeDims at hne ⊢
      split at hne
      · simp_all
        omega
      · simp_all
    rw [List.getElem?_eq_getElem hlt]
    exact ⟨_, rfl⟩

@[simp] theorem tileDims_map_fst (dims : List ℕ) :
    (tileDims dims).map Prod.fst = List.range dims.length := by
  rw [tileDims, List.map_map, List.range_eq_range', ← List.zipIdx_map_snd]
  rfl

@[simp] theorem tileDims_map_snd (dims : List ℕ) : (tileDims dims).map Prod.snd = dims := by
  rw [tileDims, List.map_map]
  exact List.zipIdx_map_fst 0 dims

/-- With one group for each reshape dim the function returns the layout of their order,
unless the element type is unknown. -/
theorem canonicalizeIotaSharding_of_groups {iota : IotaTileAssignment}
    {replicated shapeIsGlobal : Bool} {shape : Shape} {groups : List (List ℕ)}
    (hshape : ShapeMatches iota.dims replicated shape)
    (hrun : groupTileDims iota.permutedReshapeDims 1 [] (tileDims iota.dims) = ok groups)
    (hflat : groups.flatten = List.range iota.dims.length)
    (hlen : groups.length = iota.reshapeDims.length) :
    ∃ dims, (∀ type, IsLayout iota (deviceOrder iota.transposePerm groups)
        ⟨type, dims, ⟨iota.offset, iota.numElements⟩⟩) ∧
      canonicalizeIotaSharding iota replicated shape shapeIsGlobal =
        (supportedType shape >>= fun type =>
          ok ⟨type, dims, ⟨iota.offset, iota.numElements⟩⟩) := by
  have hperm : iota.transposePerm.Perm (List.range groups.length) := hlen ▸ iota.perm
  set order := deviceOrder iota.transposePerm groups with horder
  have horderPerm : order.Perm (List.range iota.dims.length) :=
    hflat ▸ deviceOrder_perm hperm
  have hlength : order.length = iota.dims.length := by simpa using horderPerm.length_eq
  have hlt : ∀ d ∈ order, d < iota.dims.length := fun d hd => by
    simpa using horderPerm.mem_iff.mp hd
  -- the dim of each position
  have hdim : ∀ x ∈ order.zipIdx, ∃ next,
      shardingDim iota replicated shape.dimensions shapeIsGlobal x.1 x.2 = ok next := by
    intro x hx
    have hd := hlt x.1 (List.mem_of_getElem? (List.mem_zipIdx_iff_getElem?.mp hx))
    obtain ⟨size, hsize⟩ := shardingDim_eq_ok shapeIsGlobal hshape hd x.2
    exact ⟨_, hsize⟩
  obtain ⟨nexts, hnexts⟩ := exists_mapM_eq_ok (fun x : ℕ × ℕ =>
    shardingDim iota replicated shape.dimensions shapeIsGlobal x.1 x.2) hdim
  have hnext : ∀ p d : ℕ, order[p]? = some d →
      ∃ size, nexts[p]? = some (ShardingDim.mk size (iota.dims.getD d 1) p) := by
    intro p d hd
    have hx : order.zipIdx[p]? = some (d, p) := by simp [hd]
    obtain ⟨next, hnext, hrun⟩ := mapM_getElem? hnexts hx
    obtain ⟨size, hsize⟩ := shardingDim_eq_ok shapeIsGlobal hshape
      (hlt d (List.mem_of_getElem? hd)) p
    obtain rfl := ok.inj (hrun.symm.trans hsize)
    exact ⟨size, hnext⟩
  have hnextsLength : nexts.length = order.length := by
    simpa using (mapM_eq_ok.mp hnexts).length_eq.symm
  obtain ⟨slots, hslots, hslotsLength, hwritten⟩ :=
    scatter_perm (hlength ▸ horderPerm : order.Perm (List.range order.length)) hnextsLength
  have hslot : ∀ p d : ℕ, order[p]? = some d →
      ∃ size, slots[d]? = some (some (ShardingDim.mk size (iota.dims.getD d 1) p)) := by
    intro p d hd
    obtain ⟨size, hsize⟩ := hnext p d hd
    obtain ⟨hp, rfl⟩ := List.getElem?_eq_some_iff.mp hd
    exact ⟨size, by rw [hwritten p hp, hsize]⟩
  obtain ⟨dims, hdims⟩ :=
    exists_mapM_eq_ok (deref "dim is left as it was constructed") fun slot hslotMem => by
      obtain ⟨d, hd, rfl⟩ := List.getElem_of_mem hslotMem
      have hmem : d ∈ order := horderPerm.mem_iff.mpr (by simpa [← hlength, ← hnextsLength,
        ← hslotsLength] using hd)
      obtain ⟨p, hp⟩ := List.mem_iff_getElem?.mp hmem
      obtain ⟨size, hsize⟩ := hslot p d hp
      rw [List.getElem?_eq_getElem hd] at hsize
      exact ⟨_, by rw [Option.some_injective _ hsize]; rfl⟩
  refine ⟨dims, fun type => ⟨horderPerm, rfl, ?_, fun p d hd => ?_⟩, ?_⟩
  · rw [← (mapM_eq_ok.mp hdims).length_eq, hslotsLength, hnextsLength, hlength]
  · obtain ⟨size, hsize⟩ := hslot p d hd
    obtain ⟨dim, hdim, hsame⟩ := mapM_getElem? hdims hsize
    exact ⟨size, by rw [hdim, ← ok.inj hsame]⟩
  · rw [hnextsLength, hlength] at hslots
    simp only [canonicalizeIotaSharding, hrun, ok_bind, permuteGroups_eq_ok hperm]
    rw [← deviceOrder, ← horder, hnexts, ok_bind, hslots, ok_bind, hdims, ok_bind]
    rfl

private theorem filter_permutation {dims : List ShardingDim} {start p : ℕ}
    (h : ∀ i d, dims[i]? = some d → d.permutation = start + i) :
    dims.filter (fun d => p < d.permutation) = dims.drop (p + 1 - start) := by
  induction dims generalizing start with
  | nil => simp
  | cons d dims ih =>
    have hd : d.permutation = start := by simpa using h 0 d rfl
    have htail := @ih (start + 1) fun i e he => by
      have := h (i + 1) e he
      omega
    rcases Nat.lt_or_ge p start with hlt | hge
    · rw [List.filter_cons_of_pos (by simpa [hd] using hlt), htail,
        show p + 1 - start = 0 by omega, show p + 1 - (start + 1) = 0 by omega]
      rfl
    · rw [List.filter_cons_of_neg (by simpa [hd] using hge), htail,
        show p + 1 - start = (p + 1 - (start + 1)) + 1 by omega, List.drop_succ_cons]

namespace IsLayout

variable {iota : IotaTileAssignment} {order : List ℕ} {s : ShardedShape}

/-- The stride of the dim at a position is the product of the extents after it. -/
theorem stride_eq (h : IsLayout iota order s) {p d : ℕ} (hd : order[p]? = some d)
    {dim : ShardingDim} (hdim : s.dims[d]? = some dim) :
    ShardedShape.stride s.dims dim =
      ((order.drop (p + 1)).map fun d => iota.dims.getD d 1).prod := by
  -- the dims in device order
  set inOrder := order.map fun d => s.dims.getD d ⟨1, 1, 0⟩ with hinOrder
  have hget : ∀ p d : ℕ, order[p]? = some d → ∃ size,
      inOrder[p]? = some (ShardingDim.mk size (iota.dims.getD d 1) p) := by
    intro p d hd
    obtain ⟨size, hsize⟩ := h.dim p d hd
    exact ⟨size, by simp [hinOrder, hd, List.getD_eq_getElem?_getD, hsize]⟩
  have hperm : s.dims.Perm inOrder := by
    have hall : (List.range iota.dims.length).map (fun d => s.dims.getD d ⟨1, 1, 0⟩) = s.dims := by
      rw [← h.length]
      apply List.ext_getElem (by simp)
      intro i hi hi'
      simp [hi']
    exact hall ▸ (h.order_perm.map _).symm
  have hposition : dim.permutation = p := by
    obtain ⟨size, hsize⟩ := h.dim p d hd
    rw [Option.some_injective _ (hdim.symm.trans hsize)]
  rw [ShardedShape.stride, ((hperm.filter _).map _).prod_eq, hposition,
    @filter_permutation inOrder 0 p]
  · rw [Nat.sub_zero, hinOrder, ← List.map_drop, List.map_map]
    congr 1
    apply List.map_congr_left
    intro e he
    obtain ⟨q, hq⟩ := List.mem_iff_getElem?.mp (List.mem_of_mem_drop he)
    obtain ⟨size, hsize⟩ := h.dim q e hq
    simp [List.getD_eq_getElem?_getD, hsize]
  · intro i e he
    have hi : i < order.length := by simpa [hinOrder] using (List.getElem?_eq_some_iff.mp he).1
    obtain ⟨size, hsize⟩ := hget i _ (List.getElem?_eq_getElem hi)
    rw [Option.some_injective _ (he.symm.trans hsize), Nat.zero_add]

theorem exists_position (h : IsLayout iota order s) {d : ℕ} (hd : d < iota.dims.length) :
    ∃ p : ℕ, order[p]? = some d :=
  List.mem_iff_getElem?.mp (h.order_perm.mem_iff.mpr (List.mem_range.mpr hd))

theorem map_fst_system (h : IsLayout iota order s) : s.system.map Prod.fst = iota.dims := by
  apply List.ext_getElem
  · simp [ShardedShape.system, h.length]
  · intro d hd hd'
    obtain ⟨p, hp⟩ := h.exists_position hd'
    obtain ⟨size, hsize⟩ := h.dim p d hp
    obtain ⟨hlt, hget⟩ := List.getElem?_eq_some_iff.mp hsize
    simp [ShardedShape.system, hget, hd']

theorem size_system (h : IsLayout iota order s) :
    MixedRadix.size s.system = iota.dims.prod := by
  rw [MixedRadix.size, h.map_fst_system]

theorem deviceAt_eq (h : IsLayout iota order s) {coordinate : List ℕ}
    (hcoordinate : List.Forall₂ (· < ·) coordinate iota.dims) :
    s.deviceAt coordinate = iota.offset +
      MixedRadix.eval s.system (MixedRadix.rowMajor iota.dims coordinate) := by
  rw [ShardedShape.deviceAt, h.devices, MixedRadix.eval_eq_digits, h.map_fst_system,
    MixedRadix.digits_rowMajor hcoordinate]

end IsLayout

/-- At every tile coordinate the device that the shape enumerates is the one of XLA. -/
def Faithful (iota : IotaTileAssignment) (s : ShardedShape) : Prop :=
  ∀ coordinate, List.Forall₂ (· < ·) coordinate iota.dims →
    s.deviceAt coordinate = iota.deviceAt coordinate

theorem IsLayout.faithful_iff {iota : IotaTileAssignment} {order : List ℕ} {s : ShardedShape}
    (h : IsLayout iota order s) :
    Faithful iota s ↔
      ∀ n < iota.dims.prod, MixedRadix.eval s.system n = MixedRadix.eval iota.system n := by
  constructor
  · intro hfaithful n hn
    obtain ⟨coordinate, hcoordinate, rfl⟩ := MixedRadix.exists_rowMajor hn
    have hdevice := hfaithful coordinate hcoordinate
    rw [h.deviceAt_eq hcoordinate, iota.deviceAt_eq] at hdevice
    exact Nat.add_left_cancel hdevice
  · intro heval coordinate hcoordinate
    rw [h.deviceAt_eq hcoordinate, iota.deviceAt_eq,
      heval _ (MixedRadix.rowMajor_lt hcoordinate)]

end Sharding
end MultiMeshJax
