import MultiMeshJax.Sharding.CanonicalLayout

/-! `CanonicalizeSharding` is faithful exactly for the aligned iotas with a self-inverse
transpose. -/
namespace MultiMeshJax
namespace Sharding

open StatusOr

variable {iota : IotaTileAssignment}

/-- Every product of last permuted reshape extents is a product of last tile extents. -/
def Aligned (iota : IotaTileAssignment) : Prop :=
  ∀ j, ∃ i, (iota.dims.drop i).prod = (iota.permutedReshapeDims.drop j).prod

/-- The transpose permutation is its own inverse. -/
def SelfInverse (iota : IotaTileAssignment) : Prop :=
  ∀ j a : ℕ, iota.transposePerm[j]? = some a → iota.transposePerm[a]? = some j

theorem length_permutedReshapeDims (iota : IotaTileAssignment) :
    iota.permutedReshapeDims.length = iota.reshapeDims.length := by
  rw [IotaTileAssignment.permutedReshapeDims, List.length_map,
    IotaTileAssignment.length_transposePerm]

theorem permutedReshapeDims_two_le (h : ∀ r ∈ iota.reshapeDims, 2 ≤ r) :
    ∀ r ∈ iota.permutedReshapeDims, 2 ≤ r := by
  intro r hr
  obtain ⟨a, ha, rfl⟩ := List.mem_map.mp hr
  have hlt := IotaTileAssignment.transposePerm_lt ha
  rw [List.getD_eq_getElem _ _ hlt]
  exact h _ (List.getElem_mem hlt)

private theorem groupTileDims_single {span spanned : ℕ} {group : List ℕ} {tiles : List (ℕ × ℕ)}
    (h : ∀ t ∈ tiles, t.2 ≤ span) :
    groupTileDims [span] spanned group tiles = ok [group ++ tiles.map Prod.fst] := by
  induction tiles generalizing spanned group with
  | nil => simp [groupTileDims]
  | cons tile tiles ih =>
    have hle := h tile (by simp)
    rw [groupTileDims, if_neg (by omega)]
    split
    · rw [if_pos rfl, groupTileDims_nil]
      simp
    · rw [ih fun t ht => h t (List.mem_cons_of_mem tile ht)]
      simp

theorem tileDims_pos {t : ℕ × ℕ} (h : t ∈ tileDims iota.dims) : 0 < t.2 := by
  apply iota.dims_pos
  rw [← tileDims_map_snd iota.dims]
  exact List.mem_map_of_mem h

/-- The groups of an aligned iota, as blocks of tile dimensions with their extents. -/
structure IsBlocks (iota : IotaTileAssignment) (blocks : List (List (ℕ × ℕ))) : Prop where
  tiles : tileDims iota.dims = blocks.flatten
  extents : blocks.map extent = iota.permutedReshapeDims

/-- The groups of an aligned iota have the permuted reshape extents. -/
theorem groups_of_aligned (h : Aligned iota) :
    ∃ blocks : List (List (ℕ × ℕ)), IsBlocks iota blocks ∧
      groupTileDims iota.permutedReshapeDims 1 [] (tileDims iota.dims) =
        ok (blocks.map (List.map Prod.fst)) := by
  have htotal := iota.prod_permutedReshapeDims
  have hlen := length_permutedReshapeDims iota
  rcases iota.two_le with hone | ⟨hne, htwo⟩
  · obtain ⟨span, hspan⟩ := List.length_eq_one_iff.mp (hlen.trans hone)
    rw [hspan, List.prod_singleton] at htotal
    refine ⟨[tileDims iota.dims], ⟨by simp, ?_⟩, ?_⟩
    · rw [hspan, htotal, List.map_singleton, extent, tileDims_map_snd]
    · rw [hspan, groupTileDims_single]
      · rfl
      · intro t ht
        rw [htotal]
        apply Nat.le_of_dvd iota.prod_pos
        apply List.dvd_prod
        rw [← tileDims_map_snd iota.dims]
        exact List.mem_map_of_mem ht
  · have htwo' := permutedReshapeDims_two_le htwo
    obtain ⟨span, spans, hspans⟩ : ∃ span spans, iota.permutedReshapeDims = span :: spans := by
      apply List.exists_cons_of_length_pos
      rw [hlen]
      exact iota.length_pos
    have hspan := htwo' span (by simp [hspans])
    have hinitial : ∀ j, ∃ i, 1 * (((tileDims iota.dims).map Prod.snd).take i).prod =
        ((span :: spans).take (j + 1)).prod := by
      intro j
      obtain ⟨i, hi⟩ := h (j + 1)
      refine ⟨i, ?_⟩
      rw [← hspans, tileDims_map_snd, one_mul]
      have hpos : 0 < (iota.dims.drop i).prod :=
        List.prod_pos fun r hr => iota.dims_pos r (List.mem_of_mem_drop hr)
      apply Nat.eq_of_mul_eq_mul_right hpos
      rw [List.prod_take_mul_prod_drop, hi, List.prod_take_mul_prod_drop, htotal]
    obtain ⟨block, blocks, htiles, hrun, hblock, hblocks⟩ := @groupTileDims_of_prefixes
      span 1 spans [] (tileDims iota.dims) Nat.one_pos (by omega)
      (fun r hr => htwo' r (by simp [hspans, hr])) (fun t ht => tileDims_pos ht) hinitial
      (by rw [tileDims_map_snd, one_mul, ← hspans, htotal])
    refine ⟨block :: blocks, ⟨by simpa using htiles, ?_⟩, by rw [hspans, hrun]; rfl⟩
    rw [List.map_cons, hblocks, hspans, ← hblock, one_mul]

/-- The product of the extents of the groups after group `j` in the device order. -/
def weightAfter (iota : IotaTileAssignment) (j : ℕ) : ℕ :=
  ((iota.transposePerm.drop (iota.transposePerm.idxOf j + 1)).map fun b =>
    iota.permutedReshapeDims.getD b 1).prod

/-- The digits of the groups, as the returned layout weighs them. -/
def groupSystem (iota : IotaTileAssignment) : MixedRadix.System :=
  (List.range iota.reshapeDims.length).map fun j =>
    (iota.permutedReshapeDims.getD j 1, weightAfter iota j)

theorem map_fst_groupSystem :
    (groupSystem iota).map Prod.fst = iota.permutedReshapeDims := by
  rw [groupSystem, List.map_map, ← length_permutedReshapeDims]
  apply List.ext_getElem (by simp)
  intro j hj hj'
  simp [hj']

/-- A group is a run in the returned layout: the strides within it carry on from one
dimension to the next, and the last one is the weight of what comes after the group. -/
private theorem block_run {order before after : List ℕ} {s : ShardedShape}
    (h : IsLayout iota order s) {block : List (ℕ × ℕ)}
    (horder : order = before ++ block.map Prod.fst ++ after)
    (hblock : ∀ t ∈ block, iota.dims.getD t.1 1 = t.2) :
    (block.map fun t => (t.2, ShardedShape.stride s.dims (s.dims.getD t.1 ⟨1, 1, 0⟩))) =
      MixedRadix.run (after.map fun d => iota.dims.getD d 1).prod (block.map Prod.snd) := by
  induction block generalizing before with
  | nil => rfl
  | cons t block ih =>
    have hposition : order[before.length]? = some t.1 := by
      rw [horder, List.append_assoc, List.getElem?_append_right le_rfl]
      simp
    obtain ⟨size, hsize⟩ := h.dim _ _ hposition
    have hdrop : order.drop (before.length + 1) = block.map Prod.fst ++ after := by
      simp [horder, List.drop_append]
    have hextents : (block.map Prod.fst).map (fun d => iota.dims.getD d 1) =
        block.map Prod.snd := by
      rw [List.map_map]
      apply List.map_congr_left
      intro t' ht'
      exact hblock t' (List.mem_cons_of_mem t ht')
    rw [List.map_cons, List.map_cons, MixedRadix.run,
      @ih (before ++ [t.1]) (by rw [horder]; simp)
        fun t' ht' => hblock t' (List.mem_cons_of_mem t ht'),
      List.getD_eq_getElem?_getD, hsize, Option.getD_some, h.stride_eq hposition hsize, hdrop,
      List.map_append, List.prod_append, hextents]

theorem getD_of_mem_tileDims {t : ℕ × ℕ} (h : t ∈ tileDims iota.dims) :
    iota.dims.getD t.1 1 = t.2 := by
  obtain ⟨x, hx, rfl⟩ := List.mem_map.mp h
  have hget := List.mem_zipIdx_iff_getElem?.mp hx
  rw [Prod.fst_swap, Prod.snd_swap, List.getD_eq_getElem?_getD, hget, Option.getD_some]

namespace IsBlocks

variable {blocks : List (List (ℕ × ℕ))}

theorem length_eq (hb : IsBlocks iota blocks) : blocks.length = iota.reshapeDims.length := by
  rw [← length_permutedReshapeDims, ← hb.extents, List.length_map]

theorem extent_getD (hb : IsBlocks iota blocks) (b : ℕ) :
    iota.permutedReshapeDims.getD b 1 = extent (blocks.getD b []) := by
  rw [← hb.extents, List.getD_eq_getElem?_getD, List.getElem?_map, List.getD_eq_getElem?_getD]
  cases blocks[b]? <;> simp [extent]

theorem getD_dims (hb : IsBlocks iota blocks) {b : ℕ} {t : ℕ × ℕ} (ht : t ∈ blocks.getD b []) :
    iota.dims.getD t.1 1 = t.2 := by
  apply getD_of_mem_tileDims
  rw [hb.tiles, List.mem_flatten]
  rw [List.getD_eq_getElem?_getD] at ht
  cases hget : blocks[b]? with
  | none => simp [hget] at ht
  | some block => exact ⟨block, List.mem_of_getElem? hget, by simpa [hget] using ht⟩

theorem group_getD (b : ℕ) :
    (blocks.map (List.map Prod.fst)).getD b [] = (blocks.getD b []).map Prod.fst := by
  simp only [List.getD_eq_getElem?_getD, List.getElem?_map]
  cases blocks[b]? <;> rfl

/-- The device order before, in and after a group. -/
theorem deviceOrder_eq (hb : IsBlocks iota blocks) {j : ℕ} (hj : j < blocks.length) :
    deviceOrder iota.transposePerm (blocks.map (List.map Prod.fst)) =
      deviceOrder (iota.transposePerm.take (iota.transposePerm.idxOf j))
          (blocks.map (List.map Prod.fst)) ++ (blocks.getD j []).map Prod.fst ++
        deviceOrder (iota.transposePerm.drop (iota.transposePerm.idxOf j + 1))
          (blocks.map (List.map Prod.fst)) := by
  have hmem : j ∈ iota.transposePerm :=
    iota.perm.mem_iff.mpr (List.mem_range.mpr (hb.length_eq ▸ hj))
  have hidx := List.idxOf_lt_length_iff.mpr hmem
  conv_lhs => rw [← List.take_append_drop (iota.transposePerm.idxOf j) iota.transposePerm,
    List.drop_eq_getElem_cons hidx, List.getElem_idxOf hidx]
  simp only [deviceOrder, List.map_append, List.map_cons, List.flatten_append,
    List.flatten_cons, group_getD, List.append_assoc]

theorem weightAfter_eq (hb : IsBlocks iota blocks) (j : ℕ) :
    ((deviceOrder (iota.transposePerm.drop (iota.transposePerm.idxOf j + 1))
      (blocks.map (List.map Prod.fst))).map fun d => iota.dims.getD d 1).prod =
      weightAfter iota j := by
  rw [weightAfter, deviceOrder, List.map_flatten, List.prod_flatten, List.map_map, List.map_map]
  congr 1
  apply List.map_congr_left
  intro b _
  rw [hb.extent_getD, extent]
  simp only [Function.comp_apply, group_getD, List.map_map]
  congr 1
  apply List.map_congr_left
  intro t ht
  exact hb.getD_dims ht

/-- The groups as runs. -/
def runs (iota : IotaTileAssignment) (blocks : List (List (ℕ × ℕ))) : List (ℕ × List ℕ) :=
  (List.range blocks.length).map fun j => (weightAfter iota j, (blocks.getD j []).map Prod.snd)

theorem system_eq (hb : IsBlocks iota blocks) {s : ShardedShape}
    (h : IsLayout iota (deviceOrder iota.transposePerm (blocks.map (List.map Prod.fst))) s) :
    s.system = ((runs iota blocks).map fun x => MixedRadix.run x.1 x.2).flatten := by
  have hwhole : s.system = (tileDims iota.dims).map fun t =>
      (t.2, ShardedShape.stride s.dims (s.dims.getD t.1 ⟨1, 1, 0⟩)) := by
    apply List.ext_getElem
    · simp [ShardedShape.system, tileDims, h.length]
    · intro d hd hd'
      have hlt : d < iota.dims.length := by simpa [tileDims] using hd'
      obtain ⟨p, hp⟩ := h.exists_position hlt
      obtain ⟨size, hsize⟩ := h.dim p d hp
      obtain ⟨hlt', hget⟩ := List.getElem?_eq_some_iff.mp hsize
      simp [ShardedShape.system, tileDims, hget, hlt, hlt']
  rw [hwhole, hb.tiles, List.map_flatten, runs, List.map_map]
  congr 1
  apply List.ext_getElem (by simp)
  intro j hj hj'
  have hlt : j < blocks.length := by simpa using hj
  have hrun := block_run h (hb.deviceOrder_eq hlt) fun t ht => hb.getD_dims ht
  rw [hb.weightAfter_eq, List.getD_eq_getElem _ _ hlt] at hrun
  simpa [hlt] using hrun

theorem size_runs (hb : IsBlocks iota blocks) :
    ((runs iota blocks).map fun x => (x.2.prod, x.1)) = groupSystem iota := by
  rw [runs, groupSystem, List.map_map, hb.length_eq]
  apply List.map_congr_left
  intro j _
  rw [hb.extent_getD]
  rfl

/-- The returned layout of an aligned iota counts like its groups. -/
theorem eval_system (hb : IsBlocks iota blocks) {s : ShardedShape}
    (h : IsLayout iota (deviceOrder iota.transposePerm (blocks.map (List.map Prod.fst))) s)
    {n : ℕ} (hn : n < iota.dims.prod) :
    MixedRadix.eval s.system n = MixedRadix.eval (groupSystem iota) n := by
  rw [hb.system_eq h, MixedRadix.eval_flatten_run, hb.size_runs]
  rwa [hb.size_runs, MixedRadix.size, map_fst_groupSystem, iota.prod_permutedReshapeDims]

end IsBlocks

/-- The canonical form of the iota leaves nothing to merge. -/
theorem system_irreducible (h : ∀ r ∈ iota.reshapeDims, 2 ≤ r) :
    MixedRadix.Irreducible iota.system where
  two_le p hp := by
    apply permutedReshapeDims_two_le h
    rw [← IotaTileAssignment.map_fst_system]
    exact List.mem_map_of_mem hp
  weight_ne a b p q hsplit heq := by
    obtain ⟨before, rest, hperm, -, hrest⟩ := List.map_eq_append_iff.mp hsplit
    obtain ⟨x, rest, rfl, rfl, htail⟩ := List.map_eq_cons_iff.mp hrest
    obtain ⟨y, after, rfl, rfl, -⟩ := List.map_eq_cons_iff.mp htail
    have hx : x < iota.reshapeDims.length :=
      IotaTileAssignment.transposePerm_lt (by simp [hperm])
    have hy : y < iota.reshapeDims.length :=
      IotaTileAssignment.transposePerm_lt (by simp [hperm])
    have hchain := iota.unmerged
    rw [hperm, List.isChain_append_cons_cons] at hchain
    apply hchain.2.1
    apply MixedRadix.drop_prod_injective h (by omega) (by omega)
    have hnext : (iota.reshapeDims.drop (x + 1)).prod =
        iota.reshapeDims.getD y 1 * (iota.reshapeDims.drop (y + 1)).prod := heq
    rw [hnext, List.drop_eq_getElem_cons hy, List.prod_cons, List.getD_eq_getElem _ _ hy]

/-- The transpose permutation applied twice. -/
def twice (iota : IotaTileAssignment) : List ℕ :=
  iota.transposePerm.map fun b => iota.transposePerm.getD b 0

theorem selfInverse_iff :
    SelfInverse iota ↔ twice iota = List.range iota.reshapeDims.length := by
  have hlen := @IotaTileAssignment.length_transposePerm iota
  have hget : ∀ {i : ℕ}, i < iota.transposePerm.length → ∃ b : ℕ,
      iota.transposePerm[i]? = some b ∧ b < iota.transposePerm.length := by
    intro i hi
    refine ⟨_, List.getElem?_eq_getElem hi, ?_⟩
    rw [hlen]
    exact IotaTileAssignment.transposePerm_lt (List.getElem_mem hi)
  constructor
  · intro h
    apply List.ext_getElem (by simp [twice, hlen])
    intro i hi hi'
    obtain ⟨b, hb, -⟩ := hget (by simpa [twice] using hi)
    have hback := h i b hb
    rw [List.getElem_range]
    apply Option.some_injective
    rw [← List.getElem?_eq_getElem hi, twice, List.getElem?_map, hb, Option.map_some,
      List.getD_eq_getElem?_getD, hback, Option.getD_some]
  · intro h i b hb
    have hi : i < iota.transposePerm.length := (List.getElem?_eq_some_iff.mp hb).1
    have hrange : (twice iota)[i]? = some i := by
      rw [h, List.getElem?_range (hlen ▸ hi)]
    obtain ⟨b', hb', hlt⟩ := hget hi
    obtain rfl := Option.some_injective _ (hb.symm.trans hb')
    rw [twice, List.getElem?_map, hb, Option.map_some, List.getD_eq_getElem _ _ hlt] at hrange
    rw [List.getElem?_eq_getElem hlt, Option.some_injective _ hrange]

theorem weightAfter_getElem {i j : ℕ} (hi : iota.transposePerm[i]? = some j) :
    weightAfter iota j =
      (((twice iota).drop (i + 1)).map fun a => iota.reshapeDims.getD a 1).prod := by
  obtain ⟨hlt, rfl⟩ := List.getElem?_eq_some_iff.mp hi
  rw [weightAfter, iota.transposePerm_nodup.idxOf_getElem i hlt, twice, ← List.map_drop,
    List.map_map]
  congr 1
  apply List.map_congr_left
  intro b hb
  have hb := IotaTileAssignment.transposePerm_lt (List.mem_of_mem_drop hb)
  rw [← IotaTileAssignment.length_transposePerm] at hb
  rw [IotaTileAssignment.permutedReshapeDims, Function.comp_apply, List.getD_eq_getElem?_getD,
    List.getElem?_map, List.getElem?_eq_getElem hb, List.getD_eq_getElem _ _ hb, Option.map_some,
    Option.getD_some]

/-- A list of positions in which the positions after each one have the product of those
that follow it in order is itself in order. -/
theorem eq_range_of_weights {rs σ : List ℕ} (h : ∀ r ∈ rs, 2 ≤ r) (hlen : σ.length = rs.length)
    (hlt : ∀ a ∈ σ, a < rs.length)
    (hweight : ∀ i a : ℕ, σ[i]? = some a →
      ((σ.drop (i + 1)).map fun a => rs.getD a 1).prod = (rs.drop (a + 1)).prod) :
    σ = List.range rs.length := by
  have hdrop : ∀ k ≤ rs.length, σ.drop k = List.range' k (rs.length - k) := by
    intro k hk
    induction hk using Nat.decreasingInduction with
    | self => simp [hlen]
    | of_succ k hk ih =>
      have hk' : k < σ.length := hlen ▸ hk
      have hw := hweight k _ (List.getElem?_eq_getElem hk')
      have htail : ((σ.drop (k + 1)).map fun a => rs.getD a 1) = rs.drop (k + 1) := by
        rw [ih]
        apply List.ext_getElem (by simp)
        intro i hi hi'
        rw [List.length_drop] at hi'
        simp [List.getElem?_eq_getElem (show k + 1 + i < rs.length by omega)]
      rw [htail] at hw
      have ha := hlt _ (List.getElem_mem hk')
      have heq := MixedRadix.drop_prod_injective h (by omega) (by omega) hw
      rw [List.drop_eq_getElem_cons hk', ih, show rs.length - k = rs.length - (k + 1) + 1 by omega,
        List.range'_succ, show σ[k] = k by omega]
  simpa [List.range_eq_range'] using hdrop 0 (Nat.zero_le _)

theorem getElem?_groupSystem {j : ℕ} (hj : j < iota.reshapeDims.length) :
    (groupSystem iota)[j]? = some (iota.permutedReshapeDims.getD j 1, weightAfter iota j) := by
  rw [groupSystem, List.getElem?_map, List.getElem?_range hj, Option.map_some]

theorem getElem?_system {j a : ℕ} (ha : iota.transposePerm[j]? = some a) :
    iota.system[j]? =
      some (iota.permutedReshapeDims.getD j 1, (iota.reshapeDims.drop (a + 1)).prod) := by
  simp [IotaTileAssignment.system, IotaTileAssignment.permutedReshapeDims, ha,
    List.getD_eq_getElem?_getD]

/-- The groups of a self-inverse transpose carry the strides of XLA. -/
theorem groupSystem_eq (h : SelfInverse iota) : groupSystem iota = iota.system := by
  have hrange := selfInverse_iff.mp h
  apply List.ext_getElem?
  intro j
  rcases Nat.lt_or_ge j iota.reshapeDims.length with hj | hj
  · have hjP : j < iota.transposePerm.length := iota.length_transposePerm.symm ▸ hj
    have ha := List.getElem?_eq_getElem hjP
    rw [getElem?_groupSystem hj, getElem?_system ha, weightAfter_getElem (h _ _ ha), hrange]
    congr 3
    apply List.ext_getElem (by simp)
    intro i hi hi'
    have hlt : iota.transposePerm[j] + 1 + i < iota.reshapeDims.length := by
      rw [List.length_drop] at hi'
      omega
    simp [List.getElem?_eq_getElem hlt]
  · rw [List.getElem?_eq_none (by simpa [groupSystem] using hj), List.getElem?_eq_none
      (by simpa [IotaTileAssignment.system, iota.length_transposePerm] using hj)]

/-- No other transpose does. -/
theorem selfInverse_of_groupSystem_eq (h : ∀ r ∈ iota.reshapeDims, 2 ≤ r)
    (heq : groupSystem iota = iota.system) : SelfInverse iota := by
  have hlt : ∀ {b : ℕ}, b < iota.reshapeDims.length →
      ∃ a : ℕ, iota.transposePerm[b]? = some a ∧ a < iota.reshapeDims.length := by
    intro b hb
    rw [← iota.length_transposePerm] at hb
    exact ⟨_, List.getElem?_eq_getElem hb,
      IotaTileAssignment.transposePerm_lt (List.getElem_mem hb)⟩
  have htwice : (twice iota).length = iota.reshapeDims.length := by
    rw [twice, List.length_map, iota.length_transposePerm]
  rw [selfInverse_iff]
  apply eq_range_of_weights h htwice
  · intro a ha
    obtain ⟨b, hb, rfl⟩ := List.mem_map.mp ha
    obtain ⟨a, ha, halt⟩ := hlt (IotaTileAssignment.transposePerm_lt hb)
    rwa [List.getD_eq_getElem?_getD, ha, Option.getD_some]
  · intro i a hi
    obtain ⟨j, hj, hjlt⟩ := hlt (htwice ▸ (List.getElem?_eq_some_iff.mp hi).1)
    obtain ⟨a', ha', -⟩ := hlt hjlt
    have haa : a' = a := by
      rw [twice, List.getElem?_map, hj, Option.map_some, List.getD_eq_getElem?_getD, ha'] at hi
      exact Option.some_injective _ hi
    have hentry := getElem?_system ha'
    rw [← heq, getElem?_groupSystem hjlt] at hentry
    rw [← weightAfter_getElem hj, ← haa]
    exact congrArg Prod.snd (Option.some_injective _ hentry)

/-- An iota without a reshape counts consecutively. -/
theorem of_single (h : iota.reshapeDims.length = 1) : Aligned iota ∧ SelfInverse iota := by
  have hperm : iota.transposePerm = [0] := by
    have hp := iota.perm
    rw [h] at hp
    exact List.perm_singleton.mp hp
  have htotal := iota.prod_permutedReshapeDims
  obtain ⟨span, hspan⟩ :=
    List.length_eq_one_iff.mp ((length_permutedReshapeDims iota).trans h)
  rw [hspan, List.prod_singleton] at htotal
  constructor
  · intro j
    cases j with
    | zero => exact ⟨0, by simp [hspan, htotal]⟩
    | succ j => exact ⟨iota.dims.length, by simp [hspan]⟩
  · intro j a hj
    rw [hperm] at hj ⊢
    cases j with
    | zero =>
      obtain rfl : 0 = a := by simpa using hj
      rfl
    | succ j => simp at hj

/-- Where the layout is the one of XLA, the groups end where the digits of XLA do. -/
theorem aligned_of_faithful {order : List ℕ} {s : ShardedShape} (h : IsLayout iota order s)
    (htwo : ∀ r ∈ iota.reshapeDims, 2 ≤ r)
    (heval : ∀ n < iota.dims.prod, MixedRadix.eval s.system n = MixedRadix.eval iota.system n) :
    Aligned iota := by
  have hsize : MixedRadix.size iota.system = iota.dims.prod := by
    rw [MixedRadix.size, iota.map_fst_system, iota.prod_permutedReshapeDims]
  have hpos : ∀ p ∈ s.system, 0 < p.1 := by
    intro p hp
    apply iota.dims_pos
    rw [← h.map_fst_system]
    exact List.mem_map_of_mem hp
  intro j
  obtain ⟨i, hi⟩ := (system_irreducible htwo).drop_size hpos (h.size_system.trans hsize.symm)
    (by rwa [h.size_system]) j
  refine ⟨i, ?_⟩
  rwa [MixedRadix.size, MixedRadix.size, List.map_drop, List.map_drop, h.map_fst_system,
    iota.map_fst_system] at hi

/-- The returned layout is the one of XLA exactly for an aligned iota with a self-inverse
transpose. -/
theorem layout_faithful_iff {groups : List (List ℕ)} {s : ShardedShape}
    (hrun : groupTileDims iota.permutedReshapeDims 1 [] (tileDims iota.dims) = ok groups)
    (h : IsLayout iota (deviceOrder iota.transposePerm groups) s) :
    Faithful iota s ↔ Aligned iota ∧ SelfInverse iota := by
  have hgroups : Aligned iota → ∀ n < iota.dims.prod,
      MixedRadix.eval s.system n = MixedRadix.eval (groupSystem iota) n := by
    intro haligned n hn
    obtain ⟨blocks, hblocks, hrun'⟩ := groups_of_aligned haligned
    obtain rfl := ok.inj (hrun.symm.trans hrun')
    exact hblocks.eval_system h hn
  rw [h.faithful_iff]
  constructor
  · intro heval
    rcases iota.two_le with hone | ⟨-, htwo⟩
    · exact of_single hone
    · have haligned := aligned_of_faithful h htwo heval
      refine ⟨haligned, selfInverse_of_groupSystem_eq htwo ?_⟩
      apply MixedRadix.eq_of_eval_of_radices
      · intro p hp
        apply permutedReshapeDims_two_le htwo
        rw [← map_fst_groupSystem]
        exact List.mem_map_of_mem hp
      · rw [map_fst_groupSystem, iota.map_fst_system]
      · intro n hn
        rw [MixedRadix.size, map_fst_groupSystem, iota.prod_permutedReshapeDims] at hn
        rw [← hgroups haligned n hn, heval n hn]
  · rintro ⟨haligned, hself⟩ n hn
    rw [hgroups haligned n hn, groupSystem_eq hself]

/-- Some order of the tile dimensions has the layout that XLA means. -/
def Expressible (iota : IotaTileAssignment) : Prop :=
  ∃ order s, IsLayout iota order s ∧ Faithful iota s

theorem aligned_of_expressible (h : Expressible iota) : Aligned iota := by
  obtain ⟨order, s, hlayout, hfaithful⟩ := h
  rcases iota.two_le with hone | ⟨-, htwo⟩
  · exact (of_single hone).1
  · exact aligned_of_faithful hlayout htwo (hlayout.faithful_iff.mp hfaithful)

/-- What is returned is the layout of XLA, and it is an error if no such layout exists. -/
def CanonicalizesFaithfully (iota : IotaTileAssignment) (outcome : StatusOr ShardedShape) : Prop :=
  (∀ s, outcome = ok s → Faithful iota s) ∧
    (¬ Expressible iota → ∃ message, outcome = error message)

theorem CanonicalizesFaithfully.of_error (message : String) :
    CanonicalizesFaithfully iota (error message) :=
  ⟨fun _ h => (nomatch h), fun _ => ⟨message, rfl⟩⟩

private theorem permutedReshapeDims_ne_nil : iota.permutedReshapeDims ≠ [] := by
  apply List.ne_nil_of_length_pos
  rw [length_permutedReshapeDims]
  exact iota.length_pos

/-- With one group for each reshape dim, all that is left to fail on is the element type. -/
private theorem canonicalizes_iff_of_groups {replicated shapeIsGlobal : Bool} {shape : Shape}
    {groups : List (List ℕ)} (hshape : ShapeMatches iota.dims replicated shape)
    (hrun : groupTileDims iota.permutedReshapeDims 1 [] (tileDims iota.dims) = ok groups)
    (hflat : groups.flatten = List.range iota.dims.length)
    (hlen : groups.length = iota.reshapeDims.length) :
    CanonicalizesFaithfully iota
        (canonicalizeIotaSharding iota replicated shape shapeIsGlobal) ↔
      ¬ (supportedType shape).isOk ∨ Aligned iota ∧ SelfInverse iota := by
  obtain ⟨dims, hlayout, hresult⟩ := @canonicalizeIotaSharding_of_groups iota replicated
    shapeIsGlobal shape groups hshape hrun hflat hlen
  rw [hresult]
  cases htype : supportedType shape with
  | ok type =>
    rw [ok_bind]
    have hiff := layout_faithful_iff hrun (hlayout type)
    constructor
    · intro h
      exact Or.inr (hiff.mp (h.1 _ rfl))
    · intro h
      have hfaithful := hiff.mpr (h.resolve_left fun hnot => hnot rfl)
      refine ⟨?_, fun hnot => absurd ⟨_, _, hlayout type, hfaithful⟩ hnot⟩
      intro s hs
      obtain rfl := ok.inj hs
      exact hfaithful
  | error message =>
    rw [error_bind]
    exact iff_of_true (CanonicalizesFaithfully.of_error message) (Or.inl (by simp [isOk]))
  | fatal reason =>
    unfold supportedType at htype
    split at htype <;> cases htype

/-- The layout is the one of XLA, or an error, exactly if a tile dimension is found that
exceeds a reshape extent, or each reshape dim gets a group and the element type is unknown,
or the groups are those of XLA and the transpose is its own inverse. -/
theorem canonicalizeIotaSharding_faithful_iff (iota : IotaTileAssignment) (replicated : Bool)
    (shape : Shape) (shapeIsGlobal : Bool) (hshape : ShapeMatches iota.dims replicated shape) :
    CanonicalizesFaithfully iota
        (canonicalizeIotaSharding iota replicated shape shapeIsGlobal) ↔
      TileExceedsSpan iota.permutedReshapeDims 1 iota.dims ∨
        ¬ (supportedType shape).isOk ∧ SpansReached iota.permutedReshapeDims 1 iota.dims ∨
        Aligned iota ∧ SelfInverse iota := by
  have hne : iota.permutedReshapeDims ≠ [] := permutedReshapeDims_ne_nil
  have hcases := groupTileDims_cases hne 1 [] (tileDims iota.dims)
  rw [tileDims_map_snd, tileDims_map_fst, List.nil_append] at hcases
  rcases hcases with ⟨hexceeds, message, hrun⟩ | ⟨hexceeds, groups, hrun, hflat, hle, hreached⟩
  · have hresult : canonicalizeIotaSharding iota replicated shape shapeIsGlobal =
        error message := by
      rw [canonicalizeIotaSharding, hrun, error_bind]
    rw [hresult]
    exact iff_of_true (CanonicalizesFaithfully.of_error message) (Or.inl hexceeds)
  rw [length_permutedReshapeDims] at hle hreached
  -- the groups of an aligned iota are as many as the reshape dims
  have haligned : Aligned iota → groups.length = iota.reshapeDims.length := by
    intro h
    obtain ⟨blocks, hblocks, hrun'⟩ := groups_of_aligned h
    obtain rfl := ok.inj (hrun.symm.trans hrun')
    rw [List.length_map, hblocks.length_eq]
  rcases hle.lt_or_eq with hlt | heq
  · obtain ⟨reason, hfatal⟩ := @permuteGroups_fatal iota.transposePerm groups
      (iota.length_transposePerm.symm ▸ hlt)
    have hresult : canonicalizeIotaSharding iota replicated shape shapeIsGlobal =
        fatal reason := by
      rw [canonicalizeIotaSharding, hrun, ok_bind, hfatal, fatal_bind]
    rw [hresult]
    apply iff_of_false
    · intro h
      obtain ⟨message, herror⟩ :=
        h.2 fun hexpressible => hlt.ne (haligned (aligned_of_expressible hexpressible))
      cases herror
    · rintro (h | ⟨-, h⟩ | ⟨h, -⟩)
      · exact hexceeds h
      · exact hlt.ne (hreached.mpr h)
      · exact hlt.ne (haligned h)
  · have hspans := hreached.mp heq
    rw [canonicalizes_iff_of_groups hshape hrun hflat heq]
    constructor
    · rintro (h | h)
      · exact Or.inr (Or.inl ⟨h, hspans⟩)
      · exact Or.inr (Or.inr h)
    · rintro (h | ⟨h, -⟩ | h)
      · exact absurd h hexceeds
      · exact Or.inl h
      · exact Or.inr h

/-- `[2,4]<=[4,2]T(1,0)`. -/
def swappedIota : IotaTileAssignment where
  dims := [2, 4]
  reshapeDims := [4, 2]
  transposePerm := [1, 0]
  offset := 0
  dims_pos := by decide
  prod_eq := rfl
  perm := by decide
  two_le := Or.inr (by decide)
  unmerged := by decide

theorem canonicalizeIotaSharding_faithful_swappedIota :
    CanonicalizesFaithfully swappedIota
      (canonicalizeIotaSharding swappedIota false (.array .f32 [6, 8]) true) := by
  apply (canonicalizeIotaSharding_faithful_iff swappedIota false (.array .f32 [6, 8]) true rfl).mpr
  refine Or.inr (Or.inr ⟨fun j => ⟨j, rfl⟩, ?_⟩)
  intro j a h
  match j with
  | 0 =>
    cases h
    rfl
  | 1 =>
    cases h
    rfl
  | j + 2 => cases h

/-- `[2,2,2,2]<=[2,2,2,2]T(1,3,0,2)`. -/
def cyclicIota : IotaTileAssignment where
  dims := [2, 2, 2, 2]
  reshapeDims := [2, 2, 2, 2]
  transposePerm := [1, 3, 0, 2]
  offset := 0
  dims_pos := by decide
  prod_eq := rfl
  perm := by decide
  two_le := Or.inr (by decide)
  unmerged := by decide

/-- The positions of a cyclic transpose are those of its inverse: one step along the first
dimension is returned as two devices, and is four devices in XLA. -/
theorem cyclicIota_layout_differs :
    ¬ CanonicalizesFaithfully cyclicIota
      (canonicalizeIotaSharding cyclicIota false (.array .f32 [2, 2, 2, 2]) true) := by
  intro h
  have hdevice := h.1 ⟨.f32, [⟨2, 2, 2⟩, ⟨2, 2, 0⟩, ⟨2, 2, 3⟩, ⟨2, 2, 1⟩], ⟨0, 16⟩⟩ (by decide)
    [1, 0, 0, 0] (by decide)
  have hreturned : (2 : ℕ) = 4 := hdevice
  omega

end Sharding
end MultiMeshJax
