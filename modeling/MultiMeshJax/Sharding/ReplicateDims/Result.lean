import MultiMeshJax.Sharding.ReplicateDims.Pass

/-! What `ReplicateDims` writes, with the dims of the tiles in the order that it takes them to
have on the devices. -/
namespace MultiMeshJax
namespace Sharding

open StatusOr MixedRadix

theorem flatten_dimensionGroups (spans : List ℕ) (spanned : ℕ) (group : List ℕ)
    (tiles : List (ℕ × ℕ)) :
    (dimensionGroups spans spanned group tiles).flatten = group ++ tiles.map Prod.fst := by
  induction tiles generalizing spans spanned group with
  | nil => simp [dimensionGroups]
  | cons tile tiles ih =>
    cases spans with
    | nil => simp [dimensionGroups, ih]
    | cons span spans =>
      rw [dimensionGroups]
      split
      · split
        · simp [ih]
        · simp [ih]
      · simp [ih]

theorem flatten_iotaGroups (iota : IotaTileAssignment) :
    (iotaGroups iota).flatten = List.range iota.dims.length := by
  rw [iotaGroups, flatten_dimensionGroups, tileDims_map_fst, List.nil_append]

/-- There is a group for each of the reshape dims. -/
def Grouped (iota : IotaTileAssignment) : Prop :=
  (iotaGroups iota).length = iota.reshapeDims.length

/-- The order of the tile dims on the devices that the function takes the groups to have. -/
def assumedOrder (iota : IotaTileAssignment) : List ℕ :=
  deviceOrder iota.transposePerm (iotaGroups iota)

variable {iota : IotaTileAssignment} {replicatedDims : List ℕ} {replicated : Bool}

theorem assumedOrder_perm (h : Grouped iota) :
    (assumedOrder iota).Perm (List.range iota.dims.length) := by
  rw [← flatten_iotaGroups]
  exact deviceOrder_perm (by rw [h]; exact iota.perm)

theorem currentPermutation_eq_ok (h : Grouped iota) :
    currentPermutation iota = ok (assumedOrder iota) := by
  have hne : iota.transposePerm ≠ [] := by
    apply List.ne_nil_of_length_pos
    rw [IotaTileAssignment.length_transposePerm]
    exact IotaTileAssignment.length_pos
  rw [currentPermutation, if_neg hne, permuteGroups_eq_ok (by rw [h]; exact iota.perm)]
  rfl

theorem mapM_elementAt {dims l : List ℕ} (h : ∀ d ∈ l, d < dims.length) :
    l.mapM (elementAt dims) = ok (permute 1 l dims) := by
  induction l with
  | nil => rfl
  | cons d l ih =>
    have hd := h d List.mem_cons_self
    rw [List.mapM_cons, elementAt_of_lt hd, ok_bind,
      ih fun e he => h e (List.mem_cons_of_mem d he), ok_bind]
    simp [permute, hd]

/-- The permutation with the places of the replicated dims given to extra dims. -/
def extendedPermutation (permutation replicatedDims : List ℕ) : List ℕ :=
  (List.range permutation.length).map (fun d =>
    if d ∈ replicatedDims then permutation.length + replicatedDims.idxOf d
    else permutation.getD d 0) ++
  replicatedDims.map fun d => permutation.getD d 0

theorem newPermutation_eq_ok {permutation : List ℕ} (hnodup : replicatedDims.Nodup)
    (hlt : ∀ d ∈ replicatedDims, d < permutation.length) :
    newPermutation permutation replicatedDims =
      ok (extendedPermutation permutation replicatedDims) := by
  obtain ⟨perm, hrun, hperm⟩ := exists_foldlM_eq_ok
    (fun (done : List (ℕ × ℕ)) perm => perm = extendedPermutation permutation (done.map Prod.fst))
    (l := replicatedDims.zipIdx) (b := permutation)
    (f := fun acc (x : ℕ × ℕ) => do
      let position ← elementAt permutation x.1
      assignAt (acc ++ [position]) (x.1 : ℤ) (permutation.length + x.2))
    (by
      apply List.ext_getElem (by simp [extendedPermutation])
      intro d hd hd'
      simp [extendedPermutation, hd])
    (by
      intro done x hinitial perm hperm
      obtain ⟨hindex, hget, hdone⟩ := of_prefix_zipIdx hinitial
      have hx : x.1 < permutation.length := hlt _ (List.mem_of_getElem? hget)
      have hfresh : x.1 ∉ done.map Prod.fst := by
        have hsub := hnodup.sublist hdone.sublist
        rw [List.nodup_append] at hsub
        exact fun hmem => hsub.2.2 _ hmem _ (List.mem_singleton_self _) rfl
      have hlen : x.1 < (perm ++ [permutation[x.1]]).length := by
        rw [hperm]
        simp [extendedPermutation]
        omega
      refine ⟨_, by rw [elementAt_of_lt hx, ok_bind, assignAt_natCast hlen], ?_⟩
      subst hperm
      apply List.ext_getElem (by simp [extendedPermutation])
      intro d hd hd'
      rw [List.getElem_set]
      rcases eq_or_ne x.1 d with rfl | hne
      · simp [extendedPermutation, hx, List.idxOf_append, hfresh, hindex]
      · rw [if_neg hne]
        rcases Nat.lt_or_ge d permutation.length with hlt | hge
        · by_cases hmem : d ∈ done.map Prod.fst
          · simp [extendedPermutation, hlt, List.idxOf_append, hmem]
          · simp [extendedPermutation, hlt, hmem, Ne.symm hne]
        · simp [extendedPermutation, List.getElem_append, Nat.not_lt.mpr hge, hx])
  rw [newPermutation, hrun, hperm]
  simp

/-- The dims to replicate are dims of the tensor, and a sharding with a replicated last dim
has one. -/
structure Replicable (iota : IotaTileAssignment) (replicated : Bool) (replicatedDims : List ℕ) :
    Prop where
  nodup : replicatedDims.Nodup
  lt : ∀ d ∈ replicatedDims, d < numShapeDims iota.dims replicated
  last : replicated = true → iota.dims ≠ []

/-- The dims along which the tiles stay apart. -/
def keptDims (iota : IotaTileAssignment) (replicated : Bool) (replicatedDims : List ℕ) : List ℕ :=
  (List.range (numShapeDims iota.dims replicated)).filter fun d => decide (d ∉ replicatedDims)

/-- The dims whose devices hold the same tile in the result. -/
def givenUpDims (iota : IotaTileAssignment) (replicated : Bool) (replicatedDims : List ℕ) :
    List ℕ :=
  (if replicated then [numShapeDims iota.dims true] else []) ++ replicatedDims

/-- The devices that hold the same tile. -/
def replicationOf (iota : IotaTileAssignment) (replicated : Bool) (replicatedDims : List ℕ) : ℕ :=
  (permute 1 (givenUpDims iota replicated replicatedDims) iota.dims).prod

namespace Replicable

theorem lt_length (h : Replicable iota replicated replicatedDims) {d : ℕ}
    (hd : d ∈ replicatedDims) : d < iota.dims.length := by
  have := h.lt d hd
  unfold numShapeDims at this
  split at this <;> omega

theorem length_eq (h : Replicable iota true replicatedDims) :
    iota.dims.length = numShapeDims iota.dims true + 1 := by
  have := List.length_pos_iff.mpr (h.last rfl)
  simp only [numShapeDims, if_true]
  omega

theorem numShapeDims_lt (h : Replicable iota true replicatedDims) :
    numShapeDims iota.dims true < iota.dims.length := by
  have := h.length_eq
  omega

/-- The dims that stay and the dims that are given up are all dims. -/
theorem perm_range (h : Replicable iota replicated replicatedDims) :
    (keptDims iota replicated replicatedDims ++ givenUpDims iota replicated replicatedDims).Perm
      (List.range iota.dims.length) := by
  have hshape : (keptDims iota replicated replicatedDims ++ replicatedDims).Perm
      (List.range (numShapeDims iota.dims replicated)) := by
    rw [List.perm_ext_iff_of_nodup _ List.nodup_range]
    · intro d
      simp only [keptDims, List.mem_append, List.mem_filter, List.mem_range, decide_eq_true_eq]
      have := h.lt d
      by_cases hd : d ∈ replicatedDims <;> simp_all
    · rw [List.nodup_append]
      refine ⟨List.nodup_range.filter _, h.nodup, ?_⟩
      intro d hd e he heq
      exact of_decide_eq_true (List.mem_filter.mp hd).2 (heq ▸ he)
  cases replicated with
  | false => simpa [givenUpDims, numShapeDims] using hshape
  | true =>
    rw [h.length_eq, List.range_succ]
    exact (List.perm_append_comm_assoc _ [numShapeDims iota.dims true] _).trans
      ((List.perm_append_comm).trans (hshape.append_right _))

theorem totalReplication_eq_ok (h : Replicable iota replicated replicatedDims) :
    totalReplication iota.dims replicatedDims replicated =
      ok (replicationOf iota replicated replicatedDims) := by
  have hextents := mapM_elementAt fun d hd => h.lt_length (d := d) hd
  cases replicated with
  | false => simp [totalReplication, hextents, replicationOf, givenUpDims]
  | true =>
    have hlast := h.numShapeDims_lt
    simp [totalReplication, hextents, replicationOf, givenUpDims, elementAt_of_lt hlast, permute,
      hlast]

/-- The extents of the tiles, with one dim more than the tensor has. -/
theorem replicatedTileDims_eq_ok (h : Replicable iota replicated replicatedDims)
    (replication : ℕ) :
    replicatedTileDims iota.dims replicatedDims replicated replication =
      ok ((List.range (numShapeDims iota.dims replicated)).map (fun d =>
        if d ∈ replicatedDims then 1 else iota.dims.getD d 1) ++ [replication]) := by
  set n := numShapeDims iota.dims replicated with hn
  have hstart : (if replicated then assignAt iota.dims (numShapeDims iota.dims true : ℤ) replication
      else pure (iota.dims ++ [replication])) =
      ok ((List.range n).map (fun d => iota.dims.getD d 1) ++ [replication]) := by
    cases replicated with
    | false =>
      have hall : (List.range n).map (fun d => iota.dims.getD d 1) = iota.dims :=
        permute_range 1 iota.dims
      rw [hall]
      rfl
    | true =>
      have hlast := h.numShapeDims_lt
      rw [if_pos rfl, assignAt_natCast hlast]
      congr 1
      apply List.ext_getElem
      · simp only [numShapeDims, if_true, List.length_set, List.length_append, List.length_map,
          List.length_range, List.length_singleton] at hlast hn ⊢
        omega
      · intro d hd hd'
        have hd : d < iota.dims.length := by simpa using hd
        rw [List.getElem_set]
        split
        · rename_i heq
          simp [← heq, ← hn]
        · rename_i hne
          have hlt : d < n := by
            simp only [numShapeDims, if_true] at hne hn
            omega
          simp [hlt, hd]
  obtain ⟨dims, hrun, hdims⟩ := exists_foldlM_eq_ok
    (fun (done : List ℕ) dims => dims = (List.range n).map (fun d =>
      if d ∈ done then 1 else iota.dims.getD d 1) ++ [replication])
    (l := replicatedDims) (b := (List.range n).map (fun d => iota.dims.getD d 1) ++ [replication])
    (f := fun dims (dim : ℕ) => assignAt dims (dim : ℤ) 1)
    (by simp)
    (by
      intro done x hinitial dims hdims
      have hx : x < n := h.lt x (hinitial.sublist.subset (by simp))
      subst hdims
      refine ⟨_, assignAt_natCast (by simp; omega) 1, ?_⟩
      apply List.ext_getElem (by simp)
      intro d hd hd'
      rw [List.getElem_set]
      rcases eq_or_ne x d with rfl | hne
      · simp [hx]
      · rw [if_neg hne]
        simp [List.getElem_append, Ne.symm hne])
  calc replicatedTileDims iota.dims replicatedDims replicated replication
      = (if replicated then assignAt iota.dims (numShapeDims iota.dims true : ℤ) replication
          else pure (iota.dims ++ [replication])) >>= fun dims =>
            replicatedDims.foldlM (fun dims (dim : ℕ) => assignAt dims (dim : ℤ) 1) dims := by
        rw [replicatedTileDims]
        split <;> rfl
    _ = ok dims := by rw [hstart, ok_bind, hrun]
    _ = _ := by rw [hdims]

end Replicable

/-- The sharding that is written unless all tiles are given up. -/
def replicatedSharding (iota : IotaTileAssignment) (replicated : Bool)
    (replicatedDims : List ℕ) : OpSharding where
  type := .other
  tileAssignmentDimensions := (List.range (numShapeDims iota.dims replicated)).map (fun d =>
    if d ∈ replicatedDims then 1 else iota.dims.getD d 1) ++
      [replicationOf iota replicated replicatedDims]
  iotaReshapeDims := permute 1 (assumedOrder iota) iota.dims ++ replicatedDims.map fun _ => 1
  iotaTransposePerm := extendedPermutation (assumedOrder iota) replicatedDims
  replicateOnLastTileDim := true

theorem replicateDims_eq_ok (hgrouped : Grouped iota)
    (h : Replicable iota replicated replicatedDims) :
    replicateDims replicatedDims (.tiled (.iota iota) replicated) =
      ok (if replicationOf iota replicated replicatedDims = iota.numElements
        then { type := .replicated } else replicatedSharding iota replicated replicatedDims) := by
  have hperm := assumedOrder_perm hgrouped
  have hlength : (assumedOrder iota).length = iota.dims.length := by simpa using hperm.length_eq
  have hextents := mapM_elementAt fun d hd => List.mem_range.mp (hperm.mem_iff (a := d).mp hd)
  rw [replicateDims, currentPermutation_eq_ok hgrouped, ok_bind, hextents, ok_bind,
    newPermutation_eq_ok h.nodup fun d hd => by rw [hlength]; exact h.lt_length hd, ok_bind,
    h.totalReplication_eq_ok, ok_bind]
  split
  · rfl
  · rw [h.replicatedTileDims_eq_ok, ok_bind]
    rfl

end Sharding
end MultiMeshJax
