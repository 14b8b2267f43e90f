import MultiMeshJax.Foundation.MixedRadix

/-! Row-major numbers of permuted digits, and of digits that are read in groups. -/
namespace MultiMeshJax
namespace MixedRadix

theorem rowMajor_append {rs ds rs' ds' : List ℕ} (h : ds.length = rs.length) :
    rowMajor (rs ++ rs') (ds ++ ds') = rowMajor rs ds * rs'.prod + rowMajor rs' ds' := by
  induction rs generalizing ds with
  | nil =>
    obtain rfl := List.length_eq_zero_iff.mp h
    simp [rowMajor]
  | cons r rs ih =>
    cases ds with
    | nil => simp at h
    | cons d ds =>
      rw [List.cons_append, List.cons_append, rowMajor, rowMajor, ih (by simpa using h),
        List.prod_append]
      ring

/-- A number is the same whether its digits are read one by one or in groups. -/
theorem rowMajor_flatten {groups : List (List ℕ × List ℕ)}
    (h : ∀ g ∈ groups, g.2.length = g.1.length) :
    rowMajor (groups.map fun g => g.1.prod) (groups.map fun g => rowMajor g.1 g.2) =
      rowMajor (groups.flatMap Prod.fst) (groups.flatMap Prod.snd) := by
  induction groups with
  | nil => rfl
  | cons g groups ih =>
    have hprod : (groups.map fun g => g.1.prod).prod = (groups.flatMap Prod.fst).prod := by
      rw [List.flatMap, List.prod_flatten, List.map_map]
      rfl
    rw [List.map_cons, List.map_cons, rowMajor, hprod,
      ih fun g' hg' => h g' (List.mem_cons_of_mem g hg'), List.flatMap_cons, List.flatMap_cons,
      rowMajor_append (h g List.mem_cons_self)]

section transpose

variable {perm rs ds : List ℕ} {n : ℕ}

/-- The entries in the order of the permutation. -/
def permute (default : ℕ) (perm xs : List ℕ) : List ℕ := perm.map fun a => xs.getD a default

/-- The entries that the permutation brought into this order. -/
def unpermute (perm ds : List ℕ) (n : ℕ) : List ℕ :=
  (List.range n).map fun a => ds.getD (perm.idxOf a) 0

@[simp] theorem length_permute (default : ℕ) (perm xs : List ℕ) :
    (permute default perm xs).length = perm.length := by
  simp [permute]

@[simp] theorem length_unpermute (perm ds : List ℕ) (n : ℕ) :
    (unpermute perm ds n).length = n := by
  simp [unpermute]

theorem unpermute_permute (hperm : perm.Perm (List.range n)) (hlen : ds.length = n) :
    unpermute perm (permute 0 perm ds) n = ds := by
  apply List.ext_getElem (by simp [hlen])
  intro a ha ha'
  have hmem : a ∈ perm := hperm.mem_iff.mpr (List.mem_range.mpr (by simpa using ha))
  have hidx : perm.idxOf a < perm.length := List.idxOf_lt_length_of_mem hmem
  have hget : perm[perm.idxOf a]? = some a := by
    rw [List.getElem?_eq_getElem hidx, List.getElem_idxOf]
  simp [unpermute, permute, List.getD_eq_getElem?_getD, hget, ha']

theorem permute_unpermute (hperm : perm.Perm (List.range n)) (hlen : ds.length = n) :
    permute 0 perm (unpermute perm ds n) = ds := by
  have hplen : perm.length = n := by simpa using hperm.length_eq
  apply List.ext_getElem (by simp [hlen, hplen])
  intro j hj hj'
  have hj : j < perm.length := by simpa using hj
  have hlt : perm[j] < n := List.mem_range.mp (hperm.mem_iff.mp (List.getElem_mem hj))
  have hidx := (hperm.nodup_iff.mpr List.nodup_range).idxOf_getElem j hj
  simp [unpermute, permute, List.getD_eq_getElem?_getD, hlt, hidx, hj']

/-- What `iota.reshape(rs).transpose(perm)` holds at a position. -/
def transposedAt (rs perm : List ℕ) (position : ℕ) : ℕ :=
  rowMajor rs (unpermute perm (digits (permute 1 perm rs) position) rs.length)

/-- One dimension holds the positions themselves. -/
theorem transposedAt_single (r position : ℕ) : transposedAt [r] [0] position = position := by
  simp [transposedAt, permute, unpermute, digits, rowMajor]

theorem permute_range (default : ℕ) (xs : List ℕ) :
    permute default (List.range xs.length) xs = xs := by
  apply List.ext_getElem (by simp)
  intro i hi hi'
  simp [permute, hi']

theorem forall₂_permute (hperm : perm.Perm (List.range rs.length))
    (h : List.Forall₂ (· < ·) ds rs) :
    List.Forall₂ (· < ·) (permute 0 perm ds) (permute 1 perm rs) := by
  rw [permute, permute, List.forall₂_map_left_iff, List.forall₂_map_right_iff, List.forall₂_same]
  intro a ha
  have ha : a < rs.length := List.mem_range.mp (hperm.mem_iff.mp ha)
  have ha' : a < ds.length := h.length_eq ▸ ha
  rw [List.getD_eq_getElem _ _ ha, List.getD_eq_getElem _ _ ha']
  exact List.forall₂_iff_get.mp h |>.2 a ha' ha

theorem forall₂_unpermute (hperm : perm.Perm (List.range rs.length))
    (h : List.Forall₂ (· < ·) ds (permute 1 perm rs)) :
    List.Forall₂ (· < ·) (unpermute perm ds rs.length) rs := by
  have hlen : ds.length = perm.length := by simpa using h.length_eq
  rw [List.forall₂_iff_get]
  refine ⟨by simp, fun a ha ha' => ?_⟩
  have hmem : a ∈ perm := hperm.mem_iff.mpr (List.mem_range.mpr ha')
  have hidx : perm.idxOf a < perm.length := List.idxOf_lt_length_of_mem hmem
  have hget := (List.forall₂_iff_get.mp h).2 (perm.idxOf a) (hlen ▸ hidx) (by simpa using hidx)
  simpa [unpermute, permute, List.getD_eq_getElem?_getD, ha', hidx, hlen] using hget

/-- The position of the permuted digits holds the number of the digits. -/
theorem transposedAt_rowMajor (hperm : perm.Perm (List.range rs.length))
    (h : List.Forall₂ (· < ·) ds rs) :
    transposedAt rs perm (rowMajor (permute 1 perm rs) (permute 0 perm ds)) = rowMajor rs ds := by
  rw [transposedAt, digits_rowMajor (forall₂_permute hperm h),
    unpermute_permute hperm h.length_eq]

theorem prod_permute (hperm : perm.Perm (List.range rs.length)) :
    (permute 1 perm rs).prod = rs.prod := by
  rw [permute, (hperm.map _).prod_eq]
  congr 1
  apply List.ext_getElem (by simp)
  intro i hi hi'
  simp [List.getElem?_eq_getElem hi']

/-- The permuted radices, each with the weight that its digit has in the number held there. -/
def transposedSystem (rs perm : List ℕ) : System :=
  perm.map fun a => (rs.getD a 1, (rs.drop (a + 1)).prod)

@[simp] theorem map_fst_transposedSystem :
    (transposedSystem rs perm).map Prod.fst = permute 1 perm rs := by
  simp [transposedSystem, permute]

/-- The number that is held at a position is the sum of the permuted digits, weighted. -/
theorem transposedAt_eq_eval (hperm : perm.Perm (List.range rs.length)) (position : ℕ) :
    transposedAt rs perm position = eval (transposedSystem rs perm) position := by
  have hnodup : perm.Nodup := hperm.nodup_iff.mpr List.nodup_range
  rw [transposedAt]
  set index := digits (permute 1 perm rs) position with hindex
  have hlen : index.length = perm.length := by simp [hindex]
  rw [rowMajor_eq_sum (by simp), eval_eq_digits, map_fst_transposedSystem, ← hindex,
    List.map_congr_left (g := fun a => index.getD (perm.idxOf a) 0 * (rs.drop (a + 1)).prod),
    ← (hperm.map _).sum_eq]
  · congr 1
    apply List.ext_getElem
    · simp [hlen, transposedSystem]
    · intro j hj hj'
      have hj : j < perm.length := by simpa using hj
      have hidx := hnodup.idxOf_getElem j hj
      simp [transposedSystem, hidx, List.getElem?_eq_getElem (hlen ▸ hj : j < index.length)]
  · intro a ha
    have ha := List.mem_range.mp ha
    simp [unpermute, List.getD_eq_getElem?_getD, ha]

end transpose

end MixedRadix
end MultiMeshJax
