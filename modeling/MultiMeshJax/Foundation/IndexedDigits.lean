import MultiMeshJax.Foundation.Transpose

/-! Digits that belong to the elements of a list: their sums do not depend on the order, and
trivial digits may be left out. -/
namespace MultiMeshJax
namespace MixedRadix

theorem eval_rowMajor {s : System} {ds : List ℕ} (h : List.Forall₂ (· < ·) ds (s.map Prod.fst)) :
    eval s (rowMajor (s.map Prod.fst) ds) = ((ds.zip s).map fun x => x.1 * x.2.2).sum := by
  rw [eval_eq_digits, digits_rowMajor h]

theorem eval_reduce {s : System} (h : ∀ p ∈ s, 0 < p.1) {n : ℕ} (hn : n < size s) :
    eval (reduce s) n = eval s n :=
  (reduce_spec h).2.2.1 n hn

/-- A digit with a single value is dropped. -/
theorem consMerged_of_eq_one {p : ℕ × ℕ} (h : p.1 = 1) (s : System) : consMerged p s = s := by
  cases s <;> simp [consMerged, h]

/-- The digit of the last radix stands apart. -/
theorem exists_concat_of_forall₂ {c rs : List ℕ} {r : ℕ}
    (h : List.Forall₂ (· < ·) c (rs ++ [r])) : ∃ k < r, c = c.take rs.length ++ [k] := by
  obtain ⟨k, rest, hk, hrest, hdrop⟩ :=
    List.forall₂_cons_right_iff.mp (List.forall₂_drop_append c rs [r] h)
  obtain rfl := List.forall₂_nil_right_iff.mp hrest
  exact ⟨k, hk, by rw [← hdrop, List.take_append_drop]⟩

section indexed

variable {ι : Type} {f : ι → ℕ × ℕ} {g : ι → ℕ} {l : List ι}

theorem forall₂_indexed (h : ∀ i ∈ l, g i < (f i).1) :
    List.Forall₂ (· < ·) (l.map g) (l.map fun i => (f i).1) := by
  rw [List.forall₂_map_left_iff, List.forall₂_map_right_iff, List.forall₂_same]
  exact h

/-- The weighted sum of the digits that are given for the elements. -/
theorem eval_indexed (h : ∀ i ∈ l, g i < (f i).1) :
    eval (l.map f) (rowMajor (l.map fun i => (f i).1) (l.map g)) =
      (l.map fun i => g i * (f i).2).sum := by
  have hradices : (l.map f).map Prod.fst = l.map fun i => (f i).1 := by
    rw [List.map_map]
    rfl
  have hdigits : List.Forall₂ (· < ·) (l.map g) ((l.map f).map Prod.fst) :=
    hradices ▸ forall₂_indexed h
  have heval := eval_rowMajor hdigits
  rw [hradices] at heval
  rw [heval, List.zip_map', List.map_map]
  rfl

/-- In another order the digits are those of another number, with the same sum. -/
theorem eval_indexed_perm {l' : List ι} (hperm : l.Perm l') (h : ∀ i ∈ l, g i < (f i).1) :
    eval (l.map f) (rowMajor (l.map fun i => (f i).1) (l.map g)) =
      eval (l'.map f) (rowMajor (l'.map fun i => (f i).1) (l'.map g)) := by
  rw [eval_indexed h, eval_indexed fun i hi => h i (hperm.mem_iff.mpr hi)]
  exact (hperm.map _).sum_eq

/-- Every number below the product of the radices has digits. -/
theorem exists_indexed [DecidableEq ι] {radix : ι → ℕ} (hnodup : l.Nodup) {n : ℕ}
    (hn : n < (l.map radix).prod) :
    ∃ g : ι → ℕ, (∀ i ∈ l, g i < radix i) ∧ rowMajor (l.map radix) (l.map g) = n := by
  obtain ⟨ds, hds, hval⟩ := exists_rowMajor hn
  have hlen : ds.length = l.length := by simpa using hds.length_eq
  have hmap : l.map (fun i => ds.getD (l.idxOf i) 0) = ds := by
    apply List.ext_getElem (by simp [hlen])
    intro j hj hj'
    have hj : j < l.length := by simpa using hj
    rw [List.getElem_map, hnodup.idxOf_getElem j hj, List.getD_eq_getElem _ _ hj']
  refine ⟨fun i => ds.getD (l.idxOf i) 0, ?_, by rw [hmap, hval]⟩
  rw [← hmap, List.forall₂_map_left_iff, List.forall₂_map_right_iff, List.forall₂_same] at hds
  exact hds

/-- Elements with a single digit do not count. -/
theorem prod_indexed_filter {radix : ι → ℕ} (P : ι → Bool)
    (h : ∀ i ∈ l, P i = false → radix i = 1) :
    (l.map radix).prod = ((l.filter P).map radix).prod := by
  induction l with
  | nil => rfl
  | cons i l ih =>
    have hrest := ih fun j hj => h j (List.mem_cons_of_mem i hj)
    cases hi : P i with
    | true => rw [List.filter_cons_of_pos hi, List.map_cons, List.prod_cons, hrest]; rfl
    | false =>
      rw [List.filter_cons_of_neg (by simp [hi]), List.map_cons, List.prod_cons, hrest,
        h i List.mem_cons_self hi, one_mul]

theorem rowMajor_indexed_filter {radix : ι → ℕ} (P : ι → Bool)
    (hone : ∀ i ∈ l, P i = false → radix i = 1) (hzero : ∀ i ∈ l, P i = false → g i = 0) :
    rowMajor (l.map radix) (l.map g) =
      rowMajor ((l.filter P).map radix) ((l.filter P).map g) := by
  induction l with
  | nil => rfl
  | cons i l ih =>
    have hone' := fun j (hj : j ∈ l) => hone j (List.mem_cons_of_mem i hj)
    have hrest := ih hone' fun j hj => hzero j (List.mem_cons_of_mem i hj)
    rw [List.map_cons, List.map_cons, rowMajor, hrest, prod_indexed_filter P hone']
    cases hi : P i with
    | true => rw [List.filter_cons_of_pos hi]; rfl
    | false =>
      rw [List.filter_cons_of_neg (by simp [hi]), hzero i List.mem_cons_self hi, zero_mul, zero_add]

/-- Nor do they count in front of another system. -/
theorem reduce_indexed_filter {f' : ι → ℕ × ℕ} (P : ι → Bool) (t : System)
    (hone : ∀ i ∈ l, P i = false → (f i).1 = 1) (hsame : ∀ i ∈ l, P i = true → f i = f' i) :
    reduce (l.map f ++ t) = reduce ((l.filter P).map f' ++ t) := by
  induction l with
  | nil => rfl
  | cons i l ih =>
    have hrest := ih (fun j hj => hone j (List.mem_cons_of_mem i hj))
      (fun j hj => hsame j (List.mem_cons_of_mem i hj))
    have hcons : reduce ((i :: l).map f ++ t) = consMerged (f i) (reduce (l.map f ++ t)) := rfl
    rw [hcons, hrest]
    cases hi : P i with
    | true =>
      rw [List.filter_cons_of_pos hi, hsame i List.mem_cons_self hi]
      rfl
    | false =>
      rw [List.filter_cons_of_neg (by simp [hi]),
        consMerged_of_eq_one (hone i List.mem_cons_self hi)]

end indexed

end MixedRadix
end MultiMeshJax
