import MultiMeshJax.Foundation.MachineInteger
import MultiMeshJax.Foundation.MixedRadix
import MultiMeshJax.Foundation.Related

/-! `ComputeIndexSet` and `ComputeGlobalIndex`: the multi-index of a global index, and back. -/
namespace MultiMeshJax
namespace IndexSet

open StatusOr
open MixedRadix (digits rowMajor)

/-- The dimensions are `int64_t`, what is accumulated is `int`. -/
def multiplyStride (stride dim : ℤ) : StatusOr ℤ := do
  let product ← narrow 64 (stride * dim)
  narrow 32 product

/-- The second loop of `ComputeIndexSet`, from the first dimension to the last. -/
def indexLoop : List ℤ → ℤ → ℤ → StatusOr (List ℤ)
  | [], _, _ => return []
  | dim :: dims, remainder, dimStride => do
    let quotient ← divide dimStride dim
    let dimStride ← narrow 32 quotient
    let quotient ← divide remainder dimStride
    let index ← narrow 32 quotient
    let product ← narrow 64 (index * dimStride)
    let difference ← narrow 64 (remainder - product)
    let remainder ← narrow 32 difference
    let indices ← indexLoop dims remainder dimStride
    return index :: indices

def computeIndexSet (globalIndex : ℤ) (dims : List ℤ) : StatusOr (List ℤ) := do
  let remainder ← narrow 32 globalIndex
  let dimStride ← dims.foldlM multiplyStride 1
  indexLoop dims remainder dimStride

/-- The loop of `ComputeGlobalIndex`, from the last dimension to the first: the index and the
stride that it has accumulated. -/
def globalIndexLoop : List ℤ → List ℤ → StatusOr (ℤ × ℤ)
  | [], _ => return (0, 1)
  | _ :: _, [] => fatal "index out of range"
  | i :: indices, dim :: dims => do
    let (index, stride) ← globalIndexLoop indices dims
    let product ← narrow 64 (stride * i)
    let sum ← narrow 64 (index + product)
    let index ← narrow 32 sum
    let stride ← multiplyStride stride dim
    return (index, stride)

def computeGlobalIndex (indices dims : List ℤ) : StatusOr ℤ := do
  let (index, _) ← globalIndexLoop indices dims
  return index

section steps

variable {s d : ℕ}

theorem multiplyStride_natCast (h : s * d < 2 ^ 31) :
    multiplyStride (s : ℤ) (d : ℤ) = ok ((s * d : ℕ) : ℤ) := by
  rw [multiplyStride, ← Nat.cast_mul, narrow_natCast_wide h, ok_bind, narrow_natCast h]

end steps

section loops

variable {rs ds : List ℕ} {n s : ℕ}

/-- The first loop multiplies the dimensions up. -/
theorem foldlM_multiplyStride (hpos : ∀ r ∈ rs, 0 < r) (hfits : s * rs.prod < 2 ^ 31) :
    (rs.map Nat.cast).foldlM multiplyStride (s : ℤ) = ok ((s * rs.prod : ℕ) : ℤ) := by
  induction rs generalizing s with
  | nil => simp
  | cons r rs ih =>
    rw [List.prod_cons, ← mul_assoc] at hfits ⊢
    have hrest : ∀ r ∈ rs, 0 < r := fun r hr => hpos r (List.mem_cons_of_mem _ hr)
    have hle : s * r ≤ s * r * rs.prod := Nat.le_mul_of_pos_right _ (List.prod_pos hrest)
    rw [List.map_cons, List.foldlM_cons, multiplyStride_natCast (by omega), ok_bind]
    exact ih hrest hfits

/-- The stride at a dimension is the product of the dimensions after it, and the remainder is
below the product from it on. -/
theorem indexLoop_natCast (hpos : ∀ r ∈ rs, 0 < r) (hfits : rs.prod < 2 ^ 31) (hn : n < rs.prod) :
    indexLoop (rs.map Nat.cast) (n : ℤ) (rs.prod : ℤ) = ok ((digits rs n).map Nat.cast) := by
  induction rs generalizing n with
  | nil => rfl
  | cons r rs ih =>
    have hr : 0 < r := hpos r (List.mem_cons_self ..)
    have hrest : ∀ r ∈ rs, 0 < r := fun r hr => hpos r (List.mem_cons_of_mem _ hr)
    have hprod : 0 < rs.prod := List.prod_pos hrest
    have hle : rs.prod ≤ r * rs.prod := Nat.le_mul_of_pos_left _ hr
    rw [List.prod_cons] at hfits hn
    have hstride : r * rs.prod / r = rs.prod := Nat.mul_div_cancel_left _ hr
    have hindex : n / rs.prod ≤ n := Nat.div_le_self _ _
    have hproduct : n / rs.prod * rs.prod ≤ n := Nat.div_mul_le_self n _
    have hremainder : (n : ℤ) - (n / rs.prod * rs.prod : ℕ) = (n % rs.prod : ℕ) := by
      have hsum := Nat.div_add_mod' n rs.prod
      omega
    have hmod : n % rs.prod < rs.prod := Nat.mod_lt n hprod
    rw [List.map_cons, List.prod_cons, indexLoop, divide_natCast hr, ok_bind, hstride,
      narrow_natCast (by omega), ok_bind, divide_natCast hprod, ok_bind,
      narrow_natCast (by omega), ok_bind, ← Nat.cast_mul, narrow_natCast_wide (by omega), ok_bind,
      hremainder, narrow_natCast_wide (by omega), ok_bind, narrow_natCast (by omega), ok_bind,
      ih hrest (by omega) hmod]
    rfl

/-- After the dimensions from one on, the stride is their product, and the index is below it. -/
theorem globalIndexLoop_natCast (hpos : ∀ r ∈ rs, 0 < r) (hfits : rs.prod < 2 ^ 31)
    (hds : List.Forall₂ (· < ·) ds rs) :
    globalIndexLoop (ds.map Nat.cast) (rs.map Nat.cast) =
      ok ((rowMajor rs ds : ℤ), (rs.prod : ℤ)) := by
  induction hds with
  | nil => rfl
  | @cons d r ds rs hd hds ih =>
    have hr : 0 < r := hpos r (List.mem_cons_self ..)
    have hrest : ∀ r ∈ rs, 0 < r := fun r hr => hpos r (List.mem_cons_of_mem _ hr)
    have hprod : 0 < rs.prod := List.prod_pos hrest
    have hle : rs.prod ≤ r * rs.prod := Nat.le_mul_of_pos_left _ hr
    rw [List.prod_cons] at hfits
    have hindex : rowMajor (r :: rs) (d :: ds) < (r :: rs).prod :=
      MixedRadix.rowMajor_lt (.cons hd hds)
    rw [rowMajor, List.prod_cons] at hindex
    have hproduct : rs.prod * d = d * rs.prod := mul_comm _ _
    rw [List.map_cons, List.map_cons, globalIndexLoop, ih hrest (by omega), ok_bind]
    dsimp only
    rw [← Nat.cast_mul, hproduct, narrow_natCast_wide (by omega), ok_bind, ← Nat.cast_add,
      add_comm, narrow_natCast_wide (by omega), ok_bind, narrow_natCast (by omega), ok_bind,
      multiplyStride_natCast (by rwa [mul_comm]), ok_bind, mul_comm rs.prod r]
    rfl

theorem computeIndexSet_natCast (hpos : ∀ r ∈ rs, 0 < r) (hfits : rs.prod < 2 ^ 31)
    (hn : n < rs.prod) :
    computeIndexSet (n : ℤ) (rs.map Nat.cast) = ok ((digits rs n).map Nat.cast) := by
  have hone : 1 * rs.prod = rs.prod := one_mul _
  have hstride := foldlM_multiplyStride hpos (s := 1) (by rwa [hone])
  rw [hone, Nat.cast_one] at hstride
  rw [computeIndexSet, narrow_natCast (by omega), ok_bind, hstride, ok_bind]
  exact indexLoop_natCast hpos hfits hn

theorem computeGlobalIndex_natCast (hpos : ∀ r ∈ rs, 0 < r) (hfits : rs.prod < 2 ^ 31)
    (hds : List.Forall₂ (· < ·) ds rs) :
    computeGlobalIndex (ds.map Nat.cast) (rs.map Nat.cast) = ok (rowMajor rs ds : ℤ) := by
  rw [computeGlobalIndex, globalIndexLoop_natCast hpos hfits hds]
  rfl

end loops

section inverse

/-- Each component lies below its dimension. -/
def InRange (indices dims : List ℤ) : Prop := List.Forall₂ (fun i d => 0 ≤ i ∧ i < d) indices dims

theorem inRange_natCast {ds rs : List ℕ} :
    InRange (ds.map Nat.cast) (rs.map Nat.cast) ↔ List.Forall₂ (· < ·) ds rs := by
  rw [InRange, List.forall₂_map_left_iff, List.forall₂_map_right_iff]
  simp

theorem exists_natCast {xs : List ℤ} (h : ∀ x ∈ xs, 0 ≤ x) : ∃ ns : List ℕ, xs = ns.map Nat.cast := by
  lift xs to List ℕ using h
  exact ⟨xs, rfl⟩

theorem exists_natCast_of_inRange {indices dims : List ℤ} (h : InRange indices dims) :
    ∃ ds : List ℕ, indices = ds.map Nat.cast := by
  apply exists_natCast
  intro i hi
  obtain ⟨d, -, hle, -⟩ := exists_of_mem_forall₂ h hi
  exact hle

/-- The two functions undo each other, and neither leaves the range of its integers. -/
theorem computeIndexSet_inverse (dims : List ℤ) (hpos : ∀ d ∈ dims, 0 < d)
    (hfits : dims.prod < 2 ^ 31) :
    (∀ index, 0 ≤ index → index < dims.prod → ∃ indices, computeIndexSet index dims = ok indices ∧
      InRange indices dims ∧ computeGlobalIndex indices dims = ok index) ∧
    ∀ indices, InRange indices dims → ∃ index, computeGlobalIndex indices dims = ok index ∧
      0 ≤ index ∧ index < dims.prod ∧ computeIndexSet index dims = ok indices := by
  obtain ⟨rs, rfl⟩ := exists_natCast fun d hd => (hpos d hd).le
  have hprod : ((rs.map Nat.cast).prod : ℤ) = (rs.prod : ℕ) := (Nat.cast_list_prod rs).symm
  have hrs : ∀ r ∈ rs, 0 < r := fun r hr => by
    exact_mod_cast hpos _ (List.mem_map_of_mem hr)
  rw [hprod] at hfits ⊢
  have hfits' : rs.prod < 2 ^ 31 := by exact_mod_cast hfits
  constructor
  · intro index hnonneg hlt
    lift index to ℕ using hnonneg
    have hn : index < rs.prod := by exact_mod_cast hlt
    obtain ⟨ds, hds, rfl⟩ := MixedRadix.exists_rowMajor hn
    refine ⟨_, computeIndexSet_natCast hrs hfits' hn, ?_, ?_⟩
    · rw [MixedRadix.digits_rowMajor hds]
      exact inRange_natCast.mpr hds
    · rw [MixedRadix.digits_rowMajor hds]
      exact computeGlobalIndex_natCast hrs hfits' hds
  · intro indices hindices
    obtain ⟨ds, rfl⟩ := exists_natCast_of_inRange hindices
    have hds := inRange_natCast.mp hindices
    have hlt := MixedRadix.rowMajor_lt hds
    refine ⟨_, computeGlobalIndex_natCast hrs hfits' hds, Int.natCast_nonneg _, ?_, ?_⟩
    · exact_mod_cast hlt
    · rw [computeIndexSet_natCast hrs hfits' hlt, MixedRadix.digits_rowMajor hds]

/-- The index 13 of four dimensions. -/
theorem computeIndexSet_inverse_thirteen :
    (∀ d ∈ [1, 2, 3, 4], (0 : ℤ) < d) ∧ ([1, 2, 3, 4] : List ℤ).prod < 2 ^ 31 ∧
      computeIndexSet 13 [1, 2, 3, 4] = ok [0, 1, 0, 1] ∧
        ∃ indices, computeIndexSet 13 [1, 2, 3, 4] = ok indices ∧
          InRange indices [1, 2, 3, 4] ∧ computeGlobalIndex indices [1, 2, 3, 4] = ok 13 :=
  ⟨by decide, by decide, by decide,
    (computeIndexSet_inverse [1, 2, 3, 4] (by decide) (by decide)).1 13 (by decide) (by decide)⟩

end inverse

end IndexSet
end MultiMeshJax
