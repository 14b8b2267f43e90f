import Mathlib

/-! Arrays in row-major order, their concatenation along an axis, and the concatenation of parts
that are grouped by a key. -/
namespace MultiMeshJax

/-- An array with one entry for each index. -/
structure RowMajor (α : Type) where
  dims : List ℕ
  data : List α
  length_eq : data.length = dims.prod
  deriving DecidableEq, Repr

instance {α : Type} : Inhabited (RowMajor α) := ⟨⟨[0], [], rfl⟩⟩

/-- The shapes of the parts agree with the whole but for the axis, along which they add up. -/
structure Fits (axis : ℕ) (dims : List ℕ) (parts : List (List ℕ)) : Prop where
  axis_lt : axis < dims.length
  agree : ∀ d ∈ parts, d = dims.set axis (d.getD axis 0)
  size : dims.getD axis 0 = (parts.map fun d => d.getD axis 0).sum

theorem fits_iff {axis : ℕ} {dims : List ℕ} {parts : List (List ℕ)} : Fits axis dims parts ↔
    axis < dims.length ∧ (∀ d ∈ parts, d = dims.set axis (d.getD axis 0)) ∧
      dims.getD axis 0 = (parts.map fun d => d.getD axis 0).sum :=
  ⟨fun h => ⟨h.axis_lt, h.agree, h.size⟩, fun h => ⟨h.1, h.2.1, h.2.2⟩⟩

instance (axis : ℕ) (dims : List ℕ) (parts : List (List ℕ)) : Decidable (Fits axis dims parts) :=
  decidable_of_iff _ fits_iff.symm

theorem prod_set {dims : List ℕ} {axis : ℕ} (h : axis < dims.length) (n : ℕ) :
    (dims.set axis n).prod = (dims.take axis).prod * n * (dims.drop (axis + 1)).prod := by
  rw [List.set_eq_take_append_cons_drop, if_pos h, List.prod_append, List.prod_cons, mul_assoc]

theorem Fits.prod_part {axis : ℕ} {dims d : List ℕ} {parts : List (List ℕ)}
    (h : Fits axis dims parts) (hd : d ∈ parts) :
    d.prod = (dims.take axis).prod * (d.getD axis 0 * (dims.drop (axis + 1)).prod) := by
  have hprod : d.prod = (dims.set axis (d.getD axis 0)).prod := congrArg List.prod (h.agree d hd)
  rw [hprod, prod_set h.axis_lt, mul_assoc]

theorem Fits.drop_part {axis : ℕ} {dims d : List ℕ} {parts : List (List ℕ)}
    (h : Fits axis dims parts) (hd : d ∈ parts) :
    (d.drop axis).prod = d.getD axis 0 * (dims.drop (axis + 1)).prod := by
  have hlt : axis < d.length := by
    rw [h.agree d hd]
    simpa using h.axis_lt
  rw [List.drop_eq_getElem_cons hlt, List.prod_cons, List.getD_eq_getElem _ _ hlt]
  congr 2
  rw [h.agree d hd, List.drop_set_of_lt (Nat.lt_succ_self axis)]

/-- The shape of the whole has as many entries as those of the parts. -/
theorem Fits.prod_eq {axis : ℕ} {dims : List ℕ} {parts : List (List ℕ)}
    (h : Fits axis dims parts) : dims.prod = (parts.map List.prod).sum := by
  have hself : dims.set axis (dims.getD axis 0) = dims := by
    rw [List.getD_eq_getElem _ _ h.axis_lt, List.set_getElem_self]
  rw [← hself, prod_set h.axis_lt, h.size, mul_assoc, mul_left_comm, ← List.sum_map_mul_right]
  congr 1
  apply List.map_congr_left
  intro d hd
  rw [h.prod_part hd]
  ring

section grouping

variable {α β κ : Type}

/-- The order of two nested loops does not matter for what they produce. -/
theorem flatMap_comm_perm (as : List α) (bs : List β) (f : α → β → List κ) :
    (as.flatMap fun a => bs.flatMap (f a)).Perm (bs.flatMap fun b => as.flatMap fun a => f a b) := by
  induction as with
  | nil => simp
  | cons a as ih =>
    simp only [List.flatMap_cons]
    exact (ih.append_left _).trans (List.flatMap_append_perm bs (f a) _)

/-- The keys in the order in which they come up. -/
def firstKeys [DecidableEq κ] (keys : List κ) : List κ :=
  keys.foldl (fun seen k => if k ∈ seen then seen else seen ++ [k]) []

variable [DecidableEq κ]

theorem firstKeys_append_singleton (keys : List κ) (k : κ) : firstKeys (keys ++ [k]) =
    if k ∈ firstKeys keys then firstKeys keys else firstKeys keys ++ [k] := by
  rw [firstKeys, List.foldl_append]
  rfl

theorem nodup_firstKeys (keys : List κ) : (firstKeys keys).Nodup := by
  induction keys using List.reverseRecOn with
  | nil => exact List.nodup_nil
  | append_singleton keys k ih =>
    rw [firstKeys_append_singleton]
    split
    · exact ih
    · rename_i hnew
      exact ih.append (List.nodup_singleton k) (by simpa using hnew)

theorem mem_firstKeys {keys : List κ} {k : κ} : k ∈ firstKeys keys ↔ k ∈ keys := by
  induction keys using List.reverseRecOn with
  | nil => simp [firstKeys]
  | append_singleton keys k' ih =>
    rw [firstKeys_append_singleton, List.mem_append, List.mem_singleton, ← ih]
    split
    · rename_i hold
      constructor
      · exact .inl
      · rintro (h | rfl)
        · exact h
        · exact hold
    · rw [List.mem_append, List.mem_singleton]

/-- Every element is in the group of its key. -/
theorem flatMap_filter_perm (key : α → κ) {keys : List κ} (hnodup : keys.Nodup) (xs : List α)
    (hmem : ∀ x ∈ xs, key x ∈ keys) :
    (keys.flatMap fun k => xs.filter fun x => key x = k).Perm xs := by
  induction xs with
  | nil => simp
  | cons x xs ih =>
    have hrest := ih fun y hy => hmem y (List.mem_cons_of_mem _ hy)
    obtain ⟨before, after, rfl⟩ := List.append_of_mem (hmem x (List.mem_cons_self ..))
    obtain ⟨-, hnotAfter, hapart⟩ := List.nodup_append.mp hnodup
    have hother : ∀ ks : List κ, key x ∉ ks →
        (ks.flatMap fun k => (x :: xs).filter fun y => key y = k) =
          ks.flatMap fun k => xs.filter fun y => key y = k := by
      intro ks hks
      apply List.flatMap_congr
      intro k hk
      rw [List.filter_cons, if_neg]
      simp only [decide_eq_true_eq]
      rintro rfl
      exact hks hk
    have hbefore : key x ∉ before := fun hin => hapart _ hin _ (List.mem_cons_self ..) rfl
    rw [List.flatMap_append, List.flatMap_cons, hother before hbefore,
      hother after (List.nodup_cons.mp hnotAfter).1, List.filter_cons, if_pos (by simp),
      List.cons_append]
    rw [List.flatMap_append, List.flatMap_cons] at hrest
    exact List.perm_middle.trans (hrest.cons x)

theorem groups_perm (key : α → κ) (xs : List α) :
    ((firstKeys (xs.map key)).flatMap fun k => xs.filter fun x => key x = k).Perm xs := by
  apply flatMap_filter_perm key (nodup_firstKeys _)
  intro x hx
  exact mem_firstKeys.mpr (List.mem_map_of_mem hx)

end grouping

namespace RowMajor

variable {α : Type}

/-- The entries of one index of the axes before. -/
def slab (axis : ℕ) (x : RowMajor α) (outer : ℕ) : List α :=
  (x.data.drop (outer * (x.dims.drop axis).prod)).take (x.dims.drop axis).prod

/-- The parts side by side, for one index of the axes before after the other. -/
def concatData (axis outer : ℕ) (xs : List (RowMajor α)) : List α :=
  (List.range outer).flatMap fun o => xs.flatMap fun x => x.slab axis o

theorem flatMap_chunks {n m : ℕ} {l : List α} (h : l.length = n * m) :
    ((List.range n).flatMap fun o => (l.drop (o * m)).take m) = l := by
  induction n generalizing l with
  | zero => simpa using (List.length_eq_zero_iff.mp (by simpa using h)).symm
  | succ n ih =>
    have hrest : (l.drop m).length = n * m := by
      rw [List.length_drop, h, Nat.succ_mul, Nat.add_sub_cancel]
    have htail := ih hrest
    rw [List.range_succ_eq_map, List.flatMap_cons, List.flatMap_map]
    simp only [Nat.zero_mul, List.drop_zero]
    nth_rewrite 3 [← List.take_append_drop m l]
    rw [← htail]
    congr 1
    apply List.flatMap_congr
    intro o _
    rw [List.drop_drop, Nat.succ_mul, Nat.add_comm]

/-- A concatenation has the entries of its parts. -/
theorem concatData_perm {axis : ℕ} {dims : List ℕ} {xs : List (RowMajor α)}
    (h : Fits axis dims (xs.map RowMajor.dims)) :
    (concatData axis (dims.take axis).prod xs).Perm (xs.flatMap RowMajor.data) := by
  apply (flatMap_comm_perm _ _ _).trans
  apply List.Perm.flatMap_left
  intro x hx
  have hdims : x.dims ∈ xs.map RowMajor.dims := List.mem_map_of_mem hx
  have hlength : x.data.length = (dims.take axis).prod * (x.dims.drop axis).prod := by
    rw [x.length_eq, h.prod_part hdims, h.drop_part hdims]
  exact List.Perm.of_eq (flatMap_chunks hlength)

theorem length_flatMap_data (xs : List (RowMajor α)) :
    (xs.flatMap RowMajor.data).length = ((xs.map RowMajor.dims).map List.prod).sum := by
  rw [List.length_flatMap, List.map_map]
  congr 1
  apply List.map_congr_left
  intro x _
  exact x.length_eq

/-- The concatenation along an axis, if the shape is that of the parts put together. -/
def concatenate (axis : ℕ) (dims : List ℕ) (xs : List (RowMajor α)) : Option (RowMajor α) :=
  if h : Fits axis dims (xs.map RowMajor.dims) then
    some ⟨dims, concatData axis (dims.take axis).prod xs, by
      rw [(concatData_perm h).length_eq, length_flatMap_data, h.prod_eq]⟩
  else none

theorem concatenate_eq_some {axis : ℕ} {dims : List ℕ} {xs : List (RowMajor α)} {x : RowMajor α}
    (h : concatenate axis dims xs = some x) :
    Fits axis dims (xs.map RowMajor.dims) ∧ x.dims = dims ∧
      x.data.Perm (xs.flatMap RowMajor.data) := by
  unfold concatenate at h
  split at h
  · rename_i hfits
    obtain rfl := Option.some.inj h
    exact ⟨hfits, rfl, concatData_perm hfits⟩
  · cases h

theorem exists_concatenate {axis : ℕ} {dims : List ℕ} {xs : List (RowMajor α)}
    (h : Fits axis dims (xs.map RowMajor.dims)) : ∃ x, concatenate axis dims xs = some x :=
  ⟨_, dif_pos h⟩

end RowMajor

end MultiMeshJax
