import MultiMeshJax.Foundation.Tensor
import MultiMeshJax.Status

/-! The microbatch transformation of the Python front end. An exception is an `error`. -/
namespace MultiMeshJax
namespace Microbatch

open Tensor StatusOr

/-- The position that a Python index denotes, if it is one. -/
def pyIndex (length : ℕ) (i : ℤ) : Option ℕ :=
  if 0 ≤ i then if i < length then some i.toNat else none
  else if 0 ≤ i + length then some (i + length).toNat else none

/-- Where the bound of a Python slice falls. -/
def pyBound (length : ℕ) (i : ℤ) : ℕ :=
  if 0 ≤ i then min i.toNat length else (i + length).toNat

/-- The sizes of a slice fit the shape. -/
def Fits (sizes : List ℤ) (shape : List ℕ) : Prop :=
  List.Forall₂ (fun (s : ℤ) (d : ℕ) => 0 ≤ s ∧ s ≤ d) sizes shape

/-- `jax.lax.dynamic_slice`: sizes that do not fit are rejected, and offsets within the
array select the window there. -/
structure DynamicSlice (α : Type) where
  run : Tensor α → List ℤ → List ℤ → StatusOr (Tensor α)
  rejects : ∀ x offsets sizes, ¬ Fits sizes x.shape → ∃ e, run x offsets sizes = .error e
  window : ∀ (x : Tensor α) (offsets sizes : List ℕ), offsets.length = x.shape.length →
    sizes.length = x.shape.length →
    List.Forall₂ (fun o d => o ≤ d) (List.zipWith (· + ·) offsets sizes) x.shape →
    ∃ y, run x (offsets.map Nat.cast) (sizes.map Nat.cast) = .ok y ∧ y.shape = sizes ∧
      ∀ idx, InRange sizes idx → y.get idx = x.get (List.zipWith (· + ·) idx offsets)

variable {α β : Type}

/-- The custom schedule by task names: every name of a row is there once a microbatch. -/
def checkCustomSchedule (customSchedule : Option (List (List String))) (numMicrobatches : ℤ) :
    StatusOr Unit :=
  match customSchedule with
  | none => return ()
  | some rows => rows.forM fun row => row.dedup.forM fun task =>
    if (row.count task : ℤ) ≠ numMicrobatches then
      error ("task " ++ task ++ " has " ++ toString (row.count task) ++
        " microbatches, but there are " ++ toString numMicrobatches ++ " microbatches")
    else return ()

/-- `x.shape[:dim] + (size,) + x.shape[dim + 1:]`. -/
def sliceSizes (shape : List ℕ) (dim size : ℤ) : List ℤ :=
  (shape.take (pyBound shape.length dim)).map Nat.cast ++ [size] ++
    (shape.drop (pyBound shape.length (dim + 1))).map Nat.cast

/-- The marks and the sharding constraint of a slice leave its value alone. -/
def sliceMicrobatch (slice : DynamicSlice α) (dim size offset : ℤ) (x : Tensor α) :
    StatusOr (Tensor α) :=
  match pyIndex x.shape.length dim with
  | none => error "list assignment index out of range"
  | some axis =>
    slice.run x ((List.replicate x.shape.length 0).set axis offset) (sliceSizes x.shape dim size)

def batchLength (dim : ℤ) (x : Tensor α) : StatusOr ℕ :=
  match (pyIndex x.shape.length dim).bind fun axis => x.shape[axis]? with
  | some length => return length
  | none => error "tuple index out of range"

/-- The body of the loop, over the offset and the results so far. -/
def bodyFun [AddMonoid β] (slice : DynamicSlice α) (dim size : ℤ) (xs : List (Tensor α))
    (fun_ : List (Tensor α) → β) (loopArgs : ℤ × β) : StatusOr (ℤ × β) := do
  let slices ← xs.mapM (sliceMicrobatch slice dim size loopArgs.1)
  return (loopArgs.1 + size, loopArgs.2 + fun_ slices)

def checkLengths (dim : ℤ) (microbatchDim : ℕ) : List (Tensor α) → StatusOr Unit
  | [] => return ()
  | x :: xs => do
    let length ← batchLength dim x
    if microbatchDim ≠ length then
      error "dimensions not the same across all microbatched tensors"
    else checkLengths dim microbatchDim xs

/-- The transformed function, on the arrays of the argument that is sliced. -/
def wrapped [AddMonoid β] (slice : DynamicSlice α) (dim size : ℤ)
    (customSchedule : Option (List (List String))) (xs : List (Tensor α))
    (fun_ : List (Tensor α) → β) : StatusOr β :=
  match xs with
  | [] => error "list index out of range"
  | x :: _ => do
    let microbatchDim ← batchLength dim x
    checkLengths dim microbatchDim xs
    if size = 0 then error "integer division or modulo by zero"
    else
      let numMicrobatches := (microbatchDim : ℤ).fdiv size
      if numMicrobatches = 1 then return fun_ xs
      else do
        checkCustomSchedule customSchedule numMicrobatches
        let _ ← xs.mapM (sliceMicrobatch slice dim size 0)
        let (_, result) ← (List.range numMicrobatches.toNat).foldlM
          (fun loopArgs _ => bodyFun slice dim size xs fun_ loopArgs) ((0 : ℤ), (0 : β))
        return result

/-- The arrays of a batch are the concatenations of those of two others along `dim`. -/
def IsConcatTree (dim : ℤ) (wholes fronts backs : List (Tensor α)) : Prop :=
  fronts.length = wholes.length ∧ backs.length = wholes.length ∧
    ∀ (k : ℕ) (whole front back : Tensor α), wholes[k]? = some whole → fronts[k]? = some front →
      backs[k]? = some back → ∃ axis, pyIndex whole.shape.length dim = some axis ∧
        IsConcat axis whole front back

/-- The function of a concatenation is the sum of the functions of the parts. -/
def Additive [AddMonoid β] (dim : ℤ) (fun_ : List (Tensor α) → β) : Prop :=
  ∀ wholes fronts backs, IsConcatTree dim wholes fronts backs →
    fun_ wholes = fun_ fronts + fun_ backs

def Raises {γ : Type} (x : StatusOr γ) : Prop := ∃ e, x = .error e

/-- The transformed function raises, or agrees with the function that it wraps. -/
def Agrees (slice : DynamicSlice α) (dim size : ℤ)
    (customSchedule : Option (List (List String))) (xs : List (Tensor α)) : Prop :=
  ∀ (β : Type) [AddMonoid β] (fun_ : List (Tensor α) → β), Additive dim fun_ →
    Raises (wrapped slice dim size customSchedule xs fun_) ∨
      wrapped slice dim size customSchedule xs fun_ = .ok (fun_ xs)

section outcomes

variable {γ δ : Type}

theorem Raises.bind {x : StatusOr γ} (h : Raises x) (f : γ → StatusOr δ) : Raises (x >>= f) := by
  obtain ⟨e, rfl⟩ := h
  exact ⟨e, rfl⟩

theorem raises_mapM {f : γ → StatusOr δ} {x : γ} {xs : List γ} (h : Raises (f x)) :
    Raises ((x :: xs).mapM f) := by
  rw [List.mapM_cons]
  exact h.bind _

theorem forM_cases {f : γ → StatusOr Unit} (h : ∀ x, f x = ok () ∨ Raises (f x)) (xs : List γ) :
    xs.forM f = ok () ∨ Raises (xs.forM f) := by
  induction xs with
  | nil => exact .inl rfl
  | cons x xs ih =>
    show (f x >>= fun _ => xs.forM f) = ok () ∨ Raises (f x >>= fun _ => xs.forM f)
    rcases h x with hok | hraises
    · rw [hok, ok_bind]
      exact ih
    · exact .inr (hraises.bind _)

end outcomes

/-- The arrays have a length along `dim`, all the same one. -/
structure Batches (dim : ℤ) (length : ℕ) (xs : List (Tensor α)) : Prop where
  ne_nil : xs ≠ []
  lengths : ∀ x ∈ xs, batchLength dim x = ok length

theorem batchLength_cases (dim : ℤ) (x : Tensor α) :
    (∃ length, batchLength dim x = ok length) ∨ Raises (batchLength dim x) := by
  unfold batchLength
  split
  · exact .inl ⟨_, rfl⟩
  · exact .inr ⟨_, rfl⟩

theorem batchLength_eq_ok {dim : ℤ} {x : Tensor α} {length : ℕ} :
    batchLength dim x = ok length ↔
      ∃ axis, pyIndex x.shape.length dim = some axis ∧ x.shape[axis]? = some length := by
  rw [← Option.bind_eq_some_iff]
  unfold batchLength
  cases (pyIndex x.shape.length dim).bind fun axis => x.shape[axis]? <;> simp

theorem checkLengths_cases (dim : ℤ) (length : ℕ) (xs : List (Tensor α)) :
    (checkLengths dim length xs = ok () ∧ ∀ x ∈ xs, batchLength dim x = ok length) ∨
      Raises (checkLengths dim length xs) := by
  induction xs with
  | nil => exact .inl ⟨rfl, by simp⟩
  | cons x xs ih =>
    rcases batchLength_cases dim x with ⟨length', hlength⟩ | hraises
    · simp only [checkLengths, hlength, ok_bind]
      by_cases heq : length = length'
      · rw [if_neg (not_not.mpr heq)]
        apply ih.imp_left
        rintro ⟨hok, hall⟩
        exact ⟨hok, List.forall_mem_cons.mpr ⟨heq ▸ hlength, hall⟩⟩
      · rw [if_pos heq]
        exact .inr ⟨_, rfl⟩
    · exact .inr (hraises.bind _)

theorem checkLengths_of_forall {dim : ℤ} {length : ℕ} {xs : List (Tensor α)}
    (h : ∀ x ∈ xs, batchLength dim x = ok length) : checkLengths dim length xs = ok () := by
  induction xs with
  | nil => rfl
  | cons x xs ih =>
    rw [List.forall_mem_cons] at h
    simp only [checkLengths, h.1, ok_bind, ne_eq, not_true_eq_false, if_false]
    exact ih h.2

theorem checkCustomSchedule_cases (customSchedule : Option (List (List String))) (n : ℤ) :
    checkCustomSchedule customSchedule n = ok () ∨ Raises (checkCustomSchedule customSchedule n) := by
  unfold checkCustomSchedule
  split
  · exact .inl rfl
  · apply forM_cases
    intro row
    apply forM_cases
    intro task
    split
    · exact .inr ⟨_, rfl⟩
    · exact .inl rfl

theorem pyIndex_lt {length axis : ℕ} {i : ℤ} (h : pyIndex length i = some axis) :
    axis < length := by
  unfold pyIndex at h
  split_ifs at h
  · cases h
    omega
  · cases h
    omega

/-- The sizes of a slice are those of the shape, but for the axis, unless the axis is
given as the last one. -/
theorem sliceSizes_eq {shape : List ℕ} {dim : ℤ} {axis : ℕ} (size : ℤ)
    (h : pyIndex shape.length dim = some axis) (hdim : dim ≠ -1) :
    sliceSizes shape dim size = (shape.map Nat.cast).set axis size := by
  have hlt := pyIndex_lt h
  have hbounds : pyBound shape.length dim = axis ∧ pyBound shape.length (dim + 1) = axis + 1 := by
    unfold pyIndex at h
    unfold pyBound
    split_ifs at h <;> cases h
    · rw [if_pos (by omega), if_pos (by omega)]
      omega
    · rw [if_neg (by omega), if_neg (by omega)]
      omega
  rw [sliceSizes, hbounds.1, hbounds.2, List.set_eq_take_cons_drop _ (by simpa using hlt)]
  simp

/-- Counted from the end, the last axis leaves the sizes of the whole shape at the end. -/
theorem not_fits_last {shape : List ℕ} {axis : ℕ} {size : ℤ}
    (h : pyIndex shape.length (-1) = some axis) : ¬ Fits (sliceSizes shape (-1) size) shape := by
  have hlt := pyIndex_lt h
  intro hfits
  have hlen := hfits.length_eq
  simp [sliceSizes, pyBound] at hlen
  omega

/-- Sizes that are negative or exceed the shape do not fit it. -/
theorem not_fits_size {shape : List ℕ} {dim size : ℤ} {axis length : ℕ}
    (h : pyIndex shape.length dim = some axis) (hlength : shape[axis]? = some length)
    (hsize : size < 0 ∨ (length : ℤ) < size) : ¬ Fits (sliceSizes shape dim size) shape := by
  by_cases hdim : dim = -1
  · subst hdim
    exact not_fits_last h
  · rw [sliceSizes_eq size h hdim]
    obtain ⟨hlt, rfl⟩ := List.getElem?_eq_some_iff.mp hlength
    intro hfits
    have hat := hfits.get (i := axis) (by simpa using hlt) hlt
    simp at hat
    omega

theorem sliceMicrobatch_raises {slice : DynamicSlice α} {dim size offset : ℤ} {x : Tensor α}
    {axis : ℕ} (haxis : pyIndex x.shape.length dim = some axis)
    (h : ¬ Fits (sliceSizes x.shape dim size) x.shape) :
    Raises (sliceMicrobatch slice dim size offset x) := by
  unfold sliceMicrobatch
  rw [haxis]
  exact slice.rejects x _ _ h

theorem fdiv_natCast (length size : ℕ) :
    (length : ℤ).fdiv size = ((length / size : ℕ) : ℤ) := by
  rw [Int.fdiv_eq_ediv_of_nonneg _ (Int.natCast_nonneg size), Int.natCast_ediv]

/-- A slice within the batch is a window of the array. -/
theorem sliceMicrobatch_window {slice : DynamicSlice α} {dim : ℤ} {x : Tensor α}
    {axis length size offset : ℕ} (haxis : pyIndex x.shape.length dim = some axis)
    (hlength : x.shape[axis]? = some length) (hdim : dim ≠ -1) (hfit : offset + size ≤ length) :
    ∃ y, sliceMicrobatch slice dim size offset x = ok y ∧ IsWindow axis offset size x y := by
  obtain ⟨hlt, rfl⟩ := List.getElem?_eq_some_iff.mp hlength
  have hsizes : sliceSizes x.shape dim size = (x.shape.set axis size).map Nat.cast := by
    rw [sliceSizes_eq size haxis hdim, List.map_set]
  have hoffsets : (List.replicate x.shape.length 0).set axis (offset : ℤ) =
      ((List.replicate x.shape.length 0).set axis offset).map Nat.cast := by
    rw [List.map_set, List.map_replicate, Nat.cast_zero]
  have hwithin : List.Forall₂ (fun o d => o ≤ d) (List.zipWith (· + ·)
      ((List.replicate x.shape.length 0).set axis offset) (x.shape.set axis size)) x.shape := by
    apply List.forall₂_iff_get.mpr
    refine ⟨by simp, fun k hk hk' => ?_⟩
    simp only [List.get_eq_getElem, List.getElem_zipWith, List.getElem_set, List.getElem_replicate]
    split
    · rename_i heq
      subst heq
      exact hfit
    · omega
  obtain ⟨y, hy, hshape, hget⟩ := slice.window x _ _ (by simp) (by simp) hwithin
  refine ⟨y, ?_, hshape, ?_⟩
  · unfold sliceMicrobatch
    rw [haxis]
    simp only [hsizes, hoffsets, hy]
  · intro idx hidx
    rw [hshape] at hidx
    rw [hget idx hidx]
    have hlen : idx.length = x.shape.length := by simpa using hidx.length_eq
    congr 1
    apply List.ext_getElem
    · simp [hlen]
    · intro k hk hk'
      simp only [List.getElem_zipWith, List.getElem_set, List.getElem_replicate,
        List.getElem_modify]
      split <;> simp_all

/-- The first entries of each array of the batch along `dim`. -/
def takeTree (dim : ℤ) (size : ℕ) (xs : List (Tensor α)) : List (Tensor α) :=
  xs.map fun x => x.take ((pyIndex x.shape.length dim).getD 0) size

section loop

variable [AddMonoid β] {slice : DynamicSlice α} {dim : ℤ} {length size : ℕ}
  {xs : List (Tensor α)} {fun_ : List (Tensor α) → β}

variable (slice) in
/-- The slices of one microbatch. -/
theorem slices_windows (hxs : Batches dim length xs) (hdim : dim ≠ -1) {offset : ℕ}
    (hfit : offset + size ≤ length) :
    ∃ ys, xs.mapM (sliceMicrobatch slice dim size offset) = ok ys ∧
      List.Forall₂ (fun x y => ∃ axis, pyIndex x.shape.length dim = some axis ∧
        IsWindow axis offset size x y) xs ys := by
  have hslice : ∀ x ∈ xs, ∃ y, sliceMicrobatch slice dim size offset x = ok y ∧
      ∃ axis, pyIndex x.shape.length dim = some axis ∧ IsWindow axis offset size x y := by
    intro x hx
    obtain ⟨axis, haxis, hlength⟩ := batchLength_eq_ok.mp (hxs.lengths x hx)
    obtain ⟨y, hy, hwindow⟩ := sliceMicrobatch_window haxis hlength hdim hfit
    exact ⟨y, hy, axis, haxis, hwindow⟩
  obtain ⟨ys, hys⟩ := exists_mapM_eq_ok _ fun x hx => (hslice x hx).imp fun _ h => h.1
  refine ⟨ys, hys, ?_⟩
  have hrel := mapM_eq_ok.mp hys
  apply List.forall₂_iff_get.mpr
  refine ⟨hrel.length_eq, fun k hk hk' => ?_⟩
  obtain ⟨y, hy, haxis⟩ := hslice _ (List.get_mem xs ⟨k, hk⟩)
  have heq := hrel.get hk hk'
  rw [heq] at hy
  cases hy
  exact haxis

/-- The slices that follow the first entries extend them. -/
theorem isConcatTree_takeTree {offset : ℕ} {ys : List (Tensor α)}
    (h : List.Forall₂ (fun x y => ∃ axis, pyIndex x.shape.length dim = some axis ∧
      IsWindow axis offset size x y) xs ys) :
    IsConcatTree dim (takeTree dim (offset + size) xs) (takeTree dim offset xs) ys := by
  refine ⟨by simp [takeTree], by simp [takeTree, h.length_eq], ?_⟩
  intro k whole front back hwhole hfront hback
  obtain ⟨hk, rfl⟩ := List.getElem?_eq_some_iff.mp hback
  have hk' : k < xs.length := h.length_eq ▸ hk
  simp only [takeTree, List.getElem?_map, List.getElem?_eq_getElem hk', Option.map_some,
    Option.some.injEq] at hwhole hfront
  obtain ⟨axis, haxis, hwindow⟩ := h.get hk' hk
  simp only [List.get_eq_getElem] at haxis hwindow
  subst hwhole hfront
  rw [haxis, Option.getD_some]
  exact ⟨axis, by simpa [take] using haxis, isConcat_take (pyIndex_lt haxis) hwindow⟩

theorem isConcatTree_slices {offset : ℕ} {ys : List (Tensor α)}
    (h : List.Forall₂ (fun x y => ∃ axis, pyIndex x.shape.length dim = some axis ∧
      IsWindow axis offset size x y) xs ys) :
    IsConcatTree dim ys (takeTree dim 0 xs) ys := by
  refine ⟨by simp [takeTree, h.length_eq], rfl, ?_⟩
  intro k whole front back hwhole hfront hback
  obtain rfl : whole = back := Option.some_injective _ (hwhole.symm.trans hback)
  obtain ⟨hk, rfl⟩ := List.getElem?_eq_some_iff.mp hback
  have hk' : k < xs.length := h.length_eq ▸ hk
  simp only [takeTree, List.getElem?_map, List.getElem?_eq_getElem hk', Option.map_some,
    Option.some.injEq] at hfront
  obtain ⟨axis, haxis, hwindow⟩ := h.get hk' hk
  simp only [List.get_eq_getElem] at haxis hwindow
  subst hfront
  rw [haxis, Option.getD_some]
  exact ⟨axis, by simpa [hwindow.shape] using haxis, isConcat_self (pyIndex_lt haxis) hwindow⟩

variable (slice) in
/-- After `k` microbatches the loop holds the function of their entries. -/
theorem loop_eq (hadd : Additive dim fun_) (hxs : Batches dim length xs) (hdim : dim ≠ -1)
    {k : ℕ} (hk : k * size ≤ length) :
    (List.range k).foldlM (fun loopArgs _ => bodyFun slice dim size xs fun_ loopArgs)
        ((0 : ℤ), (0 : β)) =
      ok (((k * size : ℕ) : ℤ), if k = 0 then 0 else fun_ (takeTree dim (k * size) xs)) := by
  induction k with
  | zero => simp
  | succ k ih =>
    rw [Nat.succ_mul] at hk
    rw [List.range_succ, List.foldlM_append, ih (by omega), ok_bind]
    obtain ⟨ys, hys, hwindows⟩ := slices_windows slice hxs hdim hk
    have hextend := hadd _ _ _ (isConcatTree_takeTree hwindows)
    have hslices := hadd _ _ _ (isConcatTree_slices hwindows)
    simp only [List.foldlM_cons, List.foldlM_nil, bodyFun, hys, ok_bind, pure_eq, ok.injEq,
      Prod.mk.injEq, Nat.succ_mul, Nat.add_one_ne_zero, if_false]
    refine ⟨by push_cast; rfl, ?_⟩
    rw [hextend]
    split
    · rename_i hzero
      rw [zero_add, hzero, Nat.zero_mul]
      exact hslices
    · rfl

/-- The function applied to arrays whose lengths along `dim` agree. -/
theorem wrapped_of_batches {size : ℤ} {customSchedule : Option (List (List String))}
    (hxs : Batches dim length xs) (hsize : size ≠ 0) :
    wrapped slice dim size customSchedule xs fun_ =
      if (length : ℤ).fdiv size = 1 then ok (fun_ xs)
      else do
        checkCustomSchedule customSchedule ((length : ℤ).fdiv size)
        let _ ← xs.mapM (sliceMicrobatch slice dim size 0)
        let loopArgs ← (List.range ((length : ℤ).fdiv size).toNat).foldlM
          (fun loopArgs _ => bodyFun slice dim size xs fun_ loopArgs) ((0 : ℤ), (0 : β))
        return loopArgs.2 := by
  obtain ⟨x, tail, rfl⟩ := List.exists_cons_of_ne_nil hxs.ne_nil
  unfold wrapped
  simp only [hxs.lengths x (by simp), checkLengths_of_forall hxs.lengths, ok_bind, hsize, if_false]
  rfl

variable (slice) in
/-- A batch of two microbatches or more gives the function of its full microbatches. -/
theorem wrapped_eq (hadd : Additive dim fun_) (hxs : Batches dim length xs) (hdim : dim ≠ -1)
    (hsize : 0 < size) (hmany : 2 * size ≤ length) {customSchedule : Option (List (List String))}
    (hschedule : checkCustomSchedule customSchedule ((length / size : ℕ) : ℤ) = ok ()) :
    wrapped slice dim size customSchedule xs fun_ =
      ok (fun_ (takeTree dim (length / size * size) xs)) := by
  have hn : 2 ≤ length / size := (Nat.le_div_iff_mul_le hsize).mpr hmany
  obtain ⟨ys, hys, -⟩ := slices_windows slice hxs hdim
    (show 0 + size ≤ length by omega)
  have hloop := loop_eq slice hadd hxs hdim (Nat.div_mul_le_self length size)
  rw [Nat.cast_zero] at hys
  rw [if_neg (by omega)] at hloop
  rw [wrapped_of_batches hxs (by omega), fdiv_natCast, if_neg (by omega), hschedule, ok_bind, hys,
    ok_bind, Int.toNat_natCast, hloop]
  rfl

/-- Slices that do not fit the arrays raise. -/
theorem wrapped_raises {size : ℤ} {customSchedule : Option (List (List String))}
    (hxs : Batches dim length xs) (hsize : size ≠ 0) (hdiv : (length : ℤ).fdiv size ≠ 1)
    (hfits : ∀ x ∈ xs, ¬ Fits (sliceSizes x.shape dim size) x.shape) :
    Raises (wrapped slice dim size customSchedule xs fun_) := by
  rw [wrapped_of_batches hxs hsize, if_neg hdiv]
  rcases checkCustomSchedule_cases customSchedule ((length : ℤ).fdiv size) with hok | hraises
  · rw [hok, ok_bind]
    obtain ⟨x, tail, rfl⟩ := List.exists_cons_of_ne_nil hxs.ne_nil
    obtain ⟨axis, haxis, -⟩ := batchLength_eq_ok.mp (hxs.lengths x (by simp))
    apply Raises.bind
    apply raises_mapM
    exact sliceMicrobatch_raises haxis (hfits x (by simp))
  · exact hraises.bind _

theorem wrapped_raises_of_size {size : ℤ} {customSchedule : Option (List (List String))}
    (hxs : Batches dim length xs) (hsize : size ≤ 0 ∨ (length : ℤ) < size) :
    Raises (wrapped slice dim size customSchedule xs fun_) := by
  by_cases hzero : size = 0
  · obtain ⟨x, tail, rfl⟩ := List.exists_cons_of_ne_nil hxs.ne_nil
    unfold wrapped
    simp only [hxs.lengths x (by simp), checkLengths_of_forall hxs.lengths, ok_bind, hzero, if_true]
    exact ⟨_, rfl⟩
  · apply wrapped_raises hxs hzero
    · rcases hsize with hneg | hlt
      · have := Int.fdiv_nonpos_of_nonneg_of_nonpos (Int.natCast_nonneg length) hneg
        omega
      · rw [Int.fdiv_eq_ediv_of_nonneg _ (by omega),
          Int.ediv_eq_zero_of_lt (Int.natCast_nonneg length) hlt]
        omega
    · intro x hx
      obtain ⟨axis, haxis, hlength⟩ := batchLength_eq_ok.mp (hxs.lengths x hx)
      exact not_fits_size haxis hlength (by omega)

end loop

/-- The batch length, as a function of the batch. -/
def firstLength (dim : ℤ) (xs : List (Tensor α)) : ℤ :=
  match xs with
  | [] => 0
  | x :: _ => (((pyIndex x.shape.length dim).bind fun axis => x.shape[axis]?).getD 0 : ℕ)

theorem firstLength_additive (dim : ℤ) : Additive (α := α) dim (firstLength dim) := by
  intro wholes fronts backs h
  obtain ⟨hfronts, hbacks, hconcat⟩ := h
  match wholes, fronts, backs with
  | [], [], [] => rfl
  | whole :: _, front :: _, back :: _ =>
    obtain ⟨axis, haxis, a, b, hlength, hfront, hback⟩ := hconcat 0 whole front back rfl rfl rfl
    have hlt := pyIndex_lt haxis
    have hget : whole.shape[axis] = a + b := by
      rwa [List.getElem?_eq_getElem hlt, Option.some.injEq] at hlength
    simp [firstLength, haxis, hget, hfront.shape, hback.shape, hlt]

theorem firstLength_takeTree {dim : ℤ} {length size : ℕ} {xs : List (Tensor α)}
    (hxs : Batches dim length xs) : firstLength dim (takeTree dim size xs) = size := by
  obtain ⟨x, tail, rfl⟩ := List.exists_cons_of_ne_nil hxs.ne_nil
  obtain ⟨axis, haxis, -⟩ := batchLength_eq_ok.mp (hxs.lengths x (by simp))
  have hlt := pyIndex_lt haxis
  simp [firstLength, takeTree, take, haxis, hlt]

theorem takeTree_eq_self {dim : ℤ} {length : ℕ} {xs : List (Tensor α)}
    (hxs : Batches dim length xs) : takeTree dim length xs = xs := by
  apply (List.map_congr_left ?_).trans (List.map_id xs)
  intro x hx
  obtain ⟨axis, haxis, hlength⟩ := batchLength_eq_ok.mp (hxs.lengths x hx)
  rw [haxis]
  exact take_eq_self hlength

theorem wrapped_raises_of_not_batches [AddMonoid β] {slice : DynamicSlice α} {dim size : ℤ}
    {customSchedule : Option (List (List String))} {xs : List (Tensor α)}
    {fun_ : List (Tensor α) → β} (h : ∀ length, ¬ Batches dim length xs) :
    Raises (wrapped slice dim size customSchedule xs fun_) := by
  unfold wrapped
  match xs with
  | [] => exact ⟨_, rfl⟩
  | x :: tail =>
    rcases batchLength_cases dim x with ⟨length, hlength⟩ | hraises
    · rcases checkLengths_cases dim length (x :: tail) with ⟨-, hall⟩ | hraises
      · exact absurd ⟨by simp, hall⟩ (h length)
      · simp only [hlength, ok_bind]
        exact hraises.bind _
    · exact hraises.bind _

/-- The transformed function raises or agrees with every additive function that it wraps
if and only if the size divides a batch of two microbatches or more that it accepts. -/
theorem wrapped_agrees_iff (slice : DynamicSlice α) (dim size : ℤ)
    (customSchedule : Option (List (List String))) (xs : List (Tensor α)) :
    Agrees slice dim size customSchedule xs ↔
      ∀ length : ℕ, Batches dim length xs → 0 < size → dim ≠ -1 →
        checkCustomSchedule customSchedule (length / size) = ok () →
        2 * size ≤ length → size ∣ length := by
  constructor
  · intro hagrees length hxs hsize hdim hschedule hmany
    obtain ⟨size, rfl⟩ := Int.eq_ofNat_of_zero_le hsize.le
    rw [← Int.natCast_ediv] at hschedule
    have hrun := wrapped_eq slice (firstLength_additive dim) hxs hdim
      (by omega) (by omega) hschedule
    rcases hagrees ℤ (firstLength dim) (firstLength_additive dim) with ⟨e, he⟩ | hok
    · rw [hrun] at he
      cases he
    · rw [hrun, firstLength_takeTree hxs] at hok
      have hlength := @firstLength_takeTree _ dim length length xs hxs
      rw [takeTree_eq_self hxs] at hlength
      rw [hlength] at hok
      have heq := Nat.cast_inj.mp (ok.inj hok)
      exact Int.natCast_dvd_natCast.mpr ⟨length / size, by rw [mul_comm]; exact heq.symm⟩
  · intro hdvd β _ fun_ hadd
    by_cases hbatches : ∃ length, Batches dim length xs
    · obtain ⟨length, hxs⟩ := hbatches
      by_cases hsize : size ≤ 0 ∨ (length : ℤ) < size
      · exact .inl (wrapped_raises_of_size hxs hsize)
      · obtain ⟨size, rfl⟩ := Int.eq_ofNat_of_zero_le (by omega : 0 ≤ size)
        have hpos : 0 < size := by omega
        by_cases hone : length / size = 1
        · right
          rw [wrapped_of_batches hxs (by omega), fdiv_natCast, if_pos (by omega)]
        · have hfdiv : (length : ℤ).fdiv size ≠ 1 := by
            rw [fdiv_natCast]
            omega
          have hmany : 2 ≤ length / size := by
            have := (Nat.le_div_iff_mul_le hpos).mpr (by omega : 1 * size ≤ length)
            omega
          rcases checkCustomSchedule_cases customSchedule (length / size) with hok | hraises
          · by_cases hdim : dim = -1
            · subst hdim
              refine .inl (wrapped_raises hxs (by omega) hfdiv fun x hx => ?_)
              obtain ⟨axis, haxis, -⟩ := batchLength_eq_ok.mp (hxs.lengths x hx)
              exact not_fits_last haxis
            · right
              have hmul := (Nat.le_div_iff_mul_le hpos).mp hmany
              have heq := Nat.div_mul_cancel (Int.natCast_dvd_natCast.mp
                (hdvd length hxs (by omega) hdim hok (by omega)))
              rw [← Int.natCast_ediv] at hok
              rw [wrapped_eq _ hadd hxs hdim hpos hmul hok, heq, takeTree_eq_self hxs]
          · left
            rw [wrapped_of_batches hxs (by omega), if_neg hfdiv, fdiv_natCast, Int.natCast_ediv]
            exact hraises.bind _
    · exact .inl (wrapped_raises_of_not_batches (not_exists.mp hbatches))

/-! A batch of five rows in microbatches of two, and the function that counts the rows. -/

/-- The offsets of a slice are clamped so that it stays within the array. -/
def clampOffsets (offsets sizes : List ℤ) (shape : List ℕ) : List ℕ :=
  List.zipWith (fun o r => (max 0 (min o r)).toNat) offsets
    (List.zipWith (fun (d : ℕ) s => d - s) shape sizes)

theorem clampOffsets_eq {offsets sizes shape : List ℕ} (hoffsets : offsets.length = shape.length)
    (hsizes : sizes.length = shape.length)
    (h : List.Forall₂ (fun o d => o ≤ d) (List.zipWith (· + ·) offsets sizes) shape) :
    clampOffsets (offsets.map Nat.cast) (sizes.map Nat.cast) shape = offsets := by
  apply List.ext_getElem
  · simp [clampOffsets, hoffsets, hsizes]
  · intro k hk hk'
    have hle := h.get (i := k) (by simp [hsizes, ← hoffsets, hk']) (hoffsets ▸ hk')
    simp only [List.get_eq_getElem, List.getElem_zipWith] at hle
    simp only [clampOffsets, List.getElem_zipWith, List.getElem_map]
    omega

theorem fits_of_window {offsets sizes shape : List ℕ} (hoffsets : offsets.length = shape.length)
    (hsizes : sizes.length = shape.length)
    (h : List.Forall₂ (fun o d => o ≤ d) (List.zipWith (· + ·) offsets sizes) shape) :
    Fits (sizes.map Nat.cast) shape := by
  apply List.forall₂_iff_get.mpr
  refine ⟨by simpa using hsizes, fun k hk hk' => ?_⟩
  have hle := h.get (i := k) (by simp [hsizes, hoffsets, hk']) hk'
  simp only [List.get_eq_getElem, List.getElem_zipWith] at hle
  simp only [List.get_eq_getElem, List.getElem_map]
  omega

instance (sizes : List ℤ) (shape : List ℕ) : Decidable (Fits sizes shape) :=
  inferInstanceAs (Decidable (List.Forall₂ _ sizes shape))

def clampedSlice (α : Type) : DynamicSlice α where
  run x offsets sizes :=
    if Fits sizes x.shape then
      ok ⟨sizes.map Int.toNat, fun idx =>
        x.get (List.zipWith (· + ·) idx (clampOffsets offsets sizes x.shape))⟩
    else error "slice slice_sizes must be less than or equal to operand shape"
  rejects x offsets sizes h := ⟨_, if_neg h⟩
  window x offsets sizes hoffsets hsizes h := by
    refine ⟨_, if_pos (fits_of_window hoffsets hsizes h), by simp [Function.comp_def], ?_⟩
    intro idx _
    simp only [clampOffsets_eq hoffsets hsizes h]

def fiveRows : Tensor ℕ := ⟨[5], fun _ => 1⟩

/-- The last row is dropped without an error. -/
theorem wrapped_drops_remainder :
    Additive 0 (firstLength (α := ℕ) 0) ∧ firstLength 0 [fiveRows] = 5 ∧
      wrapped (clampedSlice ℕ) 0 2 none [fiveRows] (firstLength 0) = ok 4 := by
  exact ⟨firstLength_additive 0, by decide, by decide +kernel⟩

end Microbatch
end MultiMeshJax
