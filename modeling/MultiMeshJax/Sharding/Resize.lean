import MultiMeshJax.Sharding.OpSharding

/-! `ResizeSharding`: a sharding is grown or shrunk along one dimension to a number of
devices. -/
namespace MultiMeshJax
namespace Sharding

/-- The number of devices to resize to, and the devices where they are given. -/
structure ResizeTarget where
  numElements : ℕ
  devices : Option DeviceList := none
  size_eq : ∀ d, devices = some d → d.numDevices = numElements

structure ResizeState where
  tileAssignmentDimensions : List ℕ := []
  matched : Bool := false
  replicateOnLastTileDim : Bool := false
  reads : List ℕ := []

/-- No iota can be resized whose dimensions are permuted. -/
def isTransposed : TileAssignment → Bool
  | .iota a => decide (a.transposePerm ≠ List.range a.transposePerm.length)
  | .array _ _ => false

/-- Neither number of devices divides the other. -/
def Indivisible (srcSize dstSize : ℕ) : Prop :=
  dstSize < srcSize ∧ srcSize % dstSize ≠ 0 ∨ srcSize < dstSize ∧ dstSize % srcSize ≠ 0

instance (srcSize dstSize : ℕ) : Decidable (Indivisible srcSize dstSize) := by
  unfold Indivisible
  infer_instance

section resize

variable (shape : List ℕ) (pastEnd : ℕ) (tiles : List ℕ) (replicateOnLastTileDim : Bool)
  (dstSize : ℕ)

/-- The size that a tile dimension would be resized to. -/
def newDimSize (oldDimSize : ℕ) : ℕ := oldDimSize * dstSize / tiles.prod

/-- The dimension is the first that can grow or shrink the sharding. A shape that is read past
its end gives some number. -/
def growsOrShrinks (matched : Bool) (tile : ℕ × ℕ) : Bool :=
  !matched && decide (1 < tile.1) && decide (0 < newDimSize tiles dstSize tile.1) &&
    decide (newDimSize tiles dstSize tile.1 ≤ shape.getD tile.2 pastEnd)

/-- One dimension of the tile assignment. The loop goes on to the next one, and writes nothing
for this one, where the numbers of devices do not divide. -/
def resizeDim (st : ResizeState) (tile : ℕ × ℕ) : ResizeState :=
  let resize := growsOrShrinks shape pastEnd tiles dstSize st.matched tile
  if resize = true ∧ Indivisible tiles.prod dstSize then { st with reads := st.reads ++ [tile.2] }
  else
    let dimensions := st.tileAssignmentDimensions ++
      [if resize then newDimSize tiles dstSize tile.1 else tile.1]
    { tileAssignmentDimensions := dimensions
      matched := st.matched || resize
      replicateOnLastTileDim := st.replicateOnLastTileDim ||
        (decide (tile.2 + 1 = tiles.length) && replicateOnLastTileDim &&
          decide (1 < dimensions.getD tile.2 pastEnd))
      reads := st.reads ++ [tile.2] }

def resizeDims : ResizeState :=
  tiles.zipIdx.foldl (resizeDim shape pastEnd tiles replicateOnLastTileDim dstSize) {}

end resize

/-- The sharding that is tried. -/
def guessSharding (assignment : TileAssignment) (target : ResizeTarget) (st : ResizeState) :
    OpSharding :=
  match assignment, target.devices with
  | .array _ _, some devices =>
    { type := .other
      tileAssignmentDimensions := st.tileAssignmentDimensions
      tileAssignmentDevices := devices.toList
      replicateOnLastTileDim := st.replicateOnLastTileDim }
  | _, devices =>
    { type := .other
      tileAssignmentDimensions := st.tileAssignmentDimensions
      iotaReshapeDims := [target.numElements]
      iotaTransposePerm := [0]
      iotaOffset := (devices.map DeviceList.start).getD 0
      replicateOnLastTileDim := st.replicateOnLastTileDim }

/-- The dimensions of the shape that are read, and the sharding if one is found. -/
def resizeSharding (shape : List ℕ) (pastEnd : ℕ) (assignment : TileAssignment)
    (replicateOnLastTileDim : Bool) (target : ResizeTarget) : List ℕ × Option OpSharding :=
  if isTransposed assignment then ([], none)
  else
    let st := resizeDims shape pastEnd assignment.dimensions replicateOnLastTileDim
      target.numElements
    let guess := guessSharding assignment target st
    (st.reads, if st.matched = true ∧ guess.isValid = true then some guess else none)

/-- The sharding has a tile dimension for each dimension of the shape, none finer than it, and
one more where it is replicated on the last one. -/
structure Tiles (shape : List ℕ) (tiles : List ℕ) (replicateOnLastTileDim : Bool) : Prop where
  length : tiles.length = shape.length + if replicateOnLastTileDim then 1 else 0
  pos : ∀ t ∈ tiles, 0 < t
  fits : ∀ dim < shape.length, tiles.getD dim 1 ≤ shape.getD dim 0

/-- What makes a resized sharding valid. -/
structure Resized (shape : List ℕ) (numElements : ℕ) (reads : List ℕ) (s : OpSharding) : Prop where
  reads : ∀ dim ∈ reads, dim < shape.length
  product : s.tileAssignmentDimensions.prod = numElements
  fits : ∀ dim < shape.length, s.tileAssignmentDimensions.getD dim 1 ≤ shape.getD dim 0
  trailing : s.replicateOnLastTileDim = true ↔ shape.length < s.tileAssignmentDimensions.length

section spec

variable {shape : List ℕ} {pastEnd : ℕ} {tiles : List ℕ} {replicateOnLastTileDim : Bool}
  {dstSize : ℕ}

/-- Every dimension of the tiles is looked up in the shape. -/
theorem reads_resizeDims :
    (resizeDims shape pastEnd tiles replicateOnLastTileDim dstSize).reads =
      List.range tiles.length := by
  apply StatusOr.foldl_zipIdx (fun k (st : ResizeState) => st.reads = List.range k)
  · rfl
  · intro k tile st _ hst
    have hstep : (resizeDim shape pastEnd tiles replicateOnLastTileDim dstSize st (tile, k)).reads =
        st.reads ++ [k] := by
      unfold resizeDim
      dsimp only
      split <;> rfl
    rw [hstep, hst, List.range_succ]

/-- Where neither number of devices divides the other nothing is resized. -/
theorem matched_of_indivisible (h : Indivisible tiles.prod dstSize) :
    (resizeDims shape pastEnd tiles replicateOnLastTileDim dstSize).matched = false := by
  apply StatusOr.foldl_zipIdx (fun _ (st : ResizeState) => st.matched = false)
  · rfl
  · intro k tile st _ hst
    unfold resizeDim
    dsimp only
    split
    · exact hst
    · rename_i hpass
      have hkeeps : growsOrShrinks shape pastEnd tiles dstSize st.matched (tile, k) = false := by
        simpa [h] using hpass
      dsimp only
      rw [hst, ← hst, hkeeps, hst]
      rfl

/-- Else each dimension is kept, or is resized to what the shape allows. -/
theorem resizeDims_fits (h : ¬Indivisible tiles.prod dstSize) :
    List.Forall₂ (fun (tile : ℕ × ℕ) new => new = tile.1 ∨ new ≤ shape.getD tile.2 pastEnd)
      tiles.zipIdx (resizeDims shape pastEnd tiles replicateOnLastTileDim
        dstSize).tileAssignmentDimensions := by
  have hfold := @StatusOr.foldl_zipIdx _ _ (resizeDim shape pastEnd tiles replicateOnLastTileDim dstSize)
    (fun k st => List.Forall₂ (fun (tile : ℕ × ℕ) new =>
      new = tile.1 ∨ new ≤ shape.getD tile.2 pastEnd)
      (tiles.zipIdx.take k) st.tileAssignmentDimensions) tiles {} (by simp) ?_
  · rw [List.take_of_length_le (by simp)] at hfold
    exact hfold
  · intro k tile st htile hst
    have hget : tiles.zipIdx[k]? = some (tile, k) := by simp [htile]
    rw [List.take_add_one, hget]
    unfold resizeDim
    dsimp only
    rw [if_neg fun hboth => h hboth.2]
    apply List.rel_append hst
    refine .cons ?_ .nil
    split
    · rename_i hresize
      right
      simp only [growsOrShrinks, Bool.and_eq_true, decide_eq_true_eq] at hresize
      exact hresize.2
    · exact Or.inl rfl

theorem matched_of_ones (h : ∀ tile ∈ tiles, tile = 1) :
    (resizeDims shape pastEnd tiles replicateOnLastTileDim dstSize).matched = false := by
  apply StatusOr.foldl_zipIdx (fun _ (st : ResizeState) => st.matched = false)
  · rfl
  · intro k tile st htile hst
    have hone := h tile (List.mem_of_getElem? htile)
    have hkeeps : growsOrShrinks shape pastEnd tiles dstSize st.matched (tile, k) = false := by
      simp [growsOrShrinks, hone]
    unfold resizeDim
    dsimp only
    rw [hkeeps, hst]
    rfl

theorem flag_of_unreplicated :
    (resizeDims shape pastEnd tiles false dstSize).replicateOnLastTileDim = false := by
  apply StatusOr.foldl_zipIdx (fun _ (st : ResizeState) => st.replicateOnLastTileDim = false)
  · rfl
  · intro k tile st _ hst
    unfold resizeDim
    dsimp only
    split
    · exact hst
    · simp [hst]

/-- To its own number of devices a sharding is resized as it is. -/
theorem resizeDims_self (hpos : 0 < tiles.prod)
    (hfits : ∀ k tile, tiles[k]? = some tile → tile ≤ shape.getD k pastEnd) :
    (resizeDims shape pastEnd tiles replicateOnLastTileDim
        tiles.prod).tileAssignmentDimensions = tiles ∧
      ((∃ tile ∈ tiles, 1 < tile) → (resizeDims shape pastEnd tiles replicateOnLastTileDim
        tiles.prod).matched = true) := by
  have hself : ∀ old, newDimSize tiles tiles.prod old = old := fun old =>
    Nat.mul_div_cancel old hpos
  have hdivides : ¬Indivisible tiles.prod tiles.prod := by
    unfold Indivisible
    omega
  have hfold := @StatusOr.foldl_zipIdx _ _
    (resizeDim shape pastEnd tiles replicateOnLastTileDim tiles.prod) (fun k st => st.tileAssignmentDimensions = tiles.take k ∧
      ((∃ tile ∈ tiles.take k, 1 < tile) → st.matched = true)) tiles {} (by simp) ?_
  · rw [List.take_length] at hfold
    exact hfold
  · intro k tile st htile ⟨hdims, hmatched⟩
    unfold resizeDim
    dsimp only
    rw [if_neg fun hboth => hdivides hboth.2, hself, ite_self, List.take_add_one, htile]
    refine ⟨by rw [hdims]; rfl, ?_⟩
    rintro ⟨tile', htile', hlt⟩
    rcases List.mem_append.mp htile' with htile' | htile'
    · rw [hmatched ⟨tile', htile', hlt⟩]
      rfl
    · obtain rfl : tile' = tile := by simpa using htile'
      have hle := hfits k tile' htile
      simp only [growsOrShrinks, hself, hlt, hle, decide_true, Bool.and_true]
      cases st.matched
      · simp
        omega
      · rfl

end spec

/-- What a sharding is resized to is valid, for every number of devices and whatever a read
past the end of the shape gives. -/
def ResizesValidly (shape : List ℕ) (assignment : TileAssignment)
    (replicateOnLastTileDim : Bool) : Prop :=
  ∀ pastEnd (target : ResizeTarget) reads s,
    resizeSharding shape pastEnd assignment replicateOnLastTileDim target = (reads, some s) →
      Resized shape target.numElements reads s

section valid

variable {shape : List ℕ} {pastEnd : ℕ} {assignment : TileAssignment} {replicateOnLastTileDim : Bool}
  {target : ResizeTarget} {reads : List ℕ} {s : OpSharding}

theorem guessSharding_dimensions (st : ResizeState) :
    (guessSharding assignment target st).tileAssignmentDimensions = st.tileAssignmentDimensions ∧
      (guessSharding assignment target st).replicateOnLastTileDim = st.replicateOnLastTileDim := by
  unfold guessSharding
  split <;> exact ⟨rfl, rfl⟩

/-- A guess that is accepted has the number of tiles that was asked for. -/
theorem guessSharding_isValid {st : ResizeState} :
    (guessSharding assignment target st).isValid = true ↔
      st.tileAssignmentDimensions.prod = target.numElements := by
  unfold guessSharding
  split
  · rename_i devices hdevices
    have hsize := target.size_eq devices hdevices
    rw [OpSharding.isValid, if_pos rfl, beq_iff_eq, DeviceList.toList, List.length_range', hsize]
    exact eq_comm
  · rw [OpSharding.isValid, if_neg (by simp), List.prod_singleton, beq_iff_eq]
    exact eq_comm

theorem resizeSharding_eq_some
    (h : resizeSharding shape pastEnd assignment replicateOnLastTileDim target = (reads, some s)) :
    isTransposed assignment = false ∧
      ∃ st, st = resizeDims shape pastEnd assignment.dimensions replicateOnLastTileDim
        target.numElements ∧ reads = st.reads ∧ st.matched = true ∧
        s = guessSharding assignment target st ∧
        st.tileAssignmentDimensions.prod = target.numElements := by
  unfold resizeSharding at h
  split at h
  · cases h
  rename_i htransposed
  refine ⟨by simpa using htransposed, _, rfl, ?_⟩
  obtain ⟨hreads, hguess⟩ := Prod.mk.inj h
  split at hguess
  · rename_i hboth
    exact ⟨hreads.symm, hboth.1, (Option.some.inj hguess).symm, guessSharding_isValid.mp hboth.2⟩
  · cases hguess

/-- Resizing gives a valid sharding for every number of devices just where the last tile
dimension is one of the shape, or nothing is ever resized. -/
theorem resizeSharding_valid_iff (shape : List ℕ) (assignment : TileAssignment)
    (replicateOnLastTileDim : Bool)
    (htiles : Tiles shape assignment.dimensions replicateOnLastTileDim) :
    ResizesValidly shape assignment replicateOnLastTileDim ↔
      replicateOnLastTileDim = false ∨ isTransposed assignment = true ∨
        ∀ tile ∈ assignment.dimensions, tile = 1 := by
  constructor
  · intro hvalid
    by_contra hcond
    simp only [not_or, Bool.not_eq_false, Bool.not_eq_true, not_forall] at hcond
    obtain ⟨rfl, htransposed, tile, hmem, hne⟩ := hcond
    have hpos : 0 < assignment.dimensions.prod := List.prod_pos htiles.pos
    -- the sharding is resized to the devices that it has
    set pastEnd := assignment.dimensions.sum
    have hfits : ∀ k tile, assignment.dimensions[k]? = some tile → tile ≤ shape.getD k pastEnd := by
      intro k tile htile
      by_cases hk : k < shape.length
      · have h := htiles.fits k hk
        simp only [List.getD_eq_getElem?_getD, htile, Option.getD_some] at h
        simpa [List.getD_eq_getElem?_getD, hk] using h
      · rw [List.getD_eq_getElem?_getD, List.getElem?_eq_none (by omega), Option.getD_none]
        exact List.single_le_sum (fun _ _ => Nat.zero_le _) _ (List.mem_of_getElem? htile)
    obtain ⟨hdims, hmatched⟩ := @resizeDims_self _ _ _ true hpos hfits
    have hlt : 1 < tile := by
      have h := htiles.pos tile hmem
      omega
    have hread := hvalid pastEnd ⟨assignment.dimensions.prod, none, by simp⟩
      (List.range assignment.dimensions.length) _ (by
        unfold resizeSharding
        rw [if_neg (by simp [htransposed])]
        dsimp only
        rw [if_pos ⟨hmatched ⟨tile, hmem, hlt⟩, guessSharding_isValid.mpr (by rw [hdims])⟩,
          reads_resizeDims])
    have hlen := htiles.length
    have h := hread.reads shape.length (by simp [hlen])
    exact h.false
  · rintro (rfl | htransposed | hone) pastEnd target reads s hrun
    · obtain ⟨-, st, hst, hreads, hmatched, rfl, hprod⟩ := resizeSharding_eq_some hrun
      obtain ⟨hdims, hflag⟩ := @guessSharding_dimensions assignment target st
      have hdivides : ¬Indivisible assignment.dimensions.prod target.numElements := by
        intro h
        rw [hst, matched_of_indivisible h] at hmatched
        cases hmatched
      have hkept := @resizeDims_fits shape pastEnd assignment.dimensions false
        target.numElements hdivides
      rw [← hst] at hkept
      have hlength : st.tileAssignmentDimensions.length = shape.length := by
        rw [← hkept.length_eq, List.length_zipIdx, htiles.length]
        rfl
      refine ⟨?_, by rw [hdims, hprod], ?_, ?_⟩
      · intro dim hdim
        rw [hreads, hst, reads_resizeDims, htiles.length] at hdim
        exact List.mem_range.mp hdim
      · intro dim hdim
        have htile : dim < assignment.dimensions.length := by
          rw [htiles.length]
          exact hdim
        have hnew := (List.forall₂_iff_get.mp hkept).2 dim (by simpa using htile)
          (hlength ▸ hdim)
        have hfits := htiles.fits dim hdim
        simp only [List.get_eq_getElem, List.getElem_zipIdx, Nat.zero_add,
          List.getD_eq_getElem _ _ hdim, List.getD_eq_getElem _ _ htile] at hnew hfits
        rw [hdims, List.getD_eq_getElem _ _ (hlength ▸ hdim), List.getD_eq_getElem _ _ hdim]
        rcases hnew with hnew | hnew
        · rw [hnew]
          exact hfits
        · exact hnew
      · rw [hflag, hdims, hlength, hst, flag_of_unreplicated]
        simp
    · obtain ⟨hnot, -⟩ := resizeSharding_eq_some hrun
      rw [htransposed] at hnot
      cases hnot
    · obtain ⟨-, st, hst, -, hmatched, -⟩ := resizeSharding_eq_some hrun
      rw [hst, matched_of_ones hone] at hmatched
      cases hmatched

end valid

/-- Two tiles along one dimension, each on two devices. -/
def replicatedPairs : TileAssignment := .iota
  { dims := [2, 2], reshapeDims := [4], transposePerm := [0], offset := 0
    dims_pos := by decide, prod_eq := by decide, perm := by decide, two_le := by decide
    unmerged := by decide }

/-- For eight devices the shape is read past its end. -/
theorem replicatedPairs_not_resizesValidly : ¬ResizesValidly [4] replicatedPairs true := by
  intro h
  have hresized := h 0 ⟨8, none, by simp⟩ [0, 1]
    { type := .other, tileAssignmentDimensions := [4, 2], iotaReshapeDims := [8],
      iotaTransposePerm := [0], replicateOnLastTileDim := true } (by decide)
  exact absurd (hresized.reads 1 (by simp)) (by decide)

theorem resizeSharding_valid_iff_replicatedPairs :
    ResizesValidly [4] replicatedPairs true ↔
      true = false ∨ isTransposed replicatedPairs = true ∨
        ∀ tile ∈ replicatedPairs.dimensions, tile = 1 :=
  resizeSharding_valid_iff [4] replicatedPairs true ⟨by decide, by decide, by decide⟩

end Sharding
end MultiMeshJax
