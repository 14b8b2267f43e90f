import MultiMeshJax.Foundation.SlotFilling
import MultiMeshJax.LogicalSharding.Axes

/-! Logical axes of a dot: the dimensions of the output take the names of the operand dimensions
that they come from, those of the right operand first. -/
namespace MultiMeshJax
namespace LogicalSharding

open StatusOr

/-- The dimensions that are neither contracted nor batch dimensions, in order. -/
def freeDims (rank : ℕ) (contracting batch : List ℕ) : List ℕ :=
  (List.range rank).filter fun dim => dim ∉ contracting ∧ dim ∉ batch

/-- The dimension numbers of a dot; contracted and batch dimensions are different dimensions of
the operand, and the batch dimensions of the operands correspond. -/
structure DotDimensionNumbers (lhsRank rhsRank : ℕ) where
  lhsContracting : List ℕ
  rhsContracting : List ℕ
  lhsBatch : List ℕ
  rhsBatch : List ℕ
  lhs_nodup : (lhsContracting ++ lhsBatch).Nodup
  rhs_nodup : (rhsContracting ++ rhsBatch).Nodup
  lhs_range : ∀ dim ∈ lhsContracting ++ lhsBatch, dim < lhsRank
  rhs_range : ∀ dim ∈ rhsContracting ++ rhsBatch, dim < rhsRank
  batch_length : lhsBatch.length = rhsBatch.length

theorem length_freeDims {rank : ℕ} {contracting batch : List ℕ}
    (hnodup : (contracting ++ batch).Nodup) (hrange : ∀ dim ∈ contracting ++ batch, dim < rank) :
    contracting.length + batch.length + (freeDims rank contracting batch).length = rank := by
  have hfree : (freeDims rank contracting batch).Nodup := List.nodup_range.filter _
  have hall : ((contracting ++ batch) ++ freeDims rank contracting batch).Perm
      (List.range rank) := by
    rw [List.perm_ext_iff_of_nodup _ List.nodup_range]
    · intro dim
      have hlt := hrange dim
      simp only [List.mem_append, freeDims, List.mem_filter, List.mem_range,
        decide_eq_true_eq] at hlt ⊢
      constructor
      · rintro (hdim | ⟨hdim, -⟩)
        · exact hlt hdim
        · exact hdim
      · intro hdim
        by_cases hmem : dim ∈ contracting ∨ dim ∈ batch
        · exact .inl hmem
        · exact .inr ⟨hdim, not_or.mp hmem⟩
    · apply List.Nodup.append hnodup hfree
      intro dim hdim hother
      simp only [freeDims, List.mem_filter, decide_eq_true_eq] at hother
      rcases List.mem_append.mp hdim with h | h
      · exact hother.2.1 h
      · exact hother.2.2 h
  have hlength := hall.length_eq
  simpa [Nat.add_assoc] using hlength

namespace DotDimensionNumbers

variable {lhsRank rhsRank : ℕ} (numbers : DotDimensionNumbers lhsRank rhsRank)

def lhsFree : List ℕ := freeDims lhsRank numbers.lhsContracting numbers.lhsBatch

def rhsFree : List ℕ := freeDims rhsRank numbers.rhsContracting numbers.rhsBatch

/-- Where the dimensions of the output come from: the batch dimensions, then the free dimensions
of the left operand, then those of the right one. -/
def outputSources : List (Option ℕ × Option ℕ) :=
  (numbers.lhsBatch.zip numbers.rhsBatch).map (fun dims => (some dims.1, some dims.2)) ++
    numbers.lhsFree.map (fun dim => (some dim, none)) ++
    numbers.rhsFree.map (fun dim => (none, some dim))

/-- The rank of the shape of the dot. -/
def outputRank : ℕ :=
  numbers.lhsBatch.length + numbers.lhsFree.length + numbers.rhsFree.length

/-- The dimension of the left operand from which a dimension of the output comes. -/
def lhsSource (dim : ℕ) : Option ℕ := numbers.outputSources[dim]?.bind Prod.fst

def rhsSource (dim : ℕ) : Option ℕ := numbers.outputSources[dim]?.bind Prod.snd

end DotDimensionNumbers

/-- The names on a dimension of an operand, if there is one. -/
def namesAt (axes : LogicalShardingAxes) (dim : Option ℕ) : List String :=
  (dim.map fun d => axes.getD d []).getD []

/-- Batch dimensions can come from both. -/
def maybeAddAxesAtDim (axes : LogicalShardingAxes) (st : Slots String) (dims : ℕ × ℕ) :
    StatusOr (Slots String) := do
  let assigned ← elementAt st.rows dims.2
  if assigned.isEmpty then
    let names ← elementAt axes dims.1
    return st.addNames dims.2 names
  else return st

/-- The dimensions of an operand, for the dimensions of the dot from `dotDim` on. -/
def addDims (axes : LogicalShardingAxes) (dims : List ℕ) (dotDim : ℕ) (st : Slots String) :
    StatusOr (Slots String) :=
  (dims.zipIdx dotDim).foldlM (maybeAddAxesAtDim axes) st

section inference

variable {lhsRank rhsRank : ℕ} (numbers : DotDimensionNumbers lhsRank rhsRank)

/-- There is no obvious reason to prioritize the RHS names over the LHS names; for now, the RHS
names are preferred. -/
def inferDotAxes (lhsAxes rhsAxes : LogicalShardingAxes) : StatusOr LogicalShardingAxes := do
  let st ← addDims rhsAxes numbers.rhsBatch 0 (.empty String numbers.outputRank)
  let st ← addDims rhsAxes numbers.rhsFree (lhsRank - numbers.lhsContracting.length) st
  let st ← addDims lhsAxes numbers.lhsBatch 0 st
  let st ← addDims lhsAxes numbers.lhsFree numbers.lhsBatch.length st
  return st.rows

/-- The dimensions of the right operand with the dimensions of the dot that they are added at. -/
def rhsOutputs : List (ℕ × ℕ) :=
  numbers.rhsBatch.zipIdx ++
    numbers.rhsFree.zipIdx (lhsRank - numbers.lhsContracting.length)

def lhsOutputs : List (ℕ × ℕ) :=
  numbers.lhsBatch.zipIdx ++ numbers.lhsFree.zipIdx numbers.lhsBatch.length

/-- What the dimensions of an operand offer to those of the dot. -/
def offers (axes : LogicalShardingAxes) (outputs : List (ℕ × ℕ)) : List (ℕ × List String) :=
  outputs.map fun dims => (dims.2, axes.getD dims.1 [])

/-- The offers of the right operand start after the batch and left dimensions. -/
theorem rhsFree_start : lhsRank - numbers.lhsContracting.length =
    numbers.lhsBatch.length + numbers.lhsFree.length := by
  have hlength := length_freeDims numbers.lhs_nodup numbers.lhs_range
  rw [DotDimensionNumbers.lhsFree]
  omega

theorem lhsSource_eq (out : ℕ) : numbers.lhsSource out =
    if out < numbers.lhsBatch.length then numbers.lhsBatch[out]?
    else numbers.lhsFree[out - numbers.lhsBatch.length]? := by
  have hbatch := numbers.batch_length
  unfold DotDimensionNumbers.lhsSource DotDimensionNumbers.outputSources
  split
  · next h =>
    rw [List.append_assoc, List.getElem?_append_left (by simp; omega), List.getElem?_map,
      List.getElem?_eq_getElem (by simp; omega)]
    simp [List.getElem?_eq_getElem h]
  · next h =>
    rw [List.append_assoc, List.getElem?_append_right (by simp; omega)]
    simp only [List.length_map, List.length_zip, ← hbatch, min_self]
    by_cases hfree : out - numbers.lhsBatch.length < numbers.lhsFree.length
    · rw [List.getElem?_append_left (by simpa using hfree), List.getElem?_map,
        List.getElem?_eq_getElem hfree]
      rfl
    · rw [List.getElem?_append_right (by simpa using hfree),
        List.getElem?_eq_none (not_lt.mp hfree), List.getElem?_map]
      cases numbers.rhsFree[out - numbers.lhsBatch.length -
        (numbers.lhsFree.map fun dim => (some dim, (none : Option ℕ))).length]? <;> rfl

theorem rhsSource_eq (out : ℕ) : numbers.rhsSource out =
    if out < numbers.rhsBatch.length then numbers.rhsBatch[out]?
    else if lhsRank - numbers.lhsContracting.length ≤ out then
      numbers.rhsFree[out - (lhsRank - numbers.lhsContracting.length)]?
    else none := by
  have hbatch := numbers.batch_length
  have hstart := rhsFree_start numbers
  unfold DotDimensionNumbers.rhsSource DotDimensionNumbers.outputSources
  split
  · next h =>
    rw [List.append_assoc, List.getElem?_append_left (by simp; omega), List.getElem?_map,
      List.getElem?_eq_getElem (by simp; omega)]
    simp [List.getElem?_eq_getElem h]
  · next h =>
    split
    · next hle =>
      rw [List.getElem?_append_right (by simp; omega)]
      simp only [List.length_append, List.length_map, List.length_zip, ← hbatch, min_self,
        ← hstart, List.getElem?_map]
      cases numbers.rhsFree[out - (lhsRank - numbers.lhsContracting.length)]? <;> rfl
    · next hlt =>
      rw [List.append_assoc, List.getElem?_append_right (by simp; omega)]
      simp only [List.length_map, List.length_zip, ← hbatch, min_self]
      rw [List.getElem?_append_left (by simp; omega), List.getElem?_map]
      cases numbers.lhsFree[out - numbers.lhsBatch.length]? <;> rfl

theorem mem_lhsOutputs {dim out : ℕ} :
    (dim, out) ∈ lhsOutputs numbers ↔ numbers.lhsSource out = some dim := by
  rw [lhsSource_eq, lhsOutputs, List.mem_append, List.mem_zipIdx_iff_le_and_getElem?_sub,
    List.mem_zipIdx_iff_le_and_getElem?_sub]
  split
  · next h => simp [h]
  · next h =>
    simp [not_lt.mp h]

theorem mem_rhsOutputs {dim out : ℕ} :
    (dim, out) ∈ rhsOutputs numbers ↔ numbers.rhsSource out = some dim := by
  have hbatch := numbers.batch_length
  have hstart := rhsFree_start numbers
  rw [rhsSource_eq, rhsOutputs, List.mem_append, List.mem_zipIdx_iff_le_and_getElem?_sub,
    List.mem_zipIdx_iff_le_and_getElem?_sub]
  split
  · next h =>
    have hlt : ¬ lhsRank - numbers.lhsContracting.length ≤ out := by omega
    simp [hlt]
  · next h =>
    have hnone : numbers.rhsBatch[out]? = none := List.getElem?_eq_none (not_lt.mp h)
    split
    · next hle => simp [hnone, hle]
    · next hlt => simp [hnone, hlt]

/-- The offers of an operand go to different dimensions of the dot. -/
theorem nodup_rhsOutputs : ((rhsOutputs numbers).map Prod.snd).Nodup := by
  have hbatch := numbers.batch_length
  have hstart := rhsFree_start numbers
  rw [rhsOutputs, List.map_append, List.zipIdx_map_snd, List.zipIdx_map_snd]
  apply List.Nodup.append List.nodup_range' List.nodup_range'
  intro out hout hout'
  rw [List.mem_range'_1] at hout hout'
  omega

theorem lt_of_rhsSource {dim out : ℕ} (h : numbers.rhsSource out = some dim) :
    out < numbers.outputRank := by
  have hbatch := numbers.batch_length
  have hstart := rhsFree_start numbers
  rw [rhsSource_eq] at h
  rw [DotDimensionNumbers.outputRank]
  split at h
  · omega
  · split at h
    · have hlt := (List.getElem?_eq_some_iff.mp h).1
      omega
    · cases h

theorem lt_of_lhsSource {dim out : ℕ} (h : numbers.lhsSource out = some dim) :
    out < numbers.outputRank := by
  rw [lhsSource_eq] at h
  rw [DotDimensionNumbers.outputRank]
  split at h
  · omega
  · have hlt := (List.getElem?_eq_some_iff.mp h).1
    omega

theorem mem_freeDims {rank dim : ℕ} {contracting batch : List ℕ} :
    dim ∈ freeDims rank contracting batch ↔
      dim < rank ∧ dim ∉ contracting ∧ dim ∉ batch := by
  simp [freeDims]

/-- A dimension of the dot never comes from a contracted one. -/
theorem lhsSource_spec {dim out : ℕ} (h : numbers.lhsSource out = some dim) :
    dim < lhsRank ∧ dim ∉ numbers.lhsContracting := by
  rw [lhsSource_eq] at h
  split at h
  · have hdim := List.mem_of_getElem? h
    have hdisjoint := (List.nodup_append'.mp numbers.lhs_nodup).2.2
    exact ⟨numbers.lhs_range dim (List.mem_append_right _ hdim),
      fun hcontracted => hdisjoint hcontracted hdim⟩
  · have hdim := mem_freeDims.mp (List.mem_of_getElem? h)
    exact ⟨hdim.1, hdim.2.1⟩

theorem rhsSource_spec {dim out : ℕ} (h : numbers.rhsSource out = some dim) :
    dim < rhsRank ∧ dim ∉ numbers.rhsContracting := by
  rw [rhsSource_eq] at h
  split at h
  · have hdim := List.mem_of_getElem? h
    have hdisjoint := (List.nodup_append'.mp numbers.rhs_nodup).2.2
    exact ⟨numbers.rhs_range dim (List.mem_append_right _ hdim),
      fun hcontracted => hdisjoint hcontracted hdim⟩
  · split at h
    · have hdim := mem_freeDims.mp (List.mem_of_getElem? h)
      exact ⟨hdim.1, hdim.2.1⟩
    · cases h

end inference

section run

variable {axes : LogicalShardingAxes} {st st' : Slots String}

/-- A dimension that has names does not look at those of the operand. -/
theorem maybeAddAxesAtDim_eq_ok {dims : ℕ × ℕ} (h : maybeAddAxesAtDim axes st dims = ok st') :
    st' = st.fill (dims.2, axes.getD dims.1 []) := by
  obtain ⟨assigned, hassigned, h⟩ := bind_eq_ok.mp h
  have hrow : st.row dims.2 = assigned := by
    simp [Slots.row, elementAt_eq_ok.mp hassigned]
  rw [Slots.fill, hrow]
  cases assigned with
  | nil =>
    obtain ⟨names, hnames, h⟩ := bind_eq_ok.mp h
    have hget : axes.getD dims.1 [] = names := by simp [elementAt_eq_ok.mp hnames]
    rw [if_pos rfl, hget]
    exact (ok.inj h).symm
  | cons name rest =>
    rw [if_neg (List.cons_ne_nil _ _)]
    exact (ok.inj h).symm

theorem exists_maybeAddAxesAtDim_iff {dims : ℕ × ℕ} (hslot : dims.2 < st.rows.length) :
    (∃ st', maybeAddAxesAtDim axes st dims = ok st') ↔
      (st.row dims.2 = [] → dims.1 < axes.length) := by
  have hrow : st.row dims.2 = st.rows[dims.2] := by
    simp [Slots.row, List.getElem?_eq_getElem hslot]
  rw [maybeAddAxesAtDim, elementAt_of_lt hslot, ok_bind, hrow, ← List.isEmpty_iff]
  split
  · next hempty =>
    constructor
    · rintro ⟨st', h⟩ -
      obtain ⟨names, hnames, -⟩ := bind_eq_ok.mp h
      exact (List.getElem?_eq_some_iff.mp (elementAt_eq_ok.mp hnames)).1
    · intro hlt
      rw [elementAt_of_lt (hlt hempty)]
      exact ⟨_, rfl⟩
  · next hfilled => exact ⟨fun _ hempty => absurd hempty hfilled, fun _ => ⟨_, rfl⟩⟩

theorem foldlM_maybeAddAxesAtDim_eq_ok {outputs : List (ℕ × ℕ)}
    (h : outputs.foldlM (maybeAddAxesAtDim axes) st = ok st') :
    st' = st.fillAll (offers axes outputs) := by
  induction outputs generalizing st with
  | nil => exact (ok.inj h).symm
  | cons dims rest ih =>
    obtain ⟨st₁, hstep, hrest⟩ := bind_eq_ok.mp h
    rw [maybeAddAxesAtDim_eq_ok hstep] at hrest
    exact ih hrest

/-- Names for different dimensions of the dot are read just where the dimension has none. -/
theorem exists_foldlM_maybeAddAxesAtDim_iff {outputs : List (ℕ × ℕ)}
    (hdistinct : (outputs.map Prod.snd).Nodup)
    (hslots : ∀ dims ∈ outputs, dims.2 < st.rows.length) :
    (∃ st', outputs.foldlM (maybeAddAxesAtDim axes) st = ok st') ↔
      ∀ dims ∈ outputs, st.row dims.2 = [] → dims.1 < axes.length := by
  induction outputs generalizing st with
  | nil =>
    constructor
    · rintro - dims hdims
      cases hdims
    · exact fun _ => ⟨st, rfl⟩
  | cons dims rest ih =>
    rw [List.map_cons, List.nodup_cons] at hdistinct
    rw [List.forall_mem_cons, ← exists_maybeAddAxesAtDim_iff (hslots dims (List.mem_cons_self ..))]
    -- the later dimensions do not see what this one has taken
    have hlater : ∀ st₁, maybeAddAxesAtDim axes st dims = ok st₁ →
        ((∃ st', rest.foldlM (maybeAddAxesAtDim axes) st₁ = ok st') ↔
          ∀ later ∈ rest, st.row later.2 = [] → later.1 < axes.length) := by
      intro st₁ hstep
      rw [maybeAddAxesAtDim_eq_ok hstep]
      rw [ih hdistinct.2 fun later hlater => by
        rw [Slots.length_rows_fill]
        exact hslots later (List.mem_cons_of_mem _ hlater)]
      apply forall₂_congr
      intro later hlater
      have hne : later.2 ≠ dims.2 := fun heq => hdistinct.1 (heq ▸ List.mem_map_of_mem hlater)
      rw [Slots.row_fill_of_ne hne]
    constructor
    · rintro ⟨st', h⟩
      obtain ⟨st₁, hstep, hrest⟩ := bind_eq_ok.mp h
      exact ⟨⟨st₁, hstep⟩, (hlater st₁ hstep).mp ⟨st', hrest⟩⟩
    · rintro ⟨⟨st₁, hstep⟩, hall⟩
      obtain ⟨st', hrest⟩ := (hlater st₁ hstep).mpr hall
      exact ⟨st', bind_eq_ok.mpr ⟨st₁, hstep, hrest⟩⟩

end run

section wellInferred

variable {lhsRank rhsRank : ℕ} {numbers : DotDimensionNumbers lhsRank rhsRank}
  {lhsAxes rhsAxes result : LogicalShardingAxes}

theorem inferDotAxes_eq_foldlM : inferDotAxes numbers lhsAxes rhsAxes = (do
    let st ← (rhsOutputs numbers).foldlM (maybeAddAxesAtDim rhsAxes)
      (.empty String numbers.outputRank)
    let st ← (lhsOutputs numbers).foldlM (maybeAddAxesAtDim lhsAxes) st
    return st.rows) := by
  simp only [inferDotAxes, addDims, rhsOutputs, lhsOutputs, List.foldlM_append, bind_assoc]

/-- The rows after the offers of the right operand. -/
def rhsRows (numbers : DotDimensionNumbers lhsRank rhsRank) (rhsAxes : LogicalShardingAxes) :
    Slots String :=
  (Slots.empty String numbers.outputRank).fillAll (offers rhsAxes (rhsOutputs numbers))

theorem inferDotAxes_eq_ok (h : inferDotAxes numbers lhsAxes rhsAxes = ok result) :
    result = ((rhsRows numbers rhsAxes).fillAll (offers lhsAxes (lhsOutputs numbers))).rows := by
  rw [inferDotAxes_eq_foldlM] at h
  obtain ⟨st, hright, h⟩ := bind_eq_ok.mp h
  obtain ⟨st', hleft, h⟩ := bind_eq_ok.mp h
  rw [foldlM_maybeAddAxesAtDim_eq_ok hright] at hleft
  rw [← ok.inj h, foldlM_maybeAddAxesAtDim_eq_ok hleft, rhsRows]

theorem nodup_lhsOutputs : ((lhsOutputs numbers).map Prod.snd).Nodup := by
  rw [lhsOutputs, List.map_append, List.zipIdx_map_snd, List.zipIdx_map_snd]
  apply List.Nodup.append List.nodup_range' List.nodup_range'
  intro out hout hout'
  rw [List.mem_range'_1] at hout hout'
  omega

theorem length_rhsRows : (rhsRows numbers rhsAxes).rows.length = numbers.outputRank := by
  rw [rhsRows, Slots.length_rows_fillAll]
  simp [Slots.empty]

/-- The inference returns just when the axes cover the dimensions of the right operand, and those
of the left one that come to a dimension without names. -/
theorem exists_inferDotAxes_iff : (∃ result, inferDotAxes numbers lhsAxes rhsAxes = ok result) ↔
    (∀ out dim, numbers.rhsSource out = some dim → dim < rhsAxes.length) ∧
      ∀ out dim, numbers.lhsSource out = some dim → (rhsRows numbers rhsAxes).row out = [] →
        dim < lhsAxes.length := by
  have hempty : (Slots.empty String numbers.outputRank).rows.length = numbers.outputRank := by
    simp [Slots.empty]
  have hright : (∃ st, (rhsOutputs numbers).foldlM (maybeAddAxesAtDim rhsAxes)
      (.empty String numbers.outputRank) = ok st) ↔
        ∀ out dim, numbers.rhsSource out = some dim → dim < rhsAxes.length := by
    rw [exists_foldlM_maybeAddAxesAtDim_iff (nodup_rhsOutputs numbers) fun dims hdims =>
      hempty.symm ▸ lt_of_rhsSource numbers ((mem_rhsOutputs numbers).mp hdims)]
    constructor
    · intro hall out dim hsource
      exact hall (dim, out) ((mem_rhsOutputs numbers).mpr hsource) (Slots.row_empty _ _)
    · intro hall dims hdims _
      exact hall dims.2 dims.1 ((mem_rhsOutputs numbers).mp hdims)
  have hleft : (∃ st', (lhsOutputs numbers).foldlM (maybeAddAxesAtDim lhsAxes)
      (rhsRows numbers rhsAxes) = ok st') ↔
        ∀ out dim, numbers.lhsSource out = some dim → (rhsRows numbers rhsAxes).row out = [] →
          dim < lhsAxes.length := by
    rw [exists_foldlM_maybeAddAxesAtDim_iff nodup_lhsOutputs fun dims hdims =>
      length_rhsRows.symm ▸ lt_of_lhsSource numbers ((mem_lhsOutputs numbers).mp hdims)]
    constructor
    · intro hall out dim hsource
      exact hall (dim, out) ((mem_lhsOutputs numbers).mpr hsource)
    · intro hall dims hdims
      exact hall dims.2 dims.1 ((mem_lhsOutputs numbers).mp hdims)
  rw [← hright, ← hleft, inferDotAxes_eq_foldlM]
  constructor
  · rintro ⟨result, h⟩
    obtain ⟨st, hst, h⟩ := bind_eq_ok.mp h
    obtain ⟨st', hst', -⟩ := bind_eq_ok.mp h
    rw [foldlM_maybeAddAxesAtDim_eq_ok hst] at hst'
    exact ⟨⟨st, hst⟩, ⟨st', hst'⟩⟩
  · rintro ⟨⟨st, hst⟩, ⟨st', hst'⟩⟩
    rw [rhsRows, ← foldlM_maybeAddAxesAtDim_eq_ok hst] at hst'
    exact ⟨st'.rows, by rw [hst, ok_bind, hst', ok_bind, pure_eq]⟩

/-- The axes of the operands cover their dimensions: the inference returns. -/
theorem exists_inferDotAxes (hlhs : lhsRank ≤ lhsAxes.length) (hrhs : rhsRank ≤ rhsAxes.length) :
    ∃ result, inferDotAxes numbers lhsAxes rhsAxes = ok result := by
  rw [exists_inferDotAxes_iff]
  constructor
  · intro out dim hsource
    exact (rhsSource_spec numbers hsource).1.trans_le hrhs
  · intro out dim hsource _
    exact (lhsSource_spec numbers hsource).1.trans_le hlhs

/-- What the axes of a dot say about those of its operands. -/
structure WellInferred (numbers : DotDimensionNumbers lhsRank rhsRank)
    (lhsAxes rhsAxes result : LogicalShardingAxes) : Prop where
  length : result.length = numbers.outputRank
  /-- A name comes from an operand dimension of its dimension, which is not contracted. -/
  source : ∀ out, ∀ name ∈ result.getD out [],
    (∃ dim, numbers.lhsSource out = some dim ∧ dim ∉ numbers.lhsContracting ∧
        name ∈ lhsAxes.getD dim []) ∨
      ∃ dim, numbers.rhsSource out = some dim ∧ dim ∉ numbers.rhsContracting ∧
        name ∈ rhsAxes.getD dim []
  once : result.flatten.Nodup
  /-- A name that the right operand offers is placed where the right operand offers it. -/
  right_wins : ∀ out, ∀ name ∈ namesAt rhsAxes (numbers.rhsSource out),
    (∃ out', name ∈ result.getD out' []) ∧
      ∀ out', name ∈ result.getD out' [] → name ∈ namesAt rhsAxes (numbers.rhsSource out')
  /-- Where the right operand places a name, the left one places none. -/
  right_only : ∀ out, ∀ name ∈ result.getD out [],
    name ∈ namesAt rhsAxes (numbers.rhsSource out) →
      ∀ other ∈ result.getD out [], other ∈ namesAt rhsAxes (numbers.rhsSource out)

theorem mem_offers {axes : LogicalShardingAxes} {outputs : List (ℕ × ℕ)}
    {offer : ℕ × List String} : offer ∈ offers axes outputs ↔
      ∃ dim, (dim, offer.1) ∈ outputs ∧ offer.2 = axes.getD dim [] := by
  constructor
  · intro h
    obtain ⟨dims, hdims, rfl⟩ := List.mem_map.mp h
    exact ⟨dims.1, hdims, rfl⟩
  · rintro ⟨dim, hdim, heq⟩
    exact List.mem_map.mpr ⟨(dim, offer.1), hdim, Prod.ext rfl heq.symm⟩

theorem consistent_rhsRows : (rhsRows numbers rhsAxes).Consistent := by
  apply (Slots.consistent_empty _).fillAll
  intro offer hoffer
  obtain ⟨dim, hdim, -⟩ := mem_offers.mp hoffer
  have hlt := lt_of_rhsSource numbers ((mem_rhsOutputs numbers).mp hdim)
  simpa [Slots.empty] using hlt

theorem consistent_lhsRows :
    ((rhsRows numbers rhsAxes).fillAll (offers lhsAxes (lhsOutputs numbers))).Consistent := by
  apply consistent_rhsRows.fillAll
  intro offer hoffer
  obtain ⟨dim, hdim, -⟩ := mem_offers.mp hoffer
  rw [length_rhsRows]
  exact lt_of_lhsSource numbers ((mem_lhsOutputs numbers).mp hdim)

theorem mem_row_rhsRows {out : ℕ} {name : String} (h : name ∈ (rhsRows numbers rhsAxes).row out) :
    ∃ dim, numbers.rhsSource out = some dim ∧ name ∈ rhsAxes.getD dim [] := by
  rcases Slots.mem_row_fillAll h with hrow | ⟨offer, hoffer, rfl, hname⟩
  · rw [Slots.row_empty] at hrow
    cases hrow
  · obtain ⟨dim, hdim, heq⟩ := mem_offers.mp hoffer
    exact ⟨dim, (mem_rhsOutputs numbers).mp hdim, heq ▸ hname⟩

theorem mem_namesAt {axes : LogicalShardingAxes} {dim : Option ℕ} {name : String} :
    name ∈ namesAt axes dim ↔ ∃ d, dim = some d ∧ name ∈ axes.getD d [] := by
  cases dim <;> simp [namesAt]

/-- All names that the right operand offers are placed before the left operand offers any. -/
theorem exists_row_rhsRows {out : ℕ} {name : String}
    (h : name ∈ namesAt rhsAxes (numbers.rhsSource out)) :
    ∃ out', name ∈ (rhsRows numbers rhsAxes).row out' := by
  obtain ⟨dim, hdim, hname⟩ := mem_namesAt.mp h
  apply (Slots.mem_used_iff consistent_rhsRows).mp
  have hdistinct : ((offers rhsAxes (rhsOutputs numbers)).map Prod.fst).Nodup := by
    rw [offers, List.map_map]
    exact nodup_rhsOutputs numbers
  have hoffer : (out, rhsAxes.getD dim []) ∈ offers rhsAxes (rhsOutputs numbers) :=
    mem_offers.mpr ⟨dim, (mem_rhsOutputs numbers).mpr hdim, rfl⟩
  exact Slots.mem_used_fillAll hdistinct (fun offer _ => Slots.row_empty _ _) hoffer hname

/-- A dimension with names of the right operand is left alone. -/
theorem row_lhsRows_of_mem {out : ℕ} {name : String}
    (h : name ∈ (rhsRows numbers rhsAxes).row out) :
    ((rhsRows numbers rhsAxes).fillAll (offers lhsAxes (lhsOutputs numbers))).row out =
      (rhsRows numbers rhsAxes).row out :=
  Slots.row_fillAll_of_filled (List.ne_nil_of_mem h) _

/-- A name that the right operand offers is where the right operand has placed it. -/
theorem mem_row_rhsRows_of_mem {out out' : ℕ} {name : String}
    (h : name ∈ namesAt rhsAxes (numbers.rhsSource out))
    (hplaced : name ∈ ((rhsRows numbers rhsAxes).fillAll
      (offers lhsAxes (lhsOutputs numbers))).row out') :
    name ∈ (rhsRows numbers rhsAxes).row out' := by
  obtain ⟨first, hfirst⟩ := exists_row_rhsRows h
  have hstays : name ∈ ((rhsRows numbers rhsAxes).fillAll
      (offers lhsAxes (lhsOutputs numbers))).row first := by
    rw [row_lhsRows_of_mem hfirst]
    exact hfirst
  rw [Slots.slot_unique consistent_lhsRows hplaced hstays]
  exact hfirst

theorem wellInferred_lhsRows : WellInferred numbers lhsAxes rhsAxes
    ((rhsRows numbers rhsAxes).fillAll (offers lhsAxes (lhsOutputs numbers))).rows where
  length := by rw [Slots.length_rows_fillAll, length_rhsRows]
  source out name hname := by
    rcases Slots.mem_row_fillAll hname with hright | ⟨offer, hoffer, rfl, hleft⟩
    · obtain ⟨dim, hdim, hmem⟩ := mem_row_rhsRows hright
      exact .inr ⟨dim, hdim, (rhsSource_spec numbers hdim).2, hmem⟩
    · obtain ⟨dim, hdim, heq⟩ := mem_offers.mp hoffer
      have hsource := (mem_lhsOutputs numbers).mp hdim
      exact .inl ⟨dim, hsource, (lhsSource_spec numbers hsource).2, heq ▸ hleft⟩
  once := by
    have hconsistent : ((rhsRows numbers rhsAxes).fillAll
        (offers lhsAxes (lhsOutputs numbers))).Consistent := consistent_lhsRows
    exact hconsistent.placed.nodup_iff.mpr hconsistent.once
  right_wins out name hname := by
    constructor
    · obtain ⟨out', hout'⟩ := exists_row_rhsRows hname
      refine ⟨out', ?_⟩
      have hstays : name ∈ ((rhsRows numbers rhsAxes).fillAll
          (offers lhsAxes (lhsOutputs numbers))).row out' := by
        rw [row_lhsRows_of_mem hout']
        exact hout'
      exact hstays
    · intro out' hplaced
      exact mem_namesAt.mpr (mem_row_rhsRows (mem_row_rhsRows_of_mem hname hplaced))
  right_only out name hname hright other hother := by
    have hfirst := mem_row_rhsRows_of_mem hright hname
    have hrow : ((rhsRows numbers rhsAxes).fillAll
        (offers lhsAxes (lhsOutputs numbers))).row out = (rhsRows numbers rhsAxes).row out :=
      row_lhsRows_of_mem hfirst
    have hother' : other ∈ (rhsRows numbers rhsAxes).row out := hrow ▸ hother
    exact mem_namesAt.mpr (mem_row_rhsRows hother')

/-- Every result of the inference is well formed, and it returns one for all axes that cover the
dimensions of the operands. -/
theorem inferDotAxes_wellInferred (numbers : DotDimensionNumbers lhsRank rhsRank)
    (lhsAxes rhsAxes : LogicalShardingAxes) :
    (∀ result, inferDotAxes numbers lhsAxes rhsAxes = ok result →
        WellInferred numbers lhsAxes rhsAxes result) ∧
      (lhsRank ≤ lhsAxes.length → rhsRank ≤ rhsAxes.length →
        ∃ result, inferDotAxes numbers lhsAxes rhsAxes = ok result) := by
  constructor
  · intro result h
    rw [inferDotAxes_eq_ok h]
    exact wellInferred_lhsRows
  · exact exists_inferDotAxes

end wellInferred

/-- A batch of matrix products. -/
def batchedProduct : DotDimensionNumbers 3 3 where
  lhsContracting := [2]
  rhsContracting := [1]
  lhsBatch := [0]
  rhsBatch := [0]
  lhs_nodup := by decide
  rhs_nodup := by decide
  lhs_range := by decide
  rhs_range := by decide
  batch_length := rfl

theorem inferDotAxes_wellInferred_batchedProduct :
    WellInferred batchedProduct [["b"], ["m"], ["k"]] [["b"], ["k"], ["m"]]
        [["b"], [], ["m"]] ∧
      ∃ result, inferDotAxes batchedProduct [["b"], ["m"], ["k"]] [["b"], ["k"], ["m"]] =
        ok result :=
  ⟨(inferDotAxes_wellInferred batchedProduct _ _).1 _ (by decide +kernel),
    (inferDotAxes_wellInferred batchedProduct _ _).2 (by decide) (by decide)⟩

end LogicalSharding
end MultiMeshJax
