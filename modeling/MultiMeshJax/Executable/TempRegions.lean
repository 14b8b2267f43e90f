import MultiMeshJax.Executable.TempMemory

/-! The regions that a run of a compiled task lays out in the temporary memory that it has
allocated. -/
namespace MultiMeshJax
namespace Executable

open StatusOr

/-- What the layout reads of a buffer allocation: its place among the entry parameters is the
number of the parameter and the index into its shape. -/
structure GpuAllocation where
  index : ℕ
  size : ℕ
  isThreadLocal : Bool := false
  entryParameter : Option (ℕ × List ℕ) := none
  maybeLiveOut : Bool := false
  isTuple : Bool := false
  isConstant : Bool := false
  deriving DecidableEq, Repr

def GpuAllocation.isPreallocatedTempBuffer (a : GpuAllocation) : Bool :=
  a.entryParameter.isNone && !a.maybeLiveOut && !a.isThreadLocal && !a.isConstant

def GpuAllocation.toBufferAllocation (a : GpuAllocation) : BufferAllocation where
  size := a.size
  isPreallocatedTempBuffer := a.isPreallocatedTempBuffer
  maybeLiveOut := a.maybeLiveOut
  isTuple := a.isTuple

/-- The arguments of `RunGpuExecutable`: the inputs and outputs are given by their sizes. -/
structure GpuRun where
  allocations : List GpuAllocation
  outputInfo : ℕ → Option ℕ
  inputs : List ℕ
  outputs : List ℕ
  tupledArgs : Bool

def GpuRun.executable (r : GpuRun) : CompiledExecutable where
  allocations := r.allocations.map GpuAllocation.toBufferAllocation
  tupledArgs := r.tupledArgs

/-- The memory that the constructor of the allocator has allocated. -/
def GpuRun.totalSize (r : GpuRun) : ℕ :=
  taskTempSize .gpu r.executable r.inputs.length r.outputs.length

inductive RegionKind where
  | inputTuple | outputTuple | temp
  deriving DecidableEq, Repr

structure Region where
  kind : RegionKind
  offset : ℕ
  size : ℕ
  deriving DecidableEq, Repr

structure RegionLayout where
  position : ℕ := 0
  regions : List Region := []
  deriving DecidableEq, Repr

/-- `Next`, which moves on by the padded size. -/
def RegionLayout.next (l : RegionLayout) (kind : RegionKind) (size : ℕ) : RegionLayout where
  position := l.position + paddedSize size
  regions := l.regions ++ [⟨kind, l.position, size⟩]

section layout

variable (r : GpuRun)

/-- The buffer of a parameter is the input, which must be there and of its size. -/
def checkInput (a : GpuAllocation) (number : ℕ) (shapeIndex : List ℕ) : StatusOr Unit :=
  match shapeIndex with
  | _ :: _ :: _ => error "Do yet not support arg tuples with nested shapes"
  | indices =>
    match r.inputs[indices.headD number]? with
    | none => error "Too few inputs given to GPU executable"
    | some size =>
      if size ≠ a.size ∧ 0 < a.size then error "Mismatched size on input" else return ()

def checkOutput (a : GpuAllocation) : StatusOr Unit :=
  match r.outputInfo a.index with
  | none => error "Buffer allocation missing from GpuExecutable::OutputInfo"
  | some outputIndex =>
    match r.outputs[outputIndex]? with
    | none => error "Too few outputs given to GPU executable"
    | some size =>
      if size ≠ a.size ∧ 0 < a.size then error "Mismatched size on output" else return ()

/-- The region that an allocation takes, if it is not a buffer that exists already. The table of
the outputs is given the size of the table of the inputs. -/
def regionOf (a : GpuAllocation) : Option (RegionKind × ℕ) :=
  if a.isThreadLocal then none
  else
    match a.entryParameter with
    | some (_, shapeIndex) =>
      if r.tupledArgs && shapeIndex.isEmpty then
        some (.inputTuple, r.inputs.length * sizeofPointer)
      else none
    | none =>
      if a.maybeLiveOut then
        if a.isTuple then some (.outputTuple, r.inputs.length * sizeofPointer) else none
      else if a.isPreallocatedTempBuffer then some (.temp, a.size)
      else none

def checkBuffer (a : GpuAllocation) : StatusOr Unit :=
  if a.isThreadLocal then return ()
  else
    match a.entryParameter with
    | some (number, shapeIndex) => checkInput r a number shapeIndex
    | none =>
      if a.maybeLiveOut then checkOutput r a
      else if a.isConstant then return ()
      else error "Got buffer allocation that is not an input, output, or temp"

def layoutAllocation (l : RegionLayout) (a : GpuAllocation) : StatusOr RegionLayout :=
  match regionOf r a with
  | some (kind, size) => return l.next kind size
  | none => do
    checkBuffer r a
    return l

def layoutRegions : StatusOr RegionLayout := r.allocations.foldlM (layoutAllocation r) {}

end layout

/-- No byte is in both regions. -/
def Region.Disjoint (a b : Region) : Prop :=
  ∀ byte, a.offset ≤ byte → byte < a.offset + a.size → b.offset ≤ byte →
    byte < b.offset + b.size → False

/-- The regions are apart and within the allocated memory, and a table of the outputs has a
pointer for each. -/
structure RegionsSound (r : GpuRun) (regions : List Region) : Prop where
  disjoint : regions.Pairwise Region.Disjoint
  within : ∀ a ∈ regions, a.offset + a.size ≤ r.totalSize
  room : ∀ a ∈ regions, a.kind = .outputTuple → r.outputs.length * sizeofPointer ≤ a.size

/-- The allocations that are a table of the inputs, and of the outputs. -/
def GpuRun.isInputTable (r : GpuRun) (a : GpuAllocation) : Bool :=
  !a.isThreadLocal && r.tupledArgs && decide (a.entryParameter.map Prod.snd = some [])

def isOutputTable (a : GpuAllocation) : Bool :=
  !a.isThreadLocal && a.entryParameter.isNone && a.maybeLiveOut && a.isTuple

/-- There are no more outputs than inputs where there is a table of them, and the tables, each of
as many pages as the inputs need, fit into the pages for the inputs and those for the outputs. -/
def TablesFit (r : GpuRun) : Prop :=
  (r.outputs.length ≤ r.inputs.length ∨ ∀ a ∈ r.allocations, isOutputTable a = false) ∧
  ((r.allocations.countP fun a => r.isInputTable a || isOutputTable a) *
      pages (r.inputs.length * sizeofPointer) ≤
    (if r.tupledArgs then pages (r.inputs.length * sizeofPointer) else 0) +
      if r.allocations.any fun a => a.maybeLiveOut && a.isTuple then
        pages (r.outputs.length * sizeofPointer) else 0)

/-- The regions one after the other. -/
def lay (sizes : List (RegionKind × ℕ)) : RegionLayout :=
  sizes.foldl (fun l x => l.next x.1 x.2) {}

section lay

variable {sizes : List (RegionKind × ℕ)} {x : RegionKind × ℕ}

theorem lay_append_singleton : lay (sizes ++ [x]) = (lay sizes).next x.1 x.2 := by
  rw [lay, List.foldl_append]
  rfl

theorem position_lay : (lay sizes).position =
    (sizes.map fun x => pages x.2).sum * kTempMinAlignment := by
  induction sizes using List.reverseRecOn with
  | nil => rfl
  | append_singleton sizes x ih =>
    rw [lay_append_singleton, RegionLayout.next, ih, paddedSize_eq, alignTempSize, List.map_append,
      List.sum_append, ← add_mul]
    rfl

theorem le_alignTempSize (size : ℕ) : size ≤ alignTempSize size := by
  unfold alignTempSize pages kTempMinAlignment
  omega

theorem region_end_le {a : Region} (ha : a ∈ (lay sizes).regions) :
    a.offset + a.size ≤ (lay sizes).position := by
  induction sizes using List.reverseRecOn with
  | nil => cases ha
  | append_singleton sizes x ih =>
    rw [lay_append_singleton] at ha ⊢
    rcases List.mem_append.mp ha with ha | ha
    · exact (ih ha).trans (Nat.le_add_right _ _)
    · obtain rfl := List.mem_singleton.mp ha
      have hle := le_alignTempSize x.2
      rw [← paddedSize_eq] at hle
      exact Nat.add_le_add_left hle _

/-- A region starts where those before it have ended. -/
theorem pairwise_disjoint_lay : (lay sizes).regions.Pairwise Region.Disjoint := by
  induction sizes using List.reverseRecOn with
  | nil => exact .nil
  | append_singleton sizes x ih =>
    rw [lay_append_singleton, RegionLayout.next, List.pairwise_append]
    refine ⟨ih, List.pairwise_singleton _ _, ?_⟩
    intro a ha b hb byte _ hlt hle _
    obtain rfl := List.mem_singleton.mp hb
    have hend := region_end_le ha
    dsimp only at hle
    omega

/-- The regions are within so many pages just when all of their own pages are. -/
theorem within_lay_iff {n : ℕ} : (∀ a ∈ (lay sizes).regions, a.offset + a.size ≤
    n * kTempMinAlignment) ↔ (sizes.map fun x => pages x.2).sum ≤ n := by
  induction sizes using List.reverseRecOn with
  | nil => exact iff_of_true (fun a ha => by cases ha) (Nat.zero_le _)
  | append_singleton sizes x ih =>
    rw [lay_append_singleton, RegionLayout.next, List.forall_mem_append, ih, position_lay,
      List.forall_mem_singleton, List.map_append, List.sum_append, List.map_singleton,
      List.sum_singleton]
    generalize (sizes.map fun x => pages x.2).sum = earlier
    dsimp only
    unfold pages kTempMinAlignment
    omega

theorem map_kind_size_lay : (lay sizes).regions.map (fun a => (a.kind, a.size)) = sizes := by
  induction sizes using List.reverseRecOn with
  | nil => rfl
  | append_singleton sizes x ih =>
    rw [lay_append_singleton, RegionLayout.next, List.map_append, ih]
    rfl

end lay

section regions

variable {r : GpuRun}

/-- A layout that ends without an error has the regions of the allocations. -/
theorem layoutRegions_eq_ok {l : RegionLayout} (h : layoutRegions r = ok l) :
    l = lay (r.allocations.filterMap (regionOf r)) := by
  apply foldlM_prefix (fun done l => l = lay (done.filterMap (regionOf r))) h rfl
  rintro done a - l l' rfl hstep
  rw [List.filterMap_append, List.filterMap_cons, List.filterMap_nil]
  unfold layoutAllocation at hstep
  split at hstep
  · rename_i kind size hregion
    rw [hregion, lay_append_singleton]
    exact (ok.inj hstep).symm
  · rename_i hregion
    obtain ⟨-, -, hl⟩ := bind_eq_ok.mp hstep
    rw [hregion, List.append_nil]
    exact (ok.inj hl).symm

theorem regionOf_cases (a : GpuAllocation) :
    (r.isInputTable a = true ∧ isOutputTable a = false ∧ a.isPreallocatedTempBuffer = false ∧
      regionOf r a = some (.inputTuple, r.inputs.length * sizeofPointer)) ∨
    (r.isInputTable a = false ∧ isOutputTable a = true ∧ a.isPreallocatedTempBuffer = false ∧
      regionOf r a = some (.outputTuple, r.inputs.length * sizeofPointer)) ∨
    (r.isInputTable a = false ∧ isOutputTable a = false ∧ a.isPreallocatedTempBuffer = true ∧
      regionOf r a = some (.temp, a.size)) ∨
    (r.isInputTable a = false ∧ isOutputTable a = false ∧ a.isPreallocatedTempBuffer = false ∧
      regionOf r a = none) := by
  unfold GpuRun.isInputTable isOutputTable regionOf GpuAllocation.isPreallocatedTempBuffer
  cases hlocal : a.isThreadLocal with
  | true => simp
  | false =>
    cases hentry : a.entryParameter with
    | some parameter =>
      cases hindex : parameter.2 <;> cases r.tupledArgs <;> simp [hindex]
    | none =>
      cases hlive : a.maybeLiveOut with
      | true => cases a.isTuple <;> simp
      | false => cases a.isConstant <;> simp

/-- The pages of the regions are those of the tables and of the temporaries. -/
theorem sum_pages_regions (allocations : List GpuAllocation) :
    ((allocations.filterMap (regionOf r)).map fun x => pages x.2).sum =
      (allocations.countP fun a => r.isInputTable a || isOutputTable a) *
        pages (r.inputs.length * sizeofPointer) +
      ((allocations.filter GpuAllocation.isPreallocatedTempBuffer).map fun a => pages a.size).sum := by
  induction allocations with
  | nil => simp
  | cons a allocations ih =>
    rcases @regionOf_cases r a with ⟨hin, hout, htemp, hregion⟩ | ⟨hin, hout, htemp, hregion⟩ |
      ⟨hin, hout, htemp, hregion⟩ | ⟨hin, hout, htemp, hregion⟩
    all_goals
      simp only [List.filterMap_cons, hregion, List.map_cons, List.sum_cons, ih, List.countP_cons,
        hin, hout, htemp, List.filter_cons, Bool.or_true, Bool.or_false, if_true, if_false,
        Bool.false_eq_true, add_mul]
      omega

theorem totalSize_eq (r : GpuRun) : r.totalSize =
    ((if r.tupledArgs then pages (r.inputs.length * sizeofPointer) else 0) +
      (if r.allocations.any fun a => a.maybeLiveOut && a.isTuple then
        pages (r.outputs.length * sizeofPointer) else 0) +
      ((r.allocations.filter GpuAllocation.isPreallocatedTempBuffer).map fun a =>
        pages a.size).sum) * kTempMinAlignment := by
  have hsum : ∀ as : List GpuAllocation, ((as.map fun a => paddedSize a.size)).sum =
      (as.map fun a => pages a.size).sum * kTempMinAlignment := by
    intro as
    induction as with
    | nil => rfl
    | cons a as ih =>
      rw [List.map_cons, List.sum_cons, ih, paddedSize_eq, List.map_cons, List.sum_cons, add_mul,
        alignTempSize]
  have htemps : (r.executable.tempSizes.map paddedSize) =
      (r.allocations.filter GpuAllocation.isPreallocatedTempBuffer).map
        fun a => paddedSize a.size := by
    unfold CompiledExecutable.tempSizes GpuRun.executable
    rw [List.filter_map, List.map_map, List.map_map]
    rfl
  have htable : r.executable.hasOutputTable .gpu =
      r.allocations.any fun a => a.maybeLiveOut && a.isTuple := by
    unfold CompiledExecutable.hasOutputTable GpuRun.executable
    rw [List.any_map]
    rfl
  have hinputs : r.executable.hasInputTable .gpu = r.tupledArgs := rfl
  unfold GpuRun.totalSize taskTempSize
  rw [htemps, hsum, htable, hinputs, add_mul, add_mul]
  simp only [paddedSize_eq, alignTempSize, ite_mul, zero_mul]

/-- The regions of a run are sound just when its tables fit. -/
theorem regionsSound_iff {l : RegionLayout} (h : layoutRegions r = ok l) :
    RegionsSound r l.regions ↔ TablesFit r := by
  obtain rfl := layoutRegions_eq_ok h
  have hwithin : (∀ a ∈ (lay (r.allocations.filterMap (regionOf r))).regions,
      a.offset + a.size ≤ r.totalSize) ↔
      ((r.allocations.countP fun a => r.isInputTable a || isOutputTable a) *
          pages (r.inputs.length * sizeofPointer) ≤
        (if r.tupledArgs then pages (r.inputs.length * sizeofPointer) else 0) +
          if r.allocations.any fun a => a.maybeLiveOut && a.isTuple then
            pages (r.outputs.length * sizeofPointer) else 0) := by
    rw [totalSize_eq, within_lay_iff, sum_pages_regions]
    omega
  have hroom : (∀ a ∈ (lay (r.allocations.filterMap (regionOf r))).regions,
      a.kind = .outputTuple → r.outputs.length * sizeofPointer ≤ a.size) ↔
      (r.outputs.length ≤ r.inputs.length ∨ ∀ a ∈ r.allocations, isOutputTable a = false) := by
    have hpointers : r.outputs.length * sizeofPointer ≤ r.inputs.length * sizeofPointer ↔
        r.outputs.length ≤ r.inputs.length := by
      unfold sizeofPointer
      omega
    have hmem : ∀ kind size, (∃ a ∈ (lay (r.allocations.filterMap (regionOf r))).regions,
        a.kind = kind ∧ a.size = size) ↔ ∃ a ∈ r.allocations, regionOf r a = some (kind, size) := by
      intro kind size
      rw [← List.mem_filterMap]
      have hmap := @map_kind_size_lay (r.allocations.filterMap (regionOf r))
      constructor
      · rintro ⟨a, ha, rfl, rfl⟩
        rw [← hmap]
        exact List.mem_map_of_mem ha
      · intro hin
        rw [← hmap] at hin
        obtain ⟨a, ha, heq⟩ := List.mem_map.mp hin
        exact ⟨a, ha, Prod.mk.inj heq⟩
    constructor
    · intro hall
      by_contra hnot
      simp only [not_or, not_forall, Bool.not_eq_false] at hnot
      obtain ⟨hmore, a, ha, htable⟩ := hnot
      have hregion : regionOf r a = some (.outputTuple, r.inputs.length * sizeofPointer) := by
        rcases @regionOf_cases r a with h | h | h | h
        · rw [h.2.1] at htable
          cases htable
        · exact h.2.2.2
        · rw [h.2.1] at htable
          cases htable
        · rw [h.2.1] at htable
          cases htable
      obtain ⟨region, hin, hkind, hsize⟩ := (hmem _ _).mpr ⟨a, ha, hregion⟩
      exact hmore (hpointers.mp (hsize ▸ hall region hin hkind))
    · intro hfit region hin hkind
      obtain ⟨a, ha, hregion⟩ := (hmem region.kind region.size).mp ⟨region, hin, rfl, rfl⟩
      rw [hkind] at hregion
      rcases @regionOf_cases r a with h | h | h | h
      · simp [h.2.2.2] at hregion
      · rw [h.2.2.2] at hregion
        obtain ⟨-, hsize⟩ := Prod.mk.inj (Option.some.inj hregion)
        rw [← hsize, hpointers]
        rcases hfit with hle | hnone
        · exact hle
        · rw [hnone a ha] at h
          cases h.2.1
      · simp [h.2.2.2] at hregion
      · simp [h.2.2.2] at hregion
  unfold TablesFit
  rw [← hwithin, ← hroom]
  constructor
  · intro hsound
    exact ⟨hsound.room, hsound.within⟩
  · rintro ⟨hroom', hwithin'⟩
    exact ⟨pairwise_disjoint_lay, hwithin', hroom'⟩

end regions

/-- A task without inputs that returns a tuple of one output. -/
def noInputRun : GpuRun where
  allocations := [{ index := 0, size := 4, maybeLiveOut := true },
    { index := 1, size := 8, maybeLiveOut := true, isTuple := true }]
  outputInfo index := if index = 0 then some 0 else none
  inputs := []
  outputs := [4]
  tupledArgs := false

theorem regionsSound_iff_noInputRun :
    layoutRegions noInputRun = ok ⟨0, [⟨.outputTuple, 0, 0⟩]⟩ ∧
      (RegionsSound noInputRun [⟨.outputTuple, 0, 0⟩] ↔ TablesFit noInputRun) :=
  ⟨by decide, regionsSound_iff (l := ⟨0, [⟨.outputTuple, 0, 0⟩]⟩) (by decide)⟩

/-- The table of the outputs is empty. -/
theorem noInputRun_no_room :
    layoutRegions noInputRun = ok ⟨0, [⟨.outputTuple, 0, 0⟩]⟩ ∧
      ¬RegionsSound noInputRun [⟨.outputTuple, 0, 0⟩] := by
  refine ⟨by decide, fun h => ?_⟩
  have hroom := h.room ⟨.outputTuple, 0, 0⟩ (List.mem_singleton_self _) rfl
  exact absurd hroom (by decide)

end Executable
end MultiMeshJax
