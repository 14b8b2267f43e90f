import MultiMeshJax.MpmdPartition.Task

/-! The temporary buffer that `Execute` reserves once for a schedule, and what running a
task takes out of it. Sizes are natural numbers: none of them comes near `2^63`. -/
namespace MultiMeshJax
namespace Executable

open StatusOr

def kTempMinAlignment : ℕ := 4096

def kMaxScalarArguments : ℕ := 64

def sizeofPointer : ℕ := 8

/-- The number of pages that a region takes. -/
def pages (size : ℕ) : ℕ := (size + kTempMinAlignment - 1) / kTempMinAlignment

def alignTempSize (size : ℕ) : ℕ := pages size * kTempMinAlignment

/-- `(size + padding) & ~padding`, which clears the low twelve bits. -/
def paddedSize (size : ℕ) : ℕ := (size + 4095) - (size + 4095) % 4096

@[simp] theorem paddedSize_eq (size : ℕ) : paddedSize size = alignTempSize size := by
  unfold paddedSize alignTempSize pages kTempMinAlignment
  omega

@[simp] theorem pages_mul (n : ℕ) : pages (n * kTempMinAlignment) = n := by
  unfold pages kTempMinAlignment
  omega

theorem pages_mono {a b : ℕ} (h : a ≤ b) : pages a ≤ pages b := by
  unfold pages kTempMinAlignment
  omega

theorem pages_scalars {s : ℕ} (h : s ≤ kMaxScalarArguments) :
    pages (64 * s) = if s = 0 then 0 else 1 := by
  unfold pages kTempMinAlignment
  unfold kMaxScalarArguments at h
  split <;> omega

/-- A bump allocator over the temporary buffer; pointers are offsets into it. -/
structure TempBufferAllocator where
  size : ℕ
  next : ℕ := 0
  freedSize : ℕ := 0
  deriving DecidableEq, Repr

namespace TempBufferAllocator

def allocate (a : TempBufferAllocator) (size : ℕ) : StatusOr (ℕ × TempBufferAllocator) :=
  if a.size < a.next + alignTempSize size then
    fatal "requested size exceeds capacity of temp buffer"
  else ok (a.next, { a with next := a.next + alignTempSize size })

/-- The next pointer is only reset once everything has been freed. -/
def free (a : TempBufferAllocator) (size : ℕ) : TempBufferAllocator :=
  let freed := a.freedSize + alignTempSize size
  { a with freedSize := freed, next := if freed = a.size then 0 else a.next }

theorem allocate_of_le {a : TempBufferAllocator} {size : ℕ}
    (h : a.next + alignTempSize size ≤ a.size) :
    a.allocate size = ok (a.next, { a with next := a.next + alignTempSize size }) :=
  if_neg (not_lt.mpr h)

theorem allocate_of_lt {a : TempBufferAllocator} {size : ℕ}
    (h : a.size < a.next + alignTempSize size) :
    a.allocate size = fatal "requested size exceeds capacity of temp buffer" :=
  if_pos h

end TempBufferAllocator

/-- Running the executable with the regions of a task, all allocated at once. -/
def runRegions (allocator : TempBufferAllocator) (total : ℕ) : StatusOr TempBufferAllocator := do
  let (_, allocator) ← allocator.allocate total
  return allocator.free total

theorem runRegions_isOk_iff {a : TempBufferAllocator} {n : ℕ} :
    (runRegions a (n * kTempMinAlignment)).isOk = true ↔
      a.next + n * kTempMinAlignment ≤ a.size := by
  have hsize : alignTempSize (n * kTempMinAlignment) = n * kTempMinAlignment := by
    rw [alignTempSize, pages_mul]
  by_cases h : a.next + n * kTempMinAlignment ≤ a.size
  · rw [runRegions, TempBufferAllocator.allocate_of_le (hsize.symm ▸ h)]
    simp [isOk, h]
  · rw [runRegions, TempBufferAllocator.allocate_of_lt (hsize.symm ▸ not_le.mp h)]
    simp [isOk, h]

/-- What the allocator reads of a buffer allocation of the compiled executable. -/
structure BufferAllocation where
  size : ℕ
  isPreallocatedTempBuffer : Bool := false
  maybeLiveOut : Bool := false
  isTuple : Bool := false
  deriving DecidableEq, Repr

/-- What a run reads of the compiled executable of a task. -/
structure CompiledExecutable where
  allocations : List BufferAllocation
  tupledArgs : Bool := false
  rootIsTuple : Bool := true
  deriving DecidableEq, Repr

inductive Platform where
  | cpu | gpu
  deriving DecidableEq, Repr

def CompiledExecutable.tempSizes (exe : CompiledExecutable) : List ℕ :=
  (exe.allocations.filter BufferAllocation.isPreallocatedTempBuffer).map BufferAllocation.size

/-- `temp_required_`, the sum of the unpadded sizes. -/
def CompiledExecutable.tempRequired (exe : CompiledExecutable) : ℕ := exe.tempSizes.sum

/-- Whether the table of the inputs is allocated. -/
def CompiledExecutable.hasInputTable (exe : CompiledExecutable) : Platform → Bool
  | .cpu => false
  | .gpu => exe.tupledArgs

/-- Whether the table of the outputs is allocated. -/
def CompiledExecutable.hasOutputTable (exe : CompiledExecutable) : Platform → Bool
  | .cpu => exe.rootIsTuple
  | .gpu => exe.allocations.any fun a => a.maybeLiveOut && a.isTuple

/-- A task with its executable, if it is compiled on this process. The scheduler gives
every scalar input its scalar argument. -/
structure TaskLaunch where
  task : SpmdHloModuleTask
  executable : Option CompiledExecutable
  scalars_length : task.scalars.length = (task.inputs.filter Store.scalar).length

/-- `total_size_` of the constructor of `TaskTempMemoryAllocator`. -/
def taskTempSize (platform : Platform) (exe : CompiledExecutable) (numArgs numOutputs : ℕ) : ℕ :=
  (if exe.hasInputTable platform then paddedSize (numArgs * sizeofPointer) else 0) +
    (if exe.hasOutputTable platform then paddedSize (numOutputs * sizeofPointer) else 0) +
    (exe.tempSizes.map paddedSize).sum

/-- `RunExecutable` over a temporary buffer of the given size. -/
def runExecutable (platform : Platform) (temp : ℕ) (launch : TaskLaunch)
    (exe : CompiledExecutable) : StatusOr TempBufferAllocator := do
  let numScalars := launch.task.scalars.length
  let allocator : TempBufferAllocator := { size := temp }
  let allocator ←
    if numScalars ≠ 0 ∧ platform = .gpu then Prod.snd <$> allocator.allocate (64 * numScalars)
    else ok allocator
  -- the values are staged in an array on the stack
  if kMaxScalarArguments < numScalars then fatal "scalar staging array indexed past its end"
  else do
    let numInputs := numScalars + (launch.task.inputs.filter fun s => !s.scalar).length
    runRegions allocator (taskTempSize platform exe numInputs launch.task.outputs.length)

def maxOver {α : Type} (f : α → ℕ) (xs : List α) : ℕ := (xs.map f).foldl max 0

def numScalarInputs (launch : TaskLaunch) : ℕ := (launch.task.inputs.filter Store.scalar).length

def localTempRequired (launch : TaskLaunch) : ℕ :=
  launch.executable.elim 0 CompiledExecutable.tempRequired

def maxNumScalars (launches : List TaskLaunch) : ℕ := maxOver numScalarInputs launches

def maxBufferTempRequired (launches : List TaskLaunch) : ℕ := maxOver localTempRequired launches

def maxNumOutputs (launches : List TaskLaunch) : ℕ :=
  maxOver (fun launch => launch.task.outputs.length) launches

/-- The size of the temporary buffer that `Execute` creates for the tasks of a schedule. -/
def totalTempRequired (launches : List TaskLaunch) : ℕ :=
  maxNumScalars launches * kTempMinAlignment +
    alignTempSize (maxBufferTempRequired launches) +
    alignTempSize (maxNumOutputs launches * sizeofPointer)

/-- Every task that is compiled here runs within the reserved buffer and the staging
array. -/
def ReservationSuffices (platform : Platform) (launches : List TaskLaunch) : Prop :=
  ∀ launch ∈ launches, ∀ exe, launch.executable = some exe →
    (runExecutable platform (totalTempRequired launches) launch exe).isOk = true

/-- The pages of the regions of a task, each region by itself. -/
def regionPages (platform : Platform) (launch : TaskLaunch) (exe : CompiledExecutable) : ℕ :=
  (if exe.hasInputTable platform then pages (launch.task.inputs.length * sizeofPointer) else 0) +
    (if exe.hasOutputTable platform then pages (launch.task.outputs.length * sizeofPointer)
      else 0) +
    (exe.tempSizes.map pages).sum

/-- The page of the scalars of a task on a device with memory of its own. -/
def scalarPages (platform : Platform) (launch : TaskLaunch) : ℕ :=
  if launch.task.scalars ≠ [] ∧ platform = .gpu then 1 else 0

/-- No task has too many scalars, and the regions of every task, page by page, fit into
the pages of the largest sum of temporaries, of the longest output table and one page for
each of the most scalars. -/
def ReservationCovers (platform : Platform) (launches : List TaskLaunch) : Prop :=
  ∀ launch ∈ launches, ∀ exe, launch.executable = some exe →
    launch.task.scalars.length ≤ kMaxScalarArguments ∧
    scalarPages platform launch + regionPages platform launch exe ≤
      maxNumScalars launches + pages (maxBufferTempRequired launches) +
        pages (maxNumOutputs launches * sizeofPointer)

theorem taskTempSize_eq (platform : Platform) (launch : TaskLaunch) (exe : CompiledExecutable) :
    taskTempSize platform exe launch.task.inputs.length launch.task.outputs.length =
      regionPages platform launch exe * kTempMinAlignment := by
  have hsum : ∀ sizes : List ℕ,
      (sizes.map paddedSize).sum = (sizes.map pages).sum * kTempMinAlignment := by
    intro sizes
    induction sizes with
    | nil => rfl
    | cons size sizes ih =>
      rw [List.map_cons, List.sum_cons, ih, paddedSize_eq, List.map_cons, List.sum_cons, add_mul,
        alignTempSize]
  unfold taskTempSize regionPages
  rw [hsum, add_mul, add_mul]
  simp only [paddedSize_eq, alignTempSize, ite_mul, zero_mul]

theorem TaskLaunch.numInputs_eq (launch : TaskLaunch) :
    launch.task.scalars.length + (launch.task.inputs.filter fun s => !s.scalar).length =
      launch.task.inputs.length := by
  rw [launch.scalars_length]
  exact (List.length_eq_length_filter_add _).symm

/-- What a run takes is one page for the scalars and then its regions. -/
theorem runExecutable_isOk_iff {platform : Platform} {temp : ℕ} {launch : TaskLaunch}
    {exe : CompiledExecutable} :
    (runExecutable platform temp launch exe).isOk = true ↔
      launch.task.scalars.length ≤ kMaxScalarArguments ∧
      (scalarPages platform launch + regionPages platform launch exe) * kTempMinAlignment ≤
        temp := by
  unfold runExecutable
  simp only [launch.numInputs_eq, taskTempSize_eq]
  by_cases hs : launch.task.scalars.length ≤ kMaxScalarArguments
  · simp only [not_lt.mpr hs, if_false, hs, true_and]
    by_cases hgpu : launch.task.scalars.length ≠ 0 ∧ platform = .gpu
    · have hpages : scalarPages platform launch = 1 := by
        rw [scalarPages, if_pos ⟨by simpa using hgpu.1, hgpu.2⟩]
      have hone : alignTempSize (64 * launch.task.scalars.length) = kTempMinAlignment := by
        rw [alignTempSize, pages_scalars hs, if_neg hgpu.1, one_mul]
      rw [if_pos hgpu, hpages]
      by_cases hfit : kTempMinAlignment ≤ temp
      · rw [TempBufferAllocator.allocate_of_le (by simpa [hone] using hfit), map_ok, ok_bind,
          runRegions_isOk_iff]
        simp only [hone, add_mul, one_mul, zero_add]
      · rw [TempBufferAllocator.allocate_of_lt (by simpa [hone] using hfit)]
        have hmore : ¬ (1 + regionPages platform launch exe) * kTempMinAlignment ≤ temp := by
          rw [add_mul]
          omega
        simpa [isOk] using not_le.mp hmore
    · have hpages : scalarPages platform launch = 0 := by
        rw [scalarPages, if_neg (by simpa using hgpu)]
      rw [if_neg hgpu, hpages, ok_bind, runRegions_isOk_iff, zero_add, zero_add]
  · simp only [not_le.mp hs, if_true, hs, false_and, iff_false]
    -- whatever the scalars take, staging them is fatal
    split
    · cases hrun : TempBufferAllocator.allocate { size := temp }
          (64 * launch.task.scalars.length) <;> simp [isOk]
    · simp [isOk]

/-- The reservation is large enough for every task of a schedule exactly when it covers
the regions of every task page by page. -/
theorem reservationSuffices_iff (platform : Platform) (launches : List TaskLaunch) :
    ReservationSuffices platform launches ↔ ReservationCovers platform launches := by
  unfold ReservationSuffices ReservationCovers
  have htotal : totalTempRequired launches =
      (maxNumScalars launches + pages (maxBufferTempRequired launches) +
        pages (maxNumOutputs launches * sizeofPointer)) * kTempMinAlignment := by
    rw [totalTempRequired, alignTempSize, alignTempSize, add_mul, add_mul]
  have hpos : 0 < kTempMinAlignment := by decide
  simp only [runExecutable_isOk_iff, htotal, Nat.mul_le_mul_right_iff hpos]

theorem le_maxOver {α : Type} {f : α → ℕ} {xs : List α} {x : α} (h : x ∈ xs) :
    f x ≤ maxOver f xs := by
  have hfold : ∀ (ys : List ℕ) (a : ℕ), a ≤ ys.foldl max a ∧ ∀ y ∈ ys, y ≤ ys.foldl max a := by
    intro ys
    induction ys with
    | nil => simp
    | cons y ys ih =>
      intro a
      obtain ⟨hinit, hall⟩ := ih (max a y)
      refine ⟨(le_max_left a y).trans hinit, fun z hz => ?_⟩
      rcases List.mem_cons.mp hz with rfl | hz
      · exact (le_max_right a z).trans hinit
      · exact hall z hz
  exact (hfold (xs.map f) 0).2 _ (List.mem_map_of_mem h)

/-- With at most one temporary and no table of inputs nothing is lost to padding. -/
theorem reservationSuffices_of_single_region {platform : Platform} {launches : List TaskLaunch}
    (hscalars : ∀ launch ∈ launches, launch.task.scalars.length ≤ kMaxScalarArguments)
    (hsingle : ∀ launch ∈ launches, ∀ exe, launch.executable = some exe →
      exe.tempSizes.length ≤ 1 ∧ exe.hasInputTable platform = false) :
    ReservationSuffices platform launches := by
  rw [reservationSuffices_iff]
  intro launch hlaunch exe hexe
  obtain ⟨hlen, htable⟩ := hsingle launch hlaunch exe hexe
  refine ⟨hscalars launch hlaunch, ?_⟩
  have hscalar : scalarPages platform launch ≤ maxNumScalars launches := by
    have hmax : numScalarInputs launch ≤ maxNumScalars launches := le_maxOver hlaunch
    unfold scalarPages
    split
    · rename_i h
      have hpos := List.length_pos_iff.mpr h.1
      rw [launch.scalars_length] at hpos
      exact le_trans hpos hmax
    · exact Nat.zero_le _
  have htemp : (exe.tempSizes.map pages).sum ≤ pages (maxBufferTempRequired launches) := by
    have hmax : localTempRequired launch ≤ maxBufferTempRequired launches := le_maxOver hlaunch
    rw [localTempRequired, hexe, Option.elim_some, CompiledExecutable.tempRequired] at hmax
    match hsizes : exe.tempSizes with
    | [] => simp
    | [size] => simpa [hsizes] using pages_mono (by simpa [hsizes] using hmax)
    | _ :: _ :: _ => simp [hsizes] at hlen
  have houtputs : pages (launch.task.outputs.length * sizeofPointer) ≤
      pages (maxNumOutputs launches * sizeofPointer) := by
    apply pages_mono
    have hmax : launch.task.outputs.length ≤ maxNumOutputs launches :=
      le_maxOver (f := fun launch : TaskLaunch => launch.task.outputs.length) hlaunch
    exact Nat.mul_le_mul_right _ hmax
  simp only [regionPages, htable, Bool.false_eq_true, if_false, zero_add]
  split <;> omega

/-- One output and two temporaries of one byte each. -/
def twoTempsLaunch : TaskLaunch where
  task :=
    { module := { computation := 0 }
      deviceAssignment := ⟨0, 1⟩
      inputs := []
      outputs := [{ type := .root, index := 0 }] }
  executable := some { allocations := [{ size := 1, isPreallocatedTempBuffer := true },
    { size := 1, isPreallocatedTempBuffer := true },
    { size := 8, maybeLiveOut := true, isTuple := true }] }
  scalars_length := rfl

/-- Two pages are reserved and three are needed. -/
theorem twoTempsLaunch_exceeds :
    totalTempRequired [twoTempsLaunch] = 8192 ∧
    taskTempSize .gpu { allocations := [{ size := 1, isPreallocatedTempBuffer := true },
      { size := 1, isPreallocatedTempBuffer := true },
      { size := 8, maybeLiveOut := true, isTuple := true }] } 0 1 = 12288 ∧
    ¬ ReservationSuffices .gpu [twoTempsLaunch] := by
  refine ⟨by decide, by decide, fun h => ?_⟩
  have hrun := h twoTempsLaunch (by simp) _ rfl
  exact absurd hrun (by decide)

end Executable
end MultiMeshJax
