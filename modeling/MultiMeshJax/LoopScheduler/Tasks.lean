import MultiMeshJax.HloPartition

/-! The task matrix of an unrolled microbatch loop, and the parts that several of the
schedules share. -/
namespace MultiMeshJax

/-- The order in which a hash container hands out its elements: some permutation. -/
structure HashOrder where
  order : List ℕ → List ℕ
  perm : ∀ xs, (order xs).Perm xs

inductive Schedule where
  | fillDrain | oneFOneB | wavefront | prefetchWavefront | custom | zeroBubbleH2
  deriving DecidableEq, Repr

/-- The schedules that are built out of wavefronts. -/
def Schedule.isWavefront : Schedule → Bool
  | oneFOneB | wavefront | prefetchWavefront => true
  | fillDrain | custom | zeroBubbleH2 => false

/-- The fields of the loop configuration that the unrolling and the schedules read. -/
structure LoopConfig where
  numIterations : ℕ
  microbatchSize : ℤ := 0
  schedule : Schedule := .fillDrain
  numStages : Option ℤ := none
  customSchedule : Option (List (List (ℤ × String))) := none
  deriving DecidableEq, Repr

/-- The rows of a task matrix are the iterations, its columns the stages. -/
abbrev Tasks := List (List HloInstruction)

namespace LoopScheduler

open StatusOr

def isLoopIncrement (task : HloInstruction) : StatusOr Bool := do
  let color ← deref "instruction has no color" task.color
  return HloPartition.isLoopIncrementColor color

/-- The columns whose task in the first row has the loop-increment colour. -/
def getIndicesToUnroll (tasks : Tasks) : StatusOr (List ℕ) := do
  let first ← elementAt tasks 0
  let flags ← first.mapM isLoopIncrement
  return (List.range first.length).filter fun i => flags.getD i false

/-- The matrix without the given columns. -/
def remainingTasks (tasks : Tasks) (indicesToUnroll : List ℕ) : Tasks :=
  tasks.map fun iter => (iter.zipIdx.filter fun t => !indicesToUnroll.contains t.2).map Prod.fst

/-- Appends the unrolled columns to the first row of the schedule and returns it together
with the matrix of the remaining columns. -/
def unrollLoopIncrementTasks (hash : HashOrder) (tasks : Tasks) (indicesToUnroll : List ℕ)
    (schedule : Tasks) : StatusOr (Tasks × Tasks) := do
  let unrolled ← (hash.order indicesToUnroll).mapM fun taskIndex => do
    let _ ← int tasks.length
    tasks.mapM fun iter => elementAt iter taskIndex
  let remaining := remainingTasks tasks indicesToUnroll
  if unrolled.flatten = [] then return (schedule, remaining)
  else do
    let row ← elementAt schedule 0
    return (schedule.set 0 (row ++ unrolled.flatten), remaining)

/-- The device lists of the tasks of a row that are not the global one, one entry a task. -/
def submeshTasks (partition : HloPartition) (row : List HloInstruction) :
    StatusOr (List DeviceList) := do
  let devices ← row.mapM partition.devicesForTask
  return devices.filter fun d => d.size ≠ partition.totalDevices

/-- `max<int>(1, unique_groups.size())`. -/
def numGroups (submeshes : List DeviceList) : ℕ := max 1 submeshes.dedup.length

def scheduleGpipe (config : LoopConfig) (tasks : Tasks) : StatusOr Tasks := do
  let first ← elementAt tasks 0
  let columns ← (List.range first.length).mapM fun taskIndex => do
    let _ ← int config.numIterations
    (List.range config.numIterations).mapM fun iter => do
      let row ← elementAt tasks iter
      elementAt row taskIndex
  return [columns.flatten]

end LoopScheduler

end MultiMeshJax
