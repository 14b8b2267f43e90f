import MultiMeshJax.LoopScheduler.Tasks

/-! The wavefront family of schedules. -/
namespace MultiMeshJax
namespace LoopScheduler

open StatusOr

/-- The user's number of stages, or else a guess from the number of pipeline tasks. -/
def nextMinibatchDelay (config : LoopConfig) (submeshes : List DeviceList) : ℤ :=
  config.numStages.getD (max 1 ((submeshes.length + 1) / 2))

/-- The locals that the wavefront loop reads. -/
structure WavefrontLocals where
  numStages : ℤ
  numMicrobatches : ℤ
  minibatchSize : ℤ
  delay : ℤ
  numWavefronts : ℤ
  deriving DecidableEq, Repr

def wavefrontLocals (partition : HloPartition) (tasks : Tasks) (config : LoopConfig) :
    StatusOr WavefrontLocals := do
  let first ← elementAt tasks 0
  let submeshes ← submeshTasks partition first
  let numGroups ← int (numGroups submeshes)
  let delay ← int (nextMinibatchDelay config submeshes)
  let numStages ← int first.length
  let numMicrobatches ← int config.numIterations
  let numMinibatches ← int ((config.numIterations + numGroups - 1).tdiv numGroups)
  let product ← int (numMinibatches * delay)
  let numWavefronts ← int (numStages + product)
  return ⟨numStages, numMicrobatches, numGroups, delay, numWavefronts⟩

/-- The body of the wavefront loop. -/
def wavefrontStep (w : WavefrontLocals) (tasks : Tasks) (row : List HloInstruction)
    (wf stage : ℕ) : StatusOr (List HloInstruction) := do
  let tick : ℤ := wf - stage
  let minibatch := tick.tdiv w.delay
  let minibatchOffset := tick.tmod w.delay
  if 0 ≤ tick ∧ minibatchOffset < w.minibatchSize then
    let product ← int (minibatch * w.minibatchSize)
    let microbatch ← int (product + minibatchOffset)
    if microbatch < w.numMicrobatches then
      let iter ← elementAtInt tasks microbatch
      let task ← elementAt iter stage
      return row ++ [task]
    else return row
  else return row

/-- `for (wf = 0; ...) for (stage = num_stages - 1; stage >= 0; --stage)`. -/
def wavefrontLoop (w : WavefrontLocals) (tasks : Tasks) (row : List HloInstruction) :
    StatusOr (List HloInstruction) :=
  (List.range w.numWavefronts.toNat).foldlM (fun row wf =>
    (List.range w.numStages.toNat).reverse.foldlM
      (fun row stage => wavefrontStep w tasks row wf stage) row) row

/-- The overload of `ScheduleWavefront` that extends a schedule. -/
def extendWavefront (partition : HloPartition) (tasks : Tasks) (config : LoopConfig)
    (schedule : Tasks) : StatusOr Tasks :=
  if tasks = [] then return schedule
  else if schedule.length ≠ 1 then error "Schedule must be a single vector"
  else do
    let w ← wavefrontLocals partition tasks config
    let row ← elementAt schedule 0
    let row ← wavefrontLoop w tasks row
    return schedule.set 0 row

/-- The overload of `SchedulePrefetchWavefront` that is given the columns to unroll. -/
def prefetchWavefront (hash : HashOrder) (partition : HloPartition) (config : LoopConfig)
    (indicesToUnroll : List ℕ) (tasks : Tasks) : StatusOr Tasks := do
  let (schedule, remaining) ← unrollLoopIncrementTasks hash tasks indicesToUnroll [[]]
  extendWavefront partition remaining config schedule

def scheduleWavefront (hash : HashOrder) (partition : HloPartition) (config : LoopConfig)
    (tasks : Tasks) : StatusOr Tasks :=
  match tasks with
  | [] | [] :: _ => return [[]]
  | [_] :: _ => scheduleGpipe config tasks
  | _ => do
    let indicesToUnroll ← getIndicesToUnroll tasks
    prefetchWavefront hash partition config indicesToUnroll tasks

def schedulePrefetchWavefront (hash : HashOrder) (partition : HloPartition)
    (config : LoopConfig) (tasks : Tasks) : StatusOr Tasks :=
  match tasks with
  | [] | [] :: _ => return [[]]
  | [_] :: _ => scheduleGpipe config tasks
  | _ => do
    let indicesToUnroll ← getIndicesToUnroll tasks
    if indicesToUnroll ≠ [] then
      prefetchWavefront hash partition config indicesToUnroll tasks
    else scheduleWavefront hash partition config tasks

end LoopScheduler

end MultiMeshJax
