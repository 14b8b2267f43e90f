import MultiMeshJax.LoopScheduler.Wavefront

/-! The custom and zero-bubble schedules, and the choice of the schedule of a loop. -/
namespace MultiMeshJax
namespace LoopScheduler

open StatusOr

def colorOrDefault (task : HloInstruction) : String := task.color.getD "unassigned"

def strContains (haystack needle : String) : Bool :=
  decide (needle.toList <:+: haystack.toList)

/-- The task names of a custom schedule, each once. The source keeps them in a hash map,
so that which of several faulty names an error reports is left open. -/
def customTaskNames (custom : List (List (ℤ × String))) : List String :=
  (custom.flatten.map Prod.snd).dedup

/-- The tasks among the first `tasksPerIter` columns whose colour contains the name. -/
def matchingTasks (tasksPerIter : ℕ) (row : List HloInstruction) (taskName : String) :
    StatusOr (List HloInstruction) := do
  let row ← (List.range tasksPerIter).mapM (elementAt row)
  return row.filter fun task => strContains (colorOrDefault task) taskName

/-- The entry `{iter, taskName}` of the task map, for a row that the check has passed. -/
def taskMapEntry (tasks : Tasks) (tasksPerIter : ℕ) (iter : ℤ) (taskName : String) :
    StatusOr HloInstruction := do
  let row := if 0 ≤ iter then tasks[iter.toNat]? else none
  let found ← row.elim (ok []) fun row => matchingTasks tasksPerIter row taskName
  match found with
  | task :: _ => return task
  | [] => error ("Task " ++ taskName ++ " not found in task map!")

def scheduleCustomSchedule (custom : List (List (ℤ × String))) (tasks schedule : Tasks) :
    StatusOr Tasks := do
  let first ← elementAt tasks 0
  let names := customTaskNames custom
  let countOf := fun name => (custom.flatten.map Prod.snd).count name
  -- each name has to appear once for each microbatch
  match names.find? fun name => countOf name ≠ tasks.length with
  | some name =>
    error ("Task " ++ name ++ " appears " ++ toString (countOf name) ++
      " times in custom schedule, expected " ++ toString tasks.length)
  | none => do
    let _ ← tasks.zipIdx.mapM fun (row, iter) => names.mapM fun name => do
      let found ← matchingTasks first.length row name
      if 1 < found.length then
        (error ("Task " ++ name ++ " appears multiple times in microbatch row " ++
          toString iter) : StatusOr Unit)
      else return ()
    (custom.zip schedule).mapM fun (meshSchedule, row) => do
      let found ← meshSchedule.mapM fun (iter, taskName) =>
        taskMapEntry tasks first.length iter taskName
      return row ++ found

def scheduleCustom (hash : HashOrder) (config : LoopConfig) (tasks : Tasks) :
    StatusOr Tasks := do
  let custom ← deref "Needs custom schedule or callback" config.customSchedule
  let indicesToUnroll ← getIndicesToUnroll tasks
  let (schedule, remaining) ← unrollLoopIncrementTasks hash tasks indicesToUnroll
    (custom.map fun _ => [])
  scheduleCustomSchedule custom remaining schedule

/-- `IsNonCritical`: the colour is registered and marked. -/
def isNonCritical (partition : HloPartition) (task : HloInstruction) : Bool :=
  match task.color.bind fun color => partition.colors.lookup color with
  | some (config : ColorConfig) => config.noncritical
  | none => false

def isCritical (partition : HloPartition) (task : HloInstruction) : StatusOr Bool := do
  let _ ← deref "instruction has no color" task.color
  return !isNonCritical partition task

/-- How the queue of non-critical stages is drained: by falling partner stage, with equal
partners in an order that the standard library leaves open. -/
structure StageQueue where
  drain : List (ℕ × ℕ) → List (ℕ × ℕ)
  perm : ∀ xs, (drain xs).Perm xs
  sorted : ∀ xs, (drain xs).Pairwise fun a b => b.1 ≤ a.1

/-- The stage of the last critical task that a task of the last microbatch consumes. -/
def criticalPartnerStage (operandsOf : ℕ → List ℕ) (criticalStage : ℕ → Option ℕ)
    (task : HloInstruction) : ℕ :=
  ((task.operands.flatMap operandsOf).filterMap criticalStage).foldl max 0

/-- Stage groups `(wf, microbatch, stage)` are popped by rising wavefront, microbatch and
stage. -/
def stageGroupLe (a b : ℕ × ℕ × ℕ) : Bool :=
  if a.1 ≠ b.1 then decide (a.1 < b.1)
  else if a.2.1 ≠ b.2.1 then decide (a.2.1 < b.2.1)
  else decide (a.2.2 ≤ b.2.2)

/-- The queue of the zero-bubble schedule in the order in which it is popped. -/
def zeroBubbleGroups (numMinibatches minibatchSize delay numStages : ℕ) : List (ℕ × ℕ × ℕ) :=
  let groups := (List.range numMinibatches).flatMap fun minibatch =>
    (List.range minibatchSize).flatMap fun mb =>
      (List.range numStages).map fun stage =>
        (minibatch * delay + mb + stage, minibatch * minibatchSize + mb, stage)
  groups.insertionSort fun a b => stageGroupLe a b = true

/-- The locals that the loop of the zero-bubble schedule reads. -/
structure ZeroBubbleLocals where
  delay : ℕ
  minibatchSize : ℕ
  numMinibatches : ℕ
  deriving DecidableEq, Repr

/-- The number of minibatches is rounded up. -/
def numMinibatches (config : LoopConfig) (groups : ℕ) : ℕ :=
  (config.numIterations + groups - 1) / groups

def zeroBubbleLocals (partition : HloPartition) (first : List HloInstruction)
    (numPipelineTasks : ℕ) (config : LoopConfig) : StatusOr ZeroBubbleLocals := do
  let submeshes ← submeshTasks partition first
  let groups := numGroups submeshes
  let delay := (numPipelineTasks + 1) / 2
  let minibatches := numMinibatches config groups
  let _ ← int groups
  let _ ← int delay
  let _ ← int first.length
  let _ ← int minibatches
  let _ ← int ((minibatches * delay : ℕ) : ℤ)
  let _ ← int ((first.length + minibatches * delay : ℕ) : ℤ)
  return ⟨delay, groups, minibatches⟩

/-- The columns in the order in which the zero-bubble schedule takes them: the critical
ones, then the drained queue of the others. -/
def reorderedStages (queue : StageQueue) (partition : HloPartition)
    (operandsOf : ℕ → List ℕ) (tasks : Tasks) (criticalStages : List ℕ)
    (last : List HloInstruction) : List ℕ :=
  let criticalStage := fun id =>
    criticalStages.reverse.find? fun s => tasks.any fun row => (row[s]?.map (·.id)) = some id
  let nonCritical := last.zipIdx.filter fun t => isNonCritical partition t.1
  criticalStages ++ (queue.drain (nonCritical.map fun t =>
    (criticalPartnerStage operandsOf criticalStage t.1, t.2))).map Prod.snd

/-- `operandsOf` gives the operands of an instruction of the parent computation. The
timers of the devices and of the microbatches only feed the log. -/
def scheduleZeroBubble (queue : StageQueue) (partition : HloPartition)
    (operandsOf : ℕ → List ℕ) (config : LoopConfig) (tasks : Tasks) : StatusOr Tasks :=
  if tasks = [] then return []
  else do
    let _ ← int tasks.length
    let first ← elementAt tasks 0
    let last ← deref "no last microbatch" tasks.getLast?
    let critical ← first.mapM (isCritical partition)
    let criticalStages := (List.range first.length).filter fun s => critical.getD s false
    let reordered ← tasks.mapM fun row =>
      (reorderedStages queue partition operandsOf tasks criticalStages last).mapM (elementAt row)
    let w ← zeroBubbleLocals partition first criticalStages.length config
    let order ← (zeroBubbleGroups w.numMinibatches w.minibatchSize w.delay first.length).mapM
      fun group => do
        let row ← elementAt reordered group.2.1
        let task ← elementAt row group.2.2
        let _ ← partition.devicesForInstruction task
        return task
    return [order]

def scheduleLoops (hash : HashOrder) (queue : StageQueue) (partition : HloPartition)
    (operandsOf : ℕ → List ℕ) (config : LoopConfig) (tasks : Tasks) : StatusOr Tasks :=
  match config.schedule with
  | .custom => scheduleCustom hash config tasks
  | .fillDrain => scheduleGpipe config tasks
  | .prefetchWavefront => schedulePrefetchWavefront hash partition config tasks
  | .zeroBubbleH2 => scheduleZeroBubble queue partition operandsOf config tasks
  | .oneFOneB | .wavefront => scheduleWavefront hash partition config tasks

end LoopScheduler

end MultiMeshJax
