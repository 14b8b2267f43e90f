import MultiMeshJax.MpmdPartition.Task

/-! The general path of `MultiMeshPjRtExecutable::Execute` on one local device: the root
stores, and the stores and buffers that every operation is given. -/
namespace MultiMeshJax
namespace Executable

open StatusOr

/-- What a store handle refers to: an argument of the caller, a new store for a result,
or a cached temporary. -/
inductive StoreHandle where
  | argument (buffer : ℕ)
  | newRoot (index : ℕ)
  | temporary (index : ℕ)
  deriving DecidableEq, Repr

abbrev RootStores := List (Option StoreHandle)

def addRootStore (parameterStores : List StoreHandle) (rootStores : RootStores)
    (output : Store) (parameterNumberAlias : Option ℤ) : StatusOr RootStores := do
  match ← elementAtInt rootStores output.index with
  -- already configured
  | some _ => return rootStores
  | none =>
    match parameterNumberAlias with
    | some parameter => do
      let store ← elementAtInt parameterStores parameter
      assignAt rootStores output.index (some store)
    | none => assignAt rootStores output.index (some (.newRoot output.index.toNat))

/-- The entry parameter whose store the given output of the task overwrites. -/
def parameterNumberAlias (task : SpmdHloModuleTask) (localIndex : ℕ) :
    StatusOr (Option ℤ) :=
  match task.module.outputAlias localIndex with
  | none => return none
  | some localAlias => do
    let input ← elementAt task.inputs localAlias
    return if input.type = .param then some input.index else none

def setupRootStores (parameterStores : List StoreHandle) (rootStores : RootStores)
    (task : SpmdHloModuleTask) : StatusOr RootStores :=
  task.outputs.zipIdx.foldlM (fun rootStores (output, localIndex) =>
    if output.type = .root then do
      let aliased ← parameterNumberAlias task localIndex
      addRootStore parameterStores rootStores output aliased
    else return rootStores) rootStores

def configureRootStores (parameterStores : List StoreHandle) (numResults : ℕ)
    (schedule : List MpmdOperation) : StatusOr RootStores :=
  schedule.foldlM (fun rootStores op =>
    match op with
    | .task task => setupRootStores parameterStores rootStores task
    | .reshard _ output =>
      if output.type = .root then addRootStore parameterStores rootStores output none
      else return rootStores
    | .freeStore _ | .createStore _ => return rootStores) (List.replicate numResults none)

/-- The stores that a schedule runs on. -/
structure Stores where
  parameters : List StoreHandle
  roots : RootStores
  temporaries : List StoreHandle
  deriving DecidableEq, Repr

def getStoreHandle (stores : Stores) (store : Store) : StatusOr (Option StoreHandle) :=
  match store.type with
  | .param => some <$> elementAtInt stores.parameters store.index
  | .root => elementAtInt stores.roots store.index
  | .temp => some <$> elementAtInt stores.temporaries store.index

/-- `get_store_handles` leaves the scalars out. -/
def getStoreHandles (stores : Stores) (ss : List Store) : StatusOr (List (Option StoreHandle)) :=
  (ss.filter fun s => !s.scalar).mapM (getStoreHandle stores)

/-- A buffer passed to the compiled executable. -/
inductive InputBuffer where
  | scalar (value : ℤ)
  | store (handle : Option StoreHandle)
  deriving DecidableEq, Repr

/-- The entry of `scalar_buffers`, in which a later scalar overwrites an earlier one. -/
def scalarBuffer (scalars : List ScalarArgument) (paramNumber : ℕ) : Option ℤ :=
  (scalars.reverse.find? fun s => s.parameterNumber = (paramNumber : ℤ)).map ScalarArgument.value

/-- The buffers so far, and the input store that comes next. -/
def mergeStep (scalars : List ScalarArgument) (inputs : List (Option StoreHandle))
    (state : List InputBuffer × ℕ) (paramNumber : ℕ) : StatusOr (List InputBuffer × ℕ) :=
  match scalarBuffer scalars paramNumber with
  | some value => return (state.1 ++ [.scalar value], state.2)
  | none => do
    let input ← elementAt inputs state.2
    return (state.1 ++ [.store input], state.2 + 1)

/-- `RunExecutable` merges the scalars and the stores by parameter number. -/
def inputBuffers (scalars : List ScalarArgument) (inputs : List (Option StoreHandle)) :
    StatusOr (List InputBuffer) := do
  let merged ← (List.range (scalars.length + inputs.length)).foldlM (mergeStep scalars inputs)
    ([], 0)
  return merged.1

/-- What one operation of the schedule reads and writes. -/
inductive Binding where
  | execute (computation : ℕ) (inputs : List InputBuffer) (outputs : List (Option StoreHandle))
  | reshard (source target : Option StoreHandle)
  deriving DecidableEq, Repr

def bindOperation (stores : Stores) : MpmdOperation → StatusOr (List Binding)
  | .task task => do
    let inputs ← getStoreHandles stores task.inputs
    let outputs ← getStoreHandles stores task.outputs
    let buffers ← inputBuffers task.scalars inputs
    return [.execute task.module.computation buffers outputs]
  | .reshard input output => do
    let source ← getStoreHandle stores input
    let target ← getStoreHandle stores output
    return [.reshard source target]
  | .freeStore _ | .createStore _ => return []

/-- The operations of a run in order, and the stores that are returned to the caller. -/
structure Execution where
  bindings : List Binding
  results : List StoreHandle
  deriving DecidableEq, Repr

def resultHandle : Option StoreHandle → StatusOr StoreHandle
  | some handle => return handle
  | none => error "output for executable got a null Zuku store"

def execute (schedule : List MpmdOperation) (parameterStores : List StoreHandle)
    (numTemporaries numResults : ℕ) : StatusOr Execution := do
  let roots ← configureRootStores parameterStores numResults schedule
  let stores : Stores := ⟨parameterStores, roots, (List.range numTemporaries).map .temporary⟩
  let bindings ← schedule.mapM (bindOperation stores)
  let results ← roots.mapM resultHandle
  return ⟨bindings.flatten, results⟩

end Executable
end MultiMeshJax
