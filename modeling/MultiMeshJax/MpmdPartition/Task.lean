import MultiMeshJax.HloPartition

/-! The operations of an MPMD schedule and the stores that they read and write. -/
namespace MultiMeshJax

inductive StoreType where
  | param | root | temp
  deriving DecidableEq, Repr

/-- The store of a scheduling name. Its index is the entry parameter, the entry output or
the temporary that it stands for; a slice offset has no store and the index -1. -/
structure Store where
  type : StoreType
  index : ℤ := -1
  name : Option ℕ := none
  scalar : Bool := false
  shape : Shape := .array .f32 []
  deriving DecidableEq, Repr

structure ScalarArgument where
  value : ℤ
  parameterNumber : ℤ
  deriving DecidableEq, Repr

/-- A called computation as a module of its own, with the pairs `(output, parameter)` of
its input/output alias configuration. -/
structure SpmdModule where
  computation : ℕ
  loopIncrement : Bool := false
  sliceParamNumber : Option ℕ := none
  aliasConfig : List (ℕ × ℕ) := []
  deriving DecidableEq, Repr

/-- `OutputAlias`: the parameter that an output of the compiled module overwrites. -/
def SpmdModule.outputAlias (m : SpmdModule) (rootIndex : ℕ) : Option ℕ :=
  m.aliasConfig.lookup rootIndex

structure SpmdHloModuleTask where
  module : SpmdModule
  deviceAssignment : DeviceList
  inputs : List Store
  outputs : List Store
  loop : Bool := false
  scalars : List ScalarArgument := []
  deriving DecidableEq, Repr

inductive MpmdOperation where
  | task (task : SpmdHloModuleTask)
  | reshard (input output : Store)
  | freeStore (store : Store)
  | createStore (store : Store)
  deriving DecidableEq, Repr

end MultiMeshJax
