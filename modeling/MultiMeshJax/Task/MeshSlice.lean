import MultiMeshJax.HloPartition
import MultiMeshJax.Task.Microbatch

/-! The devices of a task in the Python front end. -/
namespace MultiMeshJax
namespace Frontend

open StatusOr Microbatch

/-- The mesh of a task, with its devices in row-major order. -/
structure TaskMesh where
  axisNames : List String
  axisSizes : List ℕ
  devices : List ℕ

/-- The entries of `arange(n).reshape(shape)` at the given positions of each axis. -/
def gridEntries : List ℕ → List (List ℕ) → List ℕ
  | _ :: shape, positions :: rest =>
    positions.flatMap fun i => (gridEntries shape rest).map (i * shape.prod + ·)
  | _, _ => [0]

/-- `slice(v, v + 1)` for a named axis and `slice(None)` for another one. -/
def axisSlice (size : ℕ) : Option ℤ → List ℕ
  | some v => List.range' (pyBound size v) (pyBound size (v + 1) - pyBound size v)
  | none => List.range size

/-- `meshShape` gives the axes of the global mesh with their sizes. -/
def sliceGlobalMesh (meshShape : List (String × ℕ)) (toSlice : List (String × ℤ)) : TaskMesh :=
  let slices := meshShape.map fun (name, size) => axisSlice size (toSlice.lookup name)
  { axisNames := meshShape.map Prod.fst
    axisSizes := slices.map List.length
    devices := gridEntries (meshShape.map Prod.snd) slices }

structure Task where
  name : Option String := none
  mesh : Option TaskMesh := none
  meshSlice : Option (List (String × ℤ)) := none
  loopDependentMeshSlice : Option (ℤ → List (String × ℤ)) := none

/-- The callback that is registered for a task with a matcher. -/
def cppCallback (meshShape : List (String × ℕ)) (matcher : String) (task : Task) :
    StatusOr TaskOptions := do
  let taskMesh ← match task.meshSlice, task.mesh with
    | some _, some _ =>
      error ("cannot give both a task.mesh and task.mesh_slice for task matcher " ++ matcher)
    | some slice, none => ok (sliceGlobalMesh meshShape slice)
    | none, some mesh => ok mesh
    | none, none =>
      error ("both task.mesh and task.mesh_slice are None for task matcher " ++ matcher)
  let loopDependentDevices := task.loopDependentMeshSlice.map
    fun (meshSlice : ℤ → List (String × ℤ)) (i : ℤ) =>
      let submeshDevs := (sliceGlobalMesh meshShape (meshSlice i)).devices
      if submeshDevs.length ≠ taskMesh.devices.length then
        error ("loop dependent submesh (" ++ toString submeshDevs.length ++ " devices)" ++
          " must have same number of devices as default task mesh (" ++
          toString taskMesh.devices.length ++ " devices) for task matcher " ++ matcher)
      else ok submeshDevs
  return { name := some (if task.name.getD "" = "" then matcher else task.name.getD "")
           devices := taskMesh.devices
           loopDependentDevices := loopDependentDevices }

end Frontend

end MultiMeshJax
