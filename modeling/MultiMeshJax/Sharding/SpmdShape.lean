import MultiMeshJax.Hlo.Instruction

/-! The shape that an instruction has on one device. -/
namespace MultiMeshJax

open StatusOr

/-- What `MakePartitionedShape` makes of the dimensions of an array, and the shardings of the
elements of the instructions with a tuple shape, by id. -/
structure Partitioning where
  partitionedDimensions : List ℕ → HloSharding → List ℕ
  tupleElements : ℕ → Option (List HloSharding) := fun _ => none

namespace Partitioning

def getSpmdShape (partitioning : Partitioning) (i : HloInstruction) : StatusOr Shape :=
  match i.shape with
  | .array elementType dims =>
    match i.sharding with
    | none => return .array elementType dims
    | some sharding => return .array elementType (partitioning.partitionedDimensions dims sharding)
  | .tuple shapes =>
    match partitioning.tupleElements i.id with
    | none => return .tuple shapes
    | some elements => do
      let spmdShapes ← shapes.zipIdx.mapM fun entry => do
        let sharding ← elementAt elements entry.2
        return (entry.1.1, partitioning.partitionedDimensions entry.1.2 sharding)
      return .tuple spmdShapes

/-- The shardings of a tuple cover its elements. -/
def Covers (partitioning : Partitioning) (i : HloInstruction) : Prop :=
  ∀ shapes elements, i.shape = .tuple shapes → partitioning.tupleElements i.id = some elements →
    shapes.length ≤ elements.length

theorem exists_getSpmdShape {partitioning : Partitioning} {i : HloInstruction}
    (h : partitioning.Covers i) : ∃ shape, partitioning.getSpmdShape i = ok shape := by
  unfold getSpmdShape
  cases hshape : i.shape with
  | array elementType dims =>
    cases i.sharding with
    | none => exact ⟨_, rfl⟩
    | some sharding => exact ⟨_, rfl⟩
  | tuple shapes =>
    cases helements : partitioning.tupleElements i.id with
    | none => exact ⟨_, rfl⟩
    | some elements =>
      have hlength := h shapes elements hshape helements
      have hall : ∃ spmdShapes, (shapes.zipIdx.mapM fun entry => do
          let sharding ← elementAt elements entry.2
          return (entry.1.1, partitioning.partitionedDimensions entry.1.2 sharding)) =
            ok spmdShapes := by
        apply exists_mapM_eq_ok
        intro entry hentry
        have hidx : entry.2 < shapes.length := by simpa using List.snd_lt_of_mem_zipIdx hentry
        exact ⟨_, by rw [elementAt_of_lt (hidx.trans_le hlength), ok_bind, pure_eq]⟩
      obtain ⟨spmdShapes, hrun⟩ := hall
      exact ⟨.tuple spmdShapes, bind_eq_ok.mpr ⟨spmdShapes, hrun, rfl⟩⟩

end Partitioning
end MultiMeshJax
