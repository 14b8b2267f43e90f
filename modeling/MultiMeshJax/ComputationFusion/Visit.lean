import MultiMeshJax.ColorDfs
import MultiMeshJax.ComputationFusion.FuseCalls
import MultiMeshJax.HloPartition

/-! `MpmdComputationFusion::Visit`: rounds in which calls that match are put in sets, and each
set is fused. -/
namespace MultiMeshJax

namespace HloPartition

open StatusOr

/-- The colour that the colour was made from. -/
def originalColorOf (p : HloPartition) (color : String) : String :=
  (p.originalColor.lookup color).getD color

def sameMesh (p : HloPartition) (lhs rhs : HloInstruction) : StatusOr Bool :=
  match lhs.color, rhs.color with
  | some lhsColor, some rhsColor => do
    let lhsConfig ← p.configForColor lhsColor
    let rhsConfig ← p.configForColor rhsColor
    return decide (lhsConfig.devices = rhsConfig.devices) &&
      lhsConfig.taskOptions.loopDependentDevices.isNone &&
      rhsConfig.taskOptions.loopDependentDevices.isNone
  | _, _ => return false

end HloPartition

namespace ComputationFusion

open StatusOr

inductive FusionType where
  | matchingDevices
  | matchingColor
  | originalColor
  deriving DecidableEq, Repr

def isWhile (i : HloInstruction) : Bool :=
  match i.opcode with
  | .whileLoop _ => true
  | _ => false

def color (i : HloInstruction) : StatusOr String := deref "instruction has no color" i.color

def fusionMatch (type : FusionType) (partition_ : HloPartition) (lhs rhs : HloInstruction) :
    StatusOr Bool :=
  if isWhile lhs || isWhile rhs then return false
  else match type with
    | .matchingColor => do
      let lhsColor ← color lhs
      let rhsColor ← color rhs
      return lhsColor == rhsColor
    | .originalColor => do
      let lhsColor ← color lhs
      let rhsColor ← color rhs
      return partition_.originalColorOf lhsColor == partition_.originalColorOf rhsColor
    | .matchingDevices => partition_.sameMesh lhs rhs

/-- The first task that matches, if no task before it stops the search. -/
def findMatch (isMatch : HloInstruction → StatusOr Bool) (canReorder : HloInstruction → Bool) :
    List HloInstruction → StatusOr (Option HloInstruction)
  | [] => return none
  | other :: others => do
    let found ← isMatch other
    if found then return some other
    else if canReorder other then findMatch isMatch canReorder others
    else return none

/-- `fusion_sets` names a set by its place in `sets`. -/
structure FusionSets where
  sets : List (List HloInstruction) := []
  fusionSets : ℕ → Option ℕ := fun _ => none

namespace FusionSets

def calls (st : FusionSets) (k : ℕ) : List HloInstruction := (st.sets[k]?).getD []

def currentFusionSet (st : FusionSets) (call : HloInstruction) : List HloInstruction :=
  match st.fusionSets call.id with
  | some k => st.calls k
  | none => [call]

/-- The set of the call, which is made if there is none. -/
def setOf (st : FusionSets) (call : HloInstruction) : FusionSets × ℕ :=
  match st.fusionSets call.id with
  | some k => (st, k)
  | none => ({ sets := st.sets ++ [[call]]
               fusionSets := Function.update st.fusionSets call.id (some st.sets.length) },
             st.sets.length)

def push (st : FusionSets) (k : ℕ) (call : HloInstruction) : FusionSets where
  sets := st.sets.modify k fun calls => calls ++ [call]
  fusionSets := Function.update st.fusionSets call.id (some k)

end FusionSets

def alreadyAssigned (call : HloInstruction) : String :=
  toString call.id ++ " was already assigned a fusion parner"

/-- `executesBefore` is the ordering of the module by its dependences. -/
structure Matching where
  type : FusionType
  partition_ : HloPartition
  executesBefore : ℕ → ℕ → Bool

namespace Matching

variable (m : Matching)

def forwardMatch (needToVisit : List HloInstruction) (st : FusionSets) (l : ℕ)
    (lhs : HloInstruction) : StatusOr (Option HloInstruction) :=
  findMatch (fun rhs => fusionMatch m.type m.partition_ lhs rhs)
    (fun rhs => (st.currentFusionSet lhs).all fun call => !m.executesBefore call.id rhs.id)
    (needToVisit.drop (l + 1))

def moveForward (needToVisit : List HloInstruction) (st : FusionSets) (lhs : HloInstruction × ℕ) :
    StatusOr FusionSets :=
  if isWhile lhs.1 then return st
  else do
    let found ← m.forwardMatch needToVisit st lhs.2 lhs.1
    match found with
    | none => return st
    | some rhs =>
      if (st.fusionSets rhs.id).isSome then error (alreadyAssigned rhs)
      else
        let (st, k) := st.setOf lhs.1
        return st.push k rhs

def backwardMatch (needToVisit : List HloInstruction) (st : FusionSets) (r : ℕ)
    (rhs : HloInstruction) : StatusOr (Option HloInstruction) :=
  findMatch (fun lhs => fusionMatch m.type m.partition_ lhs rhs)
    (fun lhs => (st.currentFusionSet rhs).all fun call => !m.executesBefore lhs.id call.id)
    (needToVisit.take r).reverse

def moveBackward (needToVisit : List HloInstruction) (st : FusionSets) (rhs : HloInstruction × ℕ) :
    StatusOr FusionSets :=
  if isWhile rhs.1 then return st
  else do
    let found ← m.backwardMatch needToVisit st rhs.2 rhs.1
    match found with
    | none => return st
    | some lhs =>
      let (st, k) := st.setOf lhs
      if (st.fusionSets rhs.1.id).isSome then return st
      else return st.push k rhs.1

def findFusionSets (needToVisit : List HloInstruction) : StatusOr FusionSets := do
  let st ← needToVisit.zipIdx.foldlM (m.moveForward needToVisit) {}
  needToVisit.zipIdx.foldlM (m.moveBackward needToVisit) st

end Matching

/-- The calls come in the order of the visit, producers before consumers. -/
def sortedCalls (needToVisit : List HloInstruction) (set : List HloInstruction) : List ℕ :=
  (set.map HloInstruction.id).insertionSort fun lhs rhs =>
    (needToVisit.map HloInstruction.id).idxOf lhs ≤ (needToVisit.map HloInstruction.id).idxOf rhs

def fuseSet (needToVisit : List HloInstruction) (p : TaskProgram) (set : List HloInstruction) :
    StatusOr TaskProgram := do
  let (p, _) ← fuseCalls p (sortedCalls needToVisit set)
  return p

/-- The rounds of the loop: what matches, and the order that the dependences of the module
give at each of them. -/
structure VisitOptions where
  type : FusionType
  partition_ : HloPartition
  executesBefore : TaskProgram → ℕ → ℕ → Bool

namespace VisitOptions

variable (options : VisitOptions)

def matching (p : TaskProgram) : Matching :=
  ⟨options.type, options.partition_, options.executesBefore p⟩

/-- A round gives the program that it leaves, and whether it found a match. -/
def round (p : TaskProgram) : Option (StatusOr (TaskProgram × Bool)) :=
  (ColorDfs.colorSortedPostorder p.computation).map fun postorder => do
    let postorder ← postorder
    let needToVisit := postorder.filter HloInstruction.isTask
    let st ← (options.matching p).findFusionSets needToVisit
    let fused ← st.sets.foldlM (fuseSet needToVisit) p
    return (fused, !st.sets.isEmpty)

/-- The loop, which has no result if it takes more rounds than these. -/
def visit : ℕ → TaskProgram → Bool → Option (StatusOr (TaskProgram × Bool))
  | 0, _, _ => none
  | rounds + 1, p, changed =>
    match options.round p with
    | none => none
    | some (ok (p, true)) => visit rounds p true
    | some (ok (p, false)) => some (ok (p, changed))
    | some (error message) => some (error message)
    | some (fatal reason) => some (fatal reason)

end VisitOptions

end ComputationFusion
end MultiMeshJax
