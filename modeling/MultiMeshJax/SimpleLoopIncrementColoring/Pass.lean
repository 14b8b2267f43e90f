import MultiMeshJax.Hlo.Program
import MultiMeshJax.HloPartition

/-! `MpmdSimpleLoopIncrementColoring`: the outputs of a loop body that a few instructions
compute from the argument get the loop increment colour. -/
namespace MultiMeshJax
namespace SimpleLoopIncrementColoring

open StatusOr

def kMaxInstructionsInTree : ℕ := 10

def hasOpcode (body : HloComputation) (id : ℕ) (opcode : HloOpcode) : Bool :=
  match body.instruction id with
  | some i => decide (i.opcode = opcode)
  | none => false

/-- The operands that the search goes on to. -/
def visitedOperands (body : HloComputation) (argTuple id : ℕ) : List ℕ :=
  match body.instruction id with
  | some i => i.operands.filter fun o => o != argTuple && !hasOpcode body o .constant
  | none => []

section search

variable (hasCalledComputations : ℕ → Bool)

/-- The stack `toVisit` has its top first. The tree has room for `remaining` more, and is
cleared when the search gives up. -/
def searchTree (body : HloComputation) (argTuple : ℕ) : ℕ → List ℕ → List ℕ → List ℕ
  | _, [], tree => tree
  | 0, _ :: _, _ => []
  | remaining + 1, next :: toVisit, tree =>
    let operands := visitedOperands body argTuple next
    if operands.any hasCalledComputations then []
    else searchTree body argTuple remaining (operands.reverse ++ toVisit) (tree ++ [next])

def getIncrementTree (body : HloComputation) (argTuple instruction : ℕ) : List ℕ :=
  searchTree hasCalledComputations body argTuple kMaxInstructionsInTree [instruction] []

def assignColor (body : HloComputation) (color : String) (id : ℕ) : HloComputation :=
  body.mapInstructions fun i => if i.id = id then { i with color := some color } else i

structure LoopState where
  partition : HloPartition
  body : HloComputation
  incrementColor : Option String := none

def allocateLoopIncrementColor (p : HloPartition) : String × HloPartition :=
  p.allocateColor { name := HloPartition.kLoopIncrementColor, devices := p.devices }

/-- The outputs that hand on an element of the argument are passed over. -/
def isArgumentElement (argTuple : ℕ) (root : HloInstruction) : Bool :=
  root.isGetTupleElement && root.operands.head? == some argTuple

def colorTree (s : LoopState) (tree : List ℕ) : LoopState :=
  match s.incrementColor with
  | some color => { s with body := tree.foldl (assignColor · color) s.body }
  | none =>
    let (color, p) := allocateLoopIncrementColor s.partition
    { partition := p
      body := tree.foldl (assignColor · color) s.body
      incrementColor := some color }

def visitRoot (argTuple : ℕ) (s : LoopState) (id : ℕ) : StatusOr LoopState := do
  let root ← s.body.getInstruction id
  if isArgumentElement argTuple root then return s
  else
    match getIncrementTree hasCalledComputations s.body argTuple id with
    | [] => return s
    | tree => return colorTree s tree

def visitLoop (p : HloPartition) (body : HloComputation) :
    StatusOr (HloPartition × HloComputation) := do
  let argTuple ← elementAt body.parameterInstructions 0
  let root ← body.rootInstruction
  let s ← root.operands.foldlM (visitRoot hasCalledComputations argTuple.id)
    { partition := p, body := body }
  return (s.partition, s.body)

end search

/-- What an edit of the colours leaves alone. -/
structure SameOperations (body body' : HloComputation) : Prop where
  root : body'.root = body.root
  instruction : ∀ id, (body'.instruction id).map (fun i => (i.opcode, i.operands)) =
    (body.instruction id).map fun i => (i.opcode, i.operands)

namespace SameOperations

variable {body body' body'' : HloComputation}

theorem refl (body : HloComputation) : SameOperations body body := ⟨rfl, fun _ => rfl⟩

theorem trans (h : SameOperations body body') (h' : SameOperations body' body'') :
    SameOperations body body'' :=
  ⟨h'.root.trans h.root, fun id => (h'.instruction id).trans (h.instruction id)⟩

theorem hasOpcode (h : SameOperations body body') (id : ℕ) (opcode : HloOpcode) :
    hasOpcode body' id opcode = hasOpcode body id opcode := by
  have hi := h.instruction id
  unfold SimpleLoopIncrementColoring.hasOpcode
  cases hb : body.instruction id <;> cases hb' : body'.instruction id <;> simp [hb, hb'] at hi ⊢
  rw [hi.1]

theorem visitedOperands (h : SameOperations body body') (argTuple id : ℕ) :
    visitedOperands body' argTuple id = visitedOperands body argTuple id := by
  have hi := h.instruction id
  unfold SimpleLoopIncrementColoring.visitedOperands
  simp only [h.hasOpcode]
  cases hb : body.instruction id <;> cases hb' : body'.instruction id <;> simp [hb, hb'] at hi ⊢
  rw [hi.2]

theorem searchTree (h : SameOperations body body') (called : ℕ → Bool) (argTuple : ℕ) :
    ∀ remaining stack tree, searchTree called body' argTuple remaining stack tree =
      searchTree called body argTuple remaining stack tree := by
  intro remaining
  induction remaining with
  | zero =>
    intro stack tree
    cases stack <;> rfl
  | succ remaining ih =>
    intro stack tree
    cases stack with
    | nil => rfl
    | cons next toVisit =>
      simp only [SimpleLoopIncrementColoring.searchTree, h.visitedOperands]
      split
      · rfl
      · exact ih _ _

end SameOperations

/-- The increment colour on the instructions of some trees. -/
def colored (body : HloComputation) (color : String) (ids : List ℕ) : HloComputation :=
  body.mapInstructions fun i => if i.id ∈ ids then { i with color := some color } else i

theorem instruction_colored (body : HloComputation) (color : String) (ids : List ℕ) (id : ℕ) :
    (colored body color ids).instruction id = (body.instruction id).map fun i =>
      if i.id ∈ ids then { i with color := some color } else i := by
  apply HloComputation.instruction_mapInstructions
  intro i
  split <;> rfl

theorem sameOperations_colored (body : HloComputation) (color : String) (ids : List ℕ) :
    SameOperations body (colored body color ids) := by
  constructor
  · rfl
  · intro id
    rw [instruction_colored, Option.map_map]
    congr 1
    funext i
    simp only [Function.comp_apply]
    split <;> rfl

theorem colored_nil (body : HloComputation) (color : String) : colored body color [] = body := by
  simp [colored, HloComputation.mapInstructions]

theorem assignColor_colored (body : HloComputation) (color : String) (ids : List ℕ) (id : ℕ) :
    assignColor (colored body color ids) color id = colored body color (ids ++ [id]) := by
  simp only [assignColor, colored, HloComputation.mapInstructions, List.map_map]
  congr 1
  apply List.map_congr_left
  intro i _
  simp only [Function.comp_apply, List.mem_append, List.mem_singleton]
  by_cases hids : i.id ∈ ids
  · rw [if_pos hids, if_pos (Or.inl hids)]
    exact ite_self _
  · rw [if_neg hids]
    simp only [hids, false_or]

theorem foldl_assignColor (body : HloComputation) (color : String) (tree : List ℕ) :
    ∀ ids, tree.foldl (assignColor · color) (colored body color ids) =
      colored body color (ids ++ tree) := by
  induction tree with
  | nil => simp
  | cons id tree ih =>
    intro ids
    rw [List.foldl_cons, assignColor_colored, ih, List.append_assoc]
    rfl

end SimpleLoopIncrementColoring
end MultiMeshJax
