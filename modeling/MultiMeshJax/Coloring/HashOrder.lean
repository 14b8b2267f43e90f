import MultiMeshJax.Coloring.ExplicitColors
import MultiMeshJax.LoopScheduler.Dependences
import MultiMeshJax.LoopScheduler.HashOrder

/-! How far the schedule of a loop and the colours of its body depend on the orders in which
the hash containers hand out their elements. -/
namespace MultiMeshJax

/-- The order of another hash container, but for one colour that comes last. -/
def Coloring.ColorHashOrder.withLast (hash : ColorHashOrder) (color : String) :
    ColorHashOrder where
  order xs := if color ∈ xs then (hash.order xs).erase color ++ [color] else hash.order xs
  perm xs := by
    split
    · rename_i hmem
      have hcolor := (hash.perm xs).mem_iff.mpr hmem
      exact List.perm_append_comm.trans
        ((List.perm_cons_erase hcolor).symm.trans (hash.perm xs))
    · exact hash.perm xs

namespace Coloring

open StatusOr LoopScheduler

section depths

/-- The last colour that is inserted at a depth is the one that is found there. -/
theorem lookup_insertDepth_self (depth : ℕ) (color : String) (entries : List (ℕ × String)) :
    (insertDepth depth color entries).lookup depth = some color := by
  induction entries with
  | nil => simp [insertDepth]
  | cons entry entries ih =>
    simp only [insertDepth]
    split
    · simp
    · split
      · simp
      · rename_i hne
        rw [List.lookup_cons, beq_eq_false_iff_ne.mpr hne, ih]

/-- The order in which colours of different depths are inserted does not matter. -/
theorem insertDepth_comm {depth depth' : ℕ} (hne : depth ≠ depth') (color color' : String)
    (entries : List (ℕ × String)) :
    insertDepth depth color (insertDepth depth' color' entries) =
      insertDepth depth' color' (insertDepth depth color entries) := by
  induction entries with
  | nil =>
    rcases Nat.lt_or_gt_of_ne hne with hlt | hlt
    · simp [insertDepth, hlt, hne.symm, Nat.lt_asymm hlt]
    · simp [insertDepth, hlt, hne, Nat.lt_asymm hlt]
  | cons entry entries ih =>
    grind [insertDepth]

/-- The depth-to-colour map is the same for all orders of the hash map if and only if no
two colours have one depth. -/
theorem computeColorDepthMap_hashOrder_iff (comp : HloComputation) (colors : Colors)
    (depth : ℕ → Option ℕ) :
    (∀ hash hash', computeColorDepthMap hash comp colors depth =
        computeColorDepthMap hash' comp colors depth) ↔
      ∀ c ∈ computationColors comp colors, ∀ c' ∈ computationColors comp colors,
        colorDepth comp colors depth c = colorDepth comp colors depth c' → c = c' := by
  constructor
  · intro hall c hc c' hc' htie
    have hlast : ∀ color ∈ computationColors comp colors,
        (computeColorDepthMap (identityOrder.withLast color) comp colors depth).lookup
          (colorDepth comp colors depth color) = some color := by
      intro color hcolor
      simp only [computeColorDepthMap, ColorHashOrder.withLast, hcolor, if_true,
        List.foldl_append, List.foldl_cons, List.foldl_nil]
      exact lookup_insertDepth_self _ _ _
    have hsome := hlast c hc
    rw [hall _ (identityOrder.withLast c'), htie, hlast c' hc'] at hsome
    exact (Option.some.inj hsome).symm
  · intro hdistinct hash hash'
    unfold computeColorDepthMap
    apply ((hash.perm _).trans (hash'.perm _).symm).foldl_eq'
    intro c hc c' hc' entries
    have hmem := (hash.perm _).mem_iff.mp hc
    have hmem' := (hash.perm _).mem_iff.mp hc'
    by_cases hne : c = c'
    · rw [hne]
    · apply insertDepth_comm
      intro htie
      exact hne (hdistinct c hmem c' hmem' htie.symm)

end depths

section loop

variable {input : Input} {ifVisit : HloInstruction → Bool} {comp : HloComputation}
  {colors : Colors}

/-- The colours of a loop body when their depths are compared. -/
def loopColors (input : Input) (comp body : HloComputation) (colors : Colors) : Colors :=
  (fixColors input body (fixColors input comp (colors, []))).1

/-- The map from which the directional passes over the last loop take their colours. -/
def loopDepthMap (hash : ColorHashOrder) (input : Input) (comp body : HloComputation)
    (colors : Colors) : List (ℕ × String) :=
  computeColorDepthMap hash body (loopColors input comp body colors) (computeDepthMap body)

/-- No two colours of the body of the last loop have one depth. -/
def DistinctDepths (input : Input) (comp : HloComputation) (colors : Colors) : Prop :=
  ∀ n body, lastLoop comp = some n → input.program.calledComputation n = ok body →
    ∀ c ∈ computationColors body (loopColors input comp body colors),
    ∀ c' ∈ computationColors body (loopColors input comp body colors),
      colorDepth body (loopColors input comp body colors) (computeDepthMap body) c =
        colorDepth body (loopColors input comp body colors) (computeDepthMap body) c' → c = c'

theorem loopDepthMap_hashOrder_iff :
    (∀ hash hash' n body, lastLoop comp = some n → input.program.calledComputation n = ok body →
        loopDepthMap hash input comp body colors = loopDepthMap hash' input comp body colors) ↔
      DistinctDepths input comp colors := by
  constructor
  · intro hall n body hloop hbody
    apply (computeColorDepthMap_hashOrder_iff body _ _).mp
    intro hash hash'
    exact hall hash hash' n body hloop hbody
  · intro hdistinct hash hash' n body hloop hbody
    exact (computeColorDepthMap_hashOrder_iff body _ _).mpr (hdistinct n body hloop hbody) _ _

/-- The colours reach the body through the depth-to-colour map alone. -/
theorem propagateLoopColorDepth_congr {hash hash' : ColorHashOrder}
    (h : ∀ n body, lastLoop comp = some n → input.program.calledComputation n = ok body →
      loopDepthMap hash input comp body colors = loopDepthMap hash' input comp body colors) :
    propagateLoopColorDepth hash input ifVisit comp colors =
      propagateLoopColorDepth hash' input ifVisit comp colors := by
  unfold propagateLoopColorDepth
  cases hloop : lastLoop comp with
  | none => rfl
  | some n =>
    cases hbody : input.program.calledComputation n with
    | ok body =>
      have hmap := h n body hloop hbody
      simp only [loopDepthMap, loopColors] at hmap
      simp only [hbody, ok_bind, Prod.mk.eta, hmap]
    | error message => simp only [hbody, error_bind]
    | fatal reason => simp only [hbody, fatal_bind]

end loop

/-- The schedule of a loop is the same for all iteration orders if and only if it does not
unroll two increment columns. The map from which the colours of a loop body are taken is the
same if and only if no two colours of the body have one depth, and then so are the colours. -/
theorem decisions_hashOrder_iff (hash : HashOrder) (queue : StageQueue) (partition : HloPartition)
    (operandsOf : ℕ → List ℕ) (config : LoopConfig) (m : TaskMatrix) (rows : Tasks)
    (input : Input) (ifVisit : HloInstruction → Bool) (comp : HloComputation) (colors : Colors)
    (h : scheduleLoops hash queue partition operandsOf config m.rows = ok rows) :
    ((∀ hash', scheduleLoops hash' queue partition operandsOf config m.rows =
        ok rows) ↔ config.schedule.unrollsIncrements = false ∨
          (unrolledColumns m.rows).length ≤ 1) ∧
      ((∀ hash hash' n body, lastLoop comp = some n →
        input.program.calledComputation n = ok body →
          loopDepthMap hash input comp body colors = loopDepthMap hash' input comp body colors) ↔
        DistinctDepths input comp colors) ∧
      (DistinctDepths input comp colors → ∀ hash hash',
        propagateLoopColorDepth hash input ifVisit comp colors =
          propagateLoopColorDepth hash' input ifVisit comp colors) := by
  refine ⟨scheduleLoops_hashOrder_iff h, loopDepthMap_hashOrder_iff, ?_⟩
  intro hdistinct hash hash'
  apply propagateLoopColorDepth_congr
  exact loopDepthMap_hashOrder_iff.mpr hdistinct hash hash'

/-! A loop body with two coloured instructions of one depth that a third one uses. -/

def tiedBody : HloComputation where
  instructions := [tupleInstruction 10 (.parameter 0) [],
    loopInstruction 11 (.getTupleElement 0) [10] none,
    loopInstruction 12 (.other "add") [11, 11] (some "a"),
    loopInstruction 13 (.other "multiply") [11, 11] (some "b"),
    loopInstruction 14 (.other "subtract") [12, 13] none,
    tupleInstruction 15 .tuple [14]]
  root := 15

def tiedLoop : HloProgram where
  entry :=
    { instructions := [loopInstruction 0 (.parameter 0) [] none, tupleInstruction 1 .tuple [0],
        tupleInstruction 2 (.whileLoop 0) [1], loopInstruction 3 (.getTupleElement 0) [2] none,
        tupleInstruction 4 .tuple [3]]
      root := 4 }
  called := [tiedBody]
  distinct := by decide

def tiedInput : Input where
  program := tiedLoop
  properties := match InstructionProperties.create tiedLoop with
    | .ok properties => properties
    | _ => fun _ => {}
  created := rfl
  byteSizeOf := fun shape => elementsIn shape
  isElementwise := hasMnemonic "add"

/-- Two processes that unroll two increment tasks schedule them differently, and two
processes that colour a loop body with a tie give the third instruction different colours. -/
theorem decisions_depend_on_hashOrder :
    (scheduleLoops insertionOrder stableQueue
        twoStagePartition (fun _ => [])
        { numIterations := 1, schedule := .wavefront } incrementTasks.rows =
        ok [[forwardTask 0 0 "loop_increment",
          forwardTask 0 1 "loop_increment.1"]] ∧
      scheduleLoops reversedOrder stableQueue
        twoStagePartition (fun _ => [])
        { numIterations := 1, schedule := .wavefront } incrementTasks.rows =
        ok [[forwardTask 0 1 "loop_increment.1",
          forwardTask 0 0 "loop_increment"]]) ∧
    ∃ final final',
      propagateLoopColorDepth identityOrder tiedInput visitLoopDepth tiedLoop.entry
        (initialColors tiedLoop) = ok final ∧
      propagateLoopColorDepth (identityOrder.withLast "a") tiedInput visitLoopDepth tiedLoop.entry
        (initialColors tiedLoop) = ok final' ∧
      final 14 = some "b" ∧ final' 14 = some "a" := by
  refine ⟨⟨by decide +kernel, by decide +kernel⟩, ?_⟩
  have hcolor : (do
      let final ← propagateLoopColorDepth identityOrder tiedInput visitLoopDepth tiedLoop.entry
        (initialColors tiedLoop)
      return final 14) = ok (some "b") := by decide +kernel
  have hcolor' : (do
      let final ← propagateLoopColorDepth (identityOrder.withLast "a") tiedInput visitLoopDepth
        tiedLoop.entry (initialColors tiedLoop)
      return final 14) = ok (some "a") := by decide +kernel
  obtain ⟨final, hrun, hfinal⟩ := bind_eq_ok.mp hcolor
  obtain ⟨final', hrun', hfinal'⟩ := bind_eq_ok.mp hcolor'
  exact ⟨final, final', hrun, hrun', ok.inj hfinal, ok.inj hfinal'⟩

theorem decisions_hashOrder_iff_tied :
    ((∀ hash', scheduleLoops hash' stableQueue
        twoStagePartition (fun _ => [])
        { numIterations := 1, schedule := .wavefront } incrementTasks.rows =
        ok [[forwardTask 0 0 "loop_increment",
          forwardTask 0 1 "loop_increment.1"]]) ↔
        Schedule.wavefront.unrollsIncrements = false ∨
          (unrolledColumns incrementTasks.rows).length ≤ 1) ∧
      ((∀ hash hash' n body, lastLoop tiedLoop.entry = some n →
        tiedLoop.calledComputation n = ok body →
          loopDepthMap hash tiedInput tiedLoop.entry body (initialColors tiedLoop) =
            loopDepthMap hash' tiedInput tiedLoop.entry body (initialColors tiedLoop)) ↔
        DistinctDepths tiedInput tiedLoop.entry (initialColors tiedLoop)) ∧
      (DistinctDepths tiedInput tiedLoop.entry (initialColors tiedLoop) → ∀ hash hash',
        propagateLoopColorDepth hash tiedInput visitLoopDepth tiedLoop.entry
            (initialColors tiedLoop) =
          propagateLoopColorDepth hash' tiedInput visitLoopDepth tiedLoop.entry
            (initialColors tiedLoop)) :=
  decisions_hashOrder_iff insertionOrder stableQueue
    twoStagePartition (fun _ => []) { numIterations := 1, schedule := .wavefront }
    incrementTasks _ tiedInput visitLoopDepth tiedLoop.entry
    (initialColors tiedLoop) (by decide +kernel)

end Coloring
end MultiMeshJax
