import MultiMeshJax.SimpleLoopIncrementColoring.Pass

/-! When the instructions that get the increment colour need, over all the iterations, only
each other. -/
namespace MultiMeshJax
namespace SimpleLoopIncrementColoring

open StatusOr Relation

/-- A loop body as the compiler builds it: the argument is the only parameter, and the root
tuple is made of elements. -/
structure LoopBody (body : HloComputation) (argTuple : ℕ) : Prop where
  argument : ∃ i, body.parameterInstructions = [i] ∧ i.id = argTuple ∧
    body.instruction argTuple = some i ∧ i.operands = []
  present : ∀ i ∈ body.instructions, ∀ o ∈ i.operands, o ∈ body.ids
  constant : ∀ i ∈ body.instructions, i.opcode = .constant → i.operands = []
  element : ∀ i ∈ body.instructions, i.isGetTupleElement = true → i.operands.length = 1
  root : body.root ∈ body.ids
  root_elements : ∀ i, body.instruction body.root = some i → argTuple ∉ i.operands

section tree

variable (called : ℕ → Bool) (body : HloComputation) (argTuple : ℕ)

/-- The search goes from an instruction to an operand. -/
def Visits (id operand : ℕ) : Prop := operand ∈ visitedOperands body argTuple id

/-- The instructions under those on the stack, one that is reached in two ways counted
twice, are `n`, and none that is an operand has called computations. -/
inductive Unfolds : List ℕ → ℕ → Prop
  | nil : Unfolds [] 0
  | cons {id : ℕ} {rest : List ℕ} {m n : ℕ} :
      (∀ o ∈ visitedOperands body argTuple id, called o = false) →
      Unfolds (visitedOperands body argTuple id) m → Unfolds rest n →
      Unfolds (id :: rest) (m + n + 1)

variable {called body argTuple}

namespace Unfolds

theorem append {xs ys : List ℕ} {m n : ℕ} (hxs : Unfolds called body argTuple xs m)
    (hys : Unfolds called body argTuple ys n) : Unfolds called body argTuple (xs ++ ys) (m + n) := by
  induction hxs with
  | nil => simpa using hys
  | cons hcalled hops _ _ ih =>
    have h := cons hcalled hops ih
    rwa [show ∀ a b : ℕ, a + (b + n) + 1 = a + b + 1 + n by intro a b; omega] at h

theorem of_append {xs ys : List ℕ} : ∀ {k : ℕ}, Unfolds called body argTuple (xs ++ ys) k →
    ∃ m n, k = m + n ∧ Unfolds called body argTuple xs m ∧ Unfolds called body argTuple ys n := by
  induction xs with
  | nil =>
    intro k h
    exact ⟨0, k, by simp, nil, h⟩
  | cons x xs ih =>
    intro k h
    cases h with
    | cons hcalled hops hrest =>
      rename_i a b
      obtain ⟨m, n, rfl, hxs, hys⟩ := ih hrest
      exact ⟨a + m + 1, n, by omega, cons hcalled hops hxs, hys⟩

theorem perm {xs ys : List ℕ} (hperm : xs.Perm ys) :
    ∀ {n : ℕ}, Unfolds called body argTuple xs n → Unfolds called body argTuple ys n := by
  induction hperm with
  | nil => exact id
  | cons x _ ih =>
    intro n h
    cases h with
    | cons hcalled hops hrest => exact cons hcalled hops (ih hrest)
  | swap x y xs =>
    intro n h
    cases h with
    | cons hcalled hops hrest =>
      cases hrest with
      | cons hcalled' hops' hrest =>
        rename_i a b c
        have h := cons hcalled' hops' (cons hcalled hops hrest)
        rwa [show b + (a + c + 1) + 1 = a + (b + c + 1) + 1 by omega] at h
  | trans _ _ ih ih' =>
    intro n h
    exact ih' (ih h)

end Unfolds

/-- The search finds what is below its stack, or clears the tree. -/
theorem searchTree_spec (remaining : ℕ) : ∀ stack tree : List ℕ,
    (∃ n ids, n ≤ remaining ∧ Unfolds called body argTuple stack n ∧
      searchTree called body argTuple remaining stack tree = tree ++ ids ∧
      (∀ id ∈ stack, id ∈ ids) ∧
      (∀ id ∈ ids, ∀ o, Visits body argTuple id o → o ∈ ids) ∧
      ∀ id ∈ ids, ∃ top ∈ stack, ReflTransGen (Visits body argTuple) top id) ∨
    ((¬∃ n ≤ remaining, Unfolds called body argTuple stack n) ∧
      searchTree called body argTuple remaining stack tree = []) := by
  induction remaining with
  | zero =>
    intro stack tree
    cases stack with
    | nil =>
      left
      exact ⟨0, [], le_rfl, .nil, by simp [searchTree], by simp, by simp, by simp⟩
    | cons next toVisit =>
      right
      refine ⟨?_, rfl⟩
      rintro ⟨n, hn, h⟩
      cases h with
      | cons _ _ _ => omega
  | succ remaining ih =>
    intro stack tree
    cases stack with
    | nil =>
      left
      exact ⟨0, [], Nat.zero_le _, .nil, by simp [searchTree], by simp, by simp, by simp⟩
    | cons next toVisit =>
      by_cases hcalled : (visitedOperands body argTuple next).any called = true
      · right
        constructor
        · rintro ⟨n, hn, h⟩
          cases h with
          | cons hnone _ _ =>
            obtain ⟨o, ho, htrue⟩ := List.any_eq_true.mp hcalled
            rw [hnone o ho] at htrue
            cases htrue
        · simp only [searchTree, hcalled, if_true]
      · have hnone : ∀ o ∈ visitedOperands body argTuple next, called o = false := by
          intro o ho
          by_contra hne
          exact hcalled (List.any_eq_true.mpr ⟨o, ho, by simpa using hne⟩)
        have hsearch : searchTree called body argTuple (remaining + 1) (next :: toVisit) tree =
            searchTree called body argTuple remaining
              ((visitedOperands body argTuple next).reverse ++ toVisit) (tree ++ [next]) := by
          simp only [searchTree, hcalled, Bool.false_eq_true, if_false]
        rcases ih ((visitedOperands body argTuple next).reverse ++ toVisit) (tree ++ [next]) with
          ⟨n, ids, hn, hunfolds, hfound, hstack, hclosed, hbelow⟩ | ⟨hnot, hcleared⟩
        · left
          obtain ⟨a, b, rfl, hops, hrest⟩ := hunfolds.of_append
          have hcons := Unfolds.cons hnone (hops.perm (List.reverse_perm _)) hrest
          refine ⟨a + b + 1, next :: ids, by omega, hcons, ?_, ?_, ?_, ?_⟩
          · rw [hsearch, hfound, List.append_assoc]
            rfl
          · intro id hid
            rcases List.mem_cons.mp hid with rfl | hid
            · exact List.mem_cons_self
            · exact List.mem_cons_of_mem _ (hstack id (List.mem_append_right _ hid))
          · intro id hid o ho
            apply List.mem_cons_of_mem
            rcases List.mem_cons.mp hid with rfl | hid
            · exact hstack o (List.mem_append_left _ (List.mem_reverse.mpr ho))
            · exact hclosed id hid o ho
          · intro id hid
            rcases List.mem_cons.mp hid with rfl | hid
            · exact ⟨id, List.mem_cons_self, .refl⟩
            · obtain ⟨top, htop, hpath⟩ := hbelow id hid
              rcases List.mem_append.mp htop with htop | htop
              · exact ⟨next, List.mem_cons_self, .head (List.mem_reverse.mp htop) hpath⟩
              · exact ⟨top, List.mem_cons_of_mem _ htop, hpath⟩
        · right
          constructor
          · rintro ⟨n, hn, h⟩
            cases h with
            | cons _ hops hrest =>
              rename_i a b _
              apply hnot
              exact ⟨a + b, by omega, (hops.perm (List.reverse_perm _).symm).append hrest⟩
          · rw [hsearch, hcleared]

variable (called body argTuple)

/-- At most ten instructions compute the output from constants and the argument, and none
that is an operand calls a computation. -/
def Simple (root : ℕ) : Prop :=
  ∃ n ≤ kMaxInstructionsInTree, Unfolds called body argTuple [root] n

variable {called body argTuple}

theorem mem_getIncrementTree {root id : ℕ} :
    id ∈ getIncrementTree called body argTuple root ↔
      Simple called body argTuple root ∧ ReflTransGen (Visits body argTuple) root id := by
  unfold getIncrementTree Simple
  rcases @searchTree_spec called body argTuple
    kMaxInstructionsInTree [root] [] with
    ⟨n, ids, hn, hunfolds, hfound, hstack, hclosed, hbelow⟩ | ⟨hnot, hcleared⟩
  · rw [hfound, List.nil_append]
    constructor
    · intro hid
      obtain ⟨top, htop, hpath⟩ := hbelow id hid
      exact ⟨⟨n, hn, hunfolds⟩, List.mem_singleton.mp htop ▸ hpath⟩
    · rintro ⟨-, hpath⟩
      induction hpath with
      | refl => exact hstack root (by simp)
      | tail _ hvisit ih => exact hclosed _ ih _ hvisit
  · rw [hcleared]
    simp [hnot]

end tree

section loop

variable {called : ℕ → Bool} {body : HloComputation} {argTuple : ℕ}

theorem exists_instruction {id : ℕ} (h : id ∈ body.ids) : ∃ i, body.instruction id = some i := by
  obtain ⟨i, hi, rfl⟩ := List.mem_map.mp h
  rw [← Option.isSome_iff_exists, HloComputation.instruction, List.find?_isSome]
  exact ⟨i, hi, beq_self_eq_true i.id⟩

/-- The output is not just an element of the argument that is handed on. -/
def IsComputed (body : HloComputation) (argTuple root : ℕ) : Prop :=
  ∀ i, body.instruction root = some i → isArgumentElement argTuple i = false

/-- The instructions that the pass colours for an output. -/
def coloredFor (called : ℕ → Bool) (body : HloComputation) (argTuple root : ℕ) : List ℕ :=
  match body.instruction root with
  | some i => if isArgumentElement argTuple i then [] else getIncrementTree called body argTuple root
  | none => []

theorem isArgumentElement_congr {i j : HloInstruction} (hop : j.opcode = i.opcode)
    (hops : j.operands = i.operands) :
    isArgumentElement argTuple j = isArgumentElement argTuple i := by
  simp only [isArgumentElement, HloInstruction.isGetTupleElement, hop, hops]

/-- The state of the loop over the outputs when `ids` have been coloured. -/
structure Colors (p : HloPartition) (body : HloComputation) (s : LoopState) (ids : List ℕ) :
    Prop where
  body : s.body = colored body (p.uniquify HloPartition.kLoopIncrementColor) ids
  new : s.incrementColor = none → s.partition = p
  color : ∀ color, s.incrementColor = some color →
    color = p.uniquify HloPartition.kLoopIncrementColor

theorem Colors.colorTree {p : HloPartition} {s : LoopState} {ids : List ℕ}
    (h : Colors p body s ids) (tree : List ℕ) :
    Colors p body (SimpleLoopIncrementColoring.colorTree s tree) (ids ++ tree) := by
  unfold SimpleLoopIncrementColoring.colorTree
  cases hcolor : s.incrementColor with
  | some color =>
    obtain rfl := h.color color hcolor
    constructor
    · simp only [h.body, foldl_assignColor]
    · intro hnone
      cases hnone
    · intro color hsome
      exact (Option.some.inj hsome).symm
  | none =>
    have hp := h.new hcolor
    constructor
    · simp only [h.body, hp, allocateLoopIncrementColor, HloPartition.allocateColor,
        foldl_assignColor]
    · intro hnone
      cases hnone
    · intro color hsome
      simp only [hp, allocateLoopIncrementColor, HloPartition.allocateColor,
        Option.some.injEq] at hsome
      exact hsome.symm

variable (called argTuple) in
theorem visitRoot_colors {p : HloPartition} {s : LoopState} {ids : List ℕ} {root : ℕ}
    (h : Colors p body s ids) (hroot : root ∈ body.ids) :
    ∃ s', visitRoot called argTuple s root = ok s' ∧
      Colors p body s' (ids ++ coloredFor called body argTuple root) := by
  have hsame : SameOperations body s.body := h.body ▸ sameOperations_colored body _ ids
  obtain ⟨i, hi⟩ := exists_instruction hroot
  have hi' := hsame.instruction root
  rw [hi] at hi'
  obtain ⟨j, hj, hij⟩ := Option.map_eq_some_iff.mp hi'
  obtain ⟨hop, hops⟩ := Prod.mk.inj hij
  have hget : s.body.getInstruction root = ok j := by
    rw [HloComputation.getInstruction, hj, deref_some]
  have htree : getIncrementTree called s.body argTuple root =
      getIncrementTree called body argTuple root := hsame.searchTree called argTuple _ _ _
  simp only [visitRoot, hget, ok_bind, coloredFor, hi, isArgumentElement_congr hop hops, htree]
  cases isArgumentElement argTuple i with
  | true => exact ⟨s, rfl, by simpa using h⟩
  | false =>
    simp only [Bool.false_eq_true, if_false]
    cases hfound : getIncrementTree called body argTuple root with
    | nil => exact ⟨s, rfl, by simpa using h⟩
    | cons id tree => exact ⟨_, rfl, h.colorTree (id :: tree)⟩

variable (called argTuple) in
theorem foldlM_visitRoot_colors {p : HloPartition} {roots : List ℕ}
    (hroots : ∀ root ∈ roots, root ∈ body.ids) : ∀ (s : LoopState) (ids : List ℕ),
    Colors p body s ids → ∃ s', roots.foldlM (visitRoot called argTuple) s = ok s' ∧
      Colors p body s' (ids ++ roots.flatMap (coloredFor called body argTuple)) := by
  induction roots with
  | nil =>
    intro s ids h
    exact ⟨s, rfl, by simpa using h⟩
  | cons root roots ih =>
    intro s ids h
    obtain ⟨s', hvisit, h'⟩ := visitRoot_colors called argTuple h
      (hroots root (by simp))
    obtain ⟨s'', hrest, h''⟩ := ih (fun r hr => hroots r (List.mem_cons_of_mem _ hr)) s' _ h'
    refine ⟨s'', ?_, ?_⟩
    · rw [List.foldlM_cons, hvisit]
      exact hrest
    · rw [List.flatMap_cons, ← List.append_assoc]
      exact h''

/-- The operands of the root tuple. -/
def rootOperands (body : HloComputation) : List ℕ :=
  match body.instruction body.root with
  | some i => i.operands
  | none => []

/-- What the pass colours in a loop body. -/
def incrementInstructions (called : ℕ → Bool) (body : HloComputation) (argTuple : ℕ) : List ℕ :=
  (rootOperands body).flatMap (coloredFor called body argTuple)

/-- The outputs that the pass takes for increments. -/
def IsIncrement (called : ℕ → Bool) (body : HloComputation) (argTuple root : ℕ) : Prop :=
  root ∈ rootOperands body ∧ IsComputed body argTuple root ∧ Simple called body argTuple root

theorem LoopBody.rootOperand_mem (hbody : LoopBody body argTuple) {root : ℕ}
    (h : root ∈ rootOperands body) : root ∈ body.ids := by
  unfold rootOperands at h
  split at h
  · rename_i i hi
    exact hbody.present i (HloComputation.mem_of_instruction hi) root h
  · simp at h

theorem mem_incrementInstructions (hbody : LoopBody body argTuple) {id : ℕ} :
    id ∈ incrementInstructions called body argTuple ↔
      ∃ root, IsIncrement called body argTuple root ∧
        ReflTransGen (Visits body argTuple) root id := by
  unfold incrementInstructions IsIncrement IsComputed
  rw [List.mem_flatMap]
  apply exists_congr
  intro root
  constructor
  · rintro ⟨hroot, hid⟩
    unfold coloredFor at hid
    split at hid
    · rename_i i hi
      split at hid
      · simp at hid
      · rename_i hcomputed
        obtain ⟨hsimple, hpath⟩ := mem_getIncrementTree.mp hid
        refine ⟨⟨hroot, ?_, hsimple⟩, hpath⟩
        intro j hj
        rw [hi] at hj
        cases hj
        simpa using hcomputed
    · simp at hid
  · rintro ⟨⟨hroot, hcomputed, hsimple⟩, hpath⟩
    obtain ⟨i, hi⟩ := exists_instruction (hbody.rootOperand_mem hroot)
    refine ⟨hroot, ?_⟩
    simp only [coloredFor, hi, hcomputed i hi, Bool.false_eq_true, if_false]
    exact mem_getIncrementTree.mpr ⟨hsimple, hpath⟩

theorem visitLoop_colors (hbody : LoopBody body argTuple) (p : HloPartition) :
    ∃ q, visitLoop called p body = ok (q, colored body
      (p.uniquify HloPartition.kLoopIncrementColor)
      (incrementInstructions called body argTuple)) := by
  obtain ⟨param, hparams, rfl, -, -⟩ := hbody.argument
  obtain ⟨root, hroot⟩ := exists_instruction hbody.root
  have hoperands : rootOperands body = root.operands := by
    rw [rootOperands, hroot]
  have hstart : Colors p body { partition := p, body := body } [] :=
    ⟨(colored_nil body _).symm, fun _ => rfl, fun _ h => by cases h⟩
  obtain ⟨s, hrun, hs⟩ := foldlM_visitRoot_colors called param.id
    (fun r hr => hbody.rootOperand_mem (hoperands ▸ hr)) _ _ hstart
  refine ⟨s.partition, ?_⟩
  simp only [visitLoop, hparams, elementAt, List.getElem?_cons_zero, deref_some, ok_bind,
    HloComputation.rootInstruction, HloComputation.getInstruction, hroot, hrun, pure_eq, hs.body,
    List.nil_append, incrementInstructions, hoperands]

/-- The instruction reads an element of the argument: it takes it out, or it uses the whole
tuple. -/
def ReadsElement (body : HloComputation) (argTuple id k : ℕ) : Prop :=
  ∃ i, body.instruction id = some i ∧ argTuple ∈ i.operands ∧
    (i.isGetTupleElement = true → i.opcode = .getTupleElement k)

/-- An element that every iteration hands on as it is. -/
def IsInvariant (body : HloComputation) (argTuple id : ℕ) : Prop :=
  ∃ i k, body.instruction id = some i ∧ i.opcode = .getTupleElement k ∧
    i.operands.head? = some argTuple ∧ (rootOperands body)[k]? = some id

/-- What the value of an instruction in an iteration needs: the operands in that iteration,
and for an element of the argument what the iteration before left there. -/
inductive Needs (body : HloComputation) (argTuple : ℕ) : ℕ × ℕ → ℕ × ℕ → Prop
  | operand {t id o : ℕ} {i : HloInstruction} : body.instruction id = some i → o ∈ i.operands →
      Needs body argTuple (t, id) (t, o)
  | carried {t id k x : ℕ} : ReadsElement body argTuple id k →
      (rootOperands body)[k]? = some x → Needs body argTuple (t + 1, id) (t, x)

/-- Over any number of iterations the instructions need only each other, constants, the
argument and invariant elements. -/
def IsClosed (body : HloComputation) (argTuple : ℕ) (ids : List ℕ) : Prop :=
  ∀ id ∈ ids, ∀ (t s needed : ℕ), ReflTransGen (Needs body argTuple) (t, id) (s, needed) →
    needed ∈ ids ∨ hasOpcode body needed .constant = true ∨ needed = argTuple ∨
      IsInvariant body argTuple needed

/-- An increment reads an element only if it is invariant or part of an increment itself. -/
def ReadsIncrements (called : ℕ → Bool) (body : HloComputation) (argTuple : ℕ) : Prop :=
  ∀ root, IsIncrement called body argTuple root →
    ∀ id, ReflTransGen (Visits body argTuple) root id →
      ∀ k x, ReadsElement body argTuple id k → (rootOperands body)[k]? = some x →
        IsInvariant body argTuple x ∨
          ∃ root', IsIncrement called body argTuple root' ∧
            ReflTransGen (Visits body argTuple) root' x

theorem hasOpcode_iff {id : ℕ} {opcode : HloOpcode} :
    hasOpcode body id opcode = true ↔ ∃ i, body.instruction id = some i ∧ i.opcode = opcode := by
  unfold hasOpcode
  cases body.instruction id <;> simp

variable (argTuple) in
/-- An operand is the argument, a constant, or visited. -/
theorem visits_of_operand {id o : ℕ} {i : HloInstruction} (hi : body.instruction id = some i)
    (ho : o ∈ i.operands) :
    o = argTuple ∨ hasOpcode body o .constant = true ∨ Visits body argTuple id o := by
  by_cases harg : o = argTuple
  · exact .inl harg
  · right
    cases hconstant : hasOpcode body o .constant with
    | true => exact .inl rfl
    | false =>
      right
      simp only [Visits, visitedOperands, hi, List.mem_filter]
      exact ⟨ho, by simp [harg, hconstant]⟩

namespace LoopBody

theorem operands_argument (hbody : LoopBody body argTuple) {i : HloInstruction}
    (hi : body.instruction argTuple = some i) : i.operands = [] := by
  obtain ⟨param, -, -, hparam, hnone⟩ := hbody.argument
  rw [hparam] at hi
  cases hi
  exact hnone

theorem operands_constant (hbody : LoopBody body argTuple) {id : ℕ} {i : HloInstruction}
    (hi : body.instruction id = some i) (hconstant : hasOpcode body id .constant = true) :
    i.operands = [] := by
  obtain ⟨j, hj, hop⟩ := hasOpcode_iff.mp hconstant
  rw [hi] at hj
  cases hj
  exact hbody.constant i (HloComputation.mem_of_instruction hi) hop

theorem operands_invariant (hbody : LoopBody body argTuple) {id : ℕ} {i : HloInstruction}
    (hi : body.instruction id = some i) (hinvariant : IsInvariant body argTuple id) :
    i.operands = [argTuple] := by
  obtain ⟨j, k, hj, hop, hhead, -⟩ := hinvariant
  rw [hi] at hj
  cases hj
  have hlength := hbody.element i (HloComputation.mem_of_instruction hi)
    (by simp [HloInstruction.isGetTupleElement, hop])
  obtain ⟨o, ho⟩ := List.length_eq_one_iff.mp hlength
  rw [ho, List.head?_cons] at hhead
  rw [ho, Option.some.inj hhead]

/-- An output that is a constant is coloured. -/
theorem isIncrement_constant (hbody : LoopBody body argTuple) {x : ℕ}
    (hroot : x ∈ rootOperands body) (hconstant : hasOpcode body x .constant = true) :
    IsIncrement called body argTuple x := by
  obtain ⟨i, hi, hop⟩ := hasOpcode_iff.mp hconstant
  have hvisited : visitedOperands body argTuple x = [] := by
    simp [visitedOperands, hi, hbody.operands_constant hi hconstant]
  have hoperands : Unfolds called body argTuple (visitedOperands body argTuple x) 0 := by
    rw [hvisited]
    exact .nil
  refine ⟨hroot, ?_, 1, by decide, .cons (by simp [hvisited]) hoperands .nil⟩
  intro j hj
  rw [hi] at hj
  cases hj
  simp [isArgumentElement, HloInstruction.isGetTupleElement, hop]

theorem ne_argument (hbody : LoopBody body argTuple) {x : ℕ} (hroot : x ∈ rootOperands body) :
    x ≠ argTuple := by
  obtain ⟨root, hi⟩ := exists_instruction hbody.root
  rintro rfl
  exact hbody.root_elements root hi (by simpa [rootOperands, hi] using hroot)

end LoopBody

/-- One step of what the coloured instructions need. -/
theorem needs_step (hbody : LoopBody body argTuple) (hreads : ReadsIncrements called body argTuple)
    {t id s needed : ℕ} (hstep : Needs body argTuple (t, id) (s, needed))
    (hid : id ∈ incrementInstructions called body argTuple ∨
      hasOpcode body id .constant = true ∨ id = argTuple ∨ IsInvariant body argTuple id) :
    needed ∈ incrementInstructions called body argTuple ∨
      hasOpcode body needed .constant = true ∨ needed = argTuple ∨
        IsInvariant body argTuple needed := by
  cases hstep with
  | operand hi ho =>
    rcases hid with hid | hid | rfl | hid
    · rcases visits_of_operand argTuple hi ho with harg | hconstant | hvisit
      · exact .inr (.inr (.inl harg))
      · exact .inr (.inl hconstant)
      · obtain ⟨root, hroot, hpath⟩ := (mem_incrementInstructions hbody).mp hid
        exact .inl ((mem_incrementInstructions hbody).mpr ⟨root, hroot, hpath.tail hvisit⟩)
    · rw [hbody.operands_constant hi hid] at ho
      cases ho
    · rw [hbody.operands_argument hi] at ho
      cases ho
    · rw [hbody.operands_invariant hi hid, List.mem_singleton] at ho
      exact .inr (.inr (.inl ho))
  | carried hread hx =>
    obtain ⟨i, hi, harg, helement⟩ := hread
    rcases hid with hid | hid | rfl | hid
    · obtain ⟨root, hroot, hpath⟩ := (mem_incrementInstructions hbody).mp hid
      rcases hreads root hroot id hpath _ _ ⟨i, hi, harg, helement⟩ hx with hinvariant | hfound
      · exact .inr (.inr (.inr hinvariant))
      · exact .inl ((mem_incrementInstructions hbody).mpr hfound)
    · rw [hbody.operands_constant hi hid] at harg
      cases harg
    · rw [hbody.operands_argument hi] at harg
      cases harg
    · obtain ⟨j, k, hj, hop, hhead, hself⟩ := hid
      rw [hi] at hj
      cases hj
      have hk := helement (by simp [HloInstruction.isGetTupleElement, hop])
      rw [hop] at hk
      cases hk
      rw [hself] at hx
      cases hx
      exact .inr (.inr (.inr ⟨i, _, hi, hop, hhead, hself⟩))

theorem closed_iff (hbody : LoopBody body argTuple) :
    IsClosed body argTuple (incrementInstructions called body argTuple) ↔
      ReadsIncrements called body argTuple := by
  constructor
  · intro hclosed root hroot id hpath k x hread hx
    have hid := (mem_incrementInstructions hbody).mpr ⟨root, hroot, hpath⟩
    have hmem : x ∈ rootOperands body := List.mem_of_getElem? hx
    rcases hclosed id hid 1 0 x (.single (.carried hread hx)) with h | h | h | h
    · exact .inr ((mem_incrementInstructions hbody).mp h)
    · exact .inr ⟨x, hbody.isIncrement_constant hmem h, .refl⟩
    · exact absurd h (hbody.ne_argument hmem)
    · exact .inl h
  · intro hreads id hid t s needed hpath
    have hrun : ∀ reached : ℕ × ℕ, ReflTransGen (Needs body argTuple) (t, id) reached →
        reached.2 ∈ incrementInstructions called body argTuple ∨
          hasOpcode body reached.2 .constant = true ∨ reached.2 = argTuple ∨
            IsInvariant body argTuple reached.2 := by
      intro reached hreached
      induction hreached with
      | refl => exact .inl hid
      | tail _ hstep ih => exact needs_step hbody hreads hstep ih
    exact hrun _ hpath

/-- The pass succeeds on every loop body, and what it colours is closed under what it needs
over all the iterations just when each increment reads only invariant elements and elements
that increments leave. -/
theorem visitLoop_closed_iff (hbody : LoopBody body argTuple) (p : HloPartition) :
    (∃ q, visitLoop called p body = ok (q, colored body
      (p.uniquify HloPartition.kLoopIncrementColor)
      (incrementInstructions called body argTuple))) ∧
    (IsClosed body argTuple (incrementInstructions called body argTuple) ↔
      ReadsIncrements called body argTuple) :=
  ⟨visitLoop_colors hbody p, closed_iff hbody⟩

end loop

/-- The second output adds the first one of the iteration before, which a call computes. -/
def accumulatorBody : HloComputation where
  instructions := [
    { id := 0, opcode := .parameter 0, shape := .tuple [(.f32, []), (.f32, [])] },
    { id := 1, opcode := .getTupleElement 0, operands := [0] },
    { id := 2, opcode := .getTupleElement 1, operands := [0] },
    { id := 3, opcode := .call 0, operands := [1] },
    { id := 4, opcode := .other "negate", operands := [3] },
    { id := 5, opcode := .other "add", operands := [2, 1] },
    { id := 6, opcode := .tuple, operands := [4, 5], shape := .tuple [(.f32, []), (.f32, [])] }]
  root := 6

def noColors : HloPartition where
  devices := ⟨0, 2⟩
  colors := []

theorem loopBody_accumulator : LoopBody accumulatorBody 0 where
  argument := ⟨_, rfl, rfl, rfl, rfl⟩
  present := by decide
  constant := by decide
  element := by decide
  root := by decide
  root_elements := by
    intro i hi
    cases hi
    decide

theorem visitLoop_closed_accumulator :
    (∃ q, visitLoop (· == 3) noColors accumulatorBody = ok (q, colored accumulatorBody
      (noColors.uniquify HloPartition.kLoopIncrementColor)
      (incrementInstructions (· == 3) accumulatorBody 0))) ∧
    (IsClosed accumulatorBody 0 (incrementInstructions (· == 3) accumulatorBody 0) ↔
      ReadsIncrements (· == 3) accumulatorBody 0) :=
  visitLoop_closed_iff loopBody_accumulator noColors

/-- The addition is coloured, and needs the call, which is not. -/
theorem visitLoop_not_closed : LoopBody accumulatorBody 0 ∧
    (∃ q, visitLoop (· == 3) noColors accumulatorBody =
      ok (q, colored accumulatorBody "loop_increment" [5, 1, 2])) ∧
    ¬IsClosed accumulatorBody 0 [5, 1, 2] := by
  refine ⟨loopBody_accumulator, ⟨_, rfl⟩, ?_⟩
  intro hclosed
  have hread : ReadsElement accumulatorBody 0 1 0 := ⟨_, rfl, by decide, fun _ => rfl⟩
  rcases hclosed 1 (by decide) 1 0 4 (.single (.carried hread rfl)) with h | h | h | h
  · revert h
    decide
  · revert h
    decide
  · cases h
  · obtain ⟨i, k, hi, hop, -, -⟩ := h
    cases hi
    cases hop

end SimpleLoopIncrementColoring
end MultiMeshJax
