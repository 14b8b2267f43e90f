import MultiMeshJax.Foundation.ColorCut
import MultiMeshJax.Foundation.Worklist
import MultiMeshJax.Hlo.Program
import MultiMeshJax.HloPartition
import MultiMeshJax.Sharding.SpmdShape

/-! `MpmdCutSizeMinimizer`: instructions move to the colour of their users where less data then
goes between the colours. -/
namespace MultiMeshJax

open StatusOr

/-- Meshes of one size; loop dependent meshes are always different. -/
def HloPartition.equivalentMesh (p : HloPartition) (lhsColor rhsColor : String) :
    StatusOr Bool := do
  let lhsConfig ← p.configForColor lhsColor
  let rhsConfig ← p.configForColor rhsColor
  return lhsConfig.devices.size == rhsConfig.devices.size &&
    (lhsConfig.taskOptions.loopDependentDevices.isNone &&
      rhsConfig.taskOptions.loopDependentDevices.isNone)

namespace CutSizeMinimizer

abbrev Colors := ℕ → Option String

/-- The operations through which the search looks back to the first operand. -/
def isUnary (i : HloInstruction) : Bool :=
  ["transpose", "convert", "reshape", "bitcast", "negate", "sqrt", "cosine", "exponential", "sine",
    "not"].any fun mnemonic => i.opcode == .other mnemonic

def elementsIn : Shape → StatusOr ℕ
  | .array _ dims => return dims.prod
  | .tuple _ => fatal "Check failed: shape.IsArray()"

def weight (partitioning : Partitioning) (i : HloInstruction) : StatusOr ℕ := do
  elementsIn (← partitioning.getSpmdShape i)

/-- The module with its partition. No instruction is its own operand, and a unary one has one
operand and is empty just when that is. -/
structure Input where
  program : HloProgram
  partition : HloPartition
  partitioning : Partitioning
  not_self : ∀ i ∈ program.instructions, i.id ∉ i.operands
  unary_operands : ∀ i ∈ program.instructions, isUnary i = true → i.operands.length = 1
  unary_nonempty : ∀ i ∈ program.instructions, isUnary i = true →
    ∀ operand ∈ program.operandInstructions i, ∀ w, weight partitioning operand = ok w → 0 < w →
      ∃ w', weight partitioning i = ok w' ∧ 0 < w'

section pass

variable (input : Input)

def operandInstruction (operand : ℕ) : StatusOr HloInstruction :=
  deref "no such instruction" (input.program.instruction operand)

def singleUserDifferentColor (c : HloComputation) (colors : Colors) (i : HloInstruction) :
    Option String :=
  if i.isParameter ∨ i.id = c.root then none
  else match colors i.id with
  | none => none
  | some color =>
    match ((input.program.users i.id).filterMap fun user => colors user.id).dedup with
    | [userColor] => if userColor ≠ color then some userColor else none
    | _ => none

/-- The linear use "tree" back to the first non-unary operand, which comes last. -/
def singleUserUnaryTree : ℕ → HloInstruction → StatusOr (List HloInstruction)
  | 0, _ => fatal "the operands go round in a circle"
  | length + 1, next =>
    if 1 < (input.program.users next.id).length then return [next]
    else if isUnary next then do
      let operand ← elementAt next.operands 0
      let producer ← operandInstruction input operand
      let tree ← singleUserUnaryTree length producer
      return next :: tree
    else return [next]

def isLargerThanOperands (i : HloInstruction) : StatusOr Bool := do
  let weights ← i.operands.mapM fun operand => do
    weight input.partitioning (← operandInstruction input operand)
  let own ← weight input.partitioning i
  return decide (weights.sum < own)

def isSkipped (i : HloInstruction) : Bool :=
  match i.opcode with
  | .whileLoop _ | .customCall _ | .getTupleElement _ | .other "copy" => true
  | _ => false

/-- The tree that moves, and the colour that it moves to. -/
def colocation (c : HloComputation) (colors : Colors) (i : HloInstruction) :
    StatusOr (Option (List HloInstruction × String)) :=
  if isSkipped i then return none
  else match colors i.id, singleUserDifferentColor input c colors i with
  | some color, some userColor => do
    if ← input.partition.equivalentMesh userColor color then
      let tree ← singleUserUnaryTree input (input.program.instructions.length + 1) i
      let last ← deref "an empty tree" tree.getLast?
      if ← isLargerThanOperands input last then return some (tree, userColor)
      else return none
    else return none
  | _, _ => return none

/-- For each element of the tree the colour is assigned to the instruction. -/
def recolor (colors : Colors) (i : HloInstruction) (tree : List HloInstruction)
    (color : String) : Colors :=
  tree.foldl (fun colors _ => Function.update colors i.id (some color)) colors

def visitInstruction (c : HloComputation) (st : Colors × Bool) (i : HloInstruction) :
    StatusOr (Colors × Bool) := do
  match ← colocation input c st.1 i with
  | some move => return (recolor st.1 i move.1 move.2, true)
  | none => return st

/-- The bodies of the loops of a computation, the first of which in post order is visited next. -/
def bodies (c : HloComputation) : StatusOr (List HloComputation) :=
  (c.instructions.filterMap fun i => match i.opcode with
    | .whileLoop n => some n
    | _ => none).mapM input.program.calledComputation

def visitComputation (st : Colors × Bool) (c : HloComputation) :
    StatusOr ((Colors × Bool) × List HloComputation) := do
  let st ← c.instructions.reverse.foldlM (visitInstruction input c) st
  return (st, ← bodies input c)

def run (rounds : ℕ) (colors : Colors) : StatusOr (Colors × Bool) :=
  Worklist.drain (visitComputation input) rounds (colors, false) [input.program.entry]

end pass

section weights

variable (input : Input)

/-- The users of an instruction. -/
def consumers (id : ℕ) : Finset ℕ := ((input.program.users id).map HloInstruction.id).toFinset

/-- The SPMD element count of an instruction. -/
def weightOf (id : ℕ) : ℕ :=
  ((input.program.instruction id).bind fun i => (weight input.partitioning i).toOption).getD 0

/-- The transfer weight between the colours: each producer counts once for each colour other than
its own among its users. -/
def totalWeight (ids : List ℕ) (colors : Colors) : ℕ :=
  ColorCut.cut (consumers input) (weightOf input) ids.toFinset colors

variable {input}

theorem weightOf_eq {i : HloInstruction} (hi : i ∈ input.program.instructions) {w : ℕ}
    (h : weight input.partitioning i = ok w) : weightOf input i.id = w := by
  simp [weightOf, HloProgram.instruction_of_mem hi, h, toOption]

theorem mem_consumers {i : HloInstruction} (hi : i ∈ input.program.instructions) {id : ℕ} :
    i.id ∈ consumers input id ↔ id ∈ i.operands := by
  simp only [consumers, List.mem_toFinset, List.mem_map, HloProgram.users, List.mem_filter,
    List.contains_iff_mem]
  constructor
  · rintro ⟨u, ⟨hu, hid⟩, heq⟩
    rwa [← HloProgram.eq_of_id hu hi heq]
  · exact fun hid => ⟨i, ⟨hi, hid⟩, rfl⟩

theorem operandInstruction_eq_ok {operand : ℕ} {producer : HloInstruction}
    (h : operandInstruction input operand = ok producer) :
    producer ∈ input.program.instructions ∧ producer.id = operand :=
  HloProgram.mem_of_instruction (deref_eq_ok.mp h)

theorem weights_eq {operands weights : List ℕ}
    (h : (operands.mapM fun operand => do
      weight input.partitioning (← operandInstruction input operand)) = ok weights) :
    weights = operands.map (weightOf input) := by
  have hall := mapM_eq_ok.mp h
  induction hall with
  | nil => rfl
  | @cons operand w operands weights hw hrest ih =>
    obtain ⟨producer, hproducer, hweight⟩ := bind_eq_ok.mp hw
    obtain ⟨hmem, rfl⟩ := operandInstruction_eq_ok hproducer
    rw [List.map_cons, weightOf_eq hmem hweight, ih (mapM_eq_ok.mpr hrest)]

/-- A larger instruction outweighs what feeds it. -/
theorem sum_lt_of_isLargerThanOperands {i : HloInstruction}
    (h : isLargerThanOperands input i = ok true) :
    ∃ w, weight input.partitioning i = ok w ∧ (i.operands.map (weightOf input)).sum < w := by
  obtain ⟨weights, hweights, h⟩ := bind_eq_ok.mp h
  obtain ⟨own, hown, h⟩ := bind_eq_ok.mp h
  have hlt : weights.sum < own := by simpa using ok.inj h
  rw [weights_eq hweights] at hlt
  exact ⟨own, hown, hlt⟩

/-- The weights of the instructions that feed one are among those of its operands. -/
theorem sum_feeding_le {i : HloInstruction} (hi : i ∈ input.program.instructions)
    (s : Finset ℕ) (f : ℕ → ℕ) :
    ∑ v ∈ s with i.id ∈ consumers input v, f v ≤ (i.operands.map f).sum := by
  have hsubset : (s.filter fun v => i.id ∈ consumers input v) ⊆ i.operands.toFinset := by
    intro v hv
    exact List.mem_toFinset.mpr ((mem_consumers hi).mp (Finset.mem_filter.mp hv).2)
  have hdedup : i.operands.toFinset = i.operands.dedup.toFinset := by
    ext v
    simp
  calc ∑ v ∈ s with i.id ∈ consumers input v, f v
      ≤ ∑ v ∈ i.operands.toFinset, f v := Finset.sum_le_sum_of_subset hsubset
    _ = (i.operands.dedup.map f).sum := by
        rw [hdedup, List.sum_toFinset f i.operands.nodup_dedup]
    _ ≤ (i.operands.map f).sum :=
        ((List.dedup_sublist i.operands).map f).sum_le_sum fun _ _ => Nat.zero_le _

end weights

section colocation

variable {input : Input} {c : HloComputation} {colors : Colors} {i : HloInstruction}
  {tree : List HloInstruction} {color : String}

theorem singleUserDifferentColor_eq_some
    (h : singleUserDifferentColor input c colors i = some color) :
    ∃ own, colors i.id = some own ∧ own ≠ color ∧
      ColorCut.consumerColors (consumers input) colors i.id = {color} := by
  unfold singleUserDifferentColor at h
  split at h
  · cases h
  · split at h
    · cases h
    · next own hown =>
      split at h
      · next userColor husers =>
        split at h
        · next hne =>
          obtain rfl := Option.some.inj h
          refine ⟨own, hown, Ne.symm hne, ?_⟩
          ext x
          rw [ColorCut.mem_consumerColors, Finset.mem_singleton, ← List.mem_singleton, ← husers,
            List.mem_dedup, List.mem_filterMap]
          simp [consumers]
        · cases h
      · cases h

/-- The tree starts with the instruction; where it goes on, the instruction is unary, and the
tree of its operand follows. -/
theorem singleUserUnaryTree_cases {length : ℕ}
    (h : singleUserUnaryTree input length i = ok tree) :
    tree = [i] ∨ isUnary i = true ∧ ∃ length' operand producer rest, length = length' + 1 ∧
      i.operands[0]? = some operand ∧ operandInstruction input operand = ok producer ∧
      singleUserUnaryTree input length' producer = ok rest ∧ tree = i :: rest := by
  cases length with
  | zero => cases h
  | succ length =>
    rw [singleUserUnaryTree] at h
    split at h
    · exact .inl (ok.inj h).symm
    · split at h
      · next hunary =>
        obtain ⟨operand, hoperand, h⟩ := bind_eq_ok.mp h
        obtain ⟨producer, hproducer, h⟩ := bind_eq_ok.mp h
        obtain ⟨rest, hrest, h⟩ := bind_eq_ok.mp h
        exact .inr ⟨hunary, length, operand, producer, rest, rfl, elementAt_eq_ok.mp hoperand,
          hproducer, hrest, (ok.inj h).symm⟩
      · exact .inl (ok.inj h).symm

theorem head_singleUserUnaryTree {length : ℕ}
    (h : singleUserUnaryTree input length i = ok tree) : ∃ rest, tree = i :: rest := by
  rcases singleUserUnaryTree_cases h with rfl | ⟨-, -, -, -, rest, -, -, -, -, rfl⟩
  · exact ⟨[], rfl⟩
  · exact ⟨rest, rfl⟩

/-- Where the last instruction of the tree is not empty, the first one is not. -/
theorem nonempty_of_singleUserUnaryTree {length : ℕ} (hi : i ∈ input.program.instructions)
    (h : singleUserUnaryTree input length i = ok tree) {last : HloInstruction}
    (hlast : tree.getLast? = some last) {w : ℕ} (hw : weight input.partitioning last = ok w)
    (hpos : 0 < w) : ∃ w', weight input.partitioning i = ok w' ∧ 0 < w' := by
  induction length generalizing i tree with
  | zero => cases h
  | succ length ih =>
    rcases singleUserUnaryTree_cases h with rfl | ⟨hunary, length', operand, producer, rest, hlength,
      hoperand, hproducer, hrest, rfl⟩
    · obtain rfl := Option.some.inj hlast
      exact ⟨w, hw, hpos⟩
    · obtain rfl := Nat.succ.inj hlength
      obtain ⟨hmem, hid⟩ := operandInstruction_eq_ok hproducer
      obtain ⟨rest', rfl⟩ := head_singleUserUnaryTree hrest
      rw [List.getLast?_cons_cons] at hlast
      obtain ⟨w', hw', hpos'⟩ := ih hmem hrest hlast
      apply input.unary_nonempty i hi hunary producer _ w' hw' hpos'
      rw [HloProgram.operandInstructions, List.mem_filterMap]
      exact ⟨operand, List.mem_of_getElem? hoperand, deref_eq_ok.mp hproducer⟩

/-- What holds of a tree that moves. -/
theorem colocation_eq_some
    (h : colocation input c colors i = ok (some (tree, color))) :
    (∃ own, colors i.id = some own ∧ own ≠ color ∧
        ColorCut.consumerColors (consumers input) colors i.id = {color}) ∧
      ∃ length last, singleUserUnaryTree input length i = ok tree ∧ tree.getLast? = some last ∧
        isLargerThanOperands input last = ok true := by
  unfold colocation at h
  split at h
  · cases h
  · split at h
    · next own userColor hown huser =>
      obtain ⟨equivalent, -, h⟩ := bind_eq_ok.mp h
      split at h
      · obtain ⟨tree', htree, h⟩ := bind_eq_ok.mp h
        obtain ⟨last, hlast, h⟩ := bind_eq_ok.mp h
        obtain ⟨larger, hlarger, h⟩ := bind_eq_ok.mp h
        cases larger with
        | false => cases h
        | true =>
          obtain ⟨rfl, rfl⟩ := Prod.mk.inj (Option.some.inj (ok.inj h))
          exact ⟨singleUserDifferentColor_eq_some huser, _, last, htree, deref_eq_ok.mp hlast,
            hlarger⟩
      · cases h
    · cases h

/-- Only the instruction itself is recoloured. -/
theorem recolor_eq (h : tree ≠ []) :
    recolor colors i tree color = Function.update colors i.id (some color) := by
  have hfold : ∀ (rest : List HloInstruction) (start : Colors),
      rest.foldl (fun colors _ => Function.update colors i.id (some color))
        (Function.update start i.id (some color)) = Function.update start i.id (some color) := by
    intro rest start
    induction rest with
    | nil => rfl
    | cons _ rest ih => rw [List.foldl_cons, Function.update_idem, ih]
  cases tree with
  | nil => exact absurd rfl h
  | cons element rest => exact hfold rest colors

/-- An instruction that moves alone, or after the others of its tree, lowers the weight between
the colours. -/
theorem totalWeight_recolor_lt {ids : List ℕ} (hi : i ∈ input.program.instructions)
    (hids : i.id ∈ ids) (h : colocation input c colors i = ok (some (tree, color)))
    (htail : ∀ element ∈ tree, element.id ≠ i.id → colors element.id = some color) :
    totalWeight input ids (recolor colors i tree color) < totalWeight input ids colors := by
  obtain ⟨⟨own, hown, hne, huniform⟩, length, last, htree, hlast, hlarger⟩ := colocation_eq_some h
  have htreeNe : tree ≠ [] := by
    obtain ⟨rest, rfl⟩ := head_singleUserUnaryTree htree
    exact List.cons_ne_nil _ _
  have hself : i.id ∉ consumers input i.id := fun hin =>
    input.not_self i hi ((mem_consumers hi).mp hin)
  have hmove : ColorCut.cut (consumers input) (weightOf input) ids.toFinset
      (Function.update colors i.id (some color)) + weightOf input i.id ≤
        ColorCut.cut (consumers input) (weightOf input) ids.toFinset colors +
          ∑ v ∈ ids.toFinset with i.id ∈ consumers input v,
            if colors v = some color then 0 else weightOf input v :=
    ColorCut.cut_update_add_le (List.mem_toFinset.mpr hids) hself hown hne huniform
  have hfeeding := sum_feeding_le hi ids.toFinset fun v =>
    if colors v = some color then 0 else weightOf input v
  rw [totalWeight, totalWeight, recolor_eq htreeNe]
  -- what feeds the instruction costs less than the instruction saves
  have hcost : (i.operands.map fun v =>
      if colors v = some color then 0 else weightOf input v).sum < weightOf input i.id := by
    obtain ⟨w, hw, hlt⟩ := sum_lt_of_isLargerThanOperands hlarger
    rcases singleUserUnaryTree_cases htree with rfl | ⟨hunary, length', operand, producer, rest, -,
      hoperand, hproducer, hrest, rfl⟩
    · obtain rfl := Option.some.inj hlast
      rw [weightOf_eq hi hw]
      refine lt_of_le_of_lt (List.sum_le_sum ?_) hlt
      intro v _
      split
      · exact Nat.zero_le _
      · exact le_rfl
    · obtain ⟨w', hw', hpos⟩ :=
        nonempty_of_singleUserUnaryTree hi htree hlast hw (Nat.zero_lt_of_lt hlt)
      obtain ⟨hmem, rfl⟩ := operandInstruction_eq_ok hproducer
      obtain ⟨rest', rfl⟩ := head_singleUserUnaryTree hrest
      obtain ⟨only, honly⟩ := List.length_eq_one_iff.mp (input.unary_operands i hi hunary)
      have hproducerId : producer.id ∈ i.operands := List.mem_of_getElem? hoperand
      have hcolor : colors producer.id = some color := by
        apply htail producer (List.mem_cons_of_mem _ (List.mem_cons_self ..))
        intro heq
        exact input.not_self i hi (heq ▸ hproducerId)
      rw [honly, List.mem_singleton] at hproducerId
      rw [honly, ← hproducerId, weightOf_eq hi hw']
      simpa [hcolor] using hpos
  omega

end colocation

section run

variable (input : Input)

/-- From a state and the computations to visit, the pass comes to an instruction of a computation
with the colours before it. -/
def VisitsFrom (start : Colors × Bool) (stack : List HloComputation) (c : HloComputation)
    (before : Colors) (i : HloInstruction) : Prop :=
  ∃ st rest done left flag, Worklist.Reaches (visitComputation input) start stack st (c :: rest) ∧
    c.instructions.reverse = done ++ i :: left ∧
    done.foldlM (visitInstruction input c) st = ok (before, flag)

/-- The instructions that a run from given colours comes to. -/
def Visits (colors : Colors) : HloComputation → Colors → HloInstruction → Prop :=
  VisitsFrom input (colors, false) [input.program.entry]

/-- A step that moves a tree does not raise the weight between the colours of the computation,
and recolours the instructions of the tree and no others. -/
def StepImproves (c : HloComputation) (before : Colors) (i : HloInstruction) : Prop :=
  ∀ tree color, colocation input c before i = ok (some (tree, color)) →
    totalWeight input c.ids (recolor before i tree color) ≤ totalWeight input c.ids before ∧
    ∀ id, recolor before i tree color id =
      if id ∈ tree.map HloInstruction.id then some color else before id

/-- The other instructions of a tree that moves have the colour of the users already; a tree of
one instruction has no others. -/
def OthersMoved (c : HloComputation) (before : Colors) (i : HloInstruction) : Prop :=
  ∀ tree color, colocation input c before i = ok (some (tree, color)) →
    ∀ element ∈ tree, element.id ≠ i.id → before element.id = some color

/-- The weight has stayed the same as long as nothing was changed, and is smaller then. -/
def Lowered (start : Colors) (st : Colors × Bool) : Prop :=
  if st.2 then totalWeight input (input.program.instructions.map HloInstruction.id) st.1 <
    totalWeight input (input.program.instructions.map HloInstruction.id) start
  else st.1 = start

variable {input}

theorem stepImproves_iff {c : HloComputation} {before : Colors} {i : HloInstruction}
    (hc : c ∈ input.program.computations) (hi : i ∈ c.instructions) :
    StepImproves input c before i ↔ OthersMoved input c before i := by
  have hmem := HloProgram.mem_instructions hc hi
  constructor
  · intro himproves tree color hmoves element helement hne
    obtain ⟨-, length, last, htree, -, -⟩ := colocation_eq_some hmoves
    obtain ⟨rest, rfl⟩ := head_singleUserUnaryTree htree
    have hrecolor := (himproves _ color hmoves).2 element.id
    rw [if_pos (List.mem_map_of_mem helement), recolor_eq (List.cons_ne_nil _ _),
      Function.update_of_ne hne] at hrecolor
    exact hrecolor
  · intro hothers tree color hmoves
    have htail := hothers tree color hmoves
    refine ⟨(totalWeight_recolor_lt hmem (List.mem_map_of_mem hi) hmoves htail).le, ?_⟩
    obtain ⟨-, length, last, htree, -, -⟩ := colocation_eq_some hmoves
    obtain ⟨rest, rfl⟩ := head_singleUserUnaryTree htree
    intro id
    rw [recolor_eq (List.cons_ne_nil _ _)]
    by_cases hid : id = i.id
    · subst hid
      rw [Function.update_self, if_pos (List.mem_map_of_mem (List.mem_cons_self ..))]
    · rw [Function.update_of_ne hid]
      split
      · next hin =>
        obtain ⟨element, helement, rfl⟩ := List.mem_map.mp hin
        exact htail element helement hid
      · rfl

theorem lowered_visitInstruction {start : Colors} {st st' : Colors × Bool} {c : HloComputation}
    {i : HloInstruction} (h : Lowered input start st) (hi : i ∈ input.program.instructions)
    (hothers : OthersMoved input c st.1 i) (hstep : visitInstruction input c st i = ok st') :
    Lowered input start st' := by
  obtain ⟨move, hmove, hstep⟩ := bind_eq_ok.mp hstep
  cases move with
  | none =>
    obtain rfl := ok.inj hstep
    exact h
  | some move =>
    obtain rfl := ok.inj hstep
    have hlt := totalWeight_recolor_lt hi (List.mem_map_of_mem hi) hmove (hothers _ _ hmove)
    rw [Lowered] at h ⊢
    rw [if_pos rfl]
    split at h
    · exact hlt.trans h
    · rw [← h]
      exact hlt

theorem lowered_visitComputation {start : Colors} {st st' : Colors × Bool} {c : HloComputation}
    {pushed : List HloComputation} (h : Lowered input start st)
    (hc : c ∈ input.program.computations)
    (hothers : ∀ done left i before flag, c.instructions.reverse = done ++ i :: left →
      done.foldlM (visitInstruction input c) st = ok (before, flag) →
        OthersMoved input c before i)
    (hvisit : visitComputation input st c = ok (st', pushed)) : Lowered input start st' := by
  obtain ⟨st₁, hrun, hvisit⟩ := bind_eq_ok.mp hvisit
  obtain ⟨bodies, -, hvisit⟩ := bind_eq_ok.mp hvisit
  obtain ⟨rfl, -⟩ := Prod.mk.inj (ok.inj hvisit)
  have hall := foldlM_prefix (fun done st₂ =>
    done.foldlM (visitInstruction input c) st = ok st₂ ∧ Lowered input start st₂)
    hrun ⟨rfl, h⟩ (by
      rintro done i ⟨left, hsplit⟩ st₂ st₃ ⟨hdone, hlowered⟩ hstep
      have hsplit' : c.instructions.reverse = done ++ i :: left := by simpa using hsplit.symm
      have hi : i ∈ c.instructions := by
        rw [← List.mem_reverse, hsplit']
        exact List.mem_append_right _ (List.mem_cons_self ..)
      refine ⟨?_, lowered_visitInstruction hlowered (HloProgram.mem_instructions hc hi)
        (hothers done left i st₂.1 st₂.2 hsplit' hdone) hstep⟩
      rw [List.foldlM_append, hdone, ok_bind, List.foldlM_cons, hstep]
      rfl)
  exact hall.2

theorem mem_computations_of_pushed {st st' : Colors × Bool} {c b : HloComputation}
    {pushed : List HloComputation} (hvisit : visitComputation input st c = ok (st', pushed))
    (hb : b ∈ pushed) : b ∈ input.program.computations := by
  obtain ⟨st₁, -, hvisit⟩ := bind_eq_ok.mp hvisit
  obtain ⟨pushed', hbodies, hvisit⟩ := bind_eq_ok.mp hvisit
  obtain ⟨-, rfl⟩ := Prod.mk.inj (ok.inj hvisit)
  obtain ⟨n, -, hn⟩ := exists_of_mem_mapM hbodies hb
  exact HloProgram.mem_computations_of_called hn

theorem mem_computations_of_reaches {st st' : Colors × Bool} {stack stack' : List HloComputation}
    (h : Worklist.Reaches (visitComputation input) st stack st' stack')
    (hstack : ∀ c ∈ stack, c ∈ input.program.computations) :
    ∀ c ∈ stack', c ∈ input.program.computations := by
  induction h with
  | refl => exact hstack
  | visit hvisit _ ih =>
    apply ih
    intro b hb
    rcases List.mem_append.mp hb with hb | hb
    · exact mem_computations_of_pushed hvisit hb
    · exact hstack b (List.mem_cons_of_mem _ hb)

theorem lowered_of_reaches {start : Colors} {st st' : Colors × Bool}
    {stack stack' : List HloComputation}
    (h : Worklist.Reaches (visitComputation input) st stack st' stack')
    (hstack : ∀ c ∈ stack, c ∈ input.program.computations)
    (hothers : ∀ c before i, VisitsFrom input st stack c before i → OthersMoved input c before i)
    (hlowered : Lowered input start st) : Lowered input start st' := by
  induction h with
  | refl => exact hlowered
  | @visit st₀ st₁ st₂ c pushed rest stack₂ hvisit hrest ih =>
    have hc := hstack c (List.mem_cons_self ..)
    apply ih
    · intro b hb
      rcases List.mem_append.mp hb with hb | hb
      · exact mem_computations_of_pushed hvisit hb
      · exact hstack b (List.mem_cons_of_mem _ hb)
    · rintro c' before i ⟨st', rest', done, left, flag, hreach, hrun⟩
      exact hothers c' before i ⟨st', rest', done, left, flag, .visit hvisit hreach, hrun⟩
    · apply lowered_visitComputation hlowered hc _ hvisit
      intro done left i before flag hsplit hdone
      exact hothers c before i ⟨st₀, rest, done, left, flag, .refl _ _, hsplit, hdone⟩

theorem mem_of_visits {colors before : Colors} {c : HloComputation} {i : HloInstruction}
    (h : Visits input colors c before i) : c ∈ input.program.computations ∧ i ∈ c.instructions := by
  obtain ⟨st, rest, done, left, flag, hreach, hsplit, -⟩ := h
  constructor
  · apply mem_computations_of_reaches hreach _ c (List.mem_cons_self ..)
    intro b hb
    rw [List.mem_singleton.mp hb]
    exact List.mem_cons_self ..
  · rw [← List.mem_reverse, hsplit]
    exact List.mem_append_right _ (List.mem_cons_self ..)

/-- The steps improve the colours, and a run that reports a change has lowered the weight between
them, just when every tree that moves has no instruction left behind. -/
theorem run_improves_iff {rounds : ℕ} {colors colors' : Colors} {changed : Bool}
    (h : run input rounds colors = ok (colors', changed)) :
    ((∀ c before i, Visits input colors c before i → StepImproves input c before i) ∧
        (changed = true →
          totalWeight input (input.program.instructions.map HloInstruction.id) colors' <
            totalWeight input (input.program.instructions.map HloInstruction.id) colors)) ↔
      ∀ c before i, Visits input colors c before i → OthersMoved input c before i := by
  constructor
  · rintro ⟨himproves, -⟩ c before i hvisits
    obtain ⟨hc, hi⟩ := mem_of_visits hvisits
    exact (stepImproves_iff hc hi).mp (himproves c before i hvisits)
  · intro hothers
    constructor
    · intro c before i hvisits
      obtain ⟨hc, hi⟩ := mem_of_visits hvisits
      exact (stepImproves_iff hc hi).mpr (hothers c before i hvisits)
    · rintro rfl
      have hentry : ∀ c ∈ [input.program.entry], c ∈ input.program.computations := by
        intro c hc
        rw [List.mem_singleton.mp hc]
        exact List.mem_cons_self ..
      have hlowered := lowered_of_reaches (Worklist.reaches_of_drain h) hentry hothers
        (show Lowered input colors (colors, false) from rfl)
      rwa [Lowered, if_pos rfl] at hlowered

end run

/-- Two colours with meshes of one device. -/
def twoColors : HloPartition where
  devices := ⟨0, 2⟩
  colors := [("a", { name := "a", devices := ⟨0, 1⟩ }), ("b", { name := "b", devices := ⟨1, 1⟩ })]

/-- The arrays are whole on every device. -/
def unsharded : Partitioning where
  partitionedDimensions dims _ := dims

/-- A chain of instructions of eight elements, from a parameter on. -/
def chainProgram : HloProgram where
  entry := {
    instructions := [
      { id := 0, opcode := .parameter 0, shape := .array .f32 [8] },
      { id := 1, opcode := .other "negate", operands := [0], shape := .array .f32 [8] },
      { id := 2, opcode := .other "cosine", operands := [1], shape := .array .f32 [8] }]
    root := 2 }
  called := []
  distinct := by decide

theorem weight_chain : ∀ i ∈ chainProgram.instructions, weight unsharded i = ok 8 := by
  decide

theorem nonempty_chain : ∀ i ∈ chainProgram.instructions, isUnary i = true →
    ∀ operand ∈ chainProgram.operandInstructions i, ∀ w, weight unsharded operand = ok w → 0 < w →
      ∃ w', weight unsharded i = ok w' ∧ 0 < w' :=
  fun i hi _ _ _ _ _ _ => ⟨8, weight_chain i hi, by decide⟩

def chain : Input where
  program := chainProgram
  partition := twoColors
  partitioning := unsharded
  not_self := by decide
  unary_operands := by decide
  unary_nonempty := nonempty_chain

/-- The parameter has one colour, the instruction after it the first one, and the root the
second one. -/
def chainColors (color : String) : Colors
  | 0 => some color
  | 1 => some "a"
  | 2 => some "b"
  | _ => none

theorem run_improves_iff_chain :
    ∃ colors' changed, run chain 2 (chainColors "b") = ok (colors', changed) ∧
      (((∀ c before i, Visits chain (chainColors "b") c before i →
            StepImproves chain c before i) ∧
          (changed = true →
            totalWeight chain (chain.program.instructions.map HloInstruction.id) colors' <
              totalWeight chain (chain.program.instructions.map HloInstruction.id)
                (chainColors "b"))) ↔
        ∀ c before i, Visits chain (chainColors "b") c before i →
          OthersMoved chain c before i) := by
  obtain ⟨⟨colors', changed⟩, h⟩ :=
    isOk_iff.mp (by decide +kernel : (run chain 2 (chainColors "b")).isOk = true)
  exact ⟨colors', changed, h, run_improves_iff h⟩

/-- The instruction moves away from its parameter, which does not move: a change is reported, and
the eight elements are only sent at another place. -/
theorem chain_not_improves :
    ∃ colors', run chain 2 (chainColors "a") = ok (colors', true) ∧
      ¬totalWeight chain (chain.program.instructions.map HloInstruction.id) colors' <
        totalWeight chain (chain.program.instructions.map HloInstruction.id)
          (chainColors "a") := by
  have hrun : (run chain 2 (chainColors "a")).toOption.map (fun st => (st.2,
      totalWeight chain (chain.program.instructions.map HloInstruction.id) st.1)) =
        some (true, 8) := by decide +kernel
  have hbefore : totalWeight chain (chain.program.instructions.map HloInstruction.id)
      (chainColors "a") = 8 := by decide +kernel
  obtain ⟨⟨colors', changed⟩, hok, hweight⟩ := Option.map_eq_some_iff.mp hrun
  obtain ⟨rfl, htotal⟩ := Prod.mk.inj hweight
  refine ⟨colors', toOption_eq_some.mp hok, ?_⟩
  rw [hbefore]
  exact not_lt.mpr htotal.ge

end CutSizeMinimizer
end MultiMeshJax
