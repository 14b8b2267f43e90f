import MultiMeshJax.InstructionProperties.Backward

/-! What it means that an instruction is additive to a loop input, and what one step of the
traversal does to the lists of these inputs. -/
namespace MultiMeshJax
namespace InstructionProperties

open StatusOr

/-- The instruction passes the value of its first operand on. -/
def IsPreserving (i : HloInstruction) : Prop :=
  isNoOpCustomCall i = true ∨ ∃ mnemonic, i.opcode = .other mnemonic ∧ isValuePreserving mnemonic

section graph

variable (p : HloProgram) (reducer : ℕ → Option ℕ) (c : HloComputation)

def IsSumReduce (i : HloInstruction) : Prop :=
  i.opcode = .other "reduce" ∧ ∃ n comp root, reducer i.id = some n ∧
    p.calledComputation n = ok comp ∧ comp.rootInstruction = ok root ∧ root.opcode = .other "add"

/-- The two operands of an addition. -/
def AddsTo (sum a b : ℕ) : Prop :=
  ∃ i, c.instruction sum = some i ∧ i.opcode = .other "add" ∧
    (i.operands[0]? = some a ∧ i.operands[1]? = some b ∨
      i.operands[0]? = some b ∧ i.operands[1]? = some a)

def Preserves (id operand : ℕ) : Prop :=
  ∃ i, c.instruction id = some i ∧ IsPreserving i ∧ i.operands[0]? = some operand

def SumReduces (id operand : ℕ) : Prop :=
  ∃ i, c.instruction id = some i ∧ IsSumReduce p reducer i ∧ i.operands[0]? = some operand

/-- The value is a term of a sum, or the same value. -/
def Linear (id operand : ℕ) : Prop := (∃ other, AddsTo c id operand other) ∨ Preserves c id operand

/-- The operand is above the instruction in a tree of sums. -/
def SumOperand (id operand : ℕ) : Prop := Linear c id operand ∨ SumReduces p reducer c id operand

/-- An element of the argument of the loop. -/
def IsLoopElement (g index : ℕ) : Prop :=
  ∃ i t tuple, c.instruction g = some i ∧ i.opcode = .getTupleElement index ∧
    i.operands[0]? = some t ∧ c.instruction t = some tuple ∧ tuple.isParameter = true

/-- The value is that of `g` up to no-op custom calls. -/
inductive UpToNoOps (g : ℕ) : ℕ → Prop
  | refl : UpToNoOps g g
  | step {i : HloInstruction} {id operand : ℕ} : c.instruction id = some i →
      isNoOpCustomCall i = true → i.operands[0]? = some operand → UpToNoOps g operand →
      UpToNoOps g id

def rootElement (index : ℕ) : Option ℕ :=
  (c.instruction c.root).bind fun root =>
    if root.opcode = .tuple then root.operands[index]? else none

/-- The instruction is a sum of the loop element and of another operand, and the element at its
index of the next iteration is this sum, up to further additions. -/
structure Accumulates (g element sum a b : ℕ) : Prop where
  adds : AddsTo c sum a b
  input : UpToNoOps c g a
  carried : ∃ index, IsLoopElement c g index ∧ rootElement c index = some element
  connected : Relation.ReflTransGen (Linear c) element sum

/-- The instruction is part of a tree that is a loop-carried sum. -/
def IsAdditive (g id : ℕ) : Prop :=
  ∃ element sum a b, Accumulates c g element sum a b ∧
    (id = sum ∨ Relation.ReflTransGen (SumOperand p reducer c) b id ∨
      Relation.ReflTransGen (Linear c) element id ∧ Relation.ReflTransGen (Linear c) id sum)

/-- The instruction is such a sum, or above the other operand of one. -/
def IsAccumulated (g id : ℕ) : Prop :=
  ∃ element sum a b, Accumulates c g element sum a b ∧
    (id = sum ∨ Relation.ReflTransGen (SumOperand p reducer c) b id)

def dealiased (id : ℕ) : StatusOr (Option ℕ) := c.getInstruction id >>= dealiasLoopInput c

/-- The operand of an addition that counts as a loop input. -/
def CountsAsInput (sum a b g : ℕ) : Prop :=
  ∃ i, c.instruction sum = some i ∧ i.opcode = .other "add" ∧
    (i.operands[0]? = some a ∧ i.operands[1]? = some b ∧ dealiased c a = ok (some g) ∨
      i.operands[0]? = some b ∧ i.operands[1]? = some a ∧ dealiased c a = ok (some g) ∧
        dealiased c b = ok none)

end graph

variable {p : HloProgram} {reducer : ℕ → Option ℕ} {c : HloComputation}

theorem CountsAsInput.addsTo {sum a b g : ℕ} (h : CountsAsInput c sum a b g) :
    AddsTo c sum a b := by
  obtain ⟨i, hi, hadd, h⟩ := h
  refine ⟨i, hi, hadd, ?_⟩
  rcases h with ⟨ha, hb, -⟩ | ⟨hb, ha, -⟩
  · exact Or.inl ⟨ha, hb⟩
  · exact Or.inr ⟨hb, ha⟩

theorem AddsTo.symm {sum a b : ℕ} (h : AddsTo c sum a b) : AddsTo c sum b a := by
  obtain ⟨i, hi, hadd, h⟩ := h
  exact ⟨i, hi, hadd, h.symm⟩

theorem AddsTo.linear {sum a b : ℕ} (h : AddsTo c sum a b) : Linear c sum b := by
  obtain ⟨i, hi, hadd, h⟩ := h
  exact Or.inl ⟨a, i, hi, hadd, h.symm⟩

section step

variable {props props' : BackwardProperties} {src target : ℕ}

@[simp] theorem additive_propagateElementwise (id : ℕ) :
    (propagateElementwise src target props id).additiveToWhileInput =
      (props id).additiveToWhileInput := by
  unfold propagateElementwise
  split
  · rfl
  · rcases eq_or_ne id target with rfl | hne
    · simp
    · simp [hne]

@[simp] theorem additive_setEquivalent (output : Option ℕ) (id : ℕ) :
    (setEquivalent target output props id).additiveToWhileInput =
      (props id).additiveToWhileInput := by
  unfold setEquivalent
  rcases eq_or_ne id target with rfl | hne
  · simp
  · simp [hne]

theorem additive_setAdditive (additive : List ℕ) (id : ℕ) :
    (setAdditive target additive props id).additiveToWhileInput =
      if id = target then additive else (props id).additiveToWhileInput := by
  unfold setAdditive
  split
  · rename_i h
    simp [h]
  · rename_i h
    simp [h]

/-- The lists are those before the step. -/
def SameAdditive (props props' : BackwardProperties) : Prop :=
  ∀ id, (props' id).additiveToWhileInput = (props id).additiveToWhileInput

theorem sameAdditive_foldlM {α : Type} {f : BackwardProperties → α → StatusOr BackwardProperties}
    {l : List α} (hrun : l.foldlM f props = ok props')
    (hstep : ∀ x ∈ l, ∀ s s', f s x = ok s' → SameAdditive s s') : SameAdditive props props' := by
  apply foldlM_invariant (SameAdditive props) hrun (fun _ => rfl)
  intro x hx s s' hs hrun id
  rw [hstep x hx s s' hrun id, hs id]

theorem sameAdditive_propagateUsers {users : List HloInstruction} {tuple : HloInstruction}
    (hrun : propagateUsers users tuple props = ok props') : SameAdditive props props' := by
  apply sameAdditive_foldlM hrun
  intro user _ s s' hstep id
  obtain ⟨index, -, hstep⟩ := bind_eq_ok.mp hstep
  obtain ⟨element, -, hstep⟩ := bind_eq_ok.mp hstep
  rw [← ok.inj hstep, additive_propagateElementwise]

theorem sameAdditive_propagateParameters {comp : HloComputation} {operands : List ℕ}
    (hrun : propagateParameters comp operands props = ok props') : SameAdditive props props' := by
  apply sameAdditive_foldlM hrun
  intro operand _ s s' hstep id
  obtain ⟨param, -, hstep⟩ := bind_eq_ok.mp hstep
  rw [← ok.inj hstep, additive_propagateElementwise]

theorem sameAdditive_setWhileOutputs (comp : HloComputation) (root : HloInstruction) :
    SameAdditive props (setWhileOutputs c comp root props) := by
  unfold setWhileOutputs
  split
  · induction root.operands generalizing props with
    | nil => exact fun _ => rfl
    | cons operand operands ih =>
      intro id
      rw [List.foldl_cons, ih id, additive_setEquivalent]
  · exact fun id => additive_setEquivalent _ id

/-- What one instruction does to the lists: a list grows by a loop input, or it is replaced by
the list of an instruction that the operand is a term of. -/
structure LocalStep (p : HloProgram) (reducer : ℕ → Option ℕ) (c : HloComputation)
    (i : HloInstruction) (props props' : BackwardProperties) : Prop where
  origin : ∀ id g, g ∈ (props' id).additiveToWhileInput → g ∈ (props id).additiveToWhileInput ∨
    (∃ a b, CountsAsInput c i.id a b g ∧ (id = i.id ∨ id = b)) ∨
    (g ∈ (props i.id).additiveToWhileInput ∧ SumOperand p reducer c i.id id ∧
      ∀ a b h, ¬ CountsAsInput c i.id a b h)
  kept : ∀ id, id ∉ i.operands →
    ∀ g ∈ (props id).additiveToWhileInput, g ∈ (props' id).additiveToWhileInput
  counted : ∀ a b g, CountsAsInput c i.id a b g → g ∈ (props' i.id).additiveToWhileInput
  looked : ∀ a b, AddsTo c i.id a b → ∃ input, dealiased c a = ok input

variable {i : HloInstruction}

theorem not_countsAsInput (hi : c.instruction i.id = some i) (hadd : i.opcode ≠ .other "add")
    (a b g : ℕ) : ¬ CountsAsInput c i.id a b g := by
  rintro ⟨j, hj, hopcode, -⟩
  obtain rfl := Option.some.inj (hi.symm.trans hj)
  exact hadd hopcode

theorem not_addsTo (hi : c.instruction i.id = some i) (hadd : i.opcode ≠ .other "add")
    (a b : ℕ) : ¬ AddsTo c i.id a b := by
  rintro ⟨j, hj, hopcode, -⟩
  obtain rfl := Option.some.inj (hi.symm.trans hj)
  exact hadd hopcode

theorem LocalStep.of_same (hi : c.instruction i.id = some i) (hadd : i.opcode ≠ .other "add")
    (h : SameAdditive props props') : LocalStep p reducer c i props props' where
  origin id _ hg := Or.inl (h id ▸ hg)
  kept id _ _ hg := h id ▸ hg
  counted a b g hcounts := absurd hcounts (not_countsAsInput hi hadd a b g)
  looked a b hadds := absurd hadds (not_addsTo hi hadd a b)

/-- The list goes on to the first operand. -/
theorem LocalStep.of_flow (hi : c.instruction i.id = some i) (hadd : i.opcode ≠ .other "add")
    {operand : ℕ} (hoperand : i.operands[0]? = some operand)
    (hsum : SumOperand p reducer c i.id operand)
    (h : ∀ id, (props' id).additiveToWhileInput =
      if id = operand then (props i.id).additiveToWhileInput
      else (props id).additiveToWhileInput) : LocalStep p reducer c i props props' where
  origin id g hg := by
    rw [h] at hg
    split at hg
    · rename_i heq
      exact Or.inr (Or.inr ⟨hg, heq ▸ hsum, not_countsAsInput hi hadd⟩)
    · exact Or.inl hg
  kept id hid g hg := by
    rw [h, if_neg]
    · exact hg
    · rintro rfl
      exact hid (List.mem_of_getElem? hoperand)
  counted a b g hcounts := absurd hcounts (not_countsAsInput hi hadd a b g)
  looked a b hadds := absurd hadds (not_addsTo hi hadd a b)

theorem additive_pushLoopInput {sum other input : ℕ} (hne : other ≠ sum) (id : ℕ) :
    (pushLoopInput sum other input props id).additiveToWhileInput =
      if id = sum ∨ id = other then (props id).additiveToWhileInput ++ [input]
      else (props id).additiveToWhileInput := by
  unfold pushLoopInput
  simp only [additive_setAdditive, if_neg hne]
  rcases eq_or_ne id other with rfl | hother
  · simp
  · rcases eq_or_ne id sum with rfl | hsum
    · simp [hother]
    · simp [hother, hsum]

/-- An operand that counts as a loop input is found before the lists of the operands are
replaced. -/
theorem LocalStep.of_push {a b g : ℕ} (hcounts : CountsAsInput c i.id a b g)
    (hlooked : ∀ a b, AddsTo c i.id a b → ∃ input, dealiased c a = ok input)
    (hunique : ∀ a' b' g', CountsAsInput c i.id a' b' g' → g' = g)
    (h : ∀ id, (props' id).additiveToWhileInput =
      if id = i.id ∨ id = b then (props id).additiveToWhileInput ++ [g]
      else (props id).additiveToWhileInput) : LocalStep p reducer c i props props' where
  origin id h' hg := by
    rw [h] at hg
    split at hg
    · rename_i hid
      rcases List.mem_append.mp hg with hg | hg
      · exact Or.inl hg
      · obtain rfl := List.mem_singleton.mp hg
        exact Or.inr (Or.inl ⟨a, b, hcounts, hid⟩)
    · exact Or.inl hg
  kept id _ g' hg := by
    rw [h]
    split
    · exact List.mem_append_left _ hg
    · exact hg
  counted a' b' g' hcounts' := by
    obtain rfl := hunique a' b' g' hcounts'
    rw [h, if_pos (Or.inl rfl)]
    simp
  looked := hlooked

/-- Neither operand counts, and the list may go on to both of them. -/
theorem LocalStep.of_terms {lhs rhs : ℕ} (hlhs : lhs ∈ i.operands) (hrhs : rhs ∈ i.operands)
    (hadds : AddsTo c i.id lhs rhs) (hnone : ∀ a b g, ¬ CountsAsInput c i.id a b g)
    (hlooked : ∀ a b, AddsTo c i.id a b → ∃ input, dealiased c a = ok input)
    (h : ∀ id, (props' id).additiveToWhileInput = (props id).additiveToWhileInput ∨
      (id = lhs ∨ id = rhs) ∧
        (props' id).additiveToWhileInput = (props i.id).additiveToWhileInput) :
    LocalStep p reducer c i props props' where
  origin id g hg := by
    rcases h id with hsame | ⟨hoperand, hflow⟩
    · exact Or.inl (hsame ▸ hg)
    · refine Or.inr (Or.inr ⟨hflow ▸ hg, Or.inl ?_, hnone⟩)
      rcases hoperand with rfl | rfl
      · exact hadds.symm.linear
      · exact hadds.linear
  kept id hid g hg := by
    rcases h id with hsame | ⟨rfl | rfl, -⟩
    · exact hsame ▸ hg
    · exact absurd hlhs hid
    · exact absurd hrhs hid
  counted a b g hcounts := absurd hcounts (hnone a b g)
  looked := hlooked

theorem additive_propagateToTerm (c : HloComputation) (src target : ℕ)
    (props : BackwardProperties) (id : ℕ) :
    (propagateToTerm c src target props id).additiveToWhileInput =
        (props id).additiveToWhileInput ∨
      id = target ∧ (propagateToTerm c src target props id).additiveToWhileInput =
        (props src).additiveToWhileInput := by
  unfold propagateToTerm
  split
  · rw [propagateAdditiveElementwise, additive_setAdditive, additive_propagateElementwise]
    split
    · rename_i heq
      exact Or.inr ⟨heq, rfl⟩
    · exact Or.inl rfl
  · exact Or.inl rfl

theorem localStep_addSum (hi : c.instruction i.id = some i) (hadd : i.opcode = .other "add")
    (hself : i.id ∉ i.operands) (hrun : addSum c i props = ok props') :
    LocalStep p reducer c i props props' := by
  obtain ⟨lhs, hlhs, hrun⟩ := bind_eq_ok.mp hrun
  obtain ⟨lhsInstruction, hlhsInstruction, hrun⟩ := bind_eq_ok.mp hrun
  obtain ⟨lhsInput, hlhsInput, hrun⟩ := bind_eq_ok.mp hrun
  obtain ⟨rhs, hrhs, hrun⟩ := bind_eq_ok.mp hrun
  obtain ⟨rhsInstruction, hrhsInstruction, hrun⟩ := bind_eq_ok.mp hrun
  obtain ⟨rhsInput, hrhsInput, hrun⟩ := bind_eq_ok.mp hrun
  rw [elementAt_eq_ok] at hlhs hrhs
  have hleft : dealiased c lhs = ok lhsInput := by
    rw [dealiased, hlhsInstruction, ok_bind, hlhsInput]
  have hright : dealiased c rhs = ok rhsInput := by
    rw [dealiased, hrhsInstruction, ok_bind, hrhsInput]
  have hlhsNe : lhs ≠ i.id := fun heq => hself (heq ▸ List.mem_of_getElem? hlhs)
  have hrhsNe : rhs ≠ i.id := fun heq => hself (heq ▸ List.mem_of_getElem? hrhs)
  have hlooked : ∀ a b, AddsTo c i.id a b → ∃ input, dealiased c a = ok input := by
    rintro a b ⟨j, hj, -, h⟩
    obtain rfl := Option.some.inj (hi.symm.trans hj)
    rw [hlhs, hrhs] at h
    rcases h with ⟨ha, -⟩ | ⟨-, ha⟩
    · exact ⟨lhsInput, Option.some.inj ha ▸ hleft⟩
    · exact ⟨rhsInput, Option.some.inj ha ▸ hright⟩
  -- which operand counts is decided by the two results
  have hcounted : ∀ a b g, CountsAsInput c i.id a b g →
      a = lhs ∧ b = rhs ∧ lhsInput = some g ∨
        a = rhs ∧ b = lhs ∧ rhsInput = some g ∧ lhsInput = none := by
    rintro a b g ⟨j, hj, -, h⟩
    obtain rfl := Option.some.inj (hi.symm.trans hj)
    rw [hlhs, hrhs] at h
    rcases h with ⟨ha, hb, hg⟩ | ⟨hb, ha, hg, hnone⟩
    · obtain rfl := Option.some.inj ha
      obtain rfl := Option.some.inj hb
      exact Or.inl ⟨rfl, rfl, ok.inj (hleft.symm.trans hg)⟩
    · obtain rfl := Option.some.inj ha
      obtain rfl := Option.some.inj hb
      exact Or.inr ⟨rfl, rfl, ok.inj (hright.symm.trans hg), ok.inj (hleft.symm.trans hnone)⟩
  cases lhsInput with
  | some g =>
    have hcounts : CountsAsInput c i.id lhs rhs g := ⟨i, hi, hadd, Or.inl ⟨hlhs, hrhs, hleft⟩⟩
    refine LocalStep.of_push hcounts hlooked ?_ ?_
    · intro a b g' h
      rcases hcounted a b g' h with ⟨-, -, heq⟩ | ⟨-, -, -, hnone⟩
      · exact (Option.some.inj heq).symm
      · cases hnone
    · intro id
      rw [← ok.inj hrun, additive_pushLoopInput hrhsNe]
      simp
  | none =>
    cases rhsInput with
    | some g =>
      have hcounts : CountsAsInput c i.id rhs lhs g :=
        ⟨i, hi, hadd, Or.inr ⟨hlhs, hrhs, hright, hleft⟩⟩
      refine LocalStep.of_push hcounts hlooked ?_ ?_
      · intro a b g' h
        rcases hcounted a b g' h with ⟨-, -, heq⟩ | ⟨-, -, heq, -⟩
        · cases heq
        · exact (Option.some.inj heq).symm
      · intro id
        rw [← ok.inj hrun, additive_pushLoopInput hlhsNe]
        simp
    | none =>
      have hnone : ∀ a b g, ¬ CountsAsInput c i.id a b g := by
        intro a b g h
        rcases hcounted a b g h with ⟨-, -, heq⟩ | ⟨-, -, heq, -⟩ <;> cases heq
      refine LocalStep.of_terms (List.mem_of_getElem? hlhs) (List.mem_of_getElem? hrhs)
        ⟨i, hi, hadd, Or.inl ⟨hlhs, hrhs⟩⟩ hnone hlooked ?_
      intro id
      dsimp only at hrun
      split at hrun
      · rw [← ok.inj hrun]
        exact Or.inl (by simp)
      · rw [← ok.inj hrun]
        set props₁ := propagateElementwise i.id rhs (propagateElementwise i.id lhs props)
          with hprops₁
        have hsame : ∀ id, (props₁ id).additiveToWhileInput = (props id).additiveToWhileInput := by
          simp [hprops₁]
        have hsum : (propagateToTerm c i.id lhs props₁ i.id).additiveToWhileInput =
            (props i.id).additiveToWhileInput := by
          rcases additive_propagateToTerm c i.id lhs props₁ i.id with heq | ⟨heq, -⟩
          · rw [heq, hsame]
          · exact absurd heq.symm hlhsNe
        rcases additive_propagateToTerm c i.id rhs (propagateToTerm c i.id lhs props₁) id with
          hright | ⟨hid, hright⟩
        · rcases additive_propagateToTerm c i.id lhs props₁ id with hleft | ⟨hid, hleft⟩
          · exact Or.inl (by rw [hright, hleft, hsame])
          · exact Or.inr ⟨Or.inl hid, by rw [hright, hleft, hsame]⟩
        · exact Or.inr ⟨Or.inr hid, by rw [hright, hsum]⟩

theorem localStep_addReduce (hi : c.instruction i.id = some i) (hop : i.opcode = .other "reduce")
    (hrun : addReduce p reducer i props = ok props') : LocalStep p reducer c i props props' := by
  obtain ⟨n, hn, hrun⟩ := bind_eq_ok.mp hrun
  obtain ⟨comp, hcomp, hrun⟩ := bind_eq_ok.mp hrun
  obtain ⟨root, hroot, hrun⟩ := bind_eq_ok.mp hrun
  rw [deref_eq_ok] at hn
  split at hrun
  · rename_i hsum
    obtain ⟨operand, hoperand, hrun⟩ := bind_eq_ok.mp hrun
    rw [elementAt_eq_ok] at hoperand
    apply LocalStep.of_flow hi (by simp [hop]) hoperand
      (Or.inr ⟨i, hi, ⟨hop, n, comp, root, hn, hcomp, hroot, hsum⟩, hoperand⟩)
    intro id
    rw [← ok.inj hrun, additive_setAdditive]
  · obtain rfl := ok.inj hrun
    exact .of_same hi (by simp [hop]) fun _ => rfl

/-- Every instruction that calls nothing takes such a step. -/
theorem localStep_addBackwardInstruction (hi : c.instruction i.id = some i)
    (hself : i.id ∉ i.operands) (hcall : ∀ n, i.opcode ≠ .call n)
    (hloop : ∀ n, i.opcode ≠ .whileLoop n)
    {visit : HloComputation → BackwardProperties → StatusOr BackwardProperties}
    (hrun : addBackwardInstruction p reducer c visit props i = ok props') :
    LocalStep p reducer c i props props' := by
  unfold addBackwardInstruction at hrun
  cases hop : i.opcode with
  | call n => exact absurd hop (hcall n)
  | whileLoop n => exact absurd hop (hloop n)
  | customCall target =>
    rw [hop] at hrun
    dsimp only at hrun
    split at hrun
    · rename_i hnoOp
      obtain ⟨operand, hoperand, hrun⟩ := bind_eq_ok.mp hrun
      rw [elementAt_eq_ok] at hoperand
      apply LocalStep.of_flow hi (by simp [hop]) hoperand
        (Or.inl (Or.inr ⟨i, hi, Or.inl hnoOp, hoperand⟩))
      intro id
      rw [← ok.inj hrun, propagateNoOpElementwise, additive_setAdditive]
      simp
    · obtain rfl := ok.inj hrun
      exact .of_same hi (by simp [hop]) fun _ => rfl
  | other mnemonic =>
    rw [hop] at hrun
    dsimp only at hrun
    by_cases hadd : mnemonic = "add"
    · rw [if_pos hadd] at hrun
      exact localStep_addSum hi (by rw [hop, hadd]) hself hrun
    · have hadd : i.opcode ≠ .other "add" := fun heq => hadd (by rw [hop] at heq; simpa using heq)
      rw [if_neg ‹_›] at hrun
      split at hrun
      · rename_i hreduce
        exact localStep_addReduce hi (by rw [hop, hreduce]) hrun
      · split at hrun
        · rename_i hpreserving
          obtain ⟨operand, hoperand, hrun⟩ := bind_eq_ok.mp hrun
          rw [elementAt_eq_ok] at hoperand
          apply LocalStep.of_flow hi hadd hoperand
            (Or.inl (Or.inr ⟨i, hi, Or.inr ⟨mnemonic, hop, hpreserving⟩, hoperand⟩))
          intro id
          rw [← ok.inj hrun, propagateNoOpElementwise, additive_setAdditive]
          simp
        · apply LocalStep.of_same hi hadd
          intro id
          split at hrun
          · obtain ⟨lhs, -, hrun⟩ := bind_eq_ok.mp hrun
            obtain ⟨rhs, -, hrun⟩ := bind_eq_ok.mp hrun
            rw [← ok.inj hrun]
            simp
          · split at hrun
            · obtain ⟨operand, -, hrun⟩ := bind_eq_ok.mp hrun
              rw [← ok.inj hrun]
              simp
            · rw [← ok.inj hrun]
  | _ =>
    rw [hop] at hrun
    obtain rfl := ok.inj hrun
    exact .of_same hi (by simp [hop]) fun _ => rfl

end step

end InstructionProperties
end MultiMeshJax
