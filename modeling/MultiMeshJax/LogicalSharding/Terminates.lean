import MultiMeshJax.LogicalSharding.Steps

/-! The propagation of logical axes comes to an end and delivers them just when its steps have
what they need, and above all when no call that it visits has an operand. -/
namespace MultiMeshJax
namespace LogicalSharding

open StatusOr Worklist

section sound

variable {input : Input} {props : InstructionProperties}

/-- What stays true of the graph: no value depends on itself, and a call that is to be removed is
not used. -/
structure Sound (input : Input) (st : State) : Prop where
  before : ∀ i ∈ input.program.instructions, ∀ operand ∈ st.operands i.id,
    input.order operand < input.order i.id
  unused : ∀ id ∈ st.instructionsToRemove, id ∉ st.roots ∧
    ∀ i ∈ input.program.instructions, id ∉ st.operands i.id
  once : st.instructionsToRemove.Nodup
  length : ∀ id, (st.operands id).length = ((initialState input).operands id).length

theorem sound_initialState : Sound input (initialState input) where
  before i hi operand hoperand := by
    have hoperands : (initialState input).operands i.id = i.operands := by
      simp [initialState, HloProgram.instruction_of_mem hi]
    exact input.operands_before i hi operand (hoperands ▸ hoperand)
  unused id hid := by cases hid
  once := List.nodup_nil
  length _ := rfl

theorem Sound.sameGraph {st st' : State} (h : Sound input st) (hsame : SameGraph st st') :
    Sound input st' where
  before := by
    rw [hsame.operands]
    exact h.before
  unused := by
    rw [hsame.instructionsToRemove, hsame.roots, hsame.operands]
    exact h.unused
  once := by
    rw [hsame.instructionsToRemove]
    exact h.once
  length := by
    rw [hsame.operands]
    exact h.length

/-- The uses of a call go to its operand, which comes before it. -/
theorem Sound.replaceAllUsesWith {st : State} (h : Sound input st) {i : HloInstruction}
    (hi : i ∈ input.program.instructions) {operand : ℕ}
    (hoperand : (st.operands i.id)[0]? = some operand) (hnew : i.id ∉ st.instructionsToRemove) :
    Sound input { st.replaceAllUsesWith i.id operand with
      instructionsToRemove := st.instructionsToRemove ++ [i.id] } := by
  have hmem : operand ∈ st.operands i.id := List.mem_of_getElem? hoperand
  have hbefore := h.before i hi operand hmem
  have hne : operand ≠ i.id := fun heq => (heq ▸ hbefore).false
  -- a value that is not used before is not used after, and neither is the call
  have hreplaced : ∀ ids : List ℕ, ∀ id, (id ∉ ids ∧ id ∈ st.instructionsToRemove) ∨ id = i.id →
      id ∉ ids.map fun x => if x = i.id then operand else x := by
    intro ids id hid hin
    obtain ⟨x, hx, heq⟩ := List.mem_map.mp hin
    split at heq
    · subst heq
      rcases hid with ⟨-, hremoved⟩ | rfl
      · exact (h.unused operand hremoved).2 i hi hmem
      · exact hne rfl
    · next hother =>
      subst heq
      rcases hid with ⟨hnot, -⟩ | rfl
      · exact hnot hx
      · exact hother rfl
  constructor
  · intro j hj o ho
    simp only [State.replaceAllUsesWith] at ho
    split at ho
    · exact h.before j hj o ho
    · obtain ⟨x, hx, heq⟩ := List.mem_map.mp ho
      have hx' := h.before j hj x hx
      split at heq
      · next hcall =>
        subst hcall heq
        exact hbefore.trans hx'
      · exact heq ▸ hx'
  · intro id hid
    have hid' : id ∈ st.instructionsToRemove ∨ id = i.id := by
      simpa using hid
    constructor
    · apply hreplaced
      rcases hid' with hremoved | heq
      · exact .inl ⟨(h.unused id hremoved).1, hremoved⟩
      · exact .inr heq
    · intro j hj hin
      simp only [State.replaceAllUsesWith] at hin
      split at hin
      · next hproducer =>
        rcases hid' with hremoved | rfl
        · exact (h.unused id hremoved).2 j hj (hproducer ▸ hin)
        · have hafter := h.before j hj i.id (hproducer ▸ hin)
          rw [hproducer] at hafter
          omega
      · revert hin
        apply hreplaced
        rcases hid' with hremoved | heq
        · exact .inl ⟨(h.unused id hremoved).2 j hj, hremoved⟩
        · exact .inr heq
  · apply List.Nodup.append h.once (List.nodup_singleton _)
    intro id hid heq
    exact hnew (List.mem_singleton.mp heq ▸ hid)
  · intro id
    simp only [State.replaceAllUsesWith]
    split
    · exact h.length id
    · rw [List.length_map]
      exact h.length id

/-- What a step needs, and that no sharding call is visited again. -/
def Meets (input : Input) (props : InstructionProperties) (st : State) (i : HloInstruction) :
    Prop :=
  StepFits input props st i ∧
    (i.isCustomCall kCustomCallAutoSharding = true → i.id ∉ st.instructionsToRemove)

theorem Sound.propagateInstruction {st st' : State} (h : Sound input st) {i : HloInstruction}
    (hi : i ∈ input.program.instructions) (hmeets : Meets input props st i)
    (hstep : propagateInstruction input props st i = ok st') : Sound input st' := by
  rcases propagateInstruction_cases hstep with ⟨hsharding, operand, hoperand, hsame⟩ | ⟨-, hsame⟩
  · exact (h.replaceAllUsesWith hi hoperand (hmeets.2 hsharding)).sameGraph hsame
  · exact h.sameGraph hsame

/-- The steps in a computation have what they need. -/
def VisitMeets (input : Input) (props : InstructionProperties) (st : State) (c : HloComputation) :
    Prop :=
  ∀ done i rest, c.instructions = done ++ i :: rest →
    ∀ st', done.foldlM (LogicalSharding.propagateInstruction input props) st = ok st' →
      Meets input props st' i

theorem Sound.visitComputation {st st' : State} {c : HloComputation} {pushed : List HloComputation}
    (h : Sound input st) (hc : c ∈ input.program.computations)
    (hmeets : VisitMeets input props st c)
    (hvisit : visitComputation input props st c = ok (st', pushed)) : Sound input st' := by
  obtain ⟨st₁, hrun, hst⟩ := bind_eq_ok.mp hvisit
  obtain ⟨rfl, -⟩ := Prod.mk.inj (ok.inj hst)
  have hall := foldlM_prefix (fun done st₂ =>
    done.foldlM (LogicalSharding.propagateInstruction input props) st = ok st₂ ∧ Sound input st₂)
    hrun ⟨rfl, h⟩ (by
      rintro done i ⟨rest, hsplit⟩ st₂ st₃ ⟨hdone, hsound⟩ hstep
      have hsplit' : c.instructions = done ++ i :: rest := by simpa using hsplit.symm
      have hi : i ∈ c.instructions := by
        rw [hsplit']
        exact List.mem_append_right _ (List.mem_cons_self ..)
      have hnext := hsound.propagateInstruction (HloProgram.mem_instructions hc hi)
        (hmeets done i rest hsplit' st₂ hdone) hstep
      refine ⟨?_, hnext⟩
      rw [List.foldlM_append, hdone, ok_bind, List.foldlM_cons, hstep]
      rfl)
  exact hall.2

end sound

section visits

variable {input : Input} {props : InstructionProperties}

/-- The computations that a visit pushes. -/
def pushedBy (input : Input) (c : HloComputation) : List HloComputation :=
  (c.instructions.flatMap (toVisit input)).reverse

theorem visitComputation_pushes (st : State) (c : HloComputation) (st' : State)
    (pushed : List HloComputation)
    (h : visitComputation input props st c = ok (st', pushed)) : pushed = pushedBy input c := by
  obtain ⟨st₁, -, h⟩ := bind_eq_ok.mp h
  exact (Prod.mk.inj (ok.inj h)).2.symm

theorem mem_pushedBy {b c : HloComputation} (h : b ∈ pushedBy input c) :
    ∃ i ∈ c.instructions, ∃ n ∈ input.calledComputations i.id,
      input.program.called[n]? = some b := by
  rw [pushedBy, List.mem_reverse] at h
  obtain ⟨i, hi, hb⟩ := List.mem_flatMap.mp h
  have hcalled : b ∈ (input.calledComputations i.id).filterMap (input.program.called[·]?) := by
    rcases List.mem_append.mp hb with hfirst | hb
    · split at hfirst
      · exact List.mem_of_mem_take hfirst
      · cases hfirst
    · exact hb
  obtain ⟨n, hn, hget⟩ := List.mem_filterMap.mp hcalled
  exact ⟨i, hi, n, hn, hget⟩

theorem mem_computations_of_pushed {b c : HloComputation} (h : b ∈ pushedBy input c) :
    b ∈ input.program.computations := by
  obtain ⟨-, -, n, -, hget⟩ := mem_pushedBy h
  exact List.mem_cons_of_mem _ (List.mem_of_getElem? hget)

/-- A computation that is called is worked off: those that it calls are deeper. -/
theorem acc_called {bound n : ℕ} {c : HloComputation} (hc : input.program.called[n]? = some c)
    (hlevel : input.level n < bound) : Acc (fun b c => b ∈ pushedBy input c) c := by
  induction bound generalizing n c with
  | zero => omega
  | succ bound ih =>
    apply Acc.intro
    intro b hb
    obtain ⟨i, hi, m, hm, hget⟩ := mem_pushedBy hb
    have hdeeper := input.calls_deeper n c hc i hi m hm
    exact ih hget (by omega)

theorem acc_entry : Acc (fun b c => b ∈ pushedBy input c) input.program.entry := by
  apply Acc.intro
  intro b hb
  obtain ⟨-, -, m, -, hget⟩ := mem_pushedBy hb
  exact acc_called hget (Nat.lt_succ_self _)

theorem exists_visitComputation {st : State} {c : HloComputation}
    (h : VisitMeets input props st c) :
    ∃ next, visitComputation input props st c = ok next := by
  obtain ⟨st', hrun⟩ := exists_foldlM_iff.mpr fun done i rest hsplit st₁ hdone =>
    exists_propagateInstruction_iff.mpr (h done i rest hsplit st₁ hdone).1
  exact ⟨(st', pushedBy input c), by rw [visitComputation, hrun]; rfl⟩

/-- The graph stays sound, and only computations of the module are visited, from wherever the
steps have what they need. -/
theorem sound_of_reaches {st st' : State} {stack stack' : List HloComputation}
    (h : Reaches (visitComputation input props) st stack st' stack')
    (hmeets : ∀ st₁ c rest, Reaches (visitComputation input props) st stack st₁ (c :: rest) →
      VisitMeets input props st₁ c)
    (hsound : Sound input st) (hstack : ∀ c ∈ stack, c ∈ input.program.computations) :
    Sound input st' ∧ ∀ c ∈ stack', c ∈ input.program.computations := by
  induction h with
  | refl => exact ⟨hsound, hstack⟩
  | @visit st₀ st₁ st₂ a pushed rest stack₂ hvisit hrest ih =>
    have ha := hstack a (List.mem_cons_self ..)
    apply ih
    · intro st₃ c rest' hreach
      exact hmeets st₃ c rest' (.visit hvisit hreach)
    · exact hsound.visitComputation ha (hmeets st₀ a rest (.refl _ _)) hvisit
    · intro c hc
      rw [visitComputation_pushes _ _ _ _ hvisit] at hc
      rcases List.mem_append.mp hc with hpushed | hc
      · exact mem_computations_of_pushed hpushed
      · exact hstack c (List.mem_cons_of_mem _ hc)

end visits

section removal

variable {input : Input} {props : InstructionProperties}

theorem prefix_propagateInstruction {st st' : State} {i : HloInstruction}
    (h : propagateInstruction input props st i = ok st') :
    (st.instructionsToRemove ++ if i.isCustomCall kCustomCallAutoSharding then [i.id] else []) =
      st'.instructionsToRemove := by
  rcases propagateInstruction_cases h with ⟨hsharding, operand, -, hsame⟩ | ⟨hother, hsame⟩
  · rw [if_pos hsharding, hsame.instructionsToRemove]
  · rw [if_neg (by simp [hother]), List.append_nil, hsame.instructionsToRemove]

theorem prefix_foldlM {is : List HloInstruction} {st st' : State}
    (h : is.foldlM (propagateInstruction input props) st = ok st') :
    st.instructionsToRemove <+: st'.instructionsToRemove :=
  foldlM_invariant (fun st₁ => st.instructionsToRemove <+: st₁.instructionsToRemove) h
    (List.prefix_refl _) fun _ _ _ _ hprefix hstep =>
      hprefix.trans ⟨_, prefix_propagateInstruction hstep⟩

theorem prefix_of_reaches {st st' : State} {stack stack' : List HloComputation}
    (h : Reaches (visitComputation input props) st stack st' stack') :
    st.instructionsToRemove <+: st'.instructionsToRemove := by
  induction h with
  | refl => exact List.prefix_refl _
  | visit hvisit _ ih =>
    obtain ⟨st₁, hrun, hst⟩ := bind_eq_ok.mp hvisit
    obtain ⟨rfl, -⟩ := Prod.mk.inj (ok.inj hst)
    exact (prefix_foldlM hrun).trans ih

theorem removeInstruction_eq_ok {st : State} {removed removed' : List ℕ} {id : ℕ}
    (h : removeInstruction input st removed id = ok removed') :
    id ∉ removed ∧ id :: removed = removed' := by
  unfold removeInstruction at h
  split at h
  · cases h
  · next hnew =>
    split at h
    · cases h
    · exact ⟨hnew, ok.inj h⟩

theorem removeInstruction_of_unused {st : State} {removed : List ℕ} {id : ℕ} (hnew : id ∉ removed)
    (hroots : id ∉ st.roots) (hunused : ∀ i ∈ input.program.instructions, id ∉ st.operands i.id) :
    removeInstruction input st removed id = ok (id :: removed) := by
  have husers : users input st id = [] := by
    rw [users, List.filter_eq_nil_iff]
    intro i hi
    simpa using hunused i hi
  simp [removeInstruction, hnew, hroots, husers]

/-- No call is removed twice. -/
theorem nodup_of_removeInstructions {ids removed : List ℕ} {st : State}
    (h : ids.foldlM (removeInstruction input st) [] = ok removed) : ids.Nodup := by
  have hall := foldlM_prefix (fun done removed => removed = done.reverse ∧ done.Nodup) h
    ⟨rfl, List.nodup_nil⟩ (by
      rintro done id - removed removed' ⟨rfl, hdone⟩ hstep
      obtain ⟨hnew, rfl⟩ := removeInstruction_eq_ok hstep
      refine ⟨by simp, ?_⟩
      rw [List.mem_reverse] at hnew
      apply List.Nodup.append hdone (List.nodup_singleton id)
      intro x hx heq
      exact hnew (List.mem_singleton.mp heq ▸ hx))
  exact hall.2

/-- The calls that are to be removed can be, as they are used no more. -/
theorem Sound.exists_removeInstructions {st : State} (h : Sound input st) :
    ∃ removed, st.instructionsToRemove.foldlM (removeInstruction input st) [] = ok removed := by
  obtain ⟨removed, hrun, -⟩ := exists_foldlM_eq_ok (fun done removed => removed = done.reverse)
    (f := removeInstruction input st) (l := st.instructionsToRemove) (b := []) rfl (by
      rintro done id ⟨rest, hsplit⟩ removed rfl
      have hid : id ∈ st.instructionsToRemove := by
        rw [← hsplit]
        simp
      have hnew : id ∉ done.reverse := by
        have honce := h.once
        rw [← hsplit, List.append_assoc, List.singleton_append] at honce
        have hdisjoint := (List.nodup_append'.mp honce).2.2
        intro hin
        exact hdisjoint (List.mem_reverse.mp hin) (List.mem_cons_self ..)
      exact ⟨id :: done.reverse, removeInstruction_of_unused hnew (h.unused id hid).1
        (h.unused id hid).2, by simp⟩)
  exact ⟨removed, hrun⟩

end removal

section run

variable (input : Input) (props : InstructionProperties)

/-- The states that the loop over the computations comes to, with what it still has to visit. -/
def Reached (st : State) (stack : List HloComputation) : Prop :=
  Reaches (visitComputation input props) (initialState input) [input.program.entry] st stack

/-- The steps after the loop have what they need. -/
def ShareMeets (st : State) : Prop :=
  ∀ done entry rest, input.inputOutputAliasConfig = done ++ entry :: rest →
    ∀ st', done.foldlM (shareAliasedAxes input props) st = ok st' → AliasFits input props st' entry

/-- The parameters of the callees that were visited have the axes of the operands. -/
def Delivered (st : State) : Prop :=
  ∀ st₁ c rest, Reached input props st₁ (c :: rest) → ∀ i ∈ c.instructions, ∀ n,
    i.opcode = .call n → ∀ callee, input.program.calledComputation n = ok callee →
      ∀ index operand axes, (st.operands i.id)[index]? = some operand →
        getAxesString (st.attributes operand) = some axes →
          ∃ param, parameterInstruction callee index = ok param ∧
            getAxesString (st.attributes param.id) = some axes

variable {input props}

theorem run_eq_ok {rounds : ℕ} {st : State} : run input rounds = ok st ↔
    ∃ props, InstructionProperties.create input.program = ok props ∧ ∃ st₁,
      drain (visitComputation input props) rounds (initialState input) [input.program.entry] =
        ok st₁ ∧
      input.inputOutputAliasConfig.foldlM (shareAliasedAxes input props) st₁ = ok st ∧
      ∃ removed, st.instructionsToRemove.foldlM (removeInstruction input st) [] = ok removed := by
  simp only [run, bind_eq_ok, pure_eq, ok.injEq]
  constructor
  · rintro ⟨props, hprops, st₁, hdrain, st₂, hshare, removed, hremoved, rfl⟩
    exact ⟨props, hprops, st₁, hdrain, hshare, removed, hremoved⟩
  · rintro ⟨props, hprops, st₁, hdrain, hshare, removed, hremoved⟩
    exact ⟨props, hprops, st₁, hdrain, st, hshare, removed, hremoved, rfl⟩

theorem sameGraph_shareAll {entries : List (List ℕ × ℕ)} {st st' : State}
    (h : entries.foldlM (shareAliasedAxes input props) st = ok st') : SameGraph st st' :=
  foldlM_invariant (SameGraph st) h (SameGraph.refl st)
    fun _ _ _ _ hsame hstep => hsame.trans (sameGraph_shareAliasedAxes hstep)

/-- The steps of a run that returns had what they needed. -/
theorem visitMeets_of_reached {st₁ stEnd : State} {c : HloComputation}
    {rest : List HloComputation} (hend : Reached input props stEnd [])
    (honce : stEnd.instructionsToRemove.Nodup) (h : Reached input props st₁ (c :: rest)) :
    VisitMeets input props st₁ c := by
  intro done i left hsplit st₂ hdone
  cases reaches_end hend h with
  | visit hvisit hrest =>
    obtain ⟨st₃, hrun, hst⟩ := bind_eq_ok.mp hvisit
    obtain ⟨rfl, rfl⟩ := Prod.mk.inj (ok.inj hst)
    rw [hsplit, List.foldlM_append, hdone, ok_bind] at hrun
    obtain ⟨st₄, hstep, hleft⟩ := bind_eq_ok.mp hrun
    refine ⟨exists_propagateInstruction_iff.mp ⟨st₄, hstep⟩, ?_⟩
    intro hsharding hremoved
    have hlast := prefix_propagateInstruction hstep
    rw [if_pos hsharding] at hlast
    have hsublist : (st₂.instructionsToRemove ++ [i.id]).Sublist stEnd.instructionsToRemove := by
      rw [hlast]
      exact ((prefix_foldlM hleft).trans (prefix_of_reaches hrest)).sublist
    have hnodup := hsublist.nodup honce
    exact (List.nodup_append'.mp hnodup).2.2 hremoved (List.mem_singleton_self _)

theorem meets_of_run {rounds : ℕ} {st : State} (h : run input rounds = ok st) :
    ∃ props, InstructionProperties.create input.program = ok props ∧
      (∀ st₁ c rest, Reached input props st₁ (c :: rest) → VisitMeets input props st₁ c) ∧
      ∀ st₁, Reached input props st₁ [] → ShareMeets input props st₁ := by
  obtain ⟨props, hprops, stEnd, hdrain, hshare, removed, hremoved⟩ := run_eq_ok.mp h
  have hend : Reached input props stEnd [] := reaches_of_drain hdrain
  have hsame := sameGraph_shareAll hshare
  have honce : stEnd.instructionsToRemove.Nodup := by
    rw [← hsame.instructionsToRemove]
    exact nodup_of_removeInstructions hremoved
  refine ⟨props, hprops, fun st₁ c rest hreach => visitMeets_of_reached hend honce hreach, ?_⟩
  intro st₁ hreach done entry left hsplit st₂ hdone
  cases reaches_end hend hreach with
  | refl =>
    apply exists_shareAliasedAxes_iff.mp
    exact exists_foldlM_iff.mp ⟨st, hshare⟩ done entry left hsplit st₂ hdone

theorem length_operands_foldlM {is : List HloInstruction} {st st' : State}
    (h : is.foldlM (propagateInstruction input props) st = ok st') (id : ℕ) :
    (st'.operands id).length = (st.operands id).length := by
  apply foldlM_invariant (fun st₁ => (st₁.operands id).length = (st.operands id).length) h rfl
  intro i _ st₁ st₂ hlength hstep
  rw [← hlength]
  rcases propagateInstruction_cases hstep with ⟨-, operand, -, hsame⟩ | ⟨-, hsame⟩
  · rw [hsame.operands]
    simp only [State.replaceAllUsesWith]
    split
    · rfl
    · exact List.length_map _
  · rw [hsame.operands]

/-- A call that was visited has no operands to deliver axes from. -/
theorem operands_of_call {st st₁ : State} {c : HloComputation} {i : HloInstruction} {n : ℕ}
    (hst : Sound input st) (hst₁ : Sound input st₁) (hmeets : VisitMeets input props st₁ c)
    (hi : i ∈ c.instructions) (hcall : i.opcode = .call n) : st.operands i.id = [] := by
  obtain ⟨done, left, hsplit⟩ := List.append_of_mem hi
  obtain ⟨⟨st₂, pushed⟩, hvisit⟩ := exists_visitComputation hmeets
  obtain ⟨st₃, hrun, -⟩ := bind_eq_ok.mp hvisit
  rw [hsplit, List.foldlM_append] at hrun
  obtain ⟨st₄, hdone, -⟩ := bind_eq_ok.mp hrun
  have hfits := (hmeets done i left hsplit st₄ hdone).1
  have hother : i.isCustomCall kCustomCallAutoSharding = false := by
    simp [HloInstruction.isCustomCall, hcall]
  rw [StepFits, if_neg (by simp [hother]), hcall] at hfits
  have hlength := length_operands_foldlM hdone i.id
  have hnil : (st₄.operands i.id).length = 0 := List.length_eq_zero_iff.mpr hfits
  apply List.length_eq_zero_iff.mp
  rw [hst.length, ← hst₁.length, ← hlength, hnil]

end run

/-- A module that calls a function of one operand. -/
def oneCallProgram : HloProgram where
  entry := {
    instructions := [
      { id := 0, opcode := .parameter 0, shape := .array .f32 [8] },
      { id := 1, opcode := .call 0, operands := [0], shape := .array .f32 [8] }]
    root := 1 }
  called := [{
    instructions := [{ id := 2, opcode := .parameter 0, shape := .array .f32 [8] }]
    root := 2 }]
  distinct := by decide

/-- A product of scalars. -/
def scalarDot : Dot where
  lhsRank := 0
  rhsRank := 0
  numbers := {
    lhsContracting := []
    rhsContracting := []
    lhsBatch := []
    rhsBatch := []
    lhs_nodup := List.nodup_nil
    rhs_nodup := List.nodup_nil
    lhs_range := by decide
    rhs_range := by decide
    batch_length := rfl }

theorem called_oneCall : ∀ i ∈ oneCallProgram.instructions, ∀ n, i.opcode = .call n →
    (if i.id = 1 then [0] else []) = [n] := by
  intro i hi n hn
  simp [HloProgram.instructions, HloProgram.computations, oneCallProgram] at hi
  rcases hi with rfl | rfl | rfl <;> simp_all

theorem loops_oneCall : ∀ i ∈ oneCallProgram.instructions, ∀ n, i.opcode = .whileLoop n →
    ∃ others, (if i.id = 1 then [0] else []) = n :: others := by
  intro i hi n hn
  simp [HloProgram.instructions, HloProgram.computations, oneCallProgram] at hi
  rcases hi with rfl | rfl | rfl <;> simp_all

theorem callees_oneCall : ∀ (n : ℕ) (c : HloComputation), oneCallProgram.called[n]? = some c →
    ∀ i ∈ c.instructions, ∀ m ∈ (if i.id = 1 then [0] else []), 0 < 0 := by
  intro n c hc i hi m hm
  have hmem := List.mem_of_getElem? hc
  simp [oneCallProgram] at hmem
  subst hmem
  simp at hi
  subst hi
  simp at hm

def oneCall : Input where
  program := oneCallProgram
  library := twoDocuments
  calledComputations id := if id = 1 then [0] else []
  rawBackendConfig _ := ""
  dot _ := scalarDot
  frontendAttributes _ := noAttributes
  elementwiseConnectedToEntryOutput _ := none
  inputOutputAliasConfig := []
  level _ := 0
  order id := id
  callee_called := called_oneCall
  body_called := loops_oneCall
  called_exists := by decide
  calls_deeper := callees_oneCall
  operands_before := by decide

end LogicalSharding
end MultiMeshJax
