import MultiMeshJax.LogicalSharding.Propagation

/-! When a step of the propagation of logical axes goes through, and what it leaves as it is. -/
namespace MultiMeshJax
namespace LogicalSharding

open StatusOr

section conditions

variable (input : Input) (props : InstructionProperties)

/-- A sharding call has an operand of its shape, the aliases of which have an end. -/
def ShardingFits (st : State) (i : HloInstruction) : Prop :=
  ∃ operand producer, (st.operands i.id)[0]? = some operand ∧
    input.program.instruction operand = some producer ∧
    shapesCompatible i.shape producer.shape = true ∧
    ∃ aliases, forEachAlias input props operand = ok aliases

/-- A user of the tuple takes one of its elements. -/
def ElementFits (st : State) (tuple user : HloInstruction) : Prop :=
  ∃ index, user.opcode = .getTupleElement index ∧ index < (st.operands tuple.id).length

/-- The users of the parameter or the barrier that a tuple with one user feeds take elements of
the tuple. -/
def TupleFits (st : State) (i : HloInstruction) : Prop :=
  ∀ user, users input st i.id = [user] →
    ∃ found, userTuple input user = ok found ∧
      ∀ tuple, found = some tuple → ∀ u ∈ users input st tuple.id, ElementFits st i u

/-- The names at the dimensions of the operands are there where the inference reads them. -/
def DimensionsNamed (dot : Dot) (lhsAxes rhsAxes : LogicalShardingAxes) : Prop :=
  (∀ out dim, dot.numbers.rhsSource out = some dim → dim < rhsAxes.length) ∧
    ∀ out dim, dot.numbers.lhsSource out = some dim →
      (rhsRows dot.numbers rhsAxes).row out = [] → dim < lhsAxes.length

/-- A dot without axes has two operands, and the axes of both decode and cover what is read. -/
def DotFits (st : State) (i : HloInstruction) : Prop :=
  hasAssignedAxes (st.attributes i.id) = false →
    ∃ lhs rhs lhsAxes rhsAxes, (st.operands i.id)[0]? = some lhs ∧
      (st.operands i.id)[1]? = some rhs ∧
      getAxes input.library (toString lhs) (st.attributes lhs) = ok lhsAxes ∧
      getAxes input.library (toString rhs) (st.attributes rhs) = ok rhsAxes ∧
      ∀ l r, lhsAxes = some l → rhsAxes = some r → DimensionsNamed (input.dot i.id) l r

/-- What a step needs of the state before it: a call has no operands. -/
def StepFits (st : State) (i : HloInstruction) : Prop :=
  if i.isCustomCall kCustomCallAutoSharding then ShardingFits input props st i
  else match i.opcode with
  | .call _ => st.operands i.id = []
  | .tuple => TupleFits input st i
  | .other "dot" => DotFits input st i
  | _ => True

/-- An aliased pair is there, and the aliases along which its axes go have an end. -/
def AliasFits (st : State) (entry : List ℕ × ℕ) : Prop :=
  ∃ parameter output, parameterInstruction input.program.entry entry.2 = ok parameter ∧
    aliasedOutput input st entry.1 = ok output ∧
    (∀ axes, getAxesString (st.attributes parameter.id) = some axes →
      getAxesString (st.attributes output) = none →
        ∃ aliases, backwardAliases input props output = ok aliases) ∧
    ∀ axes, getAxesString (st.attributes output) = some axes →
      ∃ aliases, forwardAliases input props parameter.id = ok aliases

end conditions

section frame

variable {input : Input} {props : InstructionProperties}

/-- Only the attributes change. -/
structure SameGraph (st st' : State) : Prop where
  operands : st'.operands = st.operands
  roots : st'.roots = st.roots
  instructionsToRemove : st'.instructionsToRemove = st.instructionsToRemove

theorem SameGraph.refl (st : State) : SameGraph st st := ⟨rfl, rfl, rfl⟩

theorem SameGraph.trans {st st' st'' : State} (h : SameGraph st st') (h' : SameGraph st' st'') :
    SameGraph st st'' :=
  ⟨h'.operands.trans h.operands, h'.roots.trans h.roots,
    h'.instructionsToRemove.trans h.instructionsToRemove⟩

theorem sameGraph_assignAxes (st : State) (axes : String) (id : ℕ) :
    SameGraph st (st.assignAxes axes id) := ⟨rfl, rfl, rfl⟩

theorem sameGraph_assignAll (st : State) (axes : String) (ids : List ℕ) :
    SameGraph st (st.assignAll axes ids) := by
  induction ids generalizing st with
  | nil => exact SameGraph.refl st
  | cons id ids ih => exact (sameGraph_assignAxes st axes id).trans (ih _)

theorem sameGraph_propagateElement {st st' : State} {tuple user : HloInstruction}
    (h : propagateElement tuple st user = ok st') : SameGraph st st' := by
  obtain ⟨index, -, h⟩ := bind_eq_ok.mp h
  obtain ⟨operand, -, h⟩ := bind_eq_ok.mp h
  split at h
  · obtain rfl := ok.inj h
    exact sameGraph_assignAxes _ _ _
  · obtain rfl := ok.inj h
    exact SameGraph.refl _

theorem sameGraph_propagateElements {tuple : HloInstruction} {us : List HloInstruction}
    {st st' : State} (h : us.foldlM (propagateElement tuple) st = ok st') : SameGraph st st' :=
  foldlM_invariant (SameGraph st) h (SameGraph.refl st)
    fun _ _ _ _ hsame hstep => hsame.trans (sameGraph_propagateElement hstep)

theorem sameGraph_propagateTuple {st st' : State} {i : HloInstruction}
    (h : propagateTuple input st i = ok st') : SameGraph st st' := by
  unfold propagateTuple at h
  split at h
  · obtain ⟨found, -, h⟩ := bind_eq_ok.mp h
    cases found with
    | some tuple => exact sameGraph_propagateElements h
    | none =>
      obtain rfl := ok.inj h
      exact SameGraph.refl _
  · obtain rfl := ok.inj h
    exact SameGraph.refl _

theorem sameGraph_propagateDot {st st' : State} {i : HloInstruction}
    (h : propagateDot input st i = ok st') : SameGraph st st' := by
  unfold propagateDot at h
  split at h
  · obtain rfl := ok.inj h
    exact SameGraph.refl _
  · obtain ⟨lhs, -, h⟩ := bind_eq_ok.mp h
    obtain ⟨rhs, -, h⟩ := bind_eq_ok.mp h
    obtain ⟨lhsAxes, -, h⟩ := bind_eq_ok.mp h
    obtain ⟨rhsAxes, -, h⟩ := bind_eq_ok.mp h
    split at h
    · obtain ⟨dotAxes, -, h⟩ := bind_eq_ok.mp h
      obtain rfl := ok.inj h
      exact sameGraph_assignAxes _ _ _
    · obtain rfl := ok.inj h
      exact SameGraph.refl _

/-- A call with operands does not come to an end. -/
theorem propagateCall_eq_ok {st st' : State} {i : HloInstruction} {n : ℕ} :
    propagateCall input st i n = ok st' ↔ st.operands i.id = [] ∧ st = st' := by
  unfold propagateCall
  cases hoperands : st.operands i.id with
  | nil => simp
  | cons operand rest =>
    constructor
    · intro h
      obtain ⟨callee, -, h⟩ := bind_eq_ok.mp h
      obtain ⟨st₁, -, h⟩ := bind_eq_ok.mp h
      cases h
    · rintro ⟨h, -⟩
      cases h

theorem sameGraph_shareAliasedAxes {st st' : State} {entry : List ℕ × ℕ}
    (h : shareAliasedAxes input props st entry = ok st') : SameGraph st st' := by
  obtain ⟨parameter, -, h⟩ := bind_eq_ok.mp h
  obtain ⟨output, -, h⟩ := bind_eq_ok.mp h
  split at h
  · obtain ⟨aliases, -, h⟩ := bind_eq_ok.mp h
    obtain rfl := ok.inj h
    exact sameGraph_assignAll _ _ _
  · split at h
    · obtain ⟨aliases, -, h⟩ := bind_eq_ok.mp h
      obtain rfl := ok.inj h
      exact sameGraph_assignAll _ _ _
    · obtain rfl := ok.inj h
      exact SameGraph.refl _

/-- A sharding call only replaces its uses, and is to be removed. -/
theorem applyAutoSharding_eq_ok {st st' : State} {i : HloInstruction}
    (h : applyAutoSharding input props st i = ok st') : ∃ operand,
      (st.operands i.id)[0]? = some operand ∧
      SameGraph { st.replaceAllUsesWith i.id operand with
        instructionsToRemove := st.instructionsToRemove ++ [i.id] } st' := by
  obtain ⟨operand, hoperand, h⟩ := bind_eq_ok.mp h
  obtain ⟨producer, -, h⟩ := bind_eq_ok.mp h
  refine ⟨operand, elementAt_eq_ok.mp hoperand, ?_⟩
  split at h
  · obtain ⟨aliases, -, h⟩ := bind_eq_ok.mp h
    obtain rfl := ok.inj h
    exact ((sameGraph_assignAll _ _ _).trans (sameGraph_assignAll _ _ _)).trans
      (sameGraph_assignAxes _ _ _)
  · cases h

/-- What a step does to the graph. -/
theorem propagateInstruction_cases {st st' : State} {i : HloInstruction}
    (h : propagateInstruction input props st i = ok st') :
    (i.isCustomCall kCustomCallAutoSharding = true ∧ ∃ operand,
      (st.operands i.id)[0]? = some operand ∧
      SameGraph { st.replaceAllUsesWith i.id operand with
        instructionsToRemove := st.instructionsToRemove ++ [i.id] } st') ∨
      i.isCustomCall kCustomCallAutoSharding = false ∧ SameGraph st st' := by
  unfold propagateInstruction at h
  split at h
  · next hsharding => exact .inl ⟨hsharding, applyAutoSharding_eq_ok h⟩
  · next hother =>
    apply Or.inr ∘ And.intro (by simpa using hother)
    split at h
    · obtain ⟨-, rfl⟩ := propagateCall_eq_ok.mp h
      exact SameGraph.refl _
    · exact sameGraph_propagateTuple h
    · exact sameGraph_propagateDot h
    · obtain rfl := ok.inj h
      exact SameGraph.refl _

end frame

section exactness

variable {input : Input} {props : InstructionProperties} {st : State} {i : HloInstruction}

theorem exists_applyAutoSharding_iff :
    (∃ st', applyAutoSharding input props st i = ok st') ↔ ShardingFits input props st i := by
  constructor
  · rintro ⟨st', h⟩
    obtain ⟨operand, hoperand, h⟩ := bind_eq_ok.mp h
    obtain ⟨producer, hproducer, h⟩ := bind_eq_ok.mp h
    split at h
    · next hshape =>
      obtain ⟨aliases, haliases, -⟩ := bind_eq_ok.mp h
      exact ⟨operand, producer, elementAt_eq_ok.mp hoperand, deref_eq_ok.mp hproducer, hshape,
        aliases, haliases⟩
    · cases h
  · rintro ⟨operand, producer, hoperand, hproducer, hshape, aliases, haliases⟩
    unfold applyAutoSharding
    simp only [elementAt_eq_ok.mpr hoperand, deref_eq_ok.mpr hproducer, ok_bind, hshape, if_true,
      haliases]
    exact ⟨_, rfl⟩

theorem exists_propagateElement_iff {tuple user : HloInstruction} :
    (∃ st', propagateElement tuple st user = ok st') ↔ ElementFits st tuple user := by
  constructor
  · rintro ⟨st', h⟩
    obtain ⟨index, hindex, h⟩ := bind_eq_ok.mp h
    obtain ⟨operand, hoperand, -⟩ := bind_eq_ok.mp h
    have hlt := (List.getElem?_eq_some_iff.mp (elementAt_eq_ok.mp hoperand)).1
    unfold HloInstruction.tupleIndex at hindex
    split at hindex
    · next k hopcode =>
      obtain rfl := ok.inj hindex
      exact ⟨k, hopcode, hlt⟩
    · cases hindex
  · rintro ⟨index, hopcode, hlt⟩
    have hindex : user.tupleIndex = ok index := by
      rw [HloInstruction.tupleIndex, hopcode]
      rfl
    rw [propagateElement, hindex, ok_bind, elementAt_of_lt hlt, ok_bind]
    split <;> exact ⟨_, rfl⟩

theorem SameGraph.elementFits_iff {st' : State} (h : SameGraph st st')
    {tuple user : HloInstruction} : ElementFits st' tuple user ↔ ElementFits st tuple user := by
  rw [ElementFits, ElementFits, h.operands]

theorem exists_propagateElements_iff {tuple : HloInstruction} {us : List HloInstruction} :
    (∃ st', us.foldlM (propagateElement tuple) st = ok st') ↔
      ∀ u ∈ us, ElementFits st tuple u := by
  induction us generalizing st with
  | nil => simp
  | cons u us ih =>
    rw [List.forall_mem_cons]
    constructor
    · rintro ⟨st', h⟩
      obtain ⟨st₁, hstep, hrest⟩ := bind_eq_ok.mp h
      have hsame := sameGraph_propagateElement hstep
      refine ⟨exists_propagateElement_iff.mp ⟨st₁, hstep⟩, ?_⟩
      intro later hlater
      exact hsame.elementFits_iff.mp (ih.mp ⟨st', hrest⟩ later hlater)
    · rintro ⟨hu, hall⟩
      obtain ⟨st₁, hstep⟩ := exists_propagateElement_iff.mpr hu
      have hsame := sameGraph_propagateElement hstep
      obtain ⟨st', hrest⟩ := ih.mpr fun later hlater =>
        hsame.elementFits_iff.mpr (hall later hlater)
      exact ⟨st', bind_eq_ok.mpr ⟨st₁, hstep, hrest⟩⟩

theorem exists_propagateTuple_iff :
    (∃ st', propagateTuple input st i = ok st') ↔ TupleFits input st i := by
  unfold propagateTuple TupleFits
  split
  · next user husers =>
    constructor
    · rintro ⟨st', h⟩ user' husers'
      obtain rfl : user = user' := List.head_eq_of_cons_eq (husers.symm.trans husers')
      obtain ⟨found, hfound, h⟩ := bind_eq_ok.mp h
      refine ⟨found, hfound, ?_⟩
      rintro tuple rfl
      exact exists_propagateElements_iff.mp ⟨st', h⟩
    · intro hall
      obtain ⟨found, hfound, helements⟩ := hall user husers
      rw [hfound, ok_bind]
      cases found with
      | none => exact ⟨st, rfl⟩
      | some tuple => exact exists_propagateElements_iff.mpr (helements tuple rfl)
  · next hmany =>
    constructor
    · intro _ user husers
      exact absurd husers (hmany user)
    · exact fun _ => ⟨st, rfl⟩

theorem exists_propagateDot_iff :
    (∃ st', propagateDot input st i = ok st') ↔ DotFits input st i := by
  unfold propagateDot DotFits
  split
  · next hassigned =>
    constructor
    · intro _ hnone
      rw [hassigned] at hnone
      cases hnone
    · exact fun _ => ⟨st, rfl⟩
  · next hnone =>
    constructor
    · rintro ⟨st', h⟩ -
      obtain ⟨lhs, hlhs, h⟩ := bind_eq_ok.mp h
      obtain ⟨rhs, hrhs, h⟩ := bind_eq_ok.mp h
      obtain ⟨lhsAxes, hlhsAxes, h⟩ := bind_eq_ok.mp h
      obtain ⟨rhsAxes, hrhsAxes, h⟩ := bind_eq_ok.mp h
      refine ⟨lhs, rhs, lhsAxes, rhsAxes, elementAt_eq_ok.mp hlhs, elementAt_eq_ok.mp hrhs,
        hlhsAxes, hrhsAxes, ?_⟩
      rintro l r rfl rfl
      obtain ⟨dotAxes, hdotAxes, -⟩ := bind_eq_ok.mp h
      exact exists_inferDotAxes_iff.mp ⟨dotAxes, hdotAxes⟩
    · intro hfits
      obtain ⟨lhs, rhs, lhsAxes, rhsAxes, hlhs, hrhs, hlhsAxes, hrhsAxes, hnamed⟩ :=
        hfits (by simpa using hnone)
      simp only [elementAt_eq_ok.mpr hlhs, elementAt_eq_ok.mpr hrhs, hlhsAxes, hrhsAxes, ok_bind]
      split
      · next l r =>
        obtain ⟨dotAxes, hdotAxes⟩ := exists_inferDotAxes_iff.mpr (hnamed l r rfl rfl)
        rw [hdotAxes]
        exact ⟨_, rfl⟩
      · exact ⟨st, rfl⟩

/-- A step goes through just when the state before it has what the step needs. -/
theorem exists_propagateInstruction_iff :
    (∃ st', propagateInstruction input props st i = ok st') ↔ StepFits input props st i := by
  unfold propagateInstruction StepFits
  split
  · exact exists_applyAutoSharding_iff
  · have hother : (∃ st', (return st : StatusOr State) = ok st') ↔ True :=
      iff_of_true ⟨st, rfl⟩ trivial
    cases hopcode : i.opcode with
    | call n =>
      dsimp only
      constructor
      · rintro ⟨st', h⟩
        exact (propagateCall_eq_ok.mp h).1
      · intro h
        exact ⟨st, propagateCall_eq_ok.mpr ⟨h, rfl⟩⟩
    | tuple => exact exists_propagateTuple_iff
    | other mnemonic =>
      by_cases hdot : mnemonic = "dot"
      · subst hdot
        exact exists_propagateDot_iff
      · simp [hdot]
    | parameter _ => exact hother
    | constant => exact hother
    | getTupleElement _ => exact hother
    | optimizationBarrier => exact hother
    | whileLoop _ => exact hother
    | customCall _ => exact hother

theorem exists_shareAliasedAxes_iff {entry : List ℕ × ℕ} :
    (∃ st', shareAliasedAxes input props st entry = ok st') ↔ AliasFits input props st entry := by
  constructor
  · rintro ⟨st', h⟩
    obtain ⟨parameter, hparameter, h⟩ := bind_eq_ok.mp h
    obtain ⟨output, houtput, h⟩ := bind_eq_ok.mp h
    refine ⟨parameter, output, hparameter, houtput, ?_, ?_⟩
    · intro axes haxes hnone
      have hhas : hasAssignedAxes (st.attributes output) = false := by
        rw [hasAssignedAxes, Option.isSome_eq_false_iff, Option.isNone_iff_eq_none]
        exact hnone
      split at h
      · obtain ⟨aliases, haliases, -⟩ := bind_eq_ok.mp h
        exact ⟨aliases, haliases⟩
      · next hother => exact (hother axes haxes hhas).elim
    · intro axes haxes
      have hhas : hasAssignedAxes (st.attributes output) = true :=
        Option.isSome_iff_exists.mpr ⟨axes, haxes⟩
      split at h
      · next hnone =>
        rw [hhas] at hnone
        cases hnone
      · rw [haxes] at h
        obtain ⟨aliases, haliases, -⟩ := bind_eq_ok.mp h
        exact ⟨aliases, haliases⟩
  · rintro ⟨parameter, output, hparameter, houtput, hbackward, hforward⟩
    rw [shareAliasedAxes, hparameter, ok_bind, houtput, ok_bind]
    split
    · next axes haxes hnone =>
      have hunassigned : getAxesString (st.attributes output) = none := by
        rwa [hasAssignedAxes, Option.isSome_eq_false_iff, Option.isNone_iff_eq_none] at hnone
      obtain ⟨aliases, haliases⟩ := hbackward axes haxes hunassigned
      rw [haliases]
      exact ⟨_, rfl⟩
    · split
      · next axes haxes =>
        obtain ⟨aliases, haliases⟩ := hforward axes haxes
        rw [haliases]
        exact ⟨_, rfl⟩
      · exact ⟨st, rfl⟩

end exactness

end LogicalSharding
end MultiMeshJax
