import MultiMeshJax.Coloring.BestColor

/-! The propagation to operands and users reaches a fixpoint, however deep the loops nest. -/
namespace MultiMeshJax
namespace Coloring

open StatusOr

/-- The loops of a computation have bodies, and nest less deep than the bound. -/
def Nests (p : HloProgram) : ℕ → HloComputation → Prop
  | 0, _ => False
  | depth + 1, c => ∀ i ∈ c.instructions, ∀ m, i.opcode = .whileLoop m →
      ∃ body, p.calledComputation m = ok body ∧ Nests p depth body

/-- The computations that a propagation from the first one visits. -/
inductive Visited (p : HloProgram) : HloComputation → HloComputation → Prop
  | refl (c : HloComputation) : Visited p c c
  | loop {c body c' : HloComputation} {i : HloInstruction} {m : ℕ} (hi : i ∈ c.instructions)
      (hloop : i.opcode = .whileLoop m) (hbody : p.calledComputation m = ok body)
      (hrest : Visited p body c') : Visited p c c'

/-- The walk that collects the properties has gone into all the loops. -/
theorem nests_of_addForwardProperties {p : HloProgram} {nesting : ℕ} {c : HloComputation}
    {props props' : InstructionProperties}
    (h : InstructionProperties.addForwardProperties p nesting c props = ok props') :
    Nests p nesting c := by
  induction nesting generalizing c props props' with
  | zero => cases h
  | succ nesting ih =>
    rw [InstructionProperties.addForwardProperties] at h
    have hall := foldlM_establishes (P := fun _ => True) (R := fun _ _ => True)
      (Q := fun (i : HloInstruction) _ => ∀ m, i.opcode = .whileLoop m →
        ∃ body, p.calledComputation m = ok body ∧ Nests p nesting body)
      (fun _ => trivial) (fun _ _ _ _ _ => trivial) (fun _ _ _ _ hQ => hQ) h trivial ?_
    · exact hall.2.2
    · intro i hi props₁ props₂ _ hstep
      refine ⟨trivial, trivial, ?_⟩
      intro m hloop
      simp only [InstructionProperties.addInstructionProperties, hloop] at hstep
      obtain ⟨input, -, hstep⟩ := bind_eq_ok.mp hstep
      obtain ⟨inputTuple, -, hstep⟩ := bind_eq_ok.mp hstep
      obtain ⟨body, hbody, hstep⟩ := bind_eq_ok.mp hstep
      obtain ⟨root, -, hstep⟩ := bind_eq_ok.mp hstep
      refine ⟨body, hbody, ?_⟩
      split at hstep
      · obtain ⟨props₃, -, hstep⟩ := bind_eq_ok.mp hstep
        obtain ⟨props₄, -, hstep⟩ := bind_eq_ok.mp hstep
        exact ih hstep
      · cases hstep

theorem nests_entry (input : Input) :
    Nests input.program (input.program.called.length + 1) input.program.entry :=
  nests_of_addForwardProperties input.created

section advance

variable {p : HloProgram} {colors colors' colors'' : Colors}

/-- The id of an instruction that is no tuple. -/
def NonTuple (p : HloProgram) (id : ℕ) : Prop := ∀ i ∈ p.instructions, i.id = id → i.opcode ≠ .tuple

theorem nonTuple_of_mem {i : HloInstruction} (hi : i ∈ p.instructions) (h : i.opcode ≠ .tuple) :
    NonTuple p i.id := by
  intro j hj hid
  rw [HloProgram.eq_of_id hj hi hid]
  exact h

/-- The number of instructions without a colour, which bounds the rounds. -/
def uncolored (p : HloProgram) (colors : Colors) : ℕ :=
  p.instructions.countP fun i => (colors i.id).isNone

/-- What a stretch of the propagation does, the flag being whether it coloured something. -/
structure Advances (p : HloProgram) (colors : Colors) (st : Colors × Bool) : Prop where
  keeps : Keeps (NonTuple p) colors st.1
  grows : ∀ id, (colors id).isSome → (st.1 id).isSome
  progress : st.2 = true → uncolored p st.1 < uncolored p colors
  quiet : st.2 = false → ∀ id, NonTuple p id → st.1 id = colors id

theorem Advances.refl (colors : Colors) : Advances p colors (colors, false) where
  keeps := Keeps.refl _ _
  grows _ h := h
  progress h := by cases h
  quiet _ _ _ := rfl

/-- With more colours, fewer instructions of a list have none. -/
theorem countP_isNone_le (h : ∀ id, (colors id).isSome → (colors' id).isSome)
    (l : List HloInstruction) : l.countP (fun i => (colors' i.id).isNone) ≤
      l.countP fun i => (colors i.id).isNone := by
  apply List.countP_mono_left
  intro i _ hnone
  rw [Option.isNone_iff_eq_none] at hnone ⊢
  by_contra hsome
  have hi := h i.id (Option.isSome_iff_ne_none.mpr hsome)
  rw [hnone] at hi
  cases hi

theorem Advances.uncolored_le {st : Colors × Bool} (h : Advances p colors st) :
    uncolored p st.1 ≤ uncolored p colors := countP_isNone_le h.grows _

theorem Advances.trans {b b' : Bool} (h : Advances p colors (colors', b))
    (h' : Advances p colors' (colors'', b')) : Advances p colors (colors'', b || b') where
  keeps := h.keeps.trans h'.keeps
  grows id hid := h'.grows id (h.grows id hid)
  progress hflag := by
    have hle := h.uncolored_le
    have hle' := h'.uncolored_le
    rcases Bool.or_eq_true_iff.mp hflag with hb | hb
    · exact hle'.trans_lt (h.progress hb)
    · exact (h'.progress hb).trans_le hle
  quiet hflag id hid := by
    obtain ⟨hb, hb'⟩ := Bool.or_eq_false_iff.mp hflag
    exact (h'.quiet hb' id hid).trans (h.quiet hb id hid)

theorem isSome_of_keeps (h : Keeps (fun _ => True) colors colors') {id : ℕ}
    (hid : (colors id).isSome) : (colors' id).isSome := by
  obtain ⟨color, hcolor⟩ := Option.isSome_iff_exists.mp hid
  rw [h id color trivial hcolor]
  rfl

theorem colorTuple_eq (colors : Colors) (i : HloInstruction) : colorTuple colors i = colors ∨
    ∃ color, colorTuple colors i = assignColor colors i.id color := by
  unfold colorTuple
  split
  · exact .inl rfl
  · split
    · split
      · exact .inr ⟨_, rfl⟩
      · exact .inl rfl
    · exact .inl rfl

theorem colorTuple_of_ne {i : HloInstruction} {id : ℕ} (hne : id ≠ i.id) :
    colorTuple colors i id = colors id := by
  rcases colorTuple_eq colors i with h | ⟨color, h⟩
  · rw [h]
  · rw [h, assignColor, Function.update_of_ne hne]

theorem isSome_colorTuple {i : HloInstruction} {id : ℕ} (hid : (colors id).isSome) :
    (colorTuple colors i id).isSome := by
  rcases colorTuple_eq colors i with h | ⟨color, h⟩
  · rw [h]
    exact hid
  · by_cases hne : id = i.id
    · rw [h, assignColor, hne, Function.update_self]
      rfl
    · rw [colorTuple_of_ne hne]
      exact hid

/-- A write to a tuple. -/
theorem advances_colorTuple {i : HloInstruction} (hi : i ∈ p.instructions)
    (htuple : i.opcode = .tuple) : Advances p colors (colorTuple colors i, false) where
  keeps := keeps_colorTuple fun h => h i hi rfl htuple
  grows _ hid := isSome_colorTuple hid
  progress h := by cases h
  quiet _ id hid := by
    apply colorTuple_of_ne
    rintro rfl
    exact hid i hi rfl htuple

theorem uncolored_lt (hgrows : ∀ id, (colors id).isSome → (colors' id).isSome)
    {i : HloInstruction} (hi : i ∈ p.instructions) (hnone : colors i.id = none)
    (hsome : (colors' i.id).isSome) : uncolored p colors' < uncolored p colors := by
  obtain ⟨before, after, hsplit⟩ := List.append_of_mem hi
  have hbefore := countP_isNone_le hgrows before
  have hafter := countP_isNone_le hgrows after
  have hself : (colors' i.id).isNone = false := by
    rw [Option.isNone_eq_false_iff]
    exact hsome
  unfold uncolored
  rw [hsplit, List.countP_append, List.countP_append, List.countP_cons, List.countP_cons, hnone,
    hself]
  simp only [Option.isNone_none, if_true, Bool.false_eq_true, if_false]
  omega

variable {input : Input} {ifVisit : HloInstruction → Bool} {depth topologicalIndex : ℕ → Option ℕ}

/-- An instruction that takes a colour had none, and one that takes none changes nothing. -/
theorem advances_propagateFromUsersAndOperands {i : HloInstruction}
    (hi : i ∈ input.program.instructions) (hnone : isAssignedColor colors i.id = false) :
    Advances input.program colors
      (propagateFromUsersAndOperands input ifVisit depth topologicalIndex colors i) := by
  have hgrows : ∀ id, (colors id).isSome →
      ((propagateFromUsersAndOperands input ifVisit depth topologicalIndex colors i).1 id).isSome :=
    fun id hid => isSome_of_keeps (keeps_propagateFromUsersAndOperands hnone) hid
  constructor
  · exact keeps_propagateFromUsersAndOperands hnone
  · exact hgrows
  · intro hflag
    obtain ⟨-, hbest⟩ := propagateFromUsersAndOperands_best input ifVisit depth topologicalIndex
      colors i
    obtain ⟨color, hcolor, -⟩ := hbest hflag
    apply uncolored_lt hgrows hi
    · exact Option.isNone_iff_eq_none.mp (Option.isSome_eq_false_iff.mp hnone)
    · rw [hcolor]
      rfl
  · intro hflag id _
    unfold propagateFromUsersAndOperands at hflag ⊢
    dsimp only at hflag ⊢
    split
    · rename_i hmax
      rw [hmax] at hflag
      cases hflag
    · rfl

end advance

section fixpoint

variable {input : Input} {ifVisit : HloInstruction → Bool} {colors colors' : Colors}
  {c : HloComputation} {i : HloInstruction}

/-- No eligible instruction is a tuple, and none is weighed as one. -/
def NoTuples (input : Input) (ifVisit : HloInstruction → Bool) : Prop :=
  ∀ i ∈ input.program.instructions, ifVisit i = true →
    i.opcode ≠ .tuple ∧ (weighedAs input i).opcode ≠ .tuple

/-- An instruction that is left without a colour has no neighbour with one. -/
def Settled (input : Input) (ifVisit : HloInstruction → Bool) (colors : Colors)
    (i : HloInstruction) : Prop :=
  ifVisit i = true → colors i.id = none → ∀ n ∈ neighbors input ifVisit i, colors n.id = none

/-- The instructions of the visited computations are settled. -/
def Fixed (input : Input) (ifVisit : HloInstruction → Bool) (c : HloComputation)
    (colors : Colors) : Prop :=
  ∀ c', Visited input.program c c' → ∀ i ∈ c'.instructions, Settled input ifVisit colors i

theorem weighedAs_mem (hi : i ∈ input.program.instructions) :
    weighedAs input i ∈ input.program.instructions := by
  unfold weighedAs
  split
  · cases hhead : (input.program.operandInstructions i).head? with
    | none => exact hi
    | some o =>
      have hmem : o ∈ input.program.operandInstructions i := List.mem_of_head? hhead
      obtain ⟨id, -, ho⟩ := List.mem_filterMap.mp hmem
      exact (HloProgram.mem_of_instruction ho).1
  · exact hi

theorem nonTuple_of_mem_neighbors (hno : NoTuples input ifVisit) {n : HloInstruction}
    (hn : n ∈ neighbors input ifVisit i) : NonTuple input.program n.id := by
  obtain ⟨j, hj, rfl⟩ := List.mem_map.mp hn
  obtain ⟨hj, hvisit⟩ := List.mem_filter.mp hj
  have hmem : j ∈ input.program.instructions := by
    rcases List.mem_append.mp hj with hj | hj
    · unfold HloProgram.aliasOperands at hj
      cases hlast : input.program.instruction
          ((input.program.backwardAliases input.properties i.id).getLastD i.id) with
      | none =>
        rw [hlast] at hj
        cases hj
      | some last =>
        rw [hlast] at hj
        obtain ⟨id, -, hid⟩ := List.mem_filterMap.mp hj
        exact (HloProgram.mem_of_instruction hid).1
    · exact (List.mem_filter.mp hj).1
  exact nonTuple_of_mem (weighedAs_mem hmem) (hno j hmem hvisit).2

/-- What writes to tuples only leaves settled what is. -/
theorem Settled.congr (hno : NoTuples input ifVisit) (hi : i ∈ input.program.instructions)
    (h : Settled input ifVisit colors i)
    (hsame : ∀ id, NonTuple input.program id → colors' id = colors id) :
    Settled input ifVisit colors' i := by
  intro hvisit hnone n hn
  rw [hsame i.id (nonTuple_of_mem hi (hno i hi hvisit).1)] at hnone
  rw [hsame n.id (nonTuple_of_mem_neighbors hno hn)]
  exact h hvisit hnone n hn

theorem visited_mem {c' : HloComputation} (h : Visited input.program c c')
    (hc : c ∈ input.program.computations) : c' ∈ input.program.computations := by
  induction h with
  | refl c => exact hc
  | loop _ _ hbody _ ih => exact ih (HloProgram.mem_computations_of_called hbody)

theorem Fixed.congr (hno : NoTuples input ifVisit) (hc : c ∈ input.program.computations)
    (h : Fixed input ifVisit c colors)
    (hsame : ∀ id, NonTuple input.program id → colors' id = colors id) :
    Fixed input ifVisit c colors' := by
  intro c' hvisited i hi
  have hmem := HloProgram.mem_instructions (visited_mem hvisited hc) hi
  exact (h c' hvisited i hi).congr hno hmem hsame

/-- The instruction is settled, and so is everything in the body if it is a loop. -/
def SettledWithin (input : Input) (ifVisit : HloInstruction → Bool) (colors : Colors)
    (i : HloInstruction) : Prop :=
  Settled input ifVisit colors i ∧ ∀ m body, i.opcode = .whileLoop m →
    input.program.calledComputation m = ok body → Fixed input ifVisit body colors

theorem SettledWithin.congr (hno : NoTuples input ifVisit) (hi : i ∈ input.program.instructions)
    (h : SettledWithin input ifVisit colors i)
    (hsame : ∀ id, NonTuple input.program id → colors' id = colors id) :
    SettledWithin input ifVisit colors' i := by
  constructor
  · exact h.1.congr hno hi hsame
  · intro m body hloop hbody
    exact (h.2 m body hloop hbody).congr hno (HloProgram.mem_computations_of_called hbody) hsame

theorem fixed_of_settledWithin
    (h : ∀ i ∈ c.instructions, SettledWithin input ifVisit colors i) :
    Fixed input ifVisit c colors := by
  intro c' hvisited
  cases hvisited with
  | refl => exact fun i hi => (h i hi).1
  | loop hi hloop hbody hrest => exact (h _ hi).2 _ _ hloop hbody c' hrest

/-- The instruction itself, before the body of a loop. -/
theorem settled_of_quiet {depth topologicalIndex : ℕ → Option ℕ}
    (hflag : (propagateFromUsersAndOperands input ifVisit depth topologicalIndex colors i).2 =
      false) : Settled input ifVisit colors i := by
  intro _ _ n hn
  by_contra hsome
  obtain ⟨hiff, -⟩ := propagateFromUsersAndOperands_best input ifVisit depth topologicalIndex
    colors i
  have htrue := hiff.mpr ⟨n, hn, Option.isSome_iff_ne_none.mpr hsome⟩
  rw [hflag] at htrue
  cases htrue

/-- What a propagation in a computation does. -/
structure Propagated (input : Input) (ifVisit : HloInstruction → Bool) (c : HloComputation)
    (colors : Colors) (st : Colors × Bool) : Prop where
  advances : Advances input.program colors st
  fixed : Fixed input ifVisit c st.1

/-- The instruction itself, as a round visits it. -/
def visitSelf (input : Input) (ifVisit : HloInstruction → Bool) (c : HloComputation)
    (colors : Colors) (i : HloInstruction) : Colors × Bool :=
  if ifVisit i && !isAssignedColor colors i.id then
    propagateFromUsersAndOperands input ifVisit (computeDepthMap c) (createTopologicalIndexMap c)
      colors i
  else (colors, false)

theorem advances_visitSelf (hi : i ∈ input.program.instructions) :
    Advances input.program colors (visitSelf input ifVisit c colors i) := by
  unfold visitSelf
  split
  · rename_i hvisit
    rw [Bool.and_eq_true, Bool.not_eq_true'] at hvisit
    exact advances_propagateFromUsersAndOperands hi hvisit.2
  · exact Advances.refl colors

theorem settled_visitSelf (hflag : (visitSelf input ifVisit c colors i).2 = false) :
    Settled input ifVisit colors i := by
  unfold visitSelf at hflag
  split at hflag
  · exact settled_of_quiet hflag
  · rename_i hvisit
    intro hvisits hnone
    rw [isAssignedColor, hnone, hvisits] at hvisit
    exact absurd rfl hvisit

/-- One round: every instruction that comes out of a quiet round is settled. -/
theorem propagateRound_advances (hno : NoTuples input ifVisit) {depth : ℕ}
    {propagate : HloComputation → Colors → StatusOr (Colors × Bool)}
    (hc : c ∈ input.program.computations) (hnests : Nests input.program (depth + 1) c)
    (hpropagate : ∀ body ∈ input.program.computations, Nests input.program depth body →
      ∀ colors', uncolored input.program colors' ≤ uncolored input.program colors →
        ∃ st, propagate body colors' = ok st ∧ Propagated input ifVisit body colors' st) :
    ∃ st, propagateRound input ifVisit propagate c colors = ok st ∧
      Advances input.program colors st ∧
        (st.2 = false → ∀ i ∈ c.instructions, SettledWithin input ifVisit st.1 i) := by
  unfold propagateRound
  apply exists_foldlM_eq_ok (fun done st => Advances input.program colors st ∧
    (st.2 = false → ∀ i ∈ done, SettledWithin input ifVisit st.1 i))
  · exact ⟨Advances.refl colors, fun _ i hi => by cases hi⟩
  · rintro done i hinitial ⟨colors₁, b⟩ ⟨hadvances, hsettled⟩
    have hmem : i ∈ c.instructions :=
      hinitial.subset (List.mem_append_right _ List.mem_cons_self)
    have hi := HloProgram.mem_instructions hc hmem
    -- a quiet stretch after the instructions that are done leaves them settled
    have hkept : ∀ {colors₂ : Colors} {b₂ : Bool},
        Advances input.program colors₁ (colors₂, b₂) → (b || b₂) = false →
          (b₂ = false → SettledWithin input ifVisit colors₂ i) →
            ∀ j ∈ done ++ [i], SettledWithin input ifVisit colors₂ j := by
      intro colors₂ b₂ hadvances₂ hflag hself j hj
      obtain ⟨hb, hb₂⟩ := Bool.or_eq_false_iff.mp hflag
      rcases List.mem_append.mp hj with hj | hj
      · have hjmem := hinitial.subset (List.mem_append_left _ hj)
        exact (hsettled hb j hj).congr hno (HloProgram.mem_instructions hc hjmem)
          (hadvances₂.quiet hb₂)
      · rw [List.mem_singleton.mp hj]
        exact hself hb₂
    have hown : Advances input.program colors₁ (visitSelf input ifVisit c colors₁ i) :=
      advances_visitSelf hi
    have hownSettled : (visitSelf input ifVisit c colors₁ i).2 = false →
        Settled input ifVisit colors₁ i := settled_visitSelf
    by_cases htuple : i.opcode = .tuple
    · have htupleAdvances : Advances input.program colors₁ (colorTuple colors₁ i, false) :=
        advances_colorTuple hi htuple
      refine ⟨(colorTuple colors₁ i, b), ?_, ?_, ?_⟩
      · simp only [if_pos htuple, pure_eq]
      · have htrans := hadvances.trans htupleAdvances
        rwa [Bool.or_false] at htrans
      · intro hb
        apply hkept htupleAdvances (by rw [Bool.or_false]; exact hb)
        intro _
        constructor
        · intro hvisit
          exact absurd htuple (hno i hi hvisit).1
        · intro m body hloop
          rw [htuple] at hloop
          cases hloop
    · have hvisitSelf : (if ifVisit i && !isAssignedColor colors₁ i.id then
          propagateFromUsersAndOperands input ifVisit (computeDepthMap c)
            (createTopologicalIndexMap c) colors₁ i
        else (colors₁, false)) = visitSelf input ifVisit c colors₁ i := rfl
      simp only [if_neg htuple, hvisitSelf]
      generalize visitSelf input ifVisit c colors₁ i = st at hown hownSettled
      split
      · rename_i m hloop
        obtain ⟨body, hbody, hdeeper⟩ := hnests i hmem m hloop
        have hbodyMem := HloProgram.mem_computations_of_called hbody
        obtain ⟨inner, hinner, hspec⟩ := hpropagate body hbodyMem hdeeper st.1
          (hown.uncolored_le.trans hadvances.uncolored_le)
        have hboth := hown.trans hspec.advances
        refine ⟨(inner.1, b || st.2 || inner.2), ?_, ?_, ?_⟩
        · rw [hbody, ok_bind, hinner, ok_bind, pure_eq]
        · rw [Bool.or_assoc]
          exact hadvances.trans hboth
        · intro hflag
          rw [Bool.or_assoc] at hflag
          apply hkept hboth hflag
          intro hquiet
          constructor
          · obtain ⟨hst, -⟩ := Bool.or_eq_false_iff.mp hquiet
            exact (hownSettled hst).congr hno hi (hboth.quiet hquiet)
          · intro m' body' hloop' hbody'
            rw [hloop] at hloop'
            cases hloop'
            rw [hbody] at hbody'
            cases hbody'
            exact hspec.fixed
      · rename_i hloop
        refine ⟨(st.1, b || st.2), ?_, hadvances.trans hown, ?_⟩
        · rw [pure_eq]
        · intro hflag
          apply hkept hown hflag
          intro hquiet
          constructor
          · exact (hownSettled hquiet).congr hno hi (hown.quiet hquiet)
          · intro m body hloop'
            exact absurd hloop' (hloop m)

/-- The rounds end after as many of them as there are instructions to colour, and then nothing
that is eligible is left beside a colour. -/
theorem propagateIf_propagated (hno : NoTuples input ifVisit) {fuel depth : ℕ}
    (hc : c ∈ input.program.computations) (hnests : Nests input.program depth c)
    (hfuel : depth + uncolored input.program colors < fuel) :
    ∃ st, propagateIf input ifVisit fuel c colors = ok st ∧
      Propagated input ifVisit c colors st := by
  induction fuel generalizing depth c colors with
  | zero => omega
  | succ fuel ih =>
    cases depth with
    | zero => exact hnests.elim
    | succ depth =>
      have hbodies : ∀ body ∈ input.program.computations, Nests input.program depth body →
          ∀ colors', uncolored input.program colors' ≤ uncolored input.program colors →
            ∃ st, propagateIf input ifVisit fuel body colors' = ok st ∧
              Propagated input ifVisit body colors' st :=
        fun body hbody hdeeper colors' hle => ih hbody hdeeper (by omega)
      obtain ⟨⟨colors₁, b⟩, hround, hadvances, hsettled⟩ :=
        propagateRound_advances hno hc hnests hbodies
      rw [propagateIf, hround, ok_bind]
      cases b with
      | false => exact ⟨(colors₁, false), rfl, hadvances, fixed_of_settledWithin (hsettled rfl)⟩
      | true =>
        have hless : uncolored input.program colors₁ < uncolored input.program colors :=
          hadvances.progress rfl
        have hfuel' : depth + 1 + uncolored input.program colors₁ < fuel := by omega
        obtain ⟨⟨colors₂, b₂⟩, hagain, hspec⟩ := ih hc hnests hfuel'
        refine ⟨(colors₂, true), ?_, ?_, hspec.fixed⟩
        · simp only [if_true, hagain, ok_bind, pure_eq]
        · have htrans := hadvances.trans hspec.advances
          rwa [Bool.true_or] at htrans

/-- The predicates with which the pass propagates. -/
def eligibilities (input : Input) : List (HloInstruction → Bool) :=
  [visitElementwise input, visitNontrivial, visitLoopDepth]

/-- Tuples have tuple shapes, and a broadcast has an array for its operand. -/
structure WellShaped (p : HloProgram) : Prop where
  tuple_shape : ∀ i ∈ p.instructions, i.opcode = .tuple → i.shape.isTuple = true
  broadcast_operand : ∀ i ∈ p.instructions, i.opcode = .other "broadcast" →
    ∀ o ∈ p.operandInstructions i, o.shape.isTuple = false

theorem noTuples_of_wellShaped (h : WellShaped input.program) {ifVisit : HloInstruction → Bool}
    (hvisit : ifVisit ∈ eligibilities input) : NoTuples input ifVisit := by
  have hopcode : ∀ i ∈ input.program.instructions, ifVisit i = true → i.opcode ≠ .tuple := by
    intro i hi helig htuple
    have hshape := h.tuple_shape i hi htuple
    simp only [eligibilities, List.mem_cons, List.not_mem_nil, or_false] at hvisit
    rcases hvisit with rfl | rfl | rfl
    · simp [visitElementwise, hshape] at helig
    · simp [visitNontrivial, hshape] at helig
    · simp [visitLoopDepth, hasMnemonic, hshape, htuple] at helig
  intro i hi helig
  refine ⟨hopcode i hi helig, ?_⟩
  unfold weighedAs
  split
  · rename_i hbroadcast
    cases hhead : (input.program.operandInstructions i).head? with
    | none => exact hopcode i hi helig
    | some o =>
      intro htuple
      have hmem : o ∈ input.program.operandInstructions i := List.mem_of_head? hhead
      obtain ⟨id, -, ho⟩ := List.mem_filterMap.mp hmem
      have hshape := h.tuple_shape o (HloProgram.mem_of_instruction ho).1 htuple
      rw [h.broadcast_operand i hi hbroadcast o hmem] at hshape
      cases hshape
  · exact hopcode i hi helig

end fixpoint

theorem wellShaped_twoLoops : WellShaped (twoLoops none (some "b")) where
  tuple_shape := by decide
  broadcast_operand := by decide

end Coloring
end MultiMeshJax
