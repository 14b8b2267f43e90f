import MultiMeshJax.Coloring.Propagation

/-! Which writes of the propagation keep the colours that are there, and when the pass keeps
the colours that were assigned before it. -/
namespace MultiMeshJax

namespace Coloring

open StatusOr

variable {P : ℕ → Prop} {colors colors' colors'' : Colors}

/-- The instructions of a set that carry a colour still carry it. -/
def Keeps (P : ℕ → Prop) (colors colors' : Colors) : Prop :=
  ∀ id color, P id → colors id = some color → colors' id = some color

theorem Keeps.refl (P : ℕ → Prop) (colors : Colors) : Keeps P colors colors := fun _ _ _ h => h

theorem Keeps.trans (h : Keeps P colors colors') (h' : Keeps P colors' colors'') :
    Keeps P colors colors'' := fun id color hid hc => h' id color hid (h id color hid hc)

theorem Keeps.isAssignedColor (h : Keeps P colors colors') {id : ℕ} (hid : P id)
    (hassigned : isAssignedColor colors id = true) : isAssignedColor colors' id = true := by
  obtain ⟨color, hcolor⟩ := Option.isSome_iff_exists.mp hassigned
  exact Option.isSome_iff_exists.mpr ⟨color, h id color hid hcolor⟩

theorem Keeps.foldl {α : Type} {f : Colors → α → Colors} {xs : List α}
    (h : ∀ x ∈ xs, ∀ colors, Keeps P colors (f colors x)) (colors : Colors) :
    Keeps P colors (xs.foldl f colors) := by
  induction xs generalizing colors with
  | nil => exact Keeps.refl P colors
  | cons x xs ih =>
    have hrest : ∀ y ∈ xs, ∀ colors, Keeps P colors (f colors y) := by
      intro y hy
      exact h y (List.mem_cons_of_mem x hy)
    exact (h x List.mem_cons_self colors).trans (ih hrest (f colors x))

theorem keeps_assignColor {id : ℕ} {color : String}
    (h : P id → isAssignedColor colors id = false) :
    Keeps P colors (assignColor colors id color) := by
  intro other c hother hc
  by_cases hid : other = id
  · subst hid
    have hunassigned := h hother
    rw [isAssignedColor, hc] at hunassigned
    cases hunassigned
  · rw [assignColor, Function.update_of_ne hid]
    exact hc

theorem keeps_colorTuple {i : HloInstruction} (h : ¬ P i.id) :
    Keeps P colors (colorTuple colors i) := by
  unfold colorTuple
  split
  · exact Keeps.refl P colors
  · split
    · split
      · exact keeps_assignColor fun hP => absurd hP h
      · exact Keeps.refl P colors
    · exact Keeps.refl P colors

theorem keeps_colorUnassigned (color : String) (ids : List ℕ) (colors : Colors) :
    Keeps P colors (colorUnassigned color ids colors) := by
  apply Keeps.foldl
  intro id _ colors
  split
  · exact Keeps.refl P colors
  · rename_i hunassigned
    exact keeps_assignColor fun _ => Bool.eq_false_iff.mpr hunassigned

section directional

variable {input : Input} {ifVisit : HloInstruction → Bool} {fixed : List ℕ}

/-- An alias is overwritten only if it is not fixed. -/
theorem keeps_colorAliases {color : String} {ids : List ℕ} (h : ∀ id ∈ ids, P id → id ∈ fixed)
    (colors : Colors) : Keeps P colors (colorAliases fixed color ids colors) := by
  apply Keeps.foldl
  intro id hid colors
  split
  · rename_i hwrite
    apply keeps_assignColor
    intro hP
    simpa [h id hid hP] using hwrite
  · exact Keeps.refl P colors

/-- The set is fixed, as far as the writes to an instruction and its aliases can reach it. -/
structure Guards (input : Input) (ifVisit : HloInstruction → Bool) (fixed : List ℕ)
    (P : ℕ → Prop) (i : HloInstruction) : Prop where
  tuple : i.opcode = .tuple → ¬ P i.id
  self : P i.id → i.id ∈ fixed
  aliases : ifVisit i = true → i.id ∉ fixed → ∀ id ∈ input.aliases i.id, P id → id ∈ fixed

theorem keeps_visitRelated {related : HloInstruction} (h : Guards input ifVisit fixed P related)
    (color : String) (colors : Colors) :
    Keeps P colors (visitRelated input ifVisit fixed color colors related) := by
  have hwrite : Keeps P colors (if ifVisit related && !fixed.contains related.id then
      colorAliases fixed color (input.aliases related.id) (assignColor colors related.id color)
      else colors) := by
    split
    · rename_i hvisit
      simp only [Bool.and_eq_true, Bool.not_eq_true', List.contains_eq_mem,
        decide_eq_false_iff_not] at hvisit
      have hself : Keeps P colors (assignColor colors related.id color) :=
        keeps_assignColor fun hP => absurd (h.self hP) hvisit.2
      exact hself.trans (keeps_colorAliases (h.aliases hvisit.1 hvisit.2) _)
    · exact Keeps.refl P colors
  unfold visitRelated
  simp only
  split
  · rename_i htuple
    exact hwrite.trans (keeps_colorTuple (h.tuple htuple))
  · exact hwrite

theorem keeps_processInstruction {related : List HloInstruction}
    (h : ∀ r ∈ related, Guards input ifVisit fixed P r) (color : String) (i : HloInstruction)
    (colors : Colors) :
    Keeps P colors (processInstruction input ifVisit fixed color colors i related) := by
  unfold processInstruction
  split
  · apply Keeps.foldl
    intro r hr colors
    exact keeps_visitRelated (h r hr) color colors
  · exact Keeps.refl P colors

theorem keeps_propagateDirectionally {comp : HloComputation}
    (h : ∀ i ∈ comp.instructions, Guards input ifVisit fixed P i) (propagateForward : Bool)
    (color : String) (colors : Colors) :
    Keeps P colors
      (propagateDirectionally input ifVisit fixed comp propagateForward colors color) := by
  unfold propagateDirectionally
  split
  · apply Keeps.foldl
    intro i _ colors
    apply keeps_processInstruction
    intro r hr
    exact h r (List.mem_filter.mp hr).1
  · apply Keeps.foldl
    intro i _ colors
    apply keeps_processInstruction
    intro r hr
    obtain ⟨o, -, ho⟩ := List.mem_filterMap.mp hr
    exact h r (HloComputation.mem_of_instruction ho)

end directional

theorem isAssignedColor_colorUnassigned (color : String) {ids : List ℕ} {id : ℕ} (h : id ∈ ids)
    (colors : Colors) : isAssignedColor (colorUnassigned color ids colors) id = true := by
  induction ids generalizing colors with
  | nil => cases h
  | cons first ids ih =>
    rcases List.mem_cons.mp h with rfl | h
    · have hkeeps := keeps_colorUnassigned (P := fun _ => True) color ids
        (if isAssignedColor colors id then colors else assignColor colors id color)
      apply hkeeps.isAssignedColor trivial
      by_cases hassigned : isAssignedColor colors id
      · rw [if_pos hassigned]
        exact hassigned
      · rw [if_neg hassigned]
        simp [isAssignedColor, assignColor]
    · exact ih h _

/-- The collection of fixed instructions over a list keeps every colour, fixes what carries a
colour and colours its aliases. -/
structure Fixes (input : Input) (instructions : List HloInstruction) (st st' : Colors × List ℕ) :
    Prop where
  keeps : Keeps (fun _ => True) st.1 st'.1
  mono : ∀ id ∈ st.2, id ∈ st'.2
  fixes : ∀ i ∈ instructions, isAssignedColor st.1 i.id = true → i.id ∈ st'.2
  aliases : ∀ i ∈ instructions, isAssignedColor st.1 i.id = true →
    ∀ id ∈ input.aliases i.id, isAssignedColor st'.1 id = true

theorem fixColors_fixes (input : Input) (comp : HloComputation) (st : Colors × List ℕ) :
    Fixes input comp.instructions st (fixColors input comp st) := by
  unfold fixColors
  generalize comp.instructions = instructions
  induction instructions generalizing st with
  | nil => exact ⟨Keeps.refl _ _, fun _ h => h, by simp, by simp⟩
  | cons i rest ih =>
    obtain ⟨colors, fixed⟩ := st
    rw [List.foldl_cons]
    cases hcolor : colors i.id with
    | none =>
      simp only [hcolor]
      have hrest := ih (colors, fixed)
      have hunassigned : isAssignedColor colors i.id = false := by simp [isAssignedColor, hcolor]
      refine ⟨hrest.keeps, hrest.mono, ?_, ?_⟩
      · intro j hj hassigned
        rcases List.mem_cons.mp hj with rfl | hj
        · simp [hunassigned] at hassigned
        · exact hrest.fixes j hj hassigned
      · intro j hj hassigned
        rcases List.mem_cons.mp hj with rfl | hj
        · simp [hunassigned] at hassigned
        · exact hrest.aliases j hj hassigned
    | some color =>
      simp only [hcolor]
      have hrest := ih (colorUnassigned color (input.aliases i.id) colors, i.id :: fixed)
      have hkeeps := keeps_colorUnassigned (P := fun _ => True) color (input.aliases i.id) colors
      refine ⟨hkeeps.trans hrest.keeps, ?_, ?_, ?_⟩
      · intro id hid
        exact hrest.mono id (List.mem_cons_of_mem _ hid)
      · intro j hj hassigned
        rcases List.mem_cons.mp hj with rfl | hj
        · exact hrest.mono j.id List.mem_cons_self
        · exact hrest.fixes j hj (hkeeps.isAssignedColor trivial hassigned)
      · intro j hj hassigned
        rcases List.mem_cons.mp hj with rfl | hj
        · intro id hid
          apply hrest.keeps.isAssignedColor trivial
          exact isAssignedColor_colorUnassigned color hid colors
        · exact hrest.aliases j hj (hkeeps.isAssignedColor trivial hassigned)

/-- The instructions that are no tuples and carry a colour before the propagation. -/
def Explicit (program : HloProgram) (id : ℕ) : Prop :=
  ∃ i ∈ program.instructions, i.id = id ∧ i.opcode ≠ .tuple ∧ i.color.isSome

/-- No instruction that carries a colour, other than those of the entry and of the body of its
last loop, is an alias of an instruction of that body to which a colour can go on. -/
def NoForeignAlias (input : Input) : Prop :=
  ∀ n body, lastLoop input.program.entry = some n → input.program.called[n]? = some body →
    ∀ i ∈ body.instructions, visitLoopDepth i = true → i.color = none →
      (∀ e ∈ input.program.entry.instructions, e.color.isSome → i.id ∉ input.aliases e.id) →
      ∀ id ∈ input.aliases i.id, Explicit input.program id →
        id ∈ input.program.entry.ids ∨ id ∈ body.ids

theorem isAssignedColor_initialColors {program : HloProgram} {i : HloInstruction}
    (hi : i ∈ program.instructions) (h : i.color.isSome) :
    isAssignedColor (initialColors program) i.id = true := by
  rw [isAssignedColor, initialColors_of_mem hi]
  exact h

theorem not_explicit_of_tuple {program : HloProgram} {i : HloInstruction}
    (hi : i ∈ program.instructions) (htuple : i.opcode = .tuple) : ¬ Explicit program i.id := by
  rintro ⟨j, hj, hid, hne, -⟩
  rw [List.inj_on_of_nodup_map program.ids_nodup hj hi hid] at hne
  exact hne htuple

theorem isAssignedColor_of_explicit {program : HloProgram} {i : HloInstruction}
    (hi : i ∈ program.instructions) (h : Explicit program i.id) :
    isAssignedColor (initialColors program) i.id = true := by
  obtain ⟨j, hj, hid, -, hcolor⟩ := h
  obtain rfl := List.inj_on_of_nodup_map program.ids_nodup hj hi hid
  exact isAssignedColor_initialColors hj hcolor

/-- After both collections, every write in the body of the last loop leaves the explicit
colours alone. -/
theorem guards_of_noForeignAlias {input : Input} {n : ℕ} {body : HloComputation}
    {st st' : Colors × List ℕ} (hsafe : NoForeignAlias input)
    (hlast : lastLoop input.program.entry = some n)
    (hbody : input.program.called[n]? = some body)
    (hentry : Fixes input input.program.entry.instructions (initialColors input.program, []) st)
    (hloop : Fixes input body.instructions st st') :
    ∀ i ∈ body.instructions, Guards input visitLoopDepth st'.2 (Explicit input.program) i := by
  have hcomp : body ∈ input.program.computations :=
    List.mem_cons_of_mem _ (List.mem_of_getElem? hbody)
  have hinBody : ∀ i ∈ body.instructions, Explicit input.program i.id → i.id ∈ st'.2 := by
    intro i hi hexplicit
    apply hloop.fixes i hi
    apply hentry.keeps.isAssignedColor trivial
    exact isAssignedColor_of_explicit (HloProgram.mem_instructions hcomp hi) hexplicit
  have hinEntry : ∀ i ∈ input.program.entry.instructions, Explicit input.program i.id →
      i.id ∈ st'.2 := by
    intro i hi hexplicit
    apply hloop.mono
    apply hentry.fixes i hi
    exact isAssignedColor_of_explicit (HloProgram.mem_instructions List.mem_cons_self hi) hexplicit
  intro i hi
  have himem := HloProgram.mem_instructions hcomp hi
  refine ⟨not_explicit_of_tuple himem, hinBody i hi, ?_⟩
  intro hvisit hfree id hid hexplicit
  have hcolor : i.color = none := by
    by_contra hne
    apply hfree
    apply hloop.fixes i hi
    apply hentry.keeps.isAssignedColor trivial
    exact isAssignedColor_initialColors himem (Option.isSome_iff_ne_none.mpr hne)
  have halias : ∀ e ∈ input.program.entry.instructions, e.color.isSome →
      i.id ∉ input.aliases e.id := by
    intro e he hecolor hmem
    apply hfree
    apply hloop.fixes i hi
    have hemem := HloProgram.mem_instructions (p := input.program) List.mem_cons_self he
    exact hentry.aliases e he (isAssignedColor_initialColors hemem hecolor) i.id hmem
  rcases hsafe n body hlast hbody i hi hvisit hcolor halias id hid hexplicit with hentry' | hbody'
  · obtain ⟨j, hj, rfl⟩ := List.mem_map.mp hentry'
    exact hinEntry j hj hexplicit
  · obtain ⟨j, hj, rfl⟩ := List.mem_map.mp hbody'
    exact hinBody j hj hexplicit

theorem keeps_propagateLoopColorDepth {hash : ColorHashOrder} {input : Input} {colors : Colors}
    (hsafe : NoForeignAlias input)
    (h : propagateLoopColorDepth hash input visitLoopDepth input.program.entry
      (initialColors input.program) = ok colors) :
    Keeps (Explicit input.program) (initialColors input.program) colors := by
  have hentry := fixColors_fixes input input.program.entry (initialColors input.program, [])
  have hkeeps : Keeps (Explicit input.program) (initialColors input.program)
      (fixColors input input.program.entry (initialColors input.program, [])).1 :=
    fun id color _ => hentry.keeps id color trivial
  unfold propagateLoopColorDepth at h
  simp only at h
  split at h
  · exact ok.inj h ▸ hkeeps
  · rename_i n hlast
    obtain ⟨body, hbody, h⟩ := bind_eq_ok.mp h
    have hloop := fixColors_fixes input body
      (fixColors input input.program.entry (initialColors input.program, []))
    have hguards := guards_of_noForeignAlias hsafe hlast (elementAt_eq_ok.mp hbody) hentry hloop
    have hfixed : Keeps (Explicit input.program) (initialColors input.program)
        (fixColors input body
          (fixColors input input.program.entry (initialColors input.program, []))).1 :=
      hkeeps.trans fun id color _ => hloop.keeps id color trivial
    obtain rfl := ok.inj h
    refine (hfixed.trans (Keeps.foldl ?_ _)).trans (Keeps.foldl ?_ _)
    · intro color _ colors
      exact keeps_propagateDirectionally hguards true color colors
    · intro color _ colors
      exact keeps_propagateDirectionally hguards false color colors

section rounds

variable {input : Input} {ifVisit : HloInstruction → Bool}

theorem keeps_propagateFromUsersAndOperands {depth topologicalIndex : ℕ → Option ℕ}
    {i : HloInstruction} (h : isAssignedColor colors i.id = false) :
    Keeps P colors
      (propagateFromUsersAndOperands input ifVisit depth topologicalIndex colors i).1 := by
  unfold propagateFromUsersAndOperands
  simp only
  split
  · exact (keeps_assignColor fun _ => h).trans (keeps_colorUnassigned _ _ _)
  · exact Keeps.refl P colors

/-- A round writes to instructions without a colour and to tuples only. -/
theorem keeps_propagateRound {propagate : HloComputation → Colors → StatusOr (Colors × Bool)}
    {comp : HloComputation} {st : Colors × Bool}
    (hP : ∀ i ∈ input.program.instructions, i.opcode = .tuple → ¬ P i.id)
    (hpropagate : ∀ body ∈ input.program.computations, ∀ colors st,
      propagate body colors = ok st → Keeps P colors st.1)
    (hcomp : comp ∈ input.program.computations)
    (h : propagateRound input ifVisit propagate comp colors = ok st) :
    Keeps P colors st.1 := by
  apply foldlM_invariant (fun st => Keeps P colors st.1) h
  · exact Keeps.refl _ _
  · rintro i hi ⟨colors₁, propagated₁⟩ st' hkeeps hstep
    have himem := HloProgram.mem_instructions hcomp hi
    simp only at hstep hkeeps
    split at hstep
    · rename_i htuple
      obtain rfl := ok.inj hstep
      exact hkeeps.trans (keeps_colorTuple (hP i himem htuple))
    · have hself : Keeps P colors₁
          (if ifVisit i && !isAssignedColor colors₁ i.id then
            propagateFromUsersAndOperands input ifVisit (computeDepthMap comp)
              (createTopologicalIndexMap comp) colors₁ i
          else (colors₁, false)).1 := by
        split
        · rename_i hvisit
          apply keeps_propagateFromUsersAndOperands
          rw [Bool.and_eq_true, Bool.not_eq_true'] at hvisit
          exact hvisit.2
        · exact Keeps.refl _ _
      split at hstep
      · obtain ⟨body, hbody, hstep⟩ := bind_eq_ok.mp hstep
        obtain ⟨⟨colors₂, inner⟩, hinner, hstep⟩ := bind_eq_ok.mp hstep
        obtain rfl := ok.inj hstep
        have hinner' := hpropagate body (HloProgram.mem_computations_of_called hbody) _ _ hinner
        exact (hkeeps.trans hself).trans hinner'
      · obtain rfl := ok.inj hstep
        exact hkeeps.trans hself

theorem keeps_propagateIf {fuel : ℕ} {comp : HloComputation} {st : Colors × Bool}
    (hP : ∀ i ∈ input.program.instructions, i.opcode = .tuple → ¬ P i.id)
    (hcomp : comp ∈ input.program.computations)
    (h : propagateIf input ifVisit fuel comp colors = ok st) : Keeps P colors st.1 := by
  induction fuel generalizing comp colors st with
  | zero => cases h
  | succ fuel ih =>
    obtain ⟨⟨colors₁, propagated⟩, hround, h⟩ := bind_eq_ok.mp h
    have hkeeps := keeps_propagateRound hP (fun body hbody _ _ => ih hbody) hcomp hround
    simp only at h
    split at h
    · obtain ⟨⟨colors₂, _⟩, hagain, h⟩ := bind_eq_ok.mp h
      obtain rfl := ok.inj h
      have hagain' := ih hcomp hagain
      exact hkeeps.trans hagain'
    · obtain rfl := ok.inj h
      exact hkeeps

end rounds

theorem keeps_colorBackwardsLoop {input : Input} {root : HloInstruction} {color : String}
    {fuel : ℕ} {toVisit : List ℕ}
    (h : colorBackwardsLoop input root color fuel toVisit colors = ok colors') :
    Keeps P colors colors' := by
  induction fuel generalizing toVisit colors with
  | zero =>
    cases toVisit with
    | nil => exact ok.inj h ▸ Keeps.refl P colors
    | cons next toVisit => cases h
  | succ fuel ih =>
    cases toVisit with
    | nil => exact ok.inj h ▸ Keeps.refl P colors
    | cons next toVisit =>
      unfold colorBackwardsLoop at h
      split at h
      · exact ih h
      · rename_i hvisit
        simp only [Bool.or_eq_true, not_or, Bool.not_eq_true] at hvisit
        exact (keeps_assignColor fun _ => hvisit.2).trans (ih h)

theorem keeps_colorRoot {input : Input} {fuel : ℕ} {st st' : Colors × HloPartition}
    {i : HloInstruction} (h : colorRoot input fuel st i = ok st') : Keeps P st.1 st'.1 := by
  unfold colorRoot at h
  split at h
  · exact ok.inj h ▸ Keeps.refl P st.1
  · rename_i hunassigned
    obtain ⟨⟨color, partition⟩, -, h⟩ := bind_eq_ok.mp h
    obtain ⟨colors₁, hcolors, h⟩ := bind_eq_ok.mp h
    obtain rfl := ok.inj h
    unfold colorBackwards at hcolors
    split at hcolors
    · have hself : Keeps P st.1 (assignColor st.1 i.id color) :=
        keeps_assignColor fun _ => Bool.eq_false_iff.mpr hunassigned
      exact hself.trans (keeps_colorBackwardsLoop hcolors)
    · cases hcolors

section sequence

def loopInstruction (id : ℕ) (opcode : HloOpcode) (operands : List ℕ)
    (color : Option String) : HloInstruction :=
  { id := id, opcode := opcode, operands := operands, shape := .array .f32 [4], color := color }

def tupleInstruction (id : ℕ) (opcode : HloOpcode) (operands : List ℕ) : HloInstruction :=
  { id := id, opcode := opcode, operands := operands, shape := .tuple [(.f32, [4])] }

/-- A loop body with one value, which an instruction of the given colour computes. -/
def oneValueBody (start : ℕ) (color : Option String) : HloComputation where
  instructions := [tupleInstruction start (.parameter 0) [],
    loopInstruction (start + 1) (.getTupleElement 0) [start] none,
    loopInstruction (start + 2) (.other "add") [start + 1, start + 1] color,
    tupleInstruction (start + 3) .tuple [start + 2]]
  root := start + 3

/-- The value of one loop goes into another one. -/
def twoLoops (color color' : Option String) : HloProgram where
  entry :=
    { instructions := [loopInstruction 0 (.parameter 0) [] none, tupleInstruction 1 .tuple [0],
        tupleInstruction 2 (.whileLoop 0) [1], loopInstruction 3 (.getTupleElement 0) [2] none,
        tupleInstruction 4 .tuple [3], tupleInstruction 5 (.whileLoop 1) [4],
        loopInstruction 6 (.getTupleElement 0) [5] none, tupleInstruction 7 .tuple [6]]
      root := 7 }
  called := [oneValueBody 10 color, oneValueBody 20 color']
  distinct := by
    show ([0, 1, 2, 3, 4, 5, 6, 7, 10, 11, 12, 13, 20, 21, 22, 23] : List ℕ).Nodup
    decide

def twoLoopsInput (color color' : Option String) : Input where
  program := twoLoops color color'
  properties := match InstructionProperties.create (twoLoops color color') with
    | .ok properties => properties
    | _ => fun _ => {}
  created := rfl
  byteSizeOf := fun shape => elementsIn shape
  isElementwise := hasMnemonic "add"

def sequencePartition : HloPartition where
  devices := ⟨0, 2⟩
  colors := [("a", { name := "a", devices := ⟨0, 1⟩ }), ("b", { name := "b", devices := ⟨1, 1⟩ })]

theorem noForeignAlias_twoLoops : NoForeignAlias (twoLoopsInput none (some "b")) := by
  intro n body hlast hbody i _ _ _ _ id _ hexplicit
  obtain rfl : 1 = n := Option.some.inj hlast
  obtain rfl := Option.some.inj hbody
  obtain ⟨j, hj, rfl, -, hcolor⟩ := hexplicit
  have honly : ∀ j ∈ (twoLoops none (some "b")).instructions, j.color.isSome → j.id = 22 := by
    decide
  rw [honly j hj hcolor]
  exact .inr (by decide)

end sequence

end Coloring

end MultiMeshJax
