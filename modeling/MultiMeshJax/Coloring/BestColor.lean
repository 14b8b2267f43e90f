import MultiMeshJax.Coloring.ExplicitColors
import MultiMeshJax.Foundation.RunningBest

/-! The colour that an instruction takes from its operands and users. -/
namespace MultiMeshJax
namespace Coloring

/-- What a colour scores among the neighbours of an instruction. -/
structure Key where
  weight : ℕ
  depth : ℕ
  topologicalIndex : ℕ
  deriving DecidableEq, Repr

/-- The order of the colours, the best one first: heavy, and then near. -/
def Key.rank (priority : ColorPropagationPriority) (k : Key) : ℤ ×ₗ ℤ ×ₗ ℤ :=
  match priority with
  | .weight => toLex (-(k.weight : ℤ), toLex ((k.depth : ℤ), (k.topologicalIndex : ℤ)))
  | .depth => toLex ((k.depth : ℤ), toLex (-(k.weight : ℤ), (k.topologicalIndex : ℤ)))
  | .topological => toLex ((k.topologicalIndex : ℤ), toLex (0, 0))

/-- A broadcast counts as its operand. -/
def weighedAs (input : Input) (i : HloInstruction) : HloInstruction :=
  if i.opcode = .other "broadcast" then
    ((input.program.operandInstructions i).head?).getD i else i

/-- The operands and users that are eligible, as they are weighed. -/
def neighbors (input : Input) (ifVisit : HloInstruction → Bool) (i : HloInstruction) :
    List HloInstruction :=
  ((input.program.aliasOperands input.properties i.id ++
    input.program.aliasUsers input.properties i.id).filter ifVisit).map (weighedAs input)

section keys

variable (input : Input) (depth topologicalIndex : ℕ → Option ℕ) (colors : Colors)
  (self : HloInstruction)

/-- The key of a colour over all the neighbours that carry it. -/
def colorKey (related : List HloInstruction) (color : String) : Key where
  weight := ((related.filter fun i => colors i.id == some color).map fun i =>
    input.byteSizeOf i.shape).sum
  depth := ((related.filter fun i => colors i.id == some color).map fun i =>
    distance depth i.id self.id).foldl min maxInt64
  topologicalIndex := ((related.filter fun i => colors i.id == some color).map fun i =>
    distance topologicalIndex i.id self.id).foldl min maxInt64

/-- The key with one neighbour more. -/
def Key.add (k : Key) (i : HloInstruction) : Key where
  weight := k.weight + input.byteSizeOf i.shape
  depth := min k.depth (distance depth i.id self.id)
  topologicalIndex := min k.topologicalIndex (distance topologicalIndex i.id self.id)

variable {input depth topologicalIndex colors self}

/-- A colour that is heavier and nearer is not worse. -/
theorem Key.rank_le (priority : ColorPropagationPriority) {k k' : Key}
    (hweight : k'.weight ≤ k.weight) (hdepth : k.depth ≤ k'.depth)
    (hindex : k.topologicalIndex ≤ k'.topologicalIndex) : k.rank priority ≤ k'.rank priority := by
  cases priority with
  | weight =>
    simp only [rank, Prod.Lex.toLex_le_toLex]
    omega
  | depth =>
    simp only [rank, Prod.Lex.toLex_le_toLex]
    omega
  | topological =>
    simp only [rank, Prod.Lex.toLex_le_toLex, le_refl, and_true]
    omega

/-- More neighbours never make a key worse. -/
theorem Key.rank_add_le (priority : ColorPropagationPriority) (k : Key) (i : HloInstruction) :
    (k.add input depth topologicalIndex self i).rank priority ≤ k.rank priority := by
  apply Key.rank_le
  · exact Nat.le_add_right _ _
  · exact min_le_left _ _
  · exact min_le_left _ _

theorem colorKey_concat {related : List HloInstruction} {i : HloInstruction} {color : String}
    (h : colors i.id = some color) :
    colorKey input depth topologicalIndex colors self (related ++ [i]) color =
      (colorKey input depth topologicalIndex colors self related color).add input depth
        topologicalIndex self i := by
  simp [colorKey, Key.add, h]

theorem colorKey_concat_of_ne {related : List HloInstruction} {i : HloInstruction}
    {color : String} (h : colors i.id ≠ some color) :
    colorKey input depth topologicalIndex colors self (related ++ [i]) color =
      colorKey input depth topologicalIndex colors self related color := by
  simp [colorKey, h]

end keys

section scores

/-- The scores of a colour as a key. -/
def Scores.key (s : Scores) (color : String) : Key :=
  ⟨s.weights color, s.depths color, s.topologicalIndices color⟩

def Scores.maxKey (s : Scores) : Key := ⟨s.maxWeight, s.maxDepth, s.maxTopologicalIndex⟩

/-- The scores as the record of a running search. -/
def Scores.running (s : Scores) (priority : ColorPropagationPriority) :
    RunningBest String (ℤ ×ₗ ℤ ×ₗ ℤ) where
  key color := (s.key color).rank priority
  best := s.maxColor.map fun color => (color, s.maxKey.rank priority)

/-- The comparison of the scores is the one of the ranks. -/
theorem Scores.updatesMax_eq (s : Scores) (priority : ColorPropagationPriority) (k : Key) :
    s.updatesMax priority k.weight k.depth k.topologicalIndex =
      (s.running priority).improves (k.rank priority) := by
  cases hmax : s.maxColor with
  | none => simp [updatesMax, running, RunningBest.improves, hmax]
  | some color =>
    cases priority with
    | weight =>
      simp only [updatesMax, running, RunningBest.improves, hmax, Option.isNone_some,
        Bool.false_or, Option.map_some, Key.rank, maxKey, Prod.Lex.toLex_lt_toLex]
      congr 1
      apply propext
      omega
    | depth =>
      simp only [updatesMax, running, RunningBest.improves, hmax, Option.isNone_some,
        Bool.false_or, Option.map_some, Key.rank, maxKey, Prod.Lex.toLex_lt_toLex]
      congr 1
      apply propext
      omega
    | topological =>
      simp only [updatesMax, running, RunningBest.improves, hmax, Option.isNone_some,
        Bool.false_or, Option.map_some, Key.rank, maxKey, Prod.Lex.toLex_lt_toLex]
      congr 1
      apply propext
      omega

variable {input : Input} {ifVisit : HloInstruction → Bool} {depth topologicalIndex : ℕ → Option ℕ}
  {colors : Colors} {self : HloInstruction}

/-- The scores with a new key for a colour, which may become the best one. -/
def Scores.withKey (s : Scores) (priority : ColorPropagationPriority) (color : String) (k : Key) :
    Scores :=
  let scores := { s with
    weights := Function.update s.weights color k.weight
    depths := Function.update s.depths color k.depth
    topologicalIndices := Function.update s.topologicalIndices color k.topologicalIndex }
  if s.updatesMax priority k.weight k.depth k.topologicalIndex then
    { scores with maxColor := some color, maxWeight := k.weight, maxDepth := k.depth
                  maxTopologicalIndex := k.topologicalIndex }
  else scores

theorem addUserOrOperand_eq {s : Scores} {i : HloInstruction} {color : String}
    (hvisit : ifVisit i = true) (hcolor : colors (weighedAs input i).id = some color) :
    addUserOrOperand input ifVisit depth topologicalIndex colors self s i =
      s.withKey input.priority color
        ((s.key color).add input depth topologicalIndex self (weighedAs input i)) := by
  rw [addUserOrOperand, if_pos hvisit]
  simp only [weighedAs] at hcolor
  simp only [hcolor]
  rfl

/-- What is not eligible or has no colour changes nothing. -/
theorem addUserOrOperand_of_none {s : Scores} {i : HloInstruction}
    (h : ifVisit i = true → colors (weighedAs input i).id = none) :
    addUserOrOperand input ifVisit depth topologicalIndex colors self s i = s := by
  unfold addUserOrOperand
  split
  · rename_i hvisit
    have hcolor := h hvisit
    simp only [weighedAs] at hcolor
    simp only [hcolor]
  · rfl

theorem key_withKey (s : Scores) (priority : ColorPropagationPriority) (color : String) (k : Key)
    (other : String) :
    (s.withKey priority color k).key other = Function.update s.key color k other := by
  unfold Scores.withKey
  by_cases heq : other = color
  · split <;> simp [Scores.key, heq]
  · split <;> simp [Scores.key, heq]

theorem running_withKey (s : Scores) (priority : ColorPropagationPriority) (color : String)
    (k : Key) :
    (s.withKey priority color k).running priority =
      (s.running priority).update color (k.rank priority) := by
  have hkey : (fun other => ((s.withKey priority color k).key other).rank priority) =
      Function.update (fun other => (s.key other).rank priority) color (k.rank priority) := by
    funext other
    rw [key_withKey]
    by_cases heq : other = color
    · simp [heq]
    · simp [heq]
  have hbest : (s.withKey priority color k).maxColor.map (fun c =>
        (c, (s.withKey priority color k).maxKey.rank priority)) =
      if (s.running priority).improves (k.rank priority) then some (color, k.rank priority)
      else (s.running priority).best := by
    rw [← s.updatesMax_eq priority k]
    unfold Scores.withKey
    split
    · rfl
    · rfl
  rw [RunningBest.update, ← hbest]
  exact congrArg (RunningBest.mk · _) hkey

/-- The scores after some of the neighbours: each key is the one over those neighbours, and the
record leads. -/
structure ScoresOf (input : Input) (depth topologicalIndex : ℕ → Option ℕ) (colors : Colors)
    (instruction : HloInstruction) (related : List HloInstruction) (s : Scores) : Prop where
  keys : ∀ color, s.key color =
    colorKey input depth topologicalIndex colors instruction related color
  leads : (s.running input.priority).Leads {color | ∃ i ∈ related, colors i.id = some color}

theorem scoresOf_start : ScoresOf input depth topologicalIndex colors self [] {} where
  keys _ := rfl
  leads := by
    have hnone : {color | ∃ i ∈ ([] : List HloInstruction), colors i.id = some color} = ∅ := by
      simp
    rw [hnone]
    exact RunningBest.leads_start _

/-- One more neighbour. -/
theorem ScoresOf.step {related : List HloInstruction} {s : Scores} {i : HloInstruction}
    (h : ScoresOf input depth topologicalIndex colors self related s) (hvisit : ifVisit i = true) :
    ScoresOf input depth topologicalIndex colors self (related ++ [weighedAs input i])
      (addUserOrOperand input ifVisit depth topologicalIndex colors self s i) := by
  cases hcolor : colors (weighedAs input i).id with
  | none =>
    rw [addUserOrOperand_of_none fun _ => hcolor]
    constructor
    · intro color
      rw [colorKey_concat_of_ne (by simp [hcolor])]
      exact h.keys color
    · have hsame : {color | ∃ j ∈ related ++ [weighedAs input i], colors j.id = some color} =
          {color | ∃ j ∈ related, colors j.id = some color} := by
        ext color
        simp [hcolor]
      rw [hsame]
      exact h.leads
  | some color =>
    rw [addUserOrOperand_eq hvisit hcolor]
    constructor
    · intro other
      rw [key_withKey]
      by_cases heq : other = color
      · subst heq
        rw [Function.update_self, h.keys, colorKey_concat hcolor]
      · rw [Function.update_of_ne heq, h.keys, colorKey_concat_of_ne]
        rw [hcolor]
        exact fun hsome => heq (Option.some.inj hsome).symm
    · have hmore : {other | ∃ j ∈ related ++ [weighedAs input i], colors j.id = some other} =
          insert color {other | ∃ j ∈ related, colors j.id = some other} := by
        ext other
        simp [hcolor, or_comm, eq_comm]
      rw [hmore, running_withKey]
      exact h.leads.update (Key.rank_add_le _ _ _)

theorem scoresOf_foldl (ids : List HloInstruction) :
    ScoresOf input depth topologicalIndex colors self ((ids.filter ifVisit).map (weighedAs input))
      (ids.foldl (addUserOrOperand input ifVisit depth topologicalIndex colors self) {}) := by
  induction ids using List.reverseRecOn with
  | nil => exact scoresOf_start
  | append_singleton ids i ih =>
    rw [List.foldl_append, List.filter_append, List.map_append]
    by_cases hvisit : ifVisit i = true
    · simpa [List.filter_cons, hvisit] using ih.step hvisit
    · have hsame : addUserOrOperand input ifVisit depth topologicalIndex colors self
          (ids.foldl (addUserOrOperand input ifVisit depth topologicalIndex colors self) {}) i =
          ids.foldl (addUserOrOperand input ifVisit depth topologicalIndex colors self) {} :=
        addUserOrOperand_of_none fun h => absurd h hvisit
      simpa [List.filter_cons, hvisit, hsame] using ih

end scores

/-- A colour of the neighbours whose key, over all the neighbours that carry it, no other colour
of theirs beats. -/
def IsBestColor (input : Input) (ifVisit : HloInstruction → Bool)
    (depth topologicalIndex : ℕ → Option ℕ) (colors : Colors) (i : HloInstruction)
    (color : String) : Prop :=
  (∃ n ∈ neighbors input ifVisit i, colors n.id = some color) ∧
  ∀ n ∈ neighbors input ifVisit i, ∀ other, colors n.id = some other →
    (colorKey input depth topologicalIndex colors i (neighbors input ifVisit i) color).rank
        input.priority ≤
      (colorKey input depth topologicalIndex colors i (neighbors input ifVisit i) other).rank
        input.priority

/-- An instruction takes a colour if and only if a neighbour has one, and then a best one. -/
theorem propagateFromUsersAndOperands_best (input : Input) (ifVisit : HloInstruction → Bool)
    (depth topologicalIndex : ℕ → Option ℕ) (colors : Colors) (i : HloInstruction) :
    ((propagateFromUsersAndOperands input ifVisit depth topologicalIndex colors i).2 = true ↔
      ∃ n ∈ neighbors input ifVisit i, (colors n.id).isSome) ∧
    ((propagateFromUsersAndOperands input ifVisit depth topologicalIndex colors i).2 = true →
      ∃ color, (propagateFromUsersAndOperands input ifVisit depth topologicalIndex colors i).1
          i.id = some color ∧
        IsBestColor input ifVisit depth topologicalIndex colors i color) := by
  have hscores : ScoresOf input depth topologicalIndex colors i (neighbors input ifVisit i) _ :=
    scoresOf_foldl (input.program.aliasOperands input.properties i.id ++
      input.program.aliasUsers input.properties i.id)
  unfold propagateFromUsersAndOperands
  dsimp only
  generalize (input.program.aliasOperands input.properties i.id ++
    input.program.aliasUsers input.properties i.id).foldl
      (addUserOrOperand input ifVisit depth topologicalIndex colors i) {} = s at hscores ⊢
  cases hmax : s.maxColor with
  | none =>
    have hempty := hscores.leads.none_seen (by rw [Scores.running, hmax]; rfl)
    simp only [Bool.false_eq_true, false_iff, false_implies, and_true]
    rintro ⟨n, hn, hsome⟩
    obtain ⟨color, hcolor⟩ := Option.isSome_iff_exists.mp hsome
    have hmem : color ∈ {color | ∃ n ∈ neighbors input ifVisit i, colors n.id = some color} :=
      ⟨n, hn, hcolor⟩
    rw [hempty] at hmem
    exact hmem
  | some color =>
    have hrecord : (s.running input.priority).best =
        some (color, s.maxKey.rank input.priority) := by
      rw [Scores.running, hmax]
      rfl
    obtain ⟨⟨n, hn, hcolor⟩, hkey, hleast⟩ := hscores.leads.record _ _ hrecord
    constructor
    · constructor
      · intro _
        exact ⟨n, hn, by rw [hcolor]; rfl⟩
      · intro _
        rfl
    · intro _
      refine ⟨color, ?_, ⟨n, hn, hcolor⟩, ?_⟩
      · apply keeps_colorUnassigned (P := fun _ => True) color _ _ i.id color trivial
        exact Function.update_self _ _ _
      · intro n' hn' other hother
        have hle := hleast other ⟨n', hn', hother⟩
        rw [hkey] at hle
        simpa only [Scores.running, hscores.keys] using hle

end Coloring
end MultiMeshJax
