import MultiMeshJax.Coloring.Propagation

/-! `MpmdUniquifyColors`: every task call gets a colour of its own. -/
namespace MultiMeshJax
namespace UniquifyColors

open StatusOr Coloring

/-- The map goes from the new colours to the old ones. -/
structure State where
  colors : Colors
  colorMap : List (String × String) := []

/-- `absl::StrCat(next_color, ".", *color)`. -/
def generatedName (nextColor : ℕ) (color : String) : String := toString nextColor ++ "." ++ color

/-- The names that are tried in turn for a colour. A map of `length` names cannot hold all
of these. -/
def candidates (length : ℕ) (color : String) : List String :=
  color :: (List.range length).map fun nextColor => generatedName nextColor color

def newColor (colorMap : List (String × String)) (color : String) : StatusOr String :=
  deref "no name is left" ((candidates colorMap.length color).find? fun name =>
    !(colorMap.map Prod.fst).contains name)

def assignColors (color : String) (ids : List ℕ) (colors : Colors) : Colors :=
  ids.foldl (fun colors id => assignColor colors id color) colors

/-- The instructions that go with a call: those of its computation, and its users. -/
def recolored (program : HloProgram) (comp : HloComputation) (call : HloInstruction) :
    StatusOr (List ℕ) :=
  match call.opcode with
  | .call n => do
    let calledComp ← program.calledComputation n
    return calledComp.ids ++ (comp.users call.id).map HloInstruction.id
  | _ => return []

def visitCall (moduleName : String) (program : HloProgram) (comp : HloComputation) (st : State)
    (call : HloInstruction) : StatusOr State :=
  match st.colors call.id with
  | none =>
    error (moduleName ++ " has call " ++ toString call.id ++ " without color assigned")
  | some color => do
    let new ← newColor st.colorMap color
    let related ← recolored program comp call
    let colorMap := (new, color) :: st.colorMap
    if new ≠ color then
      return ⟨assignColors new (related ++ [call.id]) st.colors, colorMap⟩
    else return ⟨st.colors, colorMap⟩

def visitParameter (st : State) (param : HloInstruction) : State :=
  match st.colors param.id with
  | some color =>
    if (st.colorMap.map Prod.fst).contains color then st
    else { st with colorMap := (color, color) :: st.colorMap }
  | none => st

def visitComputation (moduleName : String) (program : HloProgram) (st : State)
    (comp : HloComputation) : StatusOr State := do
  let calls := comp.instructions.filter HloInstruction.isCall
  let st ← calls.foldlM (visitCall moduleName program comp) st
  return comp.parameterInstructions.foldl visitParameter st

/-- The bodies of the loops of a computation, in the order in which they are pushed. -/
def loopBodies (program : HloProgram) (comp : HloComputation) : StatusOr (List HloComputation) :=
  (comp.instructions.filterMap fun i =>
    match i.opcode with
    | .whileLoop n => some n
    | _ => none).mapM program.calledComputation

/-- `to_visit` is a stack, its top first. -/
def visitAll (moduleName : String) (program : HloProgram) :
    ℕ → List HloComputation → State → StatusOr State
  | _, [], st => return st
  | 0, _ :: _, _ => fatal "more visits than the fuel allows"
  | fuel + 1, comp :: toVisit, st => do
    let st ← visitComputation moduleName program st comp
    let bodies ← loopBodies program comp
    visitAll moduleName program fuel (bodies.reverse ++ toVisit) st

/-- The map is a hash map, which `Recolor` reads in some order. -/
def hashEntries (hash : ColorHashOrder) (colorMap : List (String × String)) :
    List (String × String) :=
  (hash.order (colorMap.map Prod.fst)).filterMap fun new =>
    (colorMap.lookup new).map fun old => (new, old)

def run (hash : ColorHashOrder) (moduleName : String) (program : HloProgram)
    (partition : HloPartition) (fuel : ℕ) : StatusOr (Colors × HloPartition) := do
  let st ← visitAll moduleName program fuel [program.entry] ⟨initialColors program, []⟩
  let partition ← partition.recolor (hashEntries hash st.colorMap)
  return (st.colors, partition)

section names

theorem generatedName_injective (color : String) :
    Function.Injective fun n => generatedName n color := by
  intro n m h
  have hlist := congrArg String.toList h
  simp only [generatedName, String.toList_append, List.append_cancel_right_eq] at hlist
  have hdigits : Nat.toDigits 10 n = Nat.toDigits 10 m := by
    simpa [Nat.toList_repr] using hlist
  have hvalue := congrArg (fun digits => Nat.ofDigitChars 10 digits 0) hdigits
  simpa [Nat.ofDigitChars_ten_toDigits] using hvalue

theorem generatedName_ne (n : ℕ) (color : String) : generatedName n color ≠ color := by
  intro h
  have hlength := congrArg String.length h
  simp only [generatedName, String.length_append] at hlength
  have hdot : ".".length = 1 := rfl
  omega

theorem nodup_candidates (length : ℕ) (color : String) : (candidates length color).Nodup := by
  apply List.nodup_cons.mpr
  constructor
  · simp [generatedName_ne]
  · exact List.nodup_range.map (generatedName_injective color)

/-- A new name is found in every map. -/
theorem exists_newColor (colorMap : List (String × String)) (color : String) :
    ∃ new, newColor colorMap color = ok new := by
  cases hfind : (candidates colorMap.length color).find? fun name =>
      !(colorMap.map Prod.fst).contains name with
  | some new => exact ⟨new, by rw [newColor, hfind, deref_some]⟩
  | none =>
    have hsub : candidates colorMap.length color ⊆ colorMap.map Prod.fst := by
      intro name hname
      simpa using List.find?_eq_none.mp hfind name hname
    have hlength := (List.subperm_of_subset (nodup_candidates _ _) hsub).length_le
    simp [candidates] at hlength

/-- The name is new, and it is the colour or one that is generated from it. -/
theorem newColor_eq_ok {colorMap : List (String × String)} {color new : String}
    (h : newColor colorMap color = ok new) :
    new ∉ colorMap.map Prod.fst ∧ (new = color ∨ color ∈ colorMap.map Prod.fst ∧
      ∃ n, new = generatedName n color) := by
  have hfind := deref_eq_ok.mp h
  have hnew : new ∉ colorMap.map Prod.fst := by simpa using List.find?_some hfind
  refine ⟨hnew, ?_⟩
  by_cases hcolor : color ∈ colorMap.map Prod.fst
  · rcases List.mem_cons.mp (List.mem_of_find?_eq_some hfind) with rfl | hmem
    · exact absurd hcolor hnew
    · obtain ⟨n, -, rfl⟩ := List.mem_map.mp hmem
      exact .inr ⟨hcolor, n, rfl⟩
  · left
    have hhead : (!(colorMap.map Prod.fst).contains color) = true := by simpa using hcolor
    simp only [candidates, List.find?_cons, hhead] at hfind
    exact (Option.some.inj hfind).symm

end names

end UniquifyColors
end MultiMeshJax
