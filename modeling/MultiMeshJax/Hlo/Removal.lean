import MultiMeshJax.Hlo.Program

/-! Replacing an instruction of a computation, which then goes with the operands that nothing
uses. -/
namespace MultiMeshJax
namespace HloComputation

open StatusOr

/-- Which instructions have side effects, by id. -/
abbrev SideEffects := ℕ → Bool

def hasControlDependencies (c : HloComputation) (i : HloInstruction) : Bool :=
  !i.controlPredecessors.isEmpty ||
    c.instructions.any fun j => j.controlPredecessors.contains i.id

/-- The item that is removed first may have a side effect. -/
def isRemovable (hasSideEffect : SideEffects) (first : ℕ) (c : HloComputation)
    (i : HloInstruction) : Bool :=
  (c.users i.id).isEmpty && i.id != c.root && !i.isParameter && !c.hasControlDependencies i &&
    (!hasSideEffect i.id || i.id == first)

def numOperands (c : HloComputation) : ℕ := (c.instructions.map fun i => i.operands.length).sum

/-- The items of the work list are taken in their order. -/
def removeItems (hasSideEffect : SideEffects) (first : ℕ) :
    ℕ → List ℕ → HloComputation → StatusOr HloComputation
  | _, [], c => return c
  | 0, _ :: _, _ => fatal "more removals than the fuel allows"
  | fuel + 1, item :: worklist, c =>
    match c.instruction item with
    | none => removeItems hasSideEffect first fuel worklist c
    | some i =>
      if c.isRemovable hasSideEffect first i then
        removeItems hasSideEffect first fuel (worklist ++ i.operands) (c.removeInstruction item)
      else removeItems hasSideEffect first fuel worklist c

def removeInstructionAndUnusedOperands (hasSideEffect : SideEffects) (c : HloComputation)
    (i : HloInstruction) : StatusOr HloComputation :=
  if c.isRemovable hasSideEffect i.id i then
    removeItems hasSideEffect i.id (c.numOperands + 1) [i.id] c
  else error "instruction cannot be removed"

/-- All uses of the instruction, the one as the root too, become uses of the new one. -/
def replaceUses (c : HloComputation) (old new : ℕ) : HloComputation :=
  { c.replaceAllUsesWith old new with root := if c.root = old then new else c.root }

/-- `ReplaceInstruction`: nothing is replaced where there are control dependencies. -/
def replaceInstruction (hasSideEffect : SideEffects) (c : HloComputation) (old : HloInstruction)
    (new : ℕ) : StatusOr HloComputation :=
  if c.hasControlDependencies old then return c
  else removeInstructionAndUnusedOperands hasSideEffect (c.replaceUses old.id new) old

/-- `RemoveInstruction`: only what is dead is removed, whatever its side effects. -/
def tryRemoveInstruction (c : HloComputation) (i : HloInstruction) : StatusOr HloComputation :=
  if c.isRemovable (fun _ => false) i.id i then return c.removeInstruction i.id
  else error "instruction cannot be removed"

section removal

variable {hasSideEffect : SideEffects} {first : ℕ} {c c' d : HloComputation} {Q : ℕ → Prop}

/-- Only instructions with `Q` that nothing uses have been removed. -/
structure RemovedFrom (Q : ℕ → Prop) (c c' : HloComputation) : Prop where
  sublist : c'.instructions.Sublist c.instructions
  root : c'.root = c.root
  root_kept : c.root ∈ c.ids → c.root ∈ c'.ids
  closed : ∀ j ∈ c'.instructions, ∀ o ∈ j.operands, o ∈ c.ids → o ∈ c'.ids
  only : ∀ i ∈ c.instructions, i.id ∉ c'.ids → Q i.id

theorem RemovedFrom.refl (Q : ℕ → Prop) (c : HloComputation) : RemovedFrom Q c c where
  sublist := .refl _
  root := rfl
  root_kept h := h
  closed _ _ _ _ h := h
  only _ hi hnot := absurd (List.mem_map_of_mem hi) hnot

theorem RemovedFrom.trans (h : RemovedFrom Q c c') (h' : RemovedFrom Q c' d) : RemovedFrom Q c d where
  sublist := h'.sublist.trans h.sublist
  root := h'.root.trans h.root
  root_kept hroot := h.root ▸ h'.root_kept (h.root.symm ▸ h.root_kept hroot)
  closed j hj o ho hmem := h'.closed j hj o ho (h.closed j (h'.sublist.subset hj) o ho hmem)
  only i hi hnot := by
    by_cases hmem : i.id ∈ c'.ids
    · obtain ⟨j, hj, hid⟩ := List.mem_map.mp hmem
      rw [← hid] at hnot ⊢
      exact h'.only j hj hnot
    · exact h.only i hi hmem

theorem RemovedFrom.ids (h : RemovedFrom Q c c') {id : ℕ} (hid : id ∈ c'.ids) : id ∈ c.ids :=
  (h.sublist.map HloInstruction.id).subset hid

theorem isRemovable_iff {i : HloInstruction} : c.isRemovable hasSideEffect first i = true ↔
    c.users i.id = [] ∧ i.id ≠ c.root ∧ i.isParameter = false ∧
      c.hasControlDependencies i = false ∧ (hasSideEffect i.id = true → i.id = first) := by
  unfold isRemovable
  cases hasSideEffect i.id <;> simp [and_assoc]

theorem tryRemoveInstruction_eq_ok {i : HloInstruction} : c.tryRemoveInstruction i = ok c' ↔
    (c.users i.id = [] ∧ i.id ≠ c.root ∧ i.isParameter = false ∧
      c.hasControlDependencies i = false) ∧ c' = c.removeInstruction i.id := by
  have hremovable : c.isRemovable (fun _ => false) i.id i = true ↔ c.users i.id = [] ∧
      i.id ≠ c.root ∧ i.isParameter = false ∧ c.hasControlDependencies i = false := by
    rw [isRemovable_iff]
    simp
  rw [← hremovable, tryRemoveInstruction]
  split
  · rename_i h
    rw [pure_eq, ok.injEq]
    constructor
    · intro heq
      exact ⟨h, heq.symm⟩
    · intro heq
      exact heq.2.symm
  · rename_i h
    constructor
    · intro heq
      cases heq
    · intro heq
      exact absurd heq.1 h

theorem mem_removeInstruction {removed : ℕ} {i : HloInstruction} :
    i ∈ (c.removeInstruction removed).instructions ↔ i ∈ c.instructions ∧ i.id ≠ removed := by
  simp [removeInstruction]

/-- One removal. -/
theorem removedFrom_removeInstruction {i : HloInstruction}
    (h : c.isRemovable hasSideEffect first i = true) (hQ : Q i.id) :
    RemovedFrom Q c (c.removeInstruction i.id) := by
  obtain ⟨hunused, hroot, -⟩ := isRemovable_iff.mp h
  have hmem : ∀ id ∈ c.ids, id ≠ i.id → id ∈ (c.removeInstruction i.id).ids := by
    intro id hid hne
    obtain ⟨j, hj, rfl⟩ := List.mem_map.mp hid
    exact List.mem_map_of_mem (mem_removeInstruction.mpr ⟨hj, hne⟩)
  constructor
  · exact List.filter_sublist
  · rfl
  · intro hin
    exact hmem c.root hin hroot.symm
  · intro j hj o ho hin
    apply hmem o hin
    rintro rfl
    have huser : j ∈ c.users i.id :=
      List.mem_filter.mpr ⟨(mem_removeInstruction.mp hj).1, by simpa using ho⟩
    rw [hunused] at huser
    cases huser
  · intro j hj hnot
    by_cases heq : j.id = i.id
    · rw [heq]
      exact hQ
    · exact absurd (hmem j.id (List.mem_map_of_mem hj) heq) hnot

theorem numOperands_removeInstruction {i : HloInstruction} (hi : i ∈ c.instructions) :
    (c.removeInstruction i.id).numOperands + i.operands.length ≤ c.numOperands := by
  unfold numOperands removeInstruction
  dsimp only
  generalize c.instructions = is at hi
  induction is with
  | nil => cases hi
  | cons j is ih =>
    have hle : ∀ js : List HloInstruction,
        ((js.filter fun k => k.id != i.id).map fun k => k.operands.length).sum ≤
          (js.map fun k => k.operands.length).sum := fun js =>
      List.Sublist.sum_le_sum (List.filter_sublist.map _) fun _ _ => Nat.zero_le _
    rw [List.map_cons, List.sum_cons]
    rcases List.mem_cons.mp hi with rfl | hi
    · have := hle is
      rw [List.filter_cons, if_neg (by simp)]
      omega
    · have := ih hi
      by_cases hid : (j.id != i.id) = true
      · rw [List.filter_cons, if_pos hid, List.map_cons, List.sum_cons]
        omega
      · rw [List.filter_cons, if_neg hid]
        omega

/-- The fuel is enough for one item at a time and the operands of all instructions. -/
theorem removeItems_removedFrom {fuel : ℕ} {worklist : List ℕ}
    (hfuel : worklist.length + c.numOperands ≤ fuel) (hwork : ∀ id ∈ worklist, Q id)
    (hQ : ∀ i ∈ c.instructions, Q i.id → ∀ o ∈ i.operands, Q o) :
    ∃ c', removeItems hasSideEffect first fuel worklist c = ok c' ∧ RemovedFrom Q c c' := by
  induction fuel generalizing worklist c with
  | zero =>
    cases worklist with
    | nil => exact ⟨c, rfl, .refl Q c⟩
    | cons item worklist =>
      rw [List.length_cons] at hfuel
      omega
  | succ fuel ih =>
    cases worklist with
    | nil => exact ⟨c, rfl, .refl Q c⟩
    | cons item worklist =>
      rw [List.length_cons] at hfuel
      have hrest : ∀ id ∈ worklist, Q id := fun id hid => hwork id (List.mem_cons_of_mem _ hid)
      unfold removeItems
      cases hi : c.instruction item with
      | none => exact ih (by omega) hrest hQ
      | some i =>
        obtain rfl := id_of_instruction hi
        have hmem := mem_of_instruction hi
        have hitem : Q i.id := hwork i.id List.mem_cons_self
        dsimp only
        split
        · rename_i hremovable
          have hcount := numOperands_removeInstruction hmem
          obtain ⟨c', hrun, hc'⟩ : ∃ c', removeItems hasSideEffect first fuel
              (worklist ++ i.operands) (c.removeInstruction i.id) = ok c' ∧
                RemovedFrom Q (c.removeInstruction i.id) c' := by
            apply ih
            · rw [List.length_append]
              omega
            · intro id hid
              rcases List.mem_append.mp hid with hid | hid
              · exact hrest id hid
              · exact hQ i hmem hitem id hid
            · intro j hj
              exact hQ j (mem_removeInstruction.mp hj).1
          exact ⟨c', hrun, (removedFrom_removeInstruction hremovable hitem).trans hc'⟩
        · exact ih (by omega) hrest hQ

/-- The first item goes when it can, and its operands come next. -/
theorem removeItems_cons {fuel item : ℕ} {worklist : List ℕ} {i : HloInstruction}
    (hi : c.instruction item = some i) (h : c.isRemovable hasSideEffect first i = true) :
    removeItems hasSideEffect first (fuel + 1) (item :: worklist) c =
      removeItems hasSideEffect first fuel (worklist ++ i.operands) (c.removeInstruction item) := by
  rw [removeItems, hi]
  dsimp only
  rw [if_pos h]

theorem removeItems_sublist {fuel : ℕ} {worklist : List ℕ}
    (h : removeItems hasSideEffect first fuel worklist c = ok c') :
    c'.instructions.Sublist c.instructions := by
  induction fuel generalizing worklist c with
  | zero =>
    cases worklist with
    | nil =>
      cases h
      exact .refl _
    | cons item worklist => cases h
  | succ fuel ih =>
    cases worklist with
    | nil =>
      cases h
      exact .refl _
    | cons item worklist =>
      rw [removeItems] at h
      split at h
      · exact ih h
      · split at h
        · exact (ih h).trans List.filter_sublist
        · exact ih h

/-- The first item is gone at the end if it can go at the start. -/
theorem removeItems_first {fuel item : ℕ} {worklist : List ℕ} {i : HloInstruction}
    (hi : c.instruction item = some i) (hremovable : c.isRemovable hasSideEffect first i = true)
    (h : removeItems hasSideEffect first fuel (item :: worklist) c = ok c') : item ∉ c'.ids := by
  cases fuel with
  | zero => cases h
  | succ fuel =>
    rw [removeItems_cons hi hremovable] at h
    intro hmem
    obtain ⟨j, hj, rfl⟩ := List.mem_map.mp hmem
    exact (mem_removeInstruction.mp ((removeItems_sublist h).subset hj)).2 rfl

theorem hasControlDependencies_iff {i : HloInstruction} : c.hasControlDependencies i = true ↔
    i.controlPredecessors ≠ [] ∨ ∃ j ∈ c.instructions, i.id ∈ j.controlPredecessors := by
  simp [hasControlDependencies]

/-- What has control dependencies is not removed, and so keeps those of the others. -/
theorem hasControlDependencies_removeInstruction {i j : HloInstruction} (hids : c.ids.Nodup)
    (hmem : i ∈ c.instructions) (hi : c.hasControlDependencies i = false)
    (hj : c.hasControlDependencies j = true) :
    (c.removeInstruction i.id).hasControlDependencies j = true := by
  rw [hasControlDependencies_iff] at hj ⊢
  apply hj.imp_right
  rintro ⟨k, hk, hpredecessor⟩
  refine ⟨k, mem_removeInstruction.mpr ⟨hk, ?_⟩, hpredecessor⟩
  intro heq
  obtain rfl : k = i := List.inj_on_of_nodup_map hids hk hmem heq
  have hcontrol : c.hasControlDependencies k = true := by
    rw [hasControlDependencies_iff]
    exact .inl fun hnil => by rw [hnil] at hpredecessor; cases hpredecessor
  rw [hi] at hcontrol
  cases hcontrol

end removal

end HloComputation
end MultiMeshJax
