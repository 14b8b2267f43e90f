import MultiMeshJax.Foundation.Settles
import MultiMeshJax.Hlo.Removal

/-! `RemoveInstructionBackToParameters`: an instruction is removed with all that only it leads to. -/
namespace MultiMeshJax
namespace HloComputation

open StatusOr

/-- `delete_tree` is a stack, its top first. -/
def removeTree : ℕ → List ℕ → List ℕ → HloComputation → StatusOr HloComputation
  | _, [], _, c => return c
  | 0, _ :: _, _, _ => fatal "more removals than the fuel allows"
  | fuel + 1, next :: deleteTree, deleted, c =>
    if next ∈ deleted then removeTree fuel deleteTree deleted c
    else
      match c.instruction next with
      | none => error "the instruction has been removed before"
      | some i =>
        if (c.users next).isEmpty && !i.isParameter then do
          let c' ← c.tryRemoveInstruction i
          removeTree fuel (i.operands.reverse ++ deleteTree) (next :: deleted) c'
        else removeTree fuel deleteTree deleted c

def removeInstructionBackToParameters (c : HloComputation) (id : ℕ) : StatusOr HloComputation :=
  removeTree (c.numOperands + 1) [id] [] c

/-- What goes with the roots: all that reads it goes, and it is a root or is read. -/
inductive Freed (c : HloComputation) (roots : List ℕ) : ℕ → Prop
  | intro {i : HloInstruction} (hi : c.instruction i.id = some i) (hparameter : i.isParameter = false)
      (hread : i.id ∈ roots ∨ c.users i.id ≠ []) (husers : ∀ j ∈ c.users i.id, Freed c roots j.id) :
      Freed c roots i.id

/-- Nothing stands against the removal of an instruction but its users. -/
def Deletable (c : HloComputation) (id : ℕ) : Prop :=
  id ≠ c.root ∧ ∀ i, c.instruction id = some i → c.hasControlDependencies i = false

variable {c₀ c c' : HloComputation} {roots roots' : List ℕ} {id : ℕ}

theorem Freed.mono (hsub : ∀ x ∈ roots, x ∈ roots') (h : Freed c₀ roots id) : Freed c₀ roots' id := by
  induction h with
  | intro hi hparameter hread _ ih => exact .intro hi hparameter (hread.imp_left (hsub _)) ih

theorem Freed.cases (h : Freed c₀ roots id) : ∃ i, c₀.instruction id = some i ∧
    i.isParameter = false ∧ (id ∈ roots ∨ c₀.users id ≠ []) ∧
      ∀ j ∈ c₀.users id, Freed c₀ roots j.id := by
  cases h with
  | intro hi hparameter hread husers => exact ⟨_, hi, hparameter, hread, husers⟩

/-- What is left of `c₀` without some instructions. -/
structure Without (c₀ : HloComputation) (gone : List ℕ) (c : HloComputation) : Prop where
  instructions : c.instructions = c₀.instructions.filter fun i => i.id ∉ gone
  root : c.root = c₀.root

/-- All that goes with the roots is gone, and nothing else. -/
def Cleared (c₀ : HloComputation) (roots : List ℕ) (c : HloComputation) : Prop :=
  ∃ gone, Without c₀ gone c ∧ ∀ id, id ∈ gone ↔ Freed c₀ roots id

section without

variable {gone : List ℕ} {i j : HloInstruction}

theorem Without.mem (h : Without c₀ gone c) : j ∈ c.instructions ↔ j ∈ c₀.instructions ∧ j.id ∉ gone := by
  rw [h.instructions, List.mem_filter, decide_eq_true_eq]

theorem Without.nodup (h : Without c₀ gone c) (hids : c₀.ids.Nodup) : c.ids.Nodup := by
  rw [ids, h.instructions]
  exact hids.sublist (List.filter_sublist.map _)

theorem Without.instruction (h : Without c₀ gone c) (hids : c₀.ids.Nodup) :
    c.instruction id = some i ↔ c₀.instruction id = some i ∧ id ∉ gone := by
  constructor
  · intro hi
    obtain rfl := id_of_instruction hi
    obtain ⟨hmem, hnot⟩ := h.mem.mp (mem_of_instruction hi)
    exact ⟨instruction_of_mem hids hmem, hnot⟩
  · rintro ⟨hi, hnot⟩
    obtain rfl := id_of_instruction hi
    exact instruction_of_mem (h.nodup hids) (h.mem.mpr ⟨mem_of_instruction hi, hnot⟩)

theorem Without.users_eq_nil (h : Without c₀ gone c) :
    c.users id = [] ↔ ∀ j ∈ c₀.users id, j.id ∈ gone := by
  rw [List.eq_nil_iff_forall_not_mem]
  constructor
  · intro hnone j hj
    by_contra hnot
    obtain ⟨hmem, hread⟩ := mem_users.mp hj
    exact hnone j (mem_users.mpr ⟨h.mem.mpr ⟨hmem, hnot⟩, hread⟩)
  · intro hall j hj
    obtain ⟨hmem, hread⟩ := mem_users.mp hj
    obtain ⟨hmem, hnot⟩ := h.mem.mp hmem
    exact hnot (hall j (mem_users.mpr ⟨hmem, hread⟩))

/-- As long as nothing with control dependencies is gone, the others have theirs. -/
theorem Without.hasControlDependencies (h : Without c₀ gone c) (hids : c₀.ids.Nodup)
    (hdeletable : ∀ x ∈ gone, Deletable c₀ x) (i : HloInstruction) :
    c.hasControlDependencies i = c₀.hasControlDependencies i := by
  rw [Bool.eq_iff_iff, hasControlDependencies_iff, hasControlDependencies_iff]
  apply or_congr_right
  constructor
  · rintro ⟨k, hk, hpredecessor⟩
    exact ⟨k, (h.mem.mp hk).1, hpredecessor⟩
  · rintro ⟨k, hk, hpredecessor⟩
    refine ⟨k, h.mem.mpr ⟨hk, ?_⟩, hpredecessor⟩
    intro hgone
    have hcontrol := (hdeletable k.id hgone).2 k (instruction_of_mem hids hk)
    rw [← Bool.not_eq_true, hasControlDependencies_iff, not_or, not_ne_iff] at hcontrol
    rw [hcontrol.1] at hpredecessor
    cases hpredecessor

theorem Without.removeInstruction (h : Without c₀ gone c) :
    Without c₀ (id :: gone) (c.removeInstruction id) where
  instructions := by
    change c.instructions.filter _ = _
    rw [h.instructions, List.filter_filter]
    apply List.filter_congr
    intro i _
    by_cases heq : i.id = id
    · simp [heq]
    · simp [heq, bne]
  root := h.root

end without

/-- The invariant of one removal back to the parameters: what is gone belongs there, and what could
go is on the stack. -/
structure Removing (c₀ : HloComputation) (roots stack deleted gone : List ℕ) (c : HloComputation) :
    Prop where
  without : Without c₀ gone c
  freed : ∀ x ∈ gone, Freed c₀ roots x
  deletable : ∀ x ∈ gone, Deletable c₀ x
  upward : ∀ x ∈ gone, ∀ j ∈ c₀.users x, j.id ∈ gone
  deleted_gone : ∀ x ∈ deleted, x ∈ gone
  stack_known : ∀ x ∈ stack, x ∈ c₀.ids ∧ (x ∈ gone → x ∈ deleted) ∧
    (x ∈ roots ∨ c₀.users x ≠ [])
  complete : ∀ i, c₀.instruction i.id = some i → i.isParameter = false → i.id ∉ gone →
    (i.id ∈ roots ∨ c₀.users i.id ≠ []) → (∀ j ∈ c₀.users i.id, j.id ∈ gone) → i.id ∈ stack

section removing

variable {stack deleted gone : List ℕ} {next : ℕ} {i : HloInstruction}

/-- An item that cannot go now is taken off. -/
theorem Removing.pop (h : Removing c₀ roots (next :: stack) deleted gone c)
    (hnext : next ∈ gone ∨ (∃ j ∈ c₀.users next, j.id ∉ gone) ∨
      ∃ i, c₀.instruction next = some i ∧ i.isParameter = true) :
    Removing c₀ roots stack deleted gone c where
  without := h.without
  freed := h.freed
  deletable := h.deletable
  upward := h.upward
  deleted_gone := h.deleted_gone
  stack_known x hx := h.stack_known x (List.mem_cons_of_mem _ hx)
  complete i hi hparameter hgone hread husers := by
    rcases List.mem_cons.mp (h.complete i hi hparameter hgone hread husers) with rfl | hin
    · exfalso
      rcases hnext with hin | ⟨j, hj, hnot⟩ | ⟨k, hk, hyes⟩
      · exact hgone hin
      · exact hnot (husers j hj)
      · rw [hi] at hk
        obtain rfl := Option.some.inj hk
        rw [hparameter] at hyes
        cases hyes
    · exact hin

/-- An item that nothing is left to read goes, and its operands come next. -/
theorem Removing.remove (h : Removing c₀ roots (i.id :: stack) deleted gone c)
    (hids : c₀.ids.Nodup) (hclosed : ∀ j ∈ c₀.instructions, ∀ o ∈ j.operands, o ∈ c₀.ids)
    (hi : c₀.instruction i.id = some i) (hgone : i.id ∉ gone) (hparameter : i.isParameter = false)
    (husers : ∀ j ∈ c₀.users i.id, j.id ∈ gone) (hdeletable : Deletable c₀ i.id) :
    Removing c₀ roots (i.operands.reverse ++ stack) (i.id :: deleted) (i.id :: gone)
      (c.removeInstruction i.id) where
  without := h.without.removeInstruction
  freed x hx := by
    rcases List.mem_cons.mp hx with rfl | hx
    · exact .intro hi hparameter (h.stack_known _ List.mem_cons_self).2.2
        fun j hj => h.freed _ (husers j hj)
    · exact h.freed x hx
  deletable x hx := by
    rcases List.mem_cons.mp hx with rfl | hx
    · exact hdeletable
    · exact h.deletable x hx
  upward x hx j hj := by
    rcases List.mem_cons.mp hx with rfl | hx
    · exact List.mem_cons_of_mem _ (husers j hj)
    · exact List.mem_cons_of_mem _ (h.upward x hx j hj)
  deleted_gone x hx := by
    rcases List.mem_cons.mp hx with rfl | hx
    · exact List.mem_cons_self ..
    · exact List.mem_cons_of_mem _ (h.deleted_gone x hx)
  stack_known x hx := by
    have hmem := mem_of_instruction hi
    rcases List.mem_append.mp hx with hx | hx
    · have hread : i ∈ c₀.users x := mem_users.mpr ⟨hmem, List.mem_reverse.mp hx⟩
      refine ⟨hclosed i hmem x (List.mem_reverse.mp hx), ?_, .inr (List.ne_nil_of_mem hread)⟩
      intro hin
      rcases List.mem_cons.mp hin with rfl | hin
      · exact List.mem_cons_self ..
      · exact absurd (h.upward x hin i hread) hgone
    · obtain ⟨hids, hdeleted, hread⟩ := h.stack_known x (List.mem_cons_of_mem _ hx)
      refine ⟨hids, ?_, hread⟩
      intro hin
      rcases List.mem_cons.mp hin with rfl | hin
      · exact List.mem_cons_self ..
      · exact List.mem_cons_of_mem _ (hdeleted hin)
  complete k hk hkparameter hkgone hread hkusers := by
    rw [List.mem_cons, not_or] at hkgone
    by_cases hreads : i ∈ c₀.users k.id
    · exact List.mem_append_left _ (List.mem_reverse.mpr (mem_users.mp hreads).2)
    · apply List.mem_append_right
      have hall : ∀ j ∈ c₀.users k.id, j.id ∈ gone := by
        intro j hj
        rcases List.mem_cons.mp (hkusers j hj) with heq | hin
        · obtain rfl : j = i :=
            List.inj_on_of_nodup_map hids (mem_users.mp hj).1 (mem_of_instruction hi) heq
          exact absurd hj hreads
        · exact hin
      rcases List.mem_cons.mp (h.complete k hk hkparameter hkgone.2 hread hall) with heq | hin
      · exact absurd heq hkgone.1
      · exact hin

/-- When the stack is empty all that could go is gone. -/
theorem Removing.cleared (h : Removing c₀ roots [] deleted gone c) :
    Cleared c₀ roots c ∧ ∀ x, Freed c₀ roots x → Deletable c₀ x := by
  have hgone : ∀ x, Freed c₀ roots x → x ∈ gone := by
    intro x hfreed
    induction hfreed with
    | @intro i hi hparameter hread _ ih =>
      by_contra hnot
      cases h.complete i hi hparameter hnot hread ih
  constructor
  · exact ⟨gone, h.without, fun x => ⟨h.freed x, hgone x⟩⟩
  · intro x hfreed
    exact h.deletable x (hgone x hfreed)

theorem Removing.tryRemoveInstruction_eq_ok (h : Removing c₀ roots stack deleted gone c)
    (hids : c₀.ids.Nodup) (hi : c₀.instruction i.id = some i) (hparameter : i.isParameter = false)
    (husers : c.users i.id = []) : c.tryRemoveInstruction i = ok c' ↔
      Deletable c₀ i.id ∧ c' = c.removeInstruction i.id := by
  rw [HloComputation.tryRemoveInstruction_eq_ok,
    h.without.hasControlDependencies hids h.deletable i, h.without.root]
  apply and_congr_left
  intro _
  constructor
  · rintro ⟨-, hroot, -, hcontrol⟩
    refine ⟨hroot, ?_⟩
    intro k hk
    rw [hi] at hk
    rw [← Option.some.inj hk]
    exact hcontrol
  · rintro ⟨hroot, hcontrol⟩
    exact ⟨husers, hroot, hparameter, hcontrol i hi⟩

/-- The removal comes to its end, unless it comes to something that cannot be removed. -/
theorem Removing.run (hids : c₀.ids.Nodup)
    (hclosed : ∀ j ∈ c₀.instructions, ∀ o ∈ j.operands, o ∈ c₀.ids) {fuel : ℕ}
    (h : Removing c₀ roots stack deleted gone c) (hfuel : stack.length + c.numOperands ≤ fuel) :
    Settles (∀ x, Freed c₀ roots x → Deletable c₀ x) (removeTree fuel stack deleted c) fun c' =>
      Cleared c₀ roots c' ∧ ∀ x, Freed c₀ roots x → Deletable c₀ x := by
  induction fuel generalizing stack deleted gone c with
  | zero =>
    cases stack with
    | nil => exact .inl ⟨h.cleared.2, c, rfl, h.cleared⟩
    | cons next stack =>
      rw [List.length_cons] at hfuel
      omega
  | succ fuel ih =>
    cases stack with
    | nil => exact .inl ⟨h.cleared.2, c, rfl, h.cleared⟩
    | cons next stack =>
      rw [List.length_cons] at hfuel
      obtain ⟨hknown, hdeleted, hread⟩ := h.stack_known next List.mem_cons_self
      rw [removeTree]
      split
      · rename_i hin
        exact ih (h.pop (.inl (h.deleted_gone next hin))) (by omega)
      · rename_i hnotDeleted
        have hgone : next ∉ gone := fun hin => hnotDeleted (hdeleted hin)
        obtain ⟨i, hi⟩ : ∃ i, c₀.instruction next = some i := by
          obtain ⟨i, hi, rfl⟩ := List.mem_map.mp hknown
          exact ⟨i, instruction_of_mem hids hi⟩
        obtain rfl := id_of_instruction hi
        rw [(h.without.instruction hids).mpr ⟨hi, hgone⟩]
        dsimp only
        by_cases hcan : c.users i.id = [] ∧ i.isParameter = false
        · obtain ⟨hunused, hparameter⟩ := hcan
          have husers := h.without.users_eq_nil.mp hunused
          rw [if_pos (by simp [hunused, hparameter])]
          by_cases hdeletable : Deletable c₀ i.id
          · have hcount := numOperands_removeInstruction
              (h.without.mem.mpr ⟨mem_of_instruction hi, hgone⟩)
            rw [(h.tryRemoveInstruction_eq_ok hids hi hparameter hunused).mpr ⟨hdeletable, rfl⟩,
              ok_bind]
            apply ih (h.remove hids hclosed hi hgone hparameter husers hdeletable)
            rw [List.length_append, List.length_reverse]
            omega
          · right
            constructor
            · intro hall
              exact hdeletable (hall i.id (.intro hi hparameter hread fun j hj =>
                h.freed _ (husers j hj)))
            · intro c' hc'
              obtain ⟨d, hd, -⟩ := bind_eq_ok.mp hc'
              exact hdeletable ((h.tryRemoveInstruction_eq_ok hids hi hparameter hunused).mp hd).1
        · have hnot : ¬((c.users i.id).isEmpty && !i.isParameter) = true := by
            simpa using hcan
          rw [if_neg hnot]
          apply ih (h.pop (.inr _)) (by omega)
          by_cases hparameter : i.isParameter = true
          · exact .inr ⟨i, hi, hparameter⟩
          · left
            by_contra hall
            apply hcan
            refine ⟨h.without.users_eq_nil.mpr ?_, by simpa using hparameter⟩
            intro j hj
            by_contra hj'
            exact hall ⟨j, hj, hj'⟩

end removing

section calls

variable {gone : List ℕ} {x : ℕ} {xs : List ℕ}

/-- One more root, which is still there. -/
theorem removing_start (hx : x ∈ c₀.ids) (hwithout : Without c₀ gone c)
    (hgone : ∀ id, id ∈ gone ↔ Freed c₀ roots id)
    (hdeletable : ∀ id, Freed c₀ roots id → Deletable c₀ id) (hnot : ¬Freed c₀ roots x) :
    Removing c₀ (roots ++ [x]) [x] [] gone c where
  without := hwithout
  freed id hid := ((hgone id).mp hid).mono fun _ h => List.mem_append_left _ h
  deletable id hid := hdeletable id ((hgone id).mp hid)
  upward id hid j hj := by
    obtain ⟨-, -, -, -, husers⟩ := ((hgone id).mp hid).cases
    exact (hgone j.id).mpr (husers j hj)
  deleted_gone id hid := by cases hid
  stack_known id hid := by
    obtain rfl := List.mem_singleton.mp hid
    exact ⟨hx, fun hin => absurd ((hgone id).mp hin) hnot,
      .inl (List.mem_append_right _ (List.mem_singleton_self id))⟩
  complete i hi hparameter hnotGone hread husers := by
    have hfreed : (i.id ∈ roots ∨ c₀.users i.id ≠ []) → Freed c₀ roots i.id := fun hread =>
      .intro hi hparameter hread fun j hj => (hgone j.id).mp (husers j hj)
    rcases hread with hin | hread
    · rcases List.mem_append.mp hin with hin | hin
      · exact absurd ((hgone i.id).mpr (hfreed (.inl hin))) hnotGone
      · exact hin
    · exact absurd ((hgone i.id).mpr (hfreed (.inr hread))) hnotGone

/-- A root that has gone with the ones before cannot be removed again. -/
theorem settles_removeInstructionBackToParameters (hids : c₀.ids.Nodup)
    (hclosed : ∀ j ∈ c₀.instructions, ∀ o ∈ j.operands, o ∈ c₀.ids) (hx : x ∈ c₀.ids)
    (hcleared : Cleared c₀ roots c) (hdeletable : ∀ id, Freed c₀ roots id → Deletable c₀ id) :
    Settles (¬Freed c₀ roots x ∧ ∀ id, Freed c₀ (roots ++ [x]) id → Deletable c₀ id)
      (c.removeInstructionBackToParameters x) fun c' =>
        Cleared c₀ (roots ++ [x]) c' ∧ ∀ id, Freed c₀ (roots ++ [x]) id → Deletable c₀ id := by
  obtain ⟨gone, hwithout, hgone⟩ := hcleared
  by_cases hfreed : Freed c₀ roots x
  · right
    refine ⟨fun h => h.1 hfreed, ?_⟩
    intro c' hc'
    have hnone : c.instruction x = none := by
      cases h : c.instruction x with
      | none => rfl
      | some i => exact absurd ((hgone x).mpr hfreed) ((hwithout.instruction hids).mp h).2
    rw [removeInstructionBackToParameters, removeTree, if_neg List.not_mem_nil, hnone] at hc'
    cases hc'
  · have hstart := removing_start hx hwithout hgone hdeletable hfreed
    apply (hstart.run hids hclosed (Nat.le_of_eq (Nat.add_comm _ _))).congr
    exact (and_iff_right hfreed).symm

/-- No root goes with the roots before it, and nothing stands against what goes. -/
structure AllRemovable (c : HloComputation) (xs : List ℕ) : Prop where
  once : ∀ before x after, xs = before ++ x :: after → ¬Freed c before x
  deletable : ∀ x, Freed c xs x → Deletable c x

theorem not_freed_nil : ¬Freed c₀ [] id := by
  intro h
  induction h with
  | intro hi hparameter hread _ ih =>
    rcases hread with hread | hread
    · cases hread
    · obtain ⟨j, hj⟩ := List.exists_mem_of_ne_nil _ hread
      exact ih j hj

theorem allRemovable_iff : AllRemovable c₀ xs ↔ ∀ before x after, xs = before ++ x :: after →
    ¬Freed c₀ before x ∧ ∀ id, Freed c₀ (before ++ [x]) id → Deletable c₀ id := by
  constructor
  · rintro ⟨honce, hdeletable⟩ before x after rfl
    refine ⟨honce before x after rfl, ?_⟩
    intro id hid
    apply hdeletable id (hid.mono _)
    intro y hy
    rw [List.append_cons]
    exact List.mem_append_left _ hy
  · intro h
    constructor
    · intro before x after heq
      exact (h before x after heq).1
    · intro id hid
      rcases List.eq_nil_or_concat xs with rfl | ⟨before, x, rfl⟩
      · exact absurd hid not_freed_nil
      · rw [List.concat_eq_append] at h hid
        exact (h before x [] rfl).2 id hid

/-- The roots can be removed one after the other exactly when none goes with the ones before it. -/
theorem settles_removeAll (hids : c₀.ids.Nodup)
    (hclosed : ∀ j ∈ c₀.instructions, ∀ o ∈ j.operands, o ∈ c₀.ids) (hxs : ∀ x ∈ xs, x ∈ c₀.ids) :
    Settles (AllRemovable c₀ xs) (xs.foldlM removeInstructionBackToParameters c₀)
      (Cleared c₀ xs) := by
  have hstart : Cleared c₀ [] c₀ ∧ ∀ id, Freed c₀ [] id → Deletable c₀ id := by
    refine ⟨⟨[], ⟨by simp, rfl⟩, ?_⟩, fun id hid => absurd hid not_freed_nil⟩
    intro x
    exact iff_of_false List.not_mem_nil not_freed_nil
  have hloop := settles_foldlM
    (fun done c => Cleared c₀ done c ∧ ∀ id, Freed c₀ done id → Deletable c₀ id) hstart xs
    (fun done x after heq c hc => settles_removeInstructionBackToParameters hids hclosed
      (hxs x (by simp [heq])) hc.1 hc.2)
  exact (hloop.congr allRemovable_iff.symm).imp fun _ h => h.1

end calls

end HloComputation
end MultiMeshJax
