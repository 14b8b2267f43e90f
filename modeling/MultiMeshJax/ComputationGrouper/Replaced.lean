import MultiMeshJax.ComputationGrouper.Called

/-! The outputs of the calls take the place of the instructions that are in tasks, and what is not
used any more is removed. -/
namespace MultiMeshJax
namespace ComputationGrouper

open StatusOr HloComputation
open ColorDfs (Dag)

variable {V : Type} {config : Config} {properties : Properties} {c comp comp' : HloComputation}
  {order : List HloInstruction} {first : ℕ → ℕ} {I : Interpretation V} {ctx : Context V}
  {result : Value V} {val : ℕ → Value V} {rank height : ℕ → ℕ} {count : ℕ} {ids : List ℕ}

/-- A computation in which outputs of calls, with these ids, are put in the place of roots. -/
structure Rewiring (config : Config) (c : HloComputation) (I : Interpretation V) (ctx : Context V)
    (result : Value V) (val : ℕ → Value V) (rank : ℕ → ℕ) (ids : List ℕ) (comp : HloComputation) :
    Prop where
  evaluates : Evaluates I ctx val rank result comp
  outputs : ∀ y ∈ ids, y ∉ c.ids → y ∈ comp.ids
  onlyRoot : ∀ j ∈ comp.instructions, ∀ i ∈ c.instructions, i.id ∈ j.operands →
    isAlwaysTaskOperand config c i = ok false → (∀ u ∈ c.users i.id, u.id = c.root) → j.id = c.root

theorem Emitted.rewiring {st : Replacing}
    (h : Emitted config c order first I ctx result val rank count st) :
    Rewiring config c I ctx result val rank st.computation.ids st.computation where
  evaluates := h.evaluates
  outputs _ hy _ := hy
  onlyRoot j hj i hi hread hnot honly := by
    rcases h.added j hj with hj | halways
    · exact honly j (mem_users.mpr ⟨hj, hread⟩)
    · rw [halways i hi hread] at hnot
      cases hnot

theorem Rewiring.removeInstruction (h : Rewiring config c I ctx result val rank ids comp)
    {i : HloInstruction} (hi : i.id ∈ c.ids) (hrun : comp.tryRemoveInstruction i = ok comp') :
    Rewiring config c I ctx result val rank ids comp' := by
  refine ⟨h.evaluates.tryRemoveInstruction hrun, ?_, ?_⟩
  all_goals
    obtain ⟨-, rfl⟩ := tryRemoveInstruction_eq_ok.mp hrun
  · intro y hy hnew
    obtain ⟨j, hj, rfl⟩ := List.mem_map.mp (h.outputs y hy hnew)
    apply List.mem_map_of_mem (mem_removeInstruction.mpr ⟨hj, _⟩)
    intro heq
    exact hnew (heq ▸ hi)
  · intro j hj
    exact h.onlyRoot j (mem_removeInstruction.mp hj).1

/-- What stands for a root is below what reads it. -/
theorem Rewiring.rank_lt (hdag : Dag c height)
    (hfirst : ∀ k < count, first k < order.length)
    (hsame : ∀ id ∈ c.ids, rank id = groupedRank config c order height id)
    (h : Rewiring config c I ctx result val rank ids comp) {x y : ℕ}
    (hstands : StandsFor config c order first val rank ids count x y) :
    ∀ j ∈ comp.instructions, x ∈ j.operands → rank y < rank j.id := by
  intro j hj hread
  cases hstands with
  | itself heq _ _ _ =>
    rw [heq]
    exact h.evaluates.ranked j hj x hread
  | @output k hk hroot _ _ _ hrank =>
    have hlast := hfirst k hk
    obtain ⟨⟨i, hi, rfl, hnot⟩, hplace⟩ := hroot
    rw [hrank]
    unfold callRank
    rcases hplace with hplace | honly
    · have hi' := instruction_of_mem hdag.nodup hi
      have hlt := h.evaluates.ranked j hj i.id hread
      rw [hsame i.id (List.mem_map_of_mem hi), groupedRank_of_not_always hi' (by simp [hnot])] at hlt
      unfold level at hlt
      split at hlt <;> omega
    · obtain ⟨r, hr, hid⟩ := List.mem_map.mp hdag.root
      have hroot := instruction_of_mem hdag.nodup hr
      rw [hid] at hroot
      rw [h.onlyRoot j hj i hi hread hnot honly, hsame c.root hdag.root, groupedRank_root hroot]
      unfold level
      rw [if_pos (.inl rfl)]
      omega

/-- What stands for a root takes its place. -/
theorem Rewiring.replaceUses (hdag : Dag c height)
    (hfirst : ∀ k < count, first k < order.length)
    (hsame : ∀ id ∈ c.ids, rank id = groupedRank config c order height id)
    (h : Rewiring config c I ctx result val rank ids comp) {x y : ℕ} (hx : x ∈ comp.ids)
    (hstands : StandsFor config c order first val rank ids count x y) :
    Rewiring config c I ctx result val rank ids (comp.replaceUses x y) := by
  have hval : val y = val x := by
    cases hstands with
    | itself heq _ _ _ => rw [heq]
    | output _ _ _ _ hval _ => exact hval
  have hin : y ∈ comp.ids := by
    cases hstands with
    | itself heq _ _ _ => exact heq ▸ hx
    | output _ _ hnew hin _ _ => exact h.outputs y hin hnew
  refine ⟨h.evaluates.replaceUses hin hval (h.rank_lt hdag hfirst hsame hstands), ?_, ?_⟩
  · intro z hz hnew
    rw [ids_replaceUses]
    exact h.outputs z hz hnew
  · intro k hk i hi hread hnot honly
    obtain ⟨j, hj, rfl⟩ := List.mem_map.mp hk
    -- what is read of the computation itself was read before
    have hbefore : i.id ∈ j.operands → j.id = c.root := fun hin =>
      h.onlyRoot j hj i hi hin hnot honly
    split at hread
    · rename_i hid
      rw [if_pos hid]
      exact hbefore hread
    · rename_i hid
      rw [if_neg hid]
      obtain ⟨o, ho, hoi⟩ := List.mem_map.mp hread
      split at hoi
      · rename_i hox
        apply hbefore
        cases hstands with
        | itself heq _ _ _ =>
          rw [← hoi, heq, ← hox]
          exact ho
        | output _ _ hnew _ _ _ => exact absurd (hoi ▸ List.mem_map_of_mem hi) hnew
      · exact hbefore (hoi ▸ ho)

theorem Rewiring.replaceRoot (hdag : Dag c height) (hfirst : ∀ k < count, first k < order.length)
    (hsame : ∀ id ∈ c.ids, rank id = groupedRank config c order height id)
    {gteRootClones : ℕ → Option ℕ} (hclones : ∀ x y, gteRootClones x = some y →
      StandsFor config c order first val rank ids count x y)
    (h : Rewiring config c I ctx result val rank ids comp) {r : ℕ} (hr : r ∈ c.ids)
    (hrun : ComputationGrouper.replaceRoot gteRootClones comp r = ok comp') :
    Rewiring config c I ctx result val rank ids comp' := by
  obtain ⟨clone, hclone, hrun⟩ := bind_eq_ok.mp hrun
  obtain ⟨i, hi, hrun⟩ := bind_eq_ok.mp hrun
  rw [deref_eq_ok] at hclone
  rw [getInstruction, deref_eq_ok] at hi
  obtain rfl := id_of_instruction hi
  have hreplaced := h.replaceUses hdag hfirst hsame (mem_ids_of_instruction hi)
    (hclones i.id clone hclone)
  exact hreplaced.removeInstruction hr hrun

/-- All roots are replaced. -/
theorem Rewiring.replaceRoots (hdag : Dag c height) (hfirst : ∀ k < count, first k < order.length)
    (hsame : ∀ id ∈ c.ids, rank id = groupedRank config c order height id)
    {gteRootClones : ℕ → Option ℕ} (hclones : ∀ x y, gteRootClones x = some y →
      StandsFor config c order first val rank ids count x y)
    (h : Rewiring config c I ctx result val rank ids comp) {builders : List BuildContext}
    (hroots : ∀ d ∈ builders, d.callInstruction = none → ∀ r ∈ d.roots, r ∈ c.ids)
    (hrun : builders.foldlM (replaceRootsWithCallOutputs gteRootClones) comp = ok comp') :
    Rewiring config c I ctx result val rank ids comp' := by
  apply foldlM_invariant (Rewiring config c I ctx result val rank ids) hrun h
  intro d hd comp₁ comp₂ h₁ hstep
  unfold replaceRootsWithCallOutputs at hstep
  split at hstep
  · obtain rfl := ok.inj hstep
    exact h₁
  · rename_i hnone
    rw [Bool.not_eq_true, Option.isSome_eq_false_iff, Option.isNone_iff_eq_none] at hnone
    apply foldlM_invariant (Rewiring config c I ctx result val rank ids) hstep h₁
    intro r hr comp₃ comp₄ h₃ hroot
    exact h₃.replaceRoot hdag hfirst hsame hclones (hroots d hd hnone r hr) hroot

theorem evaluates_removeUnusedInstructions (h : Evaluates I ctx val rank result comp)
    (hrun : removeUnusedInstructions config comp = ok comp') :
    Evaluates I ctx val rank result comp' := by
  apply foldlM_invariant (Evaluates I ctx val rank result) hrun h
  intro id _ comp₁ comp₂ h₁ hstep
  obtain ⟨i, -, hstep⟩ := bind_eq_ok.mp hstep
  split at hstep
  · exact h₁.tryRemoveInstruction hstep
  · obtain rfl := ok.inj hstep
    exact h₁

section calls

variable {number : ℕ}

theorem CallsFrom.tryRemoveInstruction (h : CallsFrom number comp) {i : HloInstruction}
    (hrun : comp.tryRemoveInstruction i = ok comp') : CallsFrom number comp' := by
  obtain ⟨-, rfl⟩ := tryRemoveInstruction_eq_ok.mp hrun
  exact fun j hj => h j (mem_removeInstruction.mp hj).1

theorem CallsFrom.replaceUses (h : CallsFrom number comp) (old new : ℕ) :
    CallsFrom number (comp.replaceUses old new) := by
  intro k hk n hop
  obtain ⟨j, hj, rfl⟩ := List.mem_map.mp hk
  apply h j hj n
  split at hop <;> exact hop

theorem CallsFrom.replaceRoots {gteRootClones : ℕ → Option ℕ} (h : CallsFrom number comp)
    {builders : List BuildContext}
    (hrun : builders.foldlM (replaceRootsWithCallOutputs gteRootClones) comp = ok comp') :
    CallsFrom number comp' := by
  apply foldlM_invariant (CallsFrom number) hrun h
  intro d _ comp₁ comp₂ h₁ hstep
  unfold replaceRootsWithCallOutputs at hstep
  split at hstep
  · obtain rfl := ok.inj hstep
    exact h₁
  · apply foldlM_invariant (CallsFrom number) hstep h₁
    intro r _ comp₃ comp₄ h₃ hroot
    obtain ⟨clone, -, hroot⟩ := bind_eq_ok.mp hroot
    obtain ⟨i, -, hroot⟩ := bind_eq_ok.mp hroot
    exact (h₃.replaceUses r clone).tryRemoveInstruction hroot

theorem CallsFrom.removeUnusedInstructions (h : CallsFrom number comp)
    (hrun : ComputationGrouper.removeUnusedInstructions config comp = ok comp') :
    CallsFrom number comp' := by
  apply foldlM_invariant (CallsFrom number) hrun h
  intro id _ comp₁ comp₂ h₁ hstep
  obtain ⟨i, -, hstep⟩ := bind_eq_ok.mp hstep
  split at hstep
  · exact h₁.tryRemoveInstruction hstep
  · obtain rfl := ok.inj hstep
    exact h₁

end calls

end ComputationGrouper
end MultiMeshJax
