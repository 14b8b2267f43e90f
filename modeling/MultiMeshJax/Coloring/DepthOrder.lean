import MultiMeshJax.Coloring.HashOrder

/-! The order in which the colours of a loop body are propagated. -/
namespace MultiMeshJax
namespace Coloring

open StatusOr

/-- The entries of an ordered map from depths. -/
def Ordered (entries : List (ℕ × String)) : Prop := entries.Pairwise fun a b => a.1 < b.1

section insertDepth

variable {depth : ℕ} {color : String} {entries : List (ℕ × String)} {entry : ℕ × String}

theorem mem_of_mem_insertDepth (h : entry ∈ insertDepth depth color entries) :
    entry = (depth, color) ∨ entry ∈ entries := by
  induction entries with
  | nil => exact .inl (List.mem_singleton.mp h)
  | cons first entries ih =>
    rw [insertDepth] at h
    split at h
    · exact List.mem_cons.mp h
    · split at h
      · exact (List.mem_cons.mp h).imp_right (List.mem_cons_of_mem _)
      · rcases List.mem_cons.mp h with rfl | h
        · exact .inr List.mem_cons_self
        · exact (ih h).imp_right (List.mem_cons_of_mem _)

theorem self_mem_insertDepth : (depth, color) ∈ insertDepth depth color entries := by
  induction entries with
  | nil => exact List.mem_cons_self
  | cons first entries ih =>
    rw [insertDepth]
    split
    · exact List.mem_cons_self
    · split
      · exact List.mem_cons_self
      · exact List.mem_cons_of_mem _ ih

/-- Only an entry of the same depth is replaced. -/
theorem mem_insertDepth_of_ne (h : entry ∈ entries) (hne : entry.1 ≠ depth) :
    entry ∈ insertDepth depth color entries := by
  induction entries with
  | nil => cases h
  | cons first entries ih =>
    rw [insertDepth]
    split
    · exact List.mem_cons_of_mem _ h
    · split
      · rename_i heq
        rcases List.mem_cons.mp h with rfl | h
        · exact absurd heq.symm hne
        · exact List.mem_cons_of_mem _ h
      · rcases List.mem_cons.mp h with rfl | h
        · exact List.mem_cons_self
        · exact List.mem_cons_of_mem _ (ih h)

theorem ordered_insertDepth (h : Ordered entries) : Ordered (insertDepth depth color entries) := by
  induction entries with
  | nil => exact List.pairwise_singleton _ _
  | cons first entries ih =>
    obtain ⟨hfirst, hrest⟩ := List.pairwise_cons.mp h
    rw [insertDepth]
    split
    · rename_i hlt
      apply List.Pairwise.cons _ h
      intro entry hentry
      rcases List.mem_cons.mp hentry with rfl | hentry
      · exact hlt
      · exact hlt.trans (hfirst entry hentry)
    · split
      · rename_i heq
        apply List.Pairwise.cons _ hrest
        intro entry hentry
        exact heq ▸ hfirst entry hentry
      · apply List.Pairwise.cons _ (ih hrest)
        intro entry hentry
        rcases mem_of_mem_insertDepth hentry with rfl | hentry
        · dsimp only
          omega
        · exact hfirst entry hentry

end insertDepth

/-- The map after some of the colours: its entries are colours with their depths, and where the
depths are distinct no colour is missing. -/
structure DepthsOf (depthOf : String → ℕ) (done : List String) (entries : List (ℕ × String)) :
    Prop where
  ordered : Ordered entries
  entry : ∀ e ∈ entries, e.2 ∈ done ∧ e.1 = depthOf e.2
  complete : (∀ c ∈ done, ∀ c' ∈ done, depthOf c = depthOf c' → c = c') →
    ∀ c ∈ done, (depthOf c, c) ∈ entries

theorem depthsOf_foldl (depthOf : String → ℕ) (done : List String) :
    DepthsOf depthOf done
      (done.foldl (fun entries color => insertDepth (depthOf color) color entries) []) := by
  induction done using List.reverseRecOn with
  | nil =>
    constructor
    · exact List.Pairwise.nil
    · intro e he
      cases he
    · intro _ c hc
      cases hc
  | append_singleton done color ih =>
    rw [List.foldl_append, List.foldl_cons, List.foldl_nil]
    constructor
    · exact ordered_insertDepth ih.ordered
    · intro e he
      rcases mem_of_mem_insertDepth he with rfl | he
      · exact ⟨List.mem_append_right _ List.mem_cons_self, rfl⟩
      · obtain ⟨hmem, hdepth⟩ := ih.entry e he
        exact ⟨List.mem_append_left _ hmem, hdepth⟩
    · intro hdistinct c hc
      by_cases heq : depthOf c = depthOf color
      · have hcolor : c = color :=
          hdistinct c hc color (List.mem_append_right _ List.mem_cons_self) heq
        rw [hcolor]
        exact self_mem_insertDepth
      · apply mem_insertDepth_of_ne
        · apply ih.complete
          · intro a ha b hb
            exact hdistinct a (List.mem_append_left _ ha) b (List.mem_append_left _ hb)
          · rcases List.mem_append.mp hc with hc | hc
            · exact hc
            · exact absurd (congrArg depthOf (List.mem_singleton.mp hc)) heq
        · exact heq

section passes

variable (hash : ColorHashOrder) (body : HloComputation) (colors : Colors)

/-- The colours in the order of the pass that propagates to the users. -/
def forwardPass : List String :=
  (computeColorDepthMap hash body colors (computeDepthMap body)).map Prod.snd

/-- The colours in the order of the pass that propagates to the operands. -/
def backwardPass : List String := (forwardPass hash body colors).reverse

/-- These are the colours that the directional passes over the last loop get. -/
theorem propagateLoopColorDepth_passes {input : Input} {ifVisit : HloInstruction → Bool}
    {comp : HloComputation} {n : ℕ} (hloop : lastLoop comp = some n)
    (hbody : input.program.calledComputation n = ok body) :
    propagateLoopColorDepth hash input ifVisit comp colors =
      let (start, fixed) := fixColors input body (fixColors input comp (colors, []))
      ok ((backwardPass hash body start).foldl
        (propagateDirectionally input ifVisit fixed body false)
        ((forwardPass hash body start).foldl
          (propagateDirectionally input ifVisit fixed body true) start)) := by
  unfold propagateLoopColorDepth
  simp only [hloop, hbody, ok_bind, Prod.mk.eta]
  rfl

/-- The depth of a colour in the body. -/
def depthIn (color : String) : ℕ := colorDepth body colors (computeDepthMap body) color

/-- Every colour of the body comes once in each pass, by rising depth to the users and by falling
depth to the operands. -/
structure VisitsEachColor : Prop where
  forward : (forwardPass hash body colors).Perm (computationColors body colors)
  backward : (backwardPass hash body colors).Perm (computationColors body colors)
  rising : (forwardPass hash body colors).Pairwise fun c c' =>
    depthIn body colors c ≤ depthIn body colors c'
  falling : (backwardPass hash body colors).Pairwise fun c c' =>
    depthIn body colors c' ≤ depthIn body colors c

theorem depthsOf_computeColorDepthMap :
    DepthsOf (depthIn body colors) (hash.order (computationColors body colors))
      (computeColorDepthMap hash body colors (computeDepthMap body)) :=
  depthsOf_foldl (depthIn body colors) _

/-- The passes go by depth, whatever the colours. -/
theorem forwardPass_rising : (forwardPass hash body colors).Pairwise fun c c' =>
    depthIn body colors c < depthIn body colors c' := by
  have hmap := depthsOf_computeColorDepthMap hash body colors
  apply List.pairwise_map.mpr
  apply hmap.ordered.imp_of_mem
  intro a b ha hb hlt
  rw [(hmap.entry a ha).2, (hmap.entry b hb).2] at hlt
  exact hlt

variable {hash body colors}

theorem mem_of_mem_forwardPass {c : String} (hc : c ∈ forwardPass hash body colors) :
    c ∈ computationColors body colors := by
  obtain ⟨entry, hentry, rfl⟩ := List.mem_map.mp hc
  have hmem := (depthsOf_computeColorDepthMap hash body colors).entry entry hentry
  exact (hash.perm _).mem_iff.mp hmem.1

variable (hash body colors)

/-- The passes visit each colour of the body if and only if no two colours have one depth. -/
theorem visitsEachColor_iff :
    VisitsEachColor hash body colors ↔
      ∀ c ∈ computationColors body colors, ∀ c' ∈ computationColors body colors,
        depthIn body colors c = depthIn body colors c' → c = c' := by
  have hrising := forwardPass_rising hash body colors
  constructor
  · intro h c hc c' hc' htie
    have hmem := h.forward.mem_iff.mpr hc
    have hmem' := h.forward.mem_iff.mpr hc'
    have hsymm : Std.Symm fun c c' => depthIn body colors c ≠ depthIn body colors c' :=
      ⟨fun _ _ hne => hne.symm⟩
    have hdiffer : (forwardPass hash body colors).Pairwise fun c c' =>
        depthIn body colors c ≠ depthIn body colors c' := hrising.imp fun hlt => hlt.ne
    by_contra hne
    exact hdiffer.forall hmem hmem' hne htie
  · intro hdistinct
    have hnodup : (forwardPass hash body colors).Nodup := hrising.imp fun hlt heq => by
      rw [heq] at hlt
      exact hlt.false
    have hperm : (forwardPass hash body colors).Perm (computationColors body colors) := by
      apply (List.perm_ext_iff_of_nodup hnodup (List.nodup_dedup _)).mpr
      intro c
      constructor
      · exact mem_of_mem_forwardPass
      · intro hc
        have hmap := depthsOf_computeColorDepthMap hash body colors
        have hentry := hmap.complete (fun a ha b hb => hdistinct a ((hash.perm _).mem_iff.mp ha) b
          ((hash.perm _).mem_iff.mp hb)) c ((hash.perm _).mem_iff.mpr hc)
        exact List.mem_map.mpr ⟨_, hentry, rfl⟩
    constructor
    · exact hperm
    · exact (List.reverse_perm _).trans hperm
    · exact hrising.imp fun hlt => hlt.le
    · exact List.pairwise_reverse.mpr (hrising.imp fun hlt => hlt.le)

end passes

/-- Two colours of one depth: one of them is in neither pass. -/
theorem tiedBody_not_visitsEachColor :
    ¬ VisitsEachColor identityOrder tiedBody
      (loopColors tiedInput tiedLoop.entry tiedBody (initialColors tiedLoop)) := by
  intro h
  have hlength := h.forward.length_eq
  revert hlength
  decide +kernel

end Coloring
end MultiMeshJax
