import MultiMeshJax.Hlo.Removal

/-! Edits of a computation whose new instructions get new ids, and what a computation looks like
after a series of them. -/
namespace MultiMeshJax

open StatusOr

def HloInstruction.mapOperands (i : HloInstruction) (σ : ℕ → ℕ) : HloInstruction :=
  { i with operands := i.operands.map σ }

/-- A computation, and the id of the next instruction. -/
structure HloGraph where
  computation : HloComputation
  nextId : ℕ
  deriving DecidableEq, Repr

namespace HloGraph

def addInstruction (g : HloGraph) (i : HloInstruction) : HloGraph where
  computation :=
    { g.computation with instructions := g.computation.instructions ++ [{ i with id := g.nextId }] }
  nextId := g.nextId + 1

def replaceUses (g : HloGraph) (old new : ℕ) : HloGraph :=
  { g with computation := g.computation.replaceUses old new }

def removeInstruction (g : HloGraph) (i : HloInstruction) : StatusOr HloGraph := do
  let c ← g.computation.tryRemoveInstruction i
  return { g with computation := c }

/-- What is left of `c₀` when the instructions of `gone` have been removed: the operands of the
others have been redirected by `σ`, and the instructions of `news` have been added. Nothing was
removed that has control dependencies. -/
structure Rewired (c₀ : HloComputation) (n₀ : ℕ) (σ : ℕ → ℕ) (gone : List ℕ)
    (news : List HloInstruction) (g : HloGraph) : Prop where
  mem : ∀ j, j ∈ g.computation.instructions ↔
    (∃ j₀ ∈ c₀.instructions, j₀.id ∉ gone ∧ j = j₀.mapOperands σ) ∨ j ∈ news
  nodup : g.computation.ids.Nodup
  root : g.computation.root = σ c₀.root
  fresh : ∀ j ∈ news, n₀ ≤ j.id ∧ j.id < g.nextId
  le : n₀ ≤ g.nextId
  quiet : ∀ j ∈ c₀.instructions, j.id ∈ gone → c₀.hasControlDependencies j = false
  newsQuiet : ∀ j ∈ news, j.controlPredecessors = []

section rewired

variable {c₀ : HloComputation} {n₀ : ℕ} {σ : ℕ → ℕ} {gone : List ℕ} {news : List HloInstruction}
  {g g' : HloGraph} {i j : HloInstruction}

theorem mapOperands_id (i : HloInstruction) : i.mapOperands id = i := by
  rw [HloInstruction.mapOperands, List.map_id]

theorem rewired_self {c : HloComputation} {n : ℕ} (hids : c.ids.Nodup) :
    Rewired c n id [] [] ⟨c, n⟩ where
  mem j := by simp [mapOperands_id]
  nodup := hids
  root := rfl
  fresh j hj := by cases hj
  le := le_rfl
  quiet j _ hj := by cases hj
  newsQuiet j hj := by cases hj

/-- All ids are below the next one. -/
theorem Rewired.lt_nextId (h : Rewired c₀ n₀ σ gone news g) (hlt : ∀ id ∈ c₀.ids, id < n₀) {id : ℕ}
    (hid : id ∈ g.computation.ids) : id < g.nextId := by
  obtain ⟨j, hj, rfl⟩ := List.mem_map.mp hid
  rcases (h.mem j).mp hj with ⟨j₀, hj₀, -, rfl⟩ | hnew
  · exact (hlt j₀.id (List.mem_map_of_mem hj₀)).trans_le h.le
  · exact (h.fresh j hnew).2

theorem Rewired.addInstruction (h : Rewired c₀ n₀ σ gone news g) (hlt : ∀ id ∈ c₀.ids, id < n₀)
    (hquiet : i.controlPredecessors = []) :
    Rewired c₀ n₀ σ gone (news ++ [{ i with id := g.nextId }]) (g.addInstruction i) where
  mem j := by
    change j ∈ g.computation.instructions ++ _ ↔ _
    rw [List.mem_append, List.mem_append, h.mem j, or_assoc]
  nodup := by
    change ((g.computation.instructions ++ [_]).map HloInstruction.id).Nodup
    rw [List.map_append, List.nodup_append]
    refine ⟨h.nodup, by simp, ?_⟩
    intro a ha b hb heq
    have hb' : b = g.nextId := by simpa using hb
    exact (h.lt_nextId hlt ha).ne (heq.trans hb')
  root := h.root
  fresh j hj := by
    rcases List.mem_append.mp hj with hj | hj
    · exact ⟨(h.fresh j hj).1, (h.fresh j hj).2.trans (Nat.lt_succ_self _)⟩
    · rw [List.mem_singleton.mp hj]
      exact ⟨h.le, Nat.lt_succ_self _⟩
  le := h.le.trans (Nat.le_succ _)
  quiet := h.quiet
  newsQuiet j hj := by
    rcases List.mem_append.mp hj with hj | hj
    · exact h.newsQuiet j hj
    · rw [List.mem_singleton.mp hj]
      exact hquiet

/-- An instruction that is still there has the control dependencies that it had. -/
theorem Rewired.hasControlDependencies (h : Rewired c₀ n₀ σ gone news g) (i : HloInstruction) :
    g.computation.hasControlDependencies i = c₀.hasControlDependencies i := by
  rw [Bool.eq_iff_iff, HloComputation.hasControlDependencies_iff,
    HloComputation.hasControlDependencies_iff]
  apply or_congr_right
  constructor
  · rintro ⟨k, hk, hpredecessor⟩
    rcases (h.mem k).mp hk with ⟨k₀, hk₀, -, rfl⟩ | hnew
    · exact ⟨k₀, hk₀, hpredecessor⟩
    · rw [h.newsQuiet k hnew] at hpredecessor
      cases hpredecessor
  · rintro ⟨k, hk, hpredecessor⟩
    refine ⟨k.mapOperands σ, (h.mem _).mpr (.inl ⟨k, hk, ?_, rfl⟩), hpredecessor⟩
    intro hgone
    have hcontrol : c₀.hasControlDependencies k = true := by
      rw [HloComputation.hasControlDependencies_iff]
      left
      intro hnil
      rw [hnil] at hpredecessor
      cases hpredecessor
    rw [h.quiet k hk hgone] at hcontrol
    cases hcontrol

/-- The uses of an instruction that nothing is redirected to. The new producer does not read it. -/
theorem Rewired.replaceUses (h : Rewired c₀ n₀ σ gone news g) {old new : ℕ}
    (hσ : ∀ id, σ id = old ↔ id = old) (hnews : ∀ j ∈ news, old ∉ j.operands)
    (hnew : ∀ j ∈ g.computation.instructions, j.id = new → old ∉ j.operands) :
    Rewired c₀ n₀ (Function.update σ old new) gone news (g.replaceUses old new) := by
  have hσ' : ∀ id, Function.update σ old new id = if σ id = old then new else σ id := by
    intro id
    by_cases heq : id = old
    · rw [if_pos ((hσ id).mpr heq), heq, Function.update_self]
    · rw [if_neg fun h => heq ((hσ id).mp h), Function.update_of_ne heq]
  have hsame : ∀ j : HloInstruction, old ∉ j.operands →
      j.operands.map (fun o => if o = old then new else o) = j.operands := by
    intro j hj
    nth_rewrite 2 [← List.map_id j.operands]
    apply List.map_congr_left
    intro o ho
    apply if_neg
    rintro rfl
    exact hj ho
  have hold : ∀ j₀ ∈ c₀.instructions, j₀.id ∉ gone →
      (if (j₀.mapOperands σ).id = new then j₀.mapOperands σ else
        { j₀.mapOperands σ with operands :=
            (j₀.mapOperands σ).operands.map fun o => if o = old then new else o }) =
        j₀.mapOperands (Function.update σ old new) := by
    intro j₀ hj₀ hgone
    have hmap : (j₀.mapOperands σ).operands.map (fun o => if o = old then new else o) =
        (j₀.mapOperands (Function.update σ old new)).operands := by
      change (j₀.operands.map σ).map _ = j₀.operands.map _
      rw [List.map_map]
      apply List.map_congr_left
      intro o _
      exact (hσ' o).symm
    split
    · rename_i hid
      have hnot := hnew _ ((h.mem _).mpr (.inl ⟨j₀, hj₀, hgone, rfl⟩)) hid
      rw [hsame _ hnot] at hmap
      change ({ j₀ with operands := (j₀.mapOperands σ).operands } : HloInstruction) = _
      rw [hmap]
      rfl
    · rw [hmap]
      rfl
  have hnewsSame : ∀ j ∈ news, (if j.id = new then j else
      { j with operands := j.operands.map fun o => if o = old then new else o }) = j := by
    intro j hj
    split
    · rfl
    · rw [hsame j (hnews j hj)]
  constructor
  · intro j
    change j ∈ g.computation.instructions.map _ ↔ _
    rw [List.mem_map]
    constructor
    · rintro ⟨k, hk, rfl⟩
      rcases (h.mem k).mp hk with ⟨j₀, hj₀, hgone, rfl⟩ | hin
      · exact .inl ⟨j₀, hj₀, hgone, hold j₀ hj₀ hgone⟩
      · rw [hnewsSame k hin]
        exact .inr hin
    · rintro (⟨j₀, hj₀, hgone, rfl⟩ | hin)
      · exact ⟨_, (h.mem _).mpr (.inl ⟨j₀, hj₀, hgone, rfl⟩), hold j₀ hj₀ hgone⟩
      · exact ⟨j, (h.mem j).mpr (.inr hin), hnewsSame j hin⟩
  · change (g.computation.replaceAllUsesWith old new).ids.Nodup
    rw [HloComputation.ids_replaceAllUsesWith]
    exact h.nodup
  · change (if g.computation.root = old then new else g.computation.root) = _
    rw [h.root, hσ']
  · exact h.fresh
  · exact h.le
  · exact h.quiet
  · exact h.newsQuiet

/-- A removal succeeds where nothing is left that reads the instruction. -/
theorem Rewired.removeInstruction_eq_ok (h : Rewired c₀ n₀ σ gone news g) :
    g.removeInstruction i = ok g' ↔
      ((∀ j ∈ g.computation.instructions, i.id ∉ j.operands) ∧ i.id ≠ σ c₀.root ∧
        i.isParameter = false ∧ c₀.hasControlDependencies i = false) ∧
      g' = ⟨g.computation.removeInstruction i.id, g.nextId⟩ := by
  have husers : g.computation.users i.id = [] ↔
      ∀ j ∈ g.computation.instructions, i.id ∉ j.operands := by
    simp [HloComputation.users]
  rw [removeInstruction, bind_eq_ok, ← husers, ← h.root, ← h.hasControlDependencies i]
  constructor
  · rintro ⟨c, hc, hok⟩
    obtain ⟨hcan, rfl⟩ := HloComputation.tryRemoveInstruction_eq_ok.mp hc
    exact ⟨hcan, (ok.inj hok).symm⟩
  · rintro ⟨hcan, rfl⟩
    exact ⟨_, HloComputation.tryRemoveInstruction_eq_ok.mpr ⟨hcan, rfl⟩, rfl⟩

theorem Rewired.removeInstruction (h : Rewired c₀ n₀ σ gone news g) (hlt : ∀ id ∈ c₀.ids, id < n₀)
    (hi : i ∈ c₀.instructions) (hquiet : ∀ j ∈ c₀.instructions, j.id = i.id →
      c₀.hasControlDependencies j = false) :
    Rewired c₀ n₀ σ (i.id :: gone) news ⟨g.computation.removeInstruction i.id, g.nextId⟩ where
  mem j := by
    rw [HloComputation.mem_removeInstruction, h.mem j]
    constructor
    · rintro ⟨⟨j₀, hj₀, hgone, rfl⟩ | hnew, hne⟩
      · refine .inl ⟨j₀, hj₀, ?_, rfl⟩
        rw [List.mem_cons, not_or]
        exact ⟨hne, hgone⟩
      · exact .inr hnew
    · rintro (⟨j₀, hj₀, hgone, rfl⟩ | hnew)
      · rw [List.mem_cons, not_or] at hgone
        exact ⟨.inl ⟨j₀, hj₀, hgone.2, rfl⟩, hgone.1⟩
      · refine ⟨.inr hnew, ?_⟩
        have hold := hlt i.id (List.mem_map_of_mem hi)
        have hfresh := (h.fresh j hnew).1
        omega
  nodup := h.nodup.sublist (List.filter_sublist.map _)
  root := h.root
  fresh := h.fresh
  le := h.le
  quiet j hj hgone := by
    rcases List.mem_cons.mp hgone with heq | hgone
    · exact hquiet j hj heq
    · exact h.quiet j hj hgone
  newsQuiet := h.newsQuiet

/-- The uses of an instruction go to another one, and then nothing stands against its removal but
its control dependencies. -/
theorem Rewired.redirect (h : Rewired c₀ n₀ σ gone news g) (hids : c₀.ids.Nodup)
    (hlt : ∀ id ∈ c₀.ids, id < n₀) (hi : i ∈ c₀.instructions) {new : ℕ}
    (hσ : ∀ id, σ id = i.id ↔ id = i.id) (hnews : ∀ j ∈ news, i.id ∉ j.operands)
    (hnew : ∀ j ∈ g.computation.instructions, j.id = new → i.id ∉ j.operands)
    (hne : new ≠ i.id) (hparameter : i.isParameter = false) :
    ((∃ g', (g.replaceUses i.id new).removeInstruction i = ok g') ↔
      c₀.hasControlDependencies i = false) ∧
    ∀ g', (g.replaceUses i.id new).removeInstruction i = ok g' →
      Rewired c₀ n₀ (Function.update σ i.id new) (i.id :: gone) news g' ∧ g'.nextId = g.nextId := by
  have hreplaced := h.replaceUses hσ hnews hnew
  have hσ' : ∀ id, Function.update σ i.id new id ≠ i.id := by
    intro id heq
    by_cases hid : id = i.id
    · rw [hid, Function.update_self] at heq
      exact hne heq
    · rw [Function.update_of_ne hid] at heq
      exact hid ((hσ id).mp heq)
  have hunread : ∀ j ∈ (g.replaceUses i.id new).computation.instructions, i.id ∉ j.operands := by
    intro j hj hread
    rcases (hreplaced.mem j).mp hj with ⟨j₀, -, -, rfl⟩ | hin
    · obtain ⟨o, -, ho⟩ := List.mem_map.mp hread
      exact hσ' o ho
    · exact hnews j hin hread
  constructor
  · constructor
    · rintro ⟨g', hg'⟩
      exact (hreplaced.removeInstruction_eq_ok.mp hg').1.2.2.2
    · intro hquiet
      exact ⟨_, hreplaced.removeInstruction_eq_ok.mpr
        ⟨⟨hunread, (hσ' _).symm, hparameter, hquiet⟩, rfl⟩⟩
  · intro g' hg'
    obtain ⟨⟨-, -, -, hquiet⟩, rfl⟩ := hreplaced.removeInstruction_eq_ok.mp hg'
    refine ⟨hreplaced.removeInstruction hlt hi ?_, rfl⟩
    intro j hj heq
    rw [List.inj_on_of_nodup_map hids hj hi heq]
    exact hquiet

end rewired

section redirects

/-- The first of each pair is redirected to the second. -/
def redirects (pairs : List (ℕ × ℕ)) : ℕ → ℕ :=
  pairs.foldl (fun σ pair => Function.update σ pair.1 pair.2) id

variable {pairs : List (ℕ × ℕ)} {x : ℕ}

theorem redirects_append (pairs : List (ℕ × ℕ)) (pair : ℕ × ℕ) :
    redirects (pairs ++ [pair]) = Function.update (redirects pairs) pair.1 pair.2 :=
  List.foldl_append ..

theorem redirects_of_notMem (h : x ∉ pairs.map Prod.fst) : redirects pairs x = x := by
  induction pairs using List.reverseRecOn with
  | nil => rfl
  | append_singleton pairs pair ih =>
    rw [List.map_append, List.mem_append, not_or, List.map_singleton, List.mem_singleton] at h
    rw [redirects_append, Function.update_of_ne h.2]
    exact ih h.1

theorem redirects_of_mem (hnodup : (pairs.map Prod.fst).Nodup) {pair : ℕ × ℕ} (h : pair ∈ pairs) :
    redirects pairs pair.1 = pair.2 := by
  induction pairs using List.reverseRecOn with
  | nil => cases h
  | append_singleton pairs last ih =>
    rw [List.map_append, List.nodup_append] at hnodup
    rw [redirects_append]
    rcases List.mem_append.mp h with hin | hin
    · rw [Function.update_of_ne (hnodup.2.2 _ (List.mem_map_of_mem hin) _ (by simp))]
      exact ih hnodup.1 hin
    · rw [List.mem_singleton.mp hin, Function.update_self]

/-- What is no target is only reached by itself. -/
theorem redirects_eq_iff (hnodup : (pairs.map Prod.fst).Nodup) (hfirst : x ∉ pairs.map Prod.fst)
    (hsecond : x ∉ pairs.map Prod.snd) (id : ℕ) : redirects pairs id = x ↔ id = x := by
  constructor
  · intro h
    by_cases hid : id ∈ pairs.map Prod.fst
    · obtain ⟨pair, hpair, rfl⟩ := List.mem_map.mp hid
      rw [redirects_of_mem hnodup hpair] at h
      exact absurd (h ▸ List.mem_map_of_mem hpair) hsecond
    · rwa [redirects_of_notMem hid] at h
  · rintro rfl
    exact redirects_of_notMem hfirst

end redirects

end HloGraph
end MultiMeshJax
