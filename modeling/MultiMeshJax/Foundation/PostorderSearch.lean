import MultiMeshJax.Status

/-! A depth first search on an explicit stack, where a node is taken off when it comes up for the
second time: its items come before it in the tree. The search may be given up. -/
namespace MultiMeshJax
namespace PostorderSearch

open StatusOr

/-- What a first visit decides: to give up, to pass over the node, or to visit its items. -/
inductive Expansion (σ α : Type) where
  | abandon
  | leaf
  | push (st : σ) (items : List α)

variable {σ α : Type} [DecidableEq α] (expand : σ → α → StatusOr (Expansion σ α))

/-- The nodes that were visited are marked, with whether their visit is done. The last item that
was pushed comes up next. -/
def search : ℕ → List α → (α → Option Bool) → List α → σ → StatusOr (Option (List α))
  | 0, _, _, _, _ => fatal "the search goes on"
  | _ + 1, [], _, tree, _ => return some tree
  | fuel + 1, next :: rest, visiting, tree, st =>
    match visiting next with
    | some true => search fuel rest visiting tree st
    | some false =>
      search fuel rest (Function.update visiting next (some true)) (tree ++ [next]) st
    | none => do
      match ← expand st next with
      | .abandon => return none
      | .leaf => search fuel (next :: rest) (Function.update visiting next (some true)) tree st
      | .push st' items =>
        search fuel (items.reverse ++ next :: rest) (Function.update visiting next (some false))
          tree st'

/-- The items of a node. -/
def Pushes (a : α) (items : List α) : Prop := ∃ st st', expand st a = ok (.push st' items)

def Leaf (a : α) : Prop := ∃ st, expand st a = ok .leaf

/-- Every node of the tree comes after its items, except those that are passed over. -/
def Postordered (tree : List α) : Prop :=
  ∀ before a after, tree = before ++ a :: after →
    ∃ items, Pushes expand a items ∧ ∀ x ∈ items, x ∈ before ∨ Leaf expand x

/-- The invariant of the search: above an open node there are only nodes below it in the order,
and its items are done or above it. -/
structure Searching (order : α → ℕ) (stack : List α) (visiting : α → Option Bool)
    (tree : List α) : Prop where
  postordered : Postordered expand tree
  nodup : tree.Nodup
  marked : ∀ a ∈ tree, visiting a = some true
  finished : ∀ a, visiting a = some true → a ∈ tree ∨ Leaf expand a
  waiting : ∀ a, visiting a = some false → a ∈ stack
  opened : ∀ a, visiting a = some false → ∃ items, Pushes expand a items ∧
    ∀ above below, stack = above ++ a :: below → a ∉ above →
      (∀ x ∈ items, visiting x = some true ∨ x ∈ above) ∧ ∀ x ∈ above, order x < order a

variable {expand} {order : α → ℕ} {stack rest tree : List α} {visiting : α → Option Bool} {next : α}

omit [DecidableEq α] in
theorem searching_start (root : α) :
    Searching expand order [root] (fun _ => none) [] where
  postordered before a after h := by simp at h
  nodup := List.nodup_nil
  marked a ha := by cases ha
  finished a ha := by cases ha
  waiting a ha := by cases ha
  opened a ha := by cases ha

omit [DecidableEq α] in
/-- A node that is done is taken off. -/
theorem Searching.pop (h : Searching expand order (next :: rest) visiting tree)
    (hdone : visiting next = some true) : Searching expand order rest visiting tree where
  postordered := h.postordered
  nodup := h.nodup
  marked := h.marked
  finished := h.finished
  waiting a ha := by
    rcases List.mem_cons.mp (h.waiting a ha) with rfl | hrest
    · rw [hdone] at ha
      cases ha
    · exact hrest
  opened a ha := by
    obtain ⟨items, hitems, hopen⟩ := h.opened a ha
    refine ⟨items, hitems, ?_⟩
    intro above below hsplit hfirst
    have hne : a ≠ next := by
      rintro rfl
      rw [hdone] at ha
      cases ha
    obtain ⟨hdoneItems, hbelow⟩ := hopen (next :: above) below (by rw [hsplit]; rfl)
      (by simp [hne, hfirst])
    constructor
    · intro x hx
      rcases hdoneItems x hx with hx | hx
      · exact .inl hx
      · rcases List.mem_cons.mp hx with rfl | hx
        · exact .inl hdone
        · exact .inr hx
    · exact fun x hx => hbelow x (List.mem_cons_of_mem _ hx)

/-- An open node at the top has all its items done, and goes to the tree. -/
theorem Searching.finish (h : Searching expand order (next :: rest) visiting tree)
    (hopen : visiting next = some false) :
    Searching expand order rest (Function.update visiting next (some true)) (tree ++ [next]) := by
  have hmarked : ∀ a, visiting a = some true → Function.update visiting next (some true) a =
      some true := by
    intro a ha
    by_cases hne : a = next
    · rw [hne, Function.update_self]
    · rwa [Function.update_of_ne hne]
  have hother : ∀ a, Function.update visiting next (some true) a = some false →
      a ≠ next ∧ visiting a = some false := by
    intro a ha
    by_cases hne : a = next
    · rw [hne, Function.update_self] at ha
      cases ha
    · rw [Function.update_of_ne hne] at ha
      exact ⟨hne, ha⟩
  have hnew : next ∉ tree := by
    intro hin
    rw [h.marked next hin] at hopen
    cases hopen
  constructor
  · intro before a after hsplit
    rcases List.eq_nil_or_concat' after with rfl | ⟨mid, b, rfl⟩
    · obtain ⟨rfl, hlast⟩ := List.append_inj' hsplit rfl
      obtain rfl := List.singleton_inj.mp hlast
      obtain ⟨items, hitems, hall⟩ := h.opened _ hopen
      refine ⟨items, hitems, ?_⟩
      intro x hx
      rcases (hall [] rest rfl List.not_mem_nil).1 x hx with hdone | hx
      · exact h.finished x hdone
      · cases hx
    · rw [← List.cons_append, ← List.append_assoc] at hsplit
      exact h.postordered before a mid (List.append_inj' hsplit rfl).1
  · apply List.Nodup.append h.nodup (List.nodup_singleton next)
    intro a ha heq
    exact hnew (List.mem_singleton.mp heq ▸ ha)
  · intro a ha
    rcases List.mem_append.mp ha with ha | ha
    · exact hmarked a (h.marked a ha)
    · rw [List.mem_singleton.mp ha, Function.update_self]
  · intro a ha
    by_cases hne : a = next
    · rw [hne]
      exact .inl (List.mem_append_right _ (List.mem_singleton_self _))
    · rw [Function.update_of_ne hne] at ha
      exact (h.finished a ha).imp_left (List.mem_append_left _)
  · intro a ha
    obtain ⟨hne, ha⟩ := hother a ha
    exact (List.mem_cons.mp (h.waiting a ha)).resolve_left hne
  · intro a ha
    obtain ⟨hne, ha⟩ := hother a ha
    obtain ⟨items, hitems, hall⟩ := h.opened a ha
    refine ⟨items, hitems, ?_⟩
    intro above below hsplit hfirst
    obtain ⟨hdoneItems, hbelow⟩ := hall (next :: above) below (by rw [hsplit]; rfl)
      (by simp [hne, hfirst])
    constructor
    · intro x hx
      rcases hdoneItems x hx with hx | hx
      · exact .inl (hmarked x hx)
      · rcases List.mem_cons.mp hx with rfl | hx
        · exact .inl (Function.update_self ..)
        · exact .inr hx
    · exact fun x hx => hbelow x (List.mem_cons_of_mem _ hx)

/-- A node that is passed over is done at once. -/
theorem Searching.leaf (h : Searching expand order (next :: rest) visiting tree)
    (hfresh : visiting next = none) (hleaf : Leaf expand next) :
    Searching expand order (next :: rest) (Function.update visiting next (some true)) tree := by
  have hmarked : ∀ a b, visiting a = some b →
      Function.update visiting next (some true) a = some b := by
    intro a b ha
    have hne : a ≠ next := by
      rintro rfl
      rw [hfresh] at ha
      cases ha
    rwa [Function.update_of_ne hne]
  have hother : ∀ a, Function.update visiting next (some true) a = some false →
      visiting a = some false := by
    intro a ha
    by_cases hne : a = next
    · rw [hne, Function.update_self] at ha
      cases ha
    · rwa [Function.update_of_ne hne] at ha
  constructor
  · exact h.postordered
  · exact h.nodup
  · exact fun a ha => hmarked a true (h.marked a ha)
  · intro a ha
    by_cases hne : a = next
    · exact .inr (hne ▸ hleaf)
    · rw [Function.update_of_ne hne] at ha
      exact h.finished a ha
  · exact fun a ha => h.waiting a (hother a ha)
  · intro a ha
    obtain ⟨items, hitems, hall⟩ := h.opened a (hother a ha)
    refine ⟨items, hitems, ?_⟩
    intro above below hsplit hfirst
    obtain ⟨hdoneItems, hbelow⟩ := hall above below hsplit hfirst
    exact ⟨fun x hx => (hdoneItems x hx).imp_left (hmarked x true), hbelow⟩

omit [DecidableEq α] in
/-- Where the first list has no `a`, the split is in the second. -/
theorem append_cons_split {a : α} {xs ys above below : List α} (h : xs ++ ys = above ++ a :: below)
    (ha : a ∉ xs) : ∃ mid, above = xs ++ mid ∧ ys = mid ++ a :: below := by
  rcases List.append_eq_append_iff.mp h with ⟨mid, habove, hys⟩ | ⟨mid, hxs, hmid⟩
  · exact ⟨mid, habove, hys⟩
  · cases mid with
    | nil => exact ⟨[], by simpa using hxs.symm, by simpa using hmid.symm⟩
    | cons m mid =>
      obtain ⟨rfl, -⟩ := List.cons_eq_cons.mp hmid
      rw [hxs] at ha
      simp at ha

/-- A node that is opened has its items above it; they are below the nodes that were open. -/
theorem Searching.push (h : Searching expand order (next :: rest) visiting tree)
    (hfresh : visiting next = none) {items : List α} (hitems : Pushes expand next items)
    (horder : ∀ x ∈ items, order x < order next) :
    Searching expand order (items.reverse ++ next :: rest)
      (Function.update visiting next (some false)) tree := by
  have hkept : ∀ a b, visiting a = some b →
      a ≠ next ∧ Function.update visiting next (some false) a = some b := by
    intro a b ha
    have hne : a ≠ next := by
      rintro rfl
      rw [hfresh] at ha
      cases ha
    exact ⟨hne, by rwa [Function.update_of_ne hne]⟩
  -- an open node other than this one is in the old stack, with this one above it
  have hopened : ∀ a, visiting a = some false → order next < order a := by
    intro a ha
    have hne := (hkept a false ha).1
    have hin := (List.mem_cons.mp (h.waiting a ha)).resolve_left hne
    obtain ⟨above, below, hsplit, hfirst⟩ := List.eq_append_cons_of_mem hin
    obtain ⟨items', -, hall⟩ := h.opened a ha
    exact (hall (next :: above) below (by rw [hsplit]; rfl) (by simp [hne, hfirst])).2 next
      (List.mem_cons_self ..)
  constructor
  · exact h.postordered
  · exact h.nodup
  · exact fun a ha => (hkept a true (h.marked a ha)).2
  · intro a ha
    by_cases hne : a = next
    · rw [hne, Function.update_self] at ha
      cases ha
    · rw [Function.update_of_ne hne] at ha
      exact h.finished a ha
  · intro a ha
    by_cases hne : a = next
    · rw [hne]
      exact List.mem_append_right _ (List.mem_cons_self ..)
    · rw [Function.update_of_ne hne] at ha
      exact List.mem_append_right _ (h.waiting a ha)
  · intro a ha
    by_cases hne : a = next
    · subst hne
      refine ⟨items, hitems, ?_⟩
      intro above below hsplit hfirst
      have hnot : a ∉ items.reverse := by
        intro hin
        exact (horder a (List.mem_reverse.mp hin)).false
      obtain ⟨mid, rfl, hmid⟩ := append_cons_split hsplit hnot
      cases mid with
      | nil =>
        rw [List.append_nil]
        exact ⟨fun x hx => .inr (List.mem_reverse.mpr hx),
          fun x hx => horder x (List.mem_reverse.mp hx)⟩
      | cons m mid =>
        obtain ⟨rfl, -⟩ := List.cons_eq_cons.mp hmid
        simp at hfirst
    · rw [Function.update_of_ne hne] at ha
      obtain ⟨items', hitems', hall⟩ := h.opened a ha
      refine ⟨items', hitems', ?_⟩
      intro above below hsplit hfirst
      have hbelow := hopened a ha
      have hnot : a ∉ items.reverse := by
        intro hin
        have hlt := horder a (List.mem_reverse.mp hin)
        omega
      obtain ⟨mid, rfl, hmid⟩ := append_cons_split hsplit hnot
      obtain ⟨hdoneItems, horder'⟩ := hall mid below hmid
        fun hin => hfirst (List.mem_append_right _ hin)
      constructor
      · intro x hx
        rcases hdoneItems x hx with hx | hx
        · exact .inl (hkept x true hx).2
        · exact .inr (List.mem_append_right _ hx)
      · intro x hx
        rcases List.mem_append.mp hx with hx | hx
        · exact (horder x (List.mem_reverse.mp hx)).trans hbelow
        · exact horder' x hx

/-- The order of the nodes in a finished search, where items are below what pushes them. -/
theorem postordered_of_search (horder : ∀ a items, Pushes expand a items →
    ∀ x ∈ items, order x < order a) {fuel : ℕ} {st : σ} {result : List α}
    (h : Searching expand order stack visiting tree)
    (hrun : search expand fuel stack visiting tree st = ok (some result)) :
    Postordered expand result ∧ result.Nodup := by
  induction fuel generalizing stack visiting tree st with
  | zero => cases hrun
  | succ fuel ih =>
    cases stack with
    | nil =>
      obtain rfl := Option.some.inj (ok.inj hrun)
      exact ⟨h.postordered, h.nodup⟩
    | cons next rest =>
      rw [search] at hrun
      split at hrun
      · rename_i hdone
        exact ih (h.pop hdone) hrun
      · rename_i hopen
        exact ih (h.finish hopen) hrun
      · rename_i hfresh
        obtain ⟨expansion, hexpand, hrun⟩ := bind_eq_ok.mp hrun
        cases expansion with
        | abandon => cases hrun
        | leaf => exact ih (h.leaf hfresh ⟨st, hexpand⟩) hrun
        | push st' items =>
          have hitems : Pushes expand next items := ⟨st, st', hexpand⟩
          exact ih (h.push hfresh hitems (horder next items hitems)) hrun

/-- What holds of the nodes on the stack and is passed on to the items holds in the tree. -/
theorem forall_mem_of_search {P : α → Prop} (hpush : ∀ a items, P a → Pushes expand a items →
    ∀ x ∈ items, P x) {fuel : ℕ} {st : σ} {result : List α} (hstack : ∀ a ∈ stack, P a)
    (htree : ∀ a ∈ tree, P a)
    (hrun : search expand fuel stack visiting tree st = ok (some result)) :
    ∀ a ∈ result, P a := by
  induction fuel generalizing stack visiting tree st with
  | zero => cases hrun
  | succ fuel ih =>
    cases stack with
    | nil =>
      obtain rfl := Option.some.inj (ok.inj hrun)
      exact htree
    | cons next rest =>
      have hnext := hstack next (List.mem_cons_self ..)
      have hrest : ∀ a ∈ rest, P a := fun a ha => hstack a (List.mem_cons_of_mem _ ha)
      rw [search] at hrun
      split at hrun
      · exact ih hrest htree hrun
      · apply ih hrest _ hrun
        intro a ha
        rcases List.mem_append.mp ha with ha | ha
        · exact htree a ha
        · exact List.mem_singleton.mp ha ▸ hnext
      · obtain ⟨expansion, hexpand, hrun⟩ := bind_eq_ok.mp hrun
        cases expansion with
        | abandon => cases hrun
        | leaf => exact ih hstack htree hrun
        | push st' items =>
          apply ih _ htree hrun
          intro a ha
          rcases List.mem_append.mp ha with ha | ha
          · exact hpush next items hnext ⟨st, st', hexpand⟩ a (List.mem_reverse.mp ha)
          · exact hstack a ha

end PostorderSearch
end MultiMeshJax
