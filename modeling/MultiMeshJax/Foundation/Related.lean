import Mathlib

/-! Lists whose elements are related one by one. -/
namespace MultiMeshJax

theorem forall₂_comp {α β γ : Type} {R : α → β → Prop} {S : β → γ → Prop} {T : α → γ → Prop}
    (hcomp : ∀ a b d, R a b → S b d → T a d) {as : List α} {bs : List β} {ds : List γ}
    (hR : List.Forall₂ R as bs) (hS : List.Forall₂ S bs ds) : List.Forall₂ T as ds := by
  induction hR generalizing ds with
  | nil =>
    cases hS
    exact .nil
  | cons hab _ ih =>
    cases hS with
    | cons hbd hrest => exact .cons (hcomp _ _ _ hab hbd) (ih hrest)

theorem exists_of_mem_forall₂ {α β : Type} {R : α → β → Prop} {as : List α} {bs : List β}
    (hR : List.Forall₂ R as bs) {a : α} (ha : a ∈ as) : ∃ b ∈ bs, R a b := by
  induction hR with
  | nil => cases ha
  | cons hab _ ih =>
    rcases List.mem_cons.mp ha with rfl | ha
    · exact ⟨_, List.mem_cons_self .., hab⟩
    · obtain ⟨b, hb, hab⟩ := ih ha
      exact ⟨b, List.mem_cons_of_mem _ hb, hab⟩

theorem forall₂_getElem? {α β : Type} {R : α → β → Prop} {xs : List α} {ys : List β}
    (h : List.Forall₂ R xs ys) : ∀ {k : ℕ} {x : α}, xs[k]? = some x →
      ∃ y, ys[k]? = some y ∧ R x y := by
  induction h with
  | nil =>
    intro k x hx
    simp at hx
  | cons hxy _ ih =>
    intro k x hx
    cases k with
    | zero =>
      rw [List.getElem?_cons_zero] at hx
      cases hx
      exact ⟨_, rfl, hxy⟩
    | succ k => exact ih hx

theorem mem_of_forall₂ {α β : Type} {R : α → β → Prop} {as : List α} {bs : List β}
    (h : List.Forall₂ R as bs) : List.Forall₂ (fun a b => a ∈ as ∧ R a b) as bs := by
  induction h with
  | nil => exact .nil
  | cons hab _ ih =>
    exact .cons ⟨List.mem_cons_self .., hab⟩
      (ih.imp fun a b h => ⟨List.mem_cons_of_mem _ h.1, h.2⟩)

theorem exists_between_forall₂ {α β γ : Type} {R : β → γ → Prop} {S : α → γ → Prop} {as : List α}
    {bs : List β} (h : List.Forall₂ (fun a b => ∃ d, R b d ∧ S a d) as bs) :
    ∃ ds, List.Forall₂ R bs ds ∧ List.Forall₂ S as ds := by
  induction h with
  | nil => exact ⟨[], .nil, .nil⟩
  | cons hab _ ih =>
    obtain ⟨d, hR, hS⟩ := hab
    obtain ⟨ds, hRs, hSs⟩ := ih
    exact ⟨d :: ds, .cons hR hRs, .cons hS hSs⟩

/-- Where the second elements are the only ones that their first elements are related to, they are
values of a function. -/
theorem exists_map_of_forall₂ {α β : Type} {R : α → β → Prop} [Inhabited β] {as : List α}
    {bs : List β} (hunique : ∀ a b b', R a b → R a b' → b = b') (h : List.Forall₂ R as bs) :
    ∃ f : α → β, bs = as.map f ∧ ∀ a ∈ as, R a (f a) := by
  classical
  refine ⟨fun a => if ha : ∃ b, R a b then ha.choose else default, ?_, ?_⟩
  · symm
    rw [← List.forall₂_eq_eq_eq, List.forall₂_map_left_iff]
    apply h.imp
    intro a b hab
    have hex : ∃ b, R a b := ⟨b, hab⟩
    rw [dif_pos hex]
    exact hunique a _ b hex.choose_spec hab
  · intro a ha
    obtain ⟨b, -, hab⟩ := exists_of_mem_forall₂ h ha
    have hex : ∃ b, R a b := ⟨b, hab⟩
    dsimp only
    rw [dif_pos hex]
    exact hex.choose_spec

end MultiMeshJax
