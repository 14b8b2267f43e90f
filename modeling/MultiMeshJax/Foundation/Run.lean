import Mathlib

/-! Runs of a system that takes one step for each action of a list. -/
namespace MultiMeshJax
namespace Run

variable {S A : Type*} {Step : S → A → S → Prop} {I : S → Prop} {P Q : S → A → S → Prop}

inductive Reaches (Step : S → A → S → Prop) : S → List A → S → Prop where
  | refl (s : S) : Reaches Step s [] s
  | step {s s' t : S} {a : A} {as : List A} (h : Step s a s') (hrest : Reaches Step s' as t) :
      Reaches Step s (a :: as) t

/-- Every step of every run over the actions has the property. -/
def EachStep (Step P : S → A → S → Prop) (s : S) (as : List A) : Prop :=
  ∀ earlier a later t t', as = earlier ++ a :: later → Reaches Step s earlier t → Step t a t' →
    P t a t'

theorem eachStep_nil (s : S) : EachStep Step P s [] := by
  intro earlier a later t t' heq
  simp at heq

theorem eachStep_cons {s : S} {a : A} {as : List A} :
    EachStep Step P s (a :: as) ↔ ∀ s', Step s a s' → P s a s' ∧ EachStep Step P s' as := by
  constructor
  · intro h s' hs'
    constructor
    · exact h [] a as s s' rfl (.refl s) hs'
    · intro earlier b later t t' heq hreaches ht
      exact h (a :: earlier) b later t t' (by rw [heq, List.cons_append]) (.step hs' hreaches) ht
  · intro h earlier b later t t' heq hreaches ht
    cases hreaches with
    | refl =>
      obtain ⟨rfl, rfl⟩ := List.cons.inj heq
      exact (h t' ht).1
    | step hs' hrest =>
      obtain ⟨rfl, heq'⟩ := List.cons.inj heq
      exact (h _ hs').2 _ b later t t' heq' hrest ht

/-- Where `Q` is what it takes for one step to keep the invariant and to have `P`, it is what
it takes for all steps of a run. -/
theorem eachStep_iff
    (hstep : ∀ s a s', I s → Step s a s' → ((I s' ∧ P s a s') ↔ Q s a s')) {s : S} (hs : I s)
    (as : List A) :
    EachStep Step (fun s a s' => I s' ∧ P s a s') s as ↔ EachStep Step Q s as := by
  induction as generalizing s with
  | nil => exact iff_of_true (eachStep_nil s) (eachStep_nil s)
  | cons a as ih =>
    rw [eachStep_cons, eachStep_cons]
    apply forall_congr'
    intro s'
    apply imp_congr_right
    intro hs'
    rw [hstep s a s' hs hs']
    apply and_congr_right
    intro hQ
    exact ih ((hstep s a s' hs hs').mpr hQ).1

/-- Along a run that keeps an invariant, two properties that agree on the steps from it agree. -/
theorem eachStep_congr {as : List A} (hkeep : ∀ a ∈ as, ∀ s s', I s → Step s a s' → I s')
    (hiff : ∀ a ∈ as, ∀ s s', I s → Step s a s' → (P s a s' ↔ Q s a s')) {s : S} (hs : I s) :
    EachStep Step P s as ↔ EachStep Step Q s as := by
  induction as generalizing s with
  | nil => exact iff_of_true (eachStep_nil s) (eachStep_nil s)
  | cons a as ih =>
    rw [eachStep_cons, eachStep_cons]
    apply forall_congr'
    intro s'
    apply imp_congr_right
    intro hs'
    rw [hiff a List.mem_cons_self s s' hs hs']
    apply and_congr_right
    intro _
    apply ih
    · intro b hb
      exact hkeep b (List.mem_cons_of_mem a hb)
    · intro b hb
      exact hiff b (List.mem_cons_of_mem a hb)
    · exact hkeep a List.mem_cons_self s s' hs hs'

end Run

end MultiMeshJax
