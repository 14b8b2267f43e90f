import MultiMeshJax.Status

/-! A loop that takes the last item off a stack and pushes the items that the visit asks for. -/
namespace MultiMeshJax
namespace Worklist

open StatusOr

variable {σ α : Type} (visit : σ → α → StatusOr (σ × List α))

/-- The loop, for a number of rounds; the top of the stack comes first. -/
def drain : ℕ → σ → List α → StatusOr σ
  | 0, _, _ => fatal "the loop goes on"
  | _ + 1, st, [] => return st
  | rounds + 1, st, a :: rest => do
    let next ← visit st a
    drain rounds next.1 (next.2 ++ rest)

/-- The states and stacks that the loop comes to. -/
inductive Reaches : σ → List α → σ → List α → Prop
  | refl (st : σ) (stack : List α) : Reaches st stack st stack
  | visit {st st' st'' : σ} {a : α} {pushed rest stack : List α}
      (hvisit : visit st a = ok (st', pushed)) (hrest : Reaches st' (pushed ++ rest) st'' stack) :
      Reaches st (a :: rest) st'' stack

variable {visit}

theorem Reaches.trans {st st' st'' : σ} {stack stack' stack'' : List α}
    (h : Reaches visit st stack st' stack') (h' : Reaches visit st' stack' st'' stack'') :
    Reaches visit st stack st'' stack'' := by
  induction h with
  | refl => exact h'
  | visit hvisit _ ih => exact .visit hvisit (ih h')

theorem Reaches.drain {st st' : σ} {stack : List α} (h : Reaches visit st stack st' []) :
    ∃ rounds, Worklist.drain visit rounds st stack = ok st' := by
  generalize hend : ([] : List α) = last at h
  induction h with
  | refl st => exact ⟨1, by rw [← hend]; rfl⟩
  | visit hvisit _ ih =>
    obtain ⟨rounds, hrun⟩ := ih hend
    refine ⟨rounds + 1, ?_⟩
    rw [Worklist.drain, hvisit, ok_bind]
    exact hrun

/-- What a finished loop has come to at its end. -/
theorem reaches_of_drain {rounds : ℕ} {st st' : σ} {stack : List α}
    (h : drain visit rounds st stack = ok st') : Reaches visit st stack st' [] := by
  induction rounds generalizing st stack with
  | zero => cases h
  | succ rounds ih =>
    cases stack with
    | nil =>
      obtain rfl := ok.inj h
      exact .refl st []
    | cons a rest =>
      obtain ⟨next, hvisit, hrest⟩ := bind_eq_ok.mp h
      exact .visit hvisit (ih hrest)

/-- A loop that finishes comes to its end from all that it comes to. -/
theorem reaches_end {st st' stEnd : σ} {stack stack' : List α}
    (hend : Reaches visit st stack stEnd []) (h : Reaches visit st stack st' stack') :
    Reaches visit st' stack' stEnd [] := by
  induction h with
  | refl => exact hend
  | visit hvisit _ ih =>
    cases hend with
    | visit hvisit' hrest' =>
      obtain ⟨rfl, rfl⟩ := Prod.mk.inj (ok.inj (hvisit.symm.trans hvisit'))
      exact ih hrest'

section acyclic

variable {next : α → List α}

/-- Items that only push items below them are worked off, as long as no visit fails. -/
theorem exists_reaches (hnext : ∀ st a st' pushed, visit st a = ok (st', pushed) → pushed = next a)
    {a : α} (hacc : Acc (fun b c => b ∈ next c) a) {st : σ} {rest : List α}
    (hok : ∀ st' b rest', Reaches visit st (a :: rest) st' (b :: rest') →
      (∃ pushed, rest' = pushed ++ rest) → ∃ result, visit st' b = ok result) :
    ∃ st', Reaches visit st (a :: rest) st' rest := by
  induction hacc generalizing st rest with
  | intro a _ ih =>
    obtain ⟨⟨st₁, pushed⟩, hvisit⟩ := hok st a rest (.refl _ _) ⟨[], rfl⟩
    obtain rfl := hnext _ _ _ _ hvisit
    -- the items that `a` pushed are worked off one after another
    have hall : ∀ done left : List α, next a = done ++ left →
        ∀ st₂, Reaches visit st (a :: rest) st₂ (left ++ rest) →
          ∃ st', Reaches visit st (a :: rest) st' rest := by
      intro done left
      induction left generalizing done with
      | nil => exact fun _ st₂ hreach => ⟨st₂, hreach⟩
      | cons b left ihleft =>
        intro hsplit st₂ hreach
        have hb : b ∈ next a := by
          rw [hsplit]
          exact List.mem_append_right _ (List.mem_cons_self ..)
        obtain ⟨st₃, hsub⟩ : ∃ st', Reaches visit st₂ (b :: (left ++ rest)) st' (left ++ rest) := by
          apply ih b hb
          rintro st' b' rest' hreach' ⟨pushed, rfl⟩
          exact hok st' b' _ (hreach.trans hreach') ⟨pushed ++ left, by simp⟩
        exact ihleft (done ++ [b]) (by simpa using hsplit) st₃ (hreach.trans hsub)
    exact hall [] (next a) rfl st₁ (.visit hvisit (.refl _ _))

end acyclic

end Worklist
end MultiMeshJax
