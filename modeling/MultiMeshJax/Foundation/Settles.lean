import MultiMeshJax.Status

/-! Exact preconditions: a computation that succeeds under a condition, and only then. -/
namespace MultiMeshJax
namespace StatusOr

variable {α β : Type} {C D : Prop} {P Q : α → Prop} {x : StatusOr α} {a : α}

/-- Under the condition there is a result, with the property, and otherwise there is none. -/
def Settles (C : Prop) (x : StatusOr α) (P : α → Prop) : Prop :=
  (C ∧ ∃ a, x = ok a ∧ P a) ∨ (¬C ∧ ∀ a, x ≠ ok a)

theorem Settles.exists_iff (h : Settles C x P) : (∃ a, x = ok a) ↔ C := by
  rcases h with ⟨hC, a, hx, -⟩ | ⟨hC, hx⟩
  · exact iff_of_true ⟨a, hx⟩ hC
  · exact iff_of_false (fun ⟨a, ha⟩ => hx a ha) hC

theorem Settles.of_ok (h : Settles C x P) (hx : x = ok a) : C ∧ P a := by
  rcases h with ⟨hC, a', hx', hP⟩ | ⟨-, hno⟩
  · rw [hx] at hx'
    obtain rfl := ok.inj hx'
    exact ⟨hC, hP⟩
  · exact absurd hx (hno a)

theorem settles_of_iff (hiff : (∃ a, x = ok a) ↔ C) (hP : ∀ a, x = ok a → P a) :
    Settles C x P := by
  by_cases hC : C
  · obtain ⟨a, ha⟩ := hiff.mpr hC
    exact .inl ⟨hC, a, ha, hP a ha⟩
  · exact .inr ⟨hC, fun a ha => hC (hiff.mp ⟨a, ha⟩)⟩

theorem settles_ok (h : P a) : Settles True (ok a) P := .inl ⟨trivial, a, rfl, h⟩

theorem Settles.congr (h : Settles C x P) (hiff : C ↔ D) : Settles D x P := by
  rwa [Settles, ← hiff]

theorem Settles.imp (h : Settles C x P) (hPQ : ∀ a, P a → Q a) : Settles C x Q := by
  rcases h with ⟨hC, a, hx, hP⟩ | hno
  · exact .inl ⟨hC, a, hx, hPQ a hP⟩
  · exact .inr hno

/-- A result is only there under the condition. -/
theorem Settles.and_condition (h : Settles C x P) : Settles C x fun a => C ∧ P a := by
  rcases h with ⟨hC, a, hx, hP⟩ | hno
  · exact .inl ⟨hC, a, hx, hC, hP⟩
  · exact .inr hno

theorem Settles.bind {f : α → StatusOr β} {R : β → Prop} (h : Settles C x P)
    (hf : ∀ a, P a → Settles D (f a) R) : Settles (C ∧ D) (x >>= f) R := by
  rcases h with ⟨hC, a, rfl, hP⟩ | ⟨hC, hno⟩
  · rw [ok_bind]
    apply (hf a hP).congr
    exact (and_iff_right hC).symm
  · right
    refine ⟨fun h => hC h.1, ?_⟩
    intro b hb
    obtain ⟨a, ha, -⟩ := bind_eq_ok.mp hb
    exact hno a ha

/-- A result that is only worked on further. -/
theorem Settles.bind_ok {f : α → β} {R : β → Prop} (h : Settles C x P) (hf : ∀ a, P a → R (f a)) :
    Settles C (x >>= fun a => ok (f a)) R :=
  (h.bind fun a ha => settles_ok (hf a ha)).congr (and_iff_left trivial)

/-- A loop settles with what each of its steps takes. -/
theorem settles_foldlM {f : β → α → StatusOr β} (R : List α → β → Prop) {T : List α → α → Prop}
    {b : β} (hstart : R [] b) (xs : List α)
    (hstep : ∀ done y after, xs = done ++ y :: after → ∀ c, R done c →
      Settles (T done y) (f c y) (R (done ++ [y]))) :
    Settles (∀ done y after, xs = done ++ y :: after → T done y) (xs.foldlM f b) (R xs) := by
  induction xs using List.reverseRecOn with
  | nil =>
    apply (settles_ok hstart).congr
    exact iff_of_true trivial fun done y after h => by simp at h
  | append_singleton xs x ih =>
    have hprev := ih fun done y after heq c hc => hstep done y (after ++ [x]) (by simp [heq]) c hc
    rw [List.foldlM_append]
    have hlast : ∀ c, R xs c → Settles (T xs x) ([x].foldlM f c) (R (xs ++ [x])) := by
      intro c hc
      rw [List.foldlM_cons]
      simp only [List.foldlM_nil, bind_pure]
      exact hstep xs x [] rfl c hc
    apply (hprev.bind hlast).congr
    constructor
    · rintro ⟨hall, hx⟩ done y after heq
      rcases List.eq_nil_or_concat after with rfl | ⟨after', z, rfl⟩
      · obtain ⟨rfl, hxy⟩ := List.append_inj' heq rfl
        obtain rfl := List.singleton_inj.mp hxy
        exact hx
      · have hsplit : xs ++ [x] = (done ++ y :: after') ++ [z] := by simp [heq]
        obtain ⟨rfl, -⟩ := List.append_inj' hsplit rfl
        exact hall done y after' rfl
    · intro hall
      exact ⟨fun done y after heq => hall done y (after ++ [x]) (by simp [heq]), hall xs x [] rfl⟩

end StatusOr
end MultiMeshJax
