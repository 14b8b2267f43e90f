import MultiMeshJax.Hlo.Computation

/-! The values of the instructions of a computation, what each of them makes of the values of its
operands being given. -/
namespace MultiMeshJax
namespace HloComputation

variable {V : Type} (apply : HloInstruction → List V → Option V) (c : HloComputation)

/-- The values to a depth of operands. -/
def evaluate : ℕ → ℕ → Option V
  | 0, _ => none
  | depth + 1, id => do
    let i ← c.instruction id
    let args ← i.operands.mapM (evaluate depth)
    apply i args

/-- The instruction has this value. -/
def HasValue (id : ℕ) (v : V) : Prop := ∃ depth, c.evaluate apply depth id = some v

variable {apply c} {id depth depth' : ℕ} {v v' : V}

theorem mapM_option_eq_some {α : Type} {f : α → Option V} {xs : List α} {vs : List V} :
    xs.mapM f = some vs ↔ List.Forall₂ (fun x v => f x = some v) xs vs := by
  induction xs generalizing vs with
  | nil => cases vs <;> simp
  | cons x xs ih =>
    simp only [List.mapM_cons, Option.bind_eq_bind, Option.bind_eq_some_iff, Option.pure_def,
      Option.some.injEq]
    constructor
    · rintro ⟨v, hv, vs', hvs', rfl⟩
      exact .cons hv (ih.mp hvs')
    · rintro (_ | ⟨hv, hrest⟩)
      exact ⟨_, hv, _, ih.mpr hrest, rfl⟩

theorem evaluate_succ : c.evaluate apply (depth + 1) id = some v ↔ ∃ i args,
    c.instruction id = some i ∧
      List.Forall₂ (fun o a => c.evaluate apply depth o = some a) i.operands args ∧
      apply i args = some v := by
  simp only [evaluate, Option.bind_eq_bind, Option.bind_eq_some_iff, mapM_option_eq_some]
  constructor
  · rintro ⟨i, hi, args, hargs, hv⟩
    exact ⟨i, args, hi, hargs, hv⟩
  · rintro ⟨i, args, hi, hargs, hv⟩
    exact ⟨i, hi, args, hargs, hv⟩

theorem evaluate_mono (hle : depth ≤ depth') (h : c.evaluate apply depth id = some v) :
    c.evaluate apply depth' id = some v := by
  induction depth generalizing depth' id v with
  | zero => cases h
  | succ depth ih =>
    obtain ⟨depth', rfl⟩ : ∃ d, depth' = d + 1 := ⟨depth' - 1, by omega⟩
    obtain ⟨i, args, hi, hargs, hv⟩ := evaluate_succ.mp h
    exact evaluate_succ.mpr ⟨i, args, hi, hargs.imp fun o a ho => ih (by omega) ho, hv⟩

theorem HasValue.unique (h : c.HasValue apply id v) (h' : c.HasValue apply id v') : v = v' := by
  obtain ⟨depth, hv⟩ := h
  obtain ⟨depth', hv'⟩ := h'
  have hmax := evaluate_mono (le_max_left depth depth') hv
  rw [evaluate_mono (le_max_right depth depth') hv'] at hmax
  exact (Option.some_injective _ hmax).symm

/-- The operands have their values to one depth. -/
theorem exists_evaluate {ids : List ℕ} {args : List V}
    (hargs : List.Forall₂ (c.HasValue apply) ids args) :
    ∃ depth, List.Forall₂ (fun o a => c.evaluate apply depth o = some a) ids args := by
  induction hargs with
  | nil => exact ⟨0, .nil⟩
  | cons ho _ ih =>
    obtain ⟨d, hd⟩ := ho
    obtain ⟨d', hd'⟩ := ih
    exact ⟨max d d', .cons (evaluate_mono (le_max_left d d') hd)
      (hd'.imp fun _ _ h => evaluate_mono (le_max_right d d') h)⟩

theorem hasValue_iff : c.HasValue apply id v ↔ ∃ i args, c.instruction id = some i ∧
    List.Forall₂ (c.HasValue apply) i.operands args ∧ apply i args = some v := by
  constructor
  · rintro ⟨depth, h⟩
    cases depth with
    | zero => cases h
    | succ depth =>
      obtain ⟨i, args, hi, hargs, hv⟩ := evaluate_succ.mp h
      exact ⟨i, args, hi, hargs.imp fun _ _ ho => ⟨depth, ho⟩, hv⟩
  · rintro ⟨i, args, hi, hargs, hv⟩
    obtain ⟨depth, hdepth⟩ := exists_evaluate hargs
    exact ⟨depth + 1, evaluate_succ.mpr ⟨i, args, hi, hdepth, hv⟩⟩

/-- What holds of an instruction when it holds of its operands holds of all that have values. -/
theorem HasValue.induction {P : ℕ → V → Prop}
    (hstep : ∀ id i args v, c.instruction id = some i →
      List.Forall₂ (fun o a => c.HasValue apply o a ∧ P o a) i.operands args →
      apply i args = some v → P id v) (h : c.HasValue apply id v) : P id v := by
  obtain ⟨depth, h⟩ := h
  induction depth generalizing id v with
  | zero => cases h
  | succ depth ih =>
    obtain ⟨i, args, hi, hargs, hv⟩ := evaluate_succ.mp h
    exact hstep id i args v hi (hargs.imp fun _ _ ho => ⟨⟨depth, ho⟩, ih ho⟩) hv

end HloComputation
end MultiMeshJax
