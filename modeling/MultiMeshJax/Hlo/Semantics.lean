import MultiMeshJax.Hlo.Computation

/-! The values that the instructions of a computation have, the tasks and the other
operations being uninterpreted functions. -/
namespace MultiMeshJax

inductive Value (V : Type) where
  | data (v : V)
  | tuple (vs : List (Value V))

/-- What the operations compute. A loop is given by the number of its body. -/
structure Interpretation (V : Type) where
  offset : ℤ → V
  loop : ℕ → List (Value V) → Option (List (Value V))
  operation : HloOpcode → Shape → List (Value V) → Option (Value V)

/-- The values of the parameters, and of the slice offsets that are not unrolled. -/
structure Context (V : Type) where
  parameter : ℕ → Option (Value V)
  offset : ℤ

variable {V : Type}

namespace Interpretation

def apply (I : Interpretation V) (ctx : Context V) (i : HloInstruction) (args : List (Value V)) :
    Option (Value V) :=
  match i.opcode with
  | .parameter n => ctx.parameter n
  | .getTupleElement k =>
    match args with
    | [.tuple vs] => vs[k]?
    | _ => none
  | .tuple => some (.tuple args)
  | .whileLoop body =>
    match args with
    | [.tuple vs] => (I.loop body vs).map .tuple
    | _ => none
  | .customCall target =>
    if target = kCustomCallSliceOffset then some (.data (I.offset (i.offset.getD ctx.offset)))
    else I.operation i.opcode i.shape args
  | _ => I.operation i.opcode i.shape args

end Interpretation

namespace HloComputation

/-- The values to a depth of operands. -/
def eval (I : Interpretation V) (ctx : Context V) (c : HloComputation) : ℕ → ℕ → Option (Value V)
  | 0, _ => none
  | depth + 1, id => do
    let i ← c.instruction id
    let args ← i.operands.mapM (eval I ctx c depth)
    I.apply ctx i args

/-- The instruction has this value. -/
def Computes (I : Interpretation V) (ctx : Context V) (c : HloComputation) (id : ℕ)
    (v : Value V) : Prop :=
  ∃ depth, c.eval I ctx depth id = some v

theorem mapM_eq_some {f : ℕ → Option (Value V)} {ids : List ℕ} {vs : List (Value V)} :
    ids.mapM f = some vs ↔ List.Forall₂ (fun id v => f id = some v) ids vs := by
  induction ids generalizing vs with
  | nil => cases vs <;> simp
  | cons id ids ih =>
    simp only [List.mapM_cons, Option.bind_eq_bind, Option.bind_eq_some_iff, Option.pure_def,
      Option.some.injEq]
    constructor
    · rintro ⟨v, hv, vs', hvs', rfl⟩
      exact .cons hv (ih.mp hvs')
    · rintro (_ | ⟨hv, hrest⟩)
      exact ⟨_, hv, _, ih.mpr hrest, rfl⟩

section eval

variable {I : Interpretation V} {ctx : Context V} {c c' : HloComputation}

theorem eval_succ {depth id : ℕ} {v : Value V} :
    c.eval I ctx (depth + 1) id = some v ↔ ∃ i args, c.instruction id = some i ∧
      List.Forall₂ (fun o a => c.eval I ctx depth o = some a) i.operands args ∧
      I.apply ctx i args = some v := by
  simp only [eval, Option.bind_eq_bind, Option.bind_eq_some_iff, mapM_eq_some]
  constructor
  · rintro ⟨i, hi, args, hargs, hv⟩
    exact ⟨i, args, hi, hargs, hv⟩
  · rintro ⟨i, args, hi, hargs, hv⟩
    exact ⟨i, hi, args, hargs, hv⟩

theorem eval_mono {depth depth' id : ℕ} {v : Value V} (hle : depth ≤ depth')
    (h : c.eval I ctx depth id = some v) : c.eval I ctx depth' id = some v := by
  induction depth generalizing depth' id v with
  | zero => cases h
  | succ depth ih =>
    obtain ⟨depth', rfl⟩ : ∃ d, depth' = d + 1 := ⟨depth' - 1, by omega⟩
    obtain ⟨i, args, hi, hargs, hv⟩ := eval_succ.mp h
    exact eval_succ.mpr ⟨i, args, hi, hargs.imp fun o a ho => ih (by omega) ho, hv⟩

theorem Computes.unique {id : ℕ} {v v' : Value V} (h : c.Computes I ctx id v)
    (h' : c.Computes I ctx id v') : v = v' := by
  obtain ⟨depth, hv⟩ := h
  obtain ⟨depth', hv'⟩ := h'
  have hmax := eval_mono (le_max_left depth depth') hv
  rw [eval_mono (le_max_right depth depth') hv'] at hmax
  exact (Option.some_injective _ hmax).symm

/-- The operands of an instruction have their values to one depth. -/
theorem Computes.exists_depth {ids : List ℕ} {args : List (Value V)}
    (hargs : List.Forall₂ (c.Computes I ctx) ids args) :
    ∃ depth, List.Forall₂ (fun o a => c.eval I ctx depth o = some a) ids args := by
  induction hargs with
  | nil => exact ⟨0, .nil⟩
  | cons ho _ ih =>
    obtain ⟨d, hd⟩ := ho
    obtain ⟨d', hd'⟩ := ih
    exact ⟨max d d', .cons (eval_mono (le_max_left d d') hd)
      (hd'.imp fun _ _ h => eval_mono (le_max_right d d') h)⟩

/-- An instruction whose operands have values is computed from them. -/
theorem Computes.of_operands {id : ℕ} {i : HloInstruction} {args : List (Value V)} {v : Value V}
    (hi : c.instruction id = some i) (hargs : List.Forall₂ (c.Computes I ctx) i.operands args)
    (hv : I.apply ctx i args = some v) : c.Computes I ctx id v := by
  obtain ⟨depth, hdepth⟩ := Computes.exists_depth hargs
  exact ⟨depth + 1, eval_succ.mpr ⟨i, args, hi, hdepth, hv⟩⟩

theorem Computes.cases {id : ℕ} {v : Value V} (h : c.Computes I ctx id v) :
    ∃ i args, c.instruction id = some i ∧ List.Forall₂ (c.Computes I ctx) i.operands args ∧
      I.apply ctx i args = some v := by
  obtain ⟨depth, h⟩ := h
  cases depth with
  | zero => cases h
  | succ depth =>
    obtain ⟨i, args, hi, hargs, hv⟩ := eval_succ.mp h
    exact ⟨i, args, hi, hargs.imp fun _ _ ho => ⟨depth, ho⟩, hv⟩

/-- More instructions do not change the values. -/
theorem Computes.mono {id : ℕ} {v : Value V}
    (hle : ∀ id i, c.instruction id = some i → c'.instruction id = some i)
    (h : c.Computes I ctx id v) : c'.Computes I ctx id v := by
  obtain ⟨depth, h⟩ := h
  refine ⟨depth, ?_⟩
  induction depth generalizing id v with
  | zero => cases h
  | succ depth ih =>
    obtain ⟨i, args, hi, hargs, hv⟩ := eval_succ.mp h
    exact eval_succ.mpr ⟨i, args, hle id i hi, hargs.imp fun _ _ ho => ih ho, hv⟩

end eval

end HloComputation

end MultiMeshJax
