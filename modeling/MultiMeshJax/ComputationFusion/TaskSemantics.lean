import MultiMeshJax.ComputationFusion.FuseCalls

/-! The values of a computation of tasks, a call having the value that the root of the called
computation has for its operands. -/
namespace MultiMeshJax

variable {V : Type} {I : Interpretation V} {ctx : Context V}

namespace TaskProgram

/-- What an instruction makes of the values of its operands. -/
def Applies (I : Interpretation V) (ctx : Context V) (p : TaskProgram) (i : HloInstruction)
    (args : List (Value V)) (v : Value V) : Prop :=
  match i.opcode with
  | .call n => ∃ comp, p.called[n]? = some comp ∧
      comp.Computes I ⟨fun k => args[k]?, ctx.offset⟩ comp.root v
  | _ => I.apply ctx i args = some v

/-- The values to a depth of operands. -/
def ComputesTo (I : Interpretation V) (ctx : Context V) (p : TaskProgram) :
    ℕ → ℕ → Value V → Prop
  | 0, _, _ => False
  | depth + 1, id, v => ∃ i args, p.computation.instruction id = some i ∧
      List.Forall₂ (ComputesTo I ctx p depth) i.operands args ∧ p.Applies I ctx i args v

/-- The instruction has this value. -/
def Computes (I : Interpretation V) (ctx : Context V) (p : TaskProgram) (id : ℕ) (v : Value V) :
    Prop :=
  ∃ depth, p.ComputesTo I ctx depth id v

variable {p p' : TaskProgram}

theorem ComputesTo.mono {depth : ℕ} : ∀ {depth' id : ℕ} {v : Value V}, depth ≤ depth' →
    p.ComputesTo I ctx depth id v → p.ComputesTo I ctx depth' id v := by
  induction depth with
  | zero =>
    intro depth' id v _ h
    exact h.elim
  | succ depth ih =>
    intro depth' id v hle h
    obtain ⟨depth', rfl⟩ : ∃ d, depth' = d + 1 := ⟨depth' - 1, by omega⟩
    obtain ⟨i, args, hi, hargs, hv⟩ := h
    exact ⟨i, args, hi, hargs.imp fun _ _ ho => ih (by omega) ho, hv⟩

theorem Computes.cases {id : ℕ} {v : Value V} (h : p.Computes I ctx id v) :
    ∃ i args, p.computation.instruction id = some i ∧
      List.Forall₂ (p.Computes I ctx) i.operands args ∧ p.Applies I ctx i args v := by
  obtain ⟨depth, h⟩ := h
  cases depth with
  | zero => exact h.elim
  | succ depth =>
    obtain ⟨i, args, hi, hargs, hv⟩ := h
    exact ⟨i, args, hi, hargs.imp fun _ _ ho => ⟨depth, ho⟩, hv⟩

theorem exists_depth {ids : List ℕ} {args : List (Value V)}
    (hargs : List.Forall₂ (p.Computes I ctx) ids args) :
    ∃ depth, List.Forall₂ (p.ComputesTo I ctx depth) ids args := by
  induction hargs with
  | nil => exact ⟨0, .nil⟩
  | cons ho _ ih =>
    obtain ⟨d, hd⟩ := ho
    obtain ⟨d', hd'⟩ := ih
    exact ⟨max d d', .cons (hd.mono (le_max_left d d'))
      (hd'.imp fun _ _ h => h.mono (le_max_right d d'))⟩

theorem Computes.of_operands {id : ℕ} {i : HloInstruction} {args : List (Value V)} {v : Value V}
    (hi : p.computation.instruction id = some i)
    (hargs : List.Forall₂ (p.Computes I ctx) i.operands args) (hv : p.Applies I ctx i args v) :
    p.Computes I ctx id v := by
  obtain ⟨depth, hdepth⟩ := exists_depth hargs
  exact ⟨depth + 1, i, args, hi, hdepth, hv⟩

theorem Applies.unique {i : HloInstruction} {args : List (Value V)} {v w : Value V}
    (h : p.Applies I ctx i args v) (h' : p.Applies I ctx i args w) : v = w := by
  unfold Applies at h h'
  split at h
  · rename_i n hop
    simp only [hop] at h'
    obtain ⟨comp, hcomp, hv⟩ := h
    obtain ⟨comp', hcomp', hw⟩ := h'
    rw [hcomp] at hcomp'
    cases hcomp'
    exact hv.unique hw
  · rename_i hop
    have h'' : I.apply ctx i args = some w := by
      split at h'
      · rename_i n hcall
        exact absurd hcall (hop n)
      · exact h'
    rw [h] at h''
    exact Option.some.inj h''

theorem forall₂_unique {ids : List ℕ} {vs ws : List (Value V)} {R : ℕ → Value V → Prop}
    (hunique : ∀ id v w, R id v → R id w → v = w) (hv : List.Forall₂ R ids vs)
    (hw : List.Forall₂ R ids ws) : vs = ws := by
  induction hv generalizing ws with
  | nil =>
    cases hw
    rfl
  | cons ho _ ih =>
    cases hw with
    | cons ho' hrest => rw [hunique _ _ _ ho ho', ih hrest]

theorem Computes.unique {id : ℕ} {v w : Value V} (h : p.Computes I ctx id v)
    (h' : p.Computes I ctx id w) : v = w := by
  obtain ⟨depth, h⟩ := h
  obtain ⟨depth', h'⟩ := h'
  have hmax := h.mono (le_max_left depth depth')
  have hmax' := h'.mono (le_max_right depth depth')
  generalize max depth depth' = d at hmax hmax'
  clear h h'
  induction d generalizing id v w with
  | zero => exact hmax.elim
  | succ d ih =>
    obtain ⟨i, args, hi, hargs, hv⟩ := hmax
    obtain ⟨i', args', hi', hargs', hw⟩ := hmax'
    rw [hi] at hi'
    cases hi'
    have hsame : args = args' := by
      apply forall₂_unique (R := p.ComputesTo I ctx d) _ hargs hargs'
      intro id v w hx hy
      exact ih hx hy
    rw [hsame] at hv
    exact hv.unique hw

end TaskProgram

end MultiMeshJax
