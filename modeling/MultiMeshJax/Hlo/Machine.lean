import MultiMeshJax.Hlo.Valuation

/-! What modules compute: loops run the computations that are their bodies, and calls the
computations that they call. -/
namespace MultiMeshJax

/-- What a module is run on: the operations, the number of iterations of each loop body, and the
slice offset of each of its iterations. -/
structure Machine (V : Type) where
  offset : ℤ → V
  operation : HloOpcode → Shape → List (Value V) → Option (Value V)
  trips : ℕ → ℕ
  iterationOffset : ℕ → ℕ → ℤ

/-- The first iterations of a loop, each of which may fail. -/
def iterations {α : Type} (step : ℕ → α → Option α) : ℕ → α → Option α
  | 0, a => some a
  | n + 1, a => (iterations step n a).bind (step n)

variable {V : Type}

/-- A called computation knows its arguments only: the slice offsets stay outside. -/
def argumentContext (args : List (Value V)) : Context V where
  parameter k := args[k]?
  offset := 0

namespace Machine

/-- One iteration: the body takes a tuple and gives one. -/
def bodyStep (M : Machine V) (I : Interpretation V) (depth n : ℕ) (body : HloComputation) (t : ℕ)
    (vs : List (Value V)) : Option (List (Value V)) :=
  match body.run I ⟨fun _ => some (.tuple vs), M.iterationOffset n t⟩ depth with
  | some (.tuple ws) => some ws
  | _ => none

def loopResult (M : Machine V) (I : Interpretation V) (called : List HloComputation) (depth n : ℕ)
    (vs : List (Value V)) : Option (List (Value V)) := do
  let body ← called[n]?
  iterations (M.bodyStep I depth n body) (M.trips n) vs

def callResult (I : Interpretation V) (called : List HloComputation) (depth n : ℕ)
    (args : List (Value V)) : Option (Value V) := do
  let comp ← called[n]?
  comp.run I (argumentContext args) depth

def operationWith (M : Machine V) (call : ℕ → List (Value V) → Option (Value V)) :
    HloOpcode → Shape → List (Value V) → Option (Value V)
  | .call n, _, args => call n args
  | op, shape, args => M.operation op shape args

/-- The computations run to a depth of operands, and of calls and loops inside of each other. -/
def interpretation (M : Machine V) (called : List HloComputation) : ℕ → Interpretation V
  | 0 => ⟨M.offset, fun _ _ => none, M.operationWith fun _ _ => none⟩
  | depth + 1 =>
    let I := interpretation M called depth
    ⟨M.offset, M.loopResult I called depth, M.operationWith (callResult I called depth)⟩

end Machine

namespace Interpretation

/-- What has a result has the same in the second interpretation. -/
structure Kept (I I' : Interpretation V) : Prop where
  offset : I'.offset = I.offset
  loop : ∀ n vs ws, I.loop n vs = some ws → I'.loop n vs = some ws
  operation : ∀ op shape args v, I.operation op shape args = some v →
    I'.operation op shape args = some v

/-- Calls have the results of the computations that they call. -/
def Models (I : Interpretation V) (called : List HloComputation) : Prop :=
  ∀ n comp, called[n]? = some comp → ∀ shape args v,
    comp.Runs I (argumentContext args) v → I.operation (.call n) shape args = some v

variable {I I' I'' : Interpretation V} {ctx : Context V}

theorem Kept.refl (I : Interpretation V) : I.Kept I :=
  ⟨rfl, fun _ _ _ h => h, fun _ _ _ _ h => h⟩

theorem Kept.trans (h : I.Kept I') (h' : I'.Kept I'') : I.Kept I'' where
  offset := h'.offset.trans h.offset
  loop n vs ws hws := h'.loop n vs ws (h.loop n vs ws hws)
  operation op shape args v hv := h'.operation op shape args v (h.operation op shape args v hv)

theorem Kept.apply (h : I.Kept I') {i j : HloInstruction} {args : List (Value V)} {v : Value V}
    (hopcode : j.opcode = i.opcode) (hshape : j.shape = i.shape) (hoffset : j.offset = i.offset)
    (hv : I.apply ctx i args = some v) : I'.apply ctx j args = some v := by
  unfold Interpretation.apply at hv ⊢
  rw [hopcode, hshape, hoffset, h.offset]
  cases hop : i.opcode with
  | whileLoop body =>
    simp only [hop] at hv ⊢
    split at hv
    · rename_i vs
      obtain ⟨ws, hws, hresult⟩ := Option.map_eq_some_iff.mp hv
      rw [h.loop body vs ws hws, Option.map_some, hresult]
    · cases hv
  | customCall target =>
    simp only [hop] at hv ⊢
    split
    · rename_i htarget
      rwa [if_pos htarget] at hv
    · rename_i htarget
      rw [if_neg htarget] at hv
      exact h.operation _ _ _ _ hv
  | parameter _ => simpa only [hop] using hv
  | getTupleElement _ => simpa only [hop] using hv
  | tuple => simpa only [hop] using hv
  | _ =>
    simp only [hop] at hv ⊢
    exact h.operation _ _ _ _ hv

theorem Kept.eval (h : I.Kept I') {c : HloComputation} {depth id : ℕ} {v : Value V}
    (hv : c.eval I ctx depth id = some v) : c.eval I' ctx depth id = some v := by
  induction depth generalizing id v with
  | zero => cases hv
  | succ depth ih =>
    obtain ⟨i, args, hi, hargs, happly⟩ := HloComputation.eval_succ.mp hv
    exact HloComputation.eval_succ.mpr
      ⟨i, args, hi, hargs.imp fun _ _ ho => ih ho, h.apply rfl rfl rfl happly⟩

theorem Kept.run (h : I.Kept I') {c : HloComputation} {depth : ℕ} {v : Value V}
    (hv : c.run I ctx depth = some v) : c.run I' ctx depth = some v := by
  rw [HloComputation.run_eq_some] at hv ⊢
  exact ⟨fun i hi => (hv.1 i hi).imp fun w hw => h.eval hw, h.eval hv.2⟩

theorem Kept.runs (h : I.Kept I') {c : HloComputation} {v : Value V} (hv : c.Runs I ctx v) :
    c.Runs I' ctx v := by
  obtain ⟨depth, hv⟩ := hv
  exact ⟨depth, h.run hv⟩

end Interpretation

theorem iterations_imp {α : Type} {step step' : ℕ → α → Option α}
    (hstep : ∀ t a b, step t a = some b → step' t a = some b) {n : ℕ} {a b : α}
    (h : iterations step n a = some b) : iterations step' n a = some b := by
  induction n generalizing b with
  | zero => exact h
  | succ n ih =>
    obtain ⟨mid, hmid, hb⟩ := Option.bind_eq_some_iff.mp h
    exact Option.bind_eq_some_iff.mpr ⟨mid, ih hmid, hstep n mid b hb⟩

/-- The states between the iterations. -/
theorem exists_states {α : Type} {step : ℕ → α → Option α} {n : ℕ} {a b : α}
    (h : iterations step n a = some b) : ∃ states : ℕ → α, states 0 = a ∧ states n = b ∧
      ∀ t < n, step t (states t) = some (states (t + 1)) := by
  induction n generalizing b with
  | zero => exact ⟨fun _ => a, rfl, Option.some.inj h, fun t ht => by omega⟩
  | succ n ih =>
    obtain ⟨mid, hmid, hb⟩ := Option.bind_eq_some_iff.mp h
    obtain ⟨states, hfirst, hlast, hstep⟩ := ih hmid
    refine ⟨Function.update states (n + 1) b, ?_, Function.update_self _ _ _, ?_⟩
    · rw [Function.update_of_ne (by omega), hfirst]
    · intro t ht
      rw [Function.update_of_ne (by omega)]
      by_cases heq : t = n
      · rw [heq, hlast, hb, Function.update_self]
      · rw [Function.update_of_ne (by omega)]
        exact hstep t (by omega)

/-- Iterations that each have their result from some depth on have it from one depth on. -/
theorem exists_iterations {α : Type} {step : ℕ → α → Option α} {step' : ℕ → ℕ → α → Option α}
    (hmono : ∀ d d', d ≤ d' → ∀ t a b, step' d t a = some b → step' d' t a = some b)
    (hstep : ∀ t a b, step t a = some b → ∃ d, step' d t a = some b) {n : ℕ} {a b : α}
    (h : iterations step n a = some b) : ∃ d, iterations (step' d) n a = some b := by
  induction n generalizing b with
  | zero => exact ⟨0, h⟩
  | succ n ih =>
    obtain ⟨mid, hmid, hb⟩ := Option.bind_eq_some_iff.mp h
    obtain ⟨d, hd⟩ := ih hmid
    obtain ⟨d', hd'⟩ := hstep n mid b hb
    refine ⟨max d d', Option.bind_eq_some_iff.mpr ⟨mid, ?_, ?_⟩⟩
    · exact iterations_imp (hmono d _ (le_max_left d d')) hd
    · exact hmono d' _ (le_max_right d d') n mid b hd'

namespace Machine

open Interpretation

variable {M : Machine V} {called called' : List HloComputation} {I I' : Interpretation V}

theorem bodyStep_eq_some {depth n t : ℕ} {body : HloComputation} {vs ws : List (Value V)} :
    M.bodyStep I depth n body t vs = some ws ↔
      body.run I ⟨fun _ => some (.tuple vs), M.iterationOffset n t⟩ depth = some (.tuple ws) := by
  unfold bodyStep
  split
  · rename_i us hus
    rw [hus]
    simp
  · rename_i hnot
    constructor
    · intro h
      cases h
    · intro h
      exact absurd h (hnot ws)

theorem operationWith_imp {call call' : ℕ → List (Value V) → Option (Value V)}
    (hcall : ∀ n args v, call n args = some v → call' n args = some v) {op : HloOpcode}
    {shape : Shape} {args : List (Value V)} {v : Value V}
    (h : M.operationWith call op shape args = some v) :
    M.operationWith call' op shape args = some v := by
  cases op with
  | call n => exact hcall n args v h
  | _ => exact h

/-- More depth does not change the results. -/
theorem kept_succ (M : Machine V) (called : List HloComputation) (depth : ℕ) :
    (M.interpretation called depth).Kept (M.interpretation called (depth + 1)) := by
  induction depth with
  | zero =>
    refine ⟨rfl, ?_, ?_⟩
    · intro n vs ws h
      cases h
    · intro op shape args v h
      apply operationWith_imp _ h
      intro n args v h
      cases h
  | succ depth ih =>
    refine ⟨rfl, ?_, ?_⟩
    · intro n vs ws h
      obtain ⟨body, hbody, h⟩ := Option.bind_eq_some_iff.mp h
      apply Option.bind_eq_some_iff.mpr ⟨body, hbody, _⟩
      apply iterations_imp _ h
      intro t as bs hstep
      rw [bodyStep_eq_some] at hstep ⊢
      exact HloComputation.run_mono (Nat.le_succ depth) (ih.run hstep)
    · intro op shape args v h
      apply operationWith_imp _ h
      intro n args v h
      obtain ⟨comp, hcomp, h⟩ := Option.bind_eq_some_iff.mp h
      exact Option.bind_eq_some_iff.mpr ⟨comp, hcomp,
        HloComputation.run_mono (Nat.le_succ depth) (ih.run h)⟩

theorem kept_of_le {depth depth' : ℕ} (h : depth ≤ depth') :
    (M.interpretation called depth).Kept (M.interpretation called depth') := by
  induction h with
  | refl => exact .refl _
  | step _ ih => exact ih.trans (kept_succ M called _)

/-- What a module computes to any depth. -/
noncomputable def meaning (M : Machine V) (called : List HloComputation) : Interpretation V where
  offset := M.offset
  loop n vs :=
    open Classical in
    if h : ∃ ws depth, (M.interpretation called depth).loop n vs = some ws then some h.choose
    else none
  operation op shape args :=
    open Classical in
    if h : ∃ v depth, (M.interpretation called depth).operation op shape args = some v then
      some h.choose
    else none

theorem loop_meaning {n : ℕ} {vs ws : List (Value V)} :
    (M.meaning called).loop n vs = some ws ↔
      ∃ depth, (M.interpretation called depth).loop n vs = some ws := by
  unfold meaning
  dsimp only
  constructor
  · intro h
    split at h
    · rename_i hex
      obtain rfl := Option.some.inj h
      exact hex.choose_spec
    · cases h
  · rintro ⟨depth, h⟩
    have hex : ∃ ws depth, (M.interpretation called depth).loop n vs = some ws := ⟨ws, depth, h⟩
    rw [dif_pos hex]
    obtain ⟨depth', h'⟩ := hex.choose_spec
    have hmax := (kept_of_le (le_max_left depth depth')).loop n vs ws h
    rw [(kept_of_le (le_max_right depth depth')).loop n vs _ h'] at hmax
    exact hmax

theorem operation_meaning {op : HloOpcode} {shape : Shape} {args : List (Value V)} {v : Value V} :
    (M.meaning called).operation op shape args = some v ↔
      ∃ depth, (M.interpretation called depth).operation op shape args = some v := by
  unfold meaning
  dsimp only
  constructor
  · intro h
    split at h
    · rename_i hex
      obtain rfl := Option.some.inj h
      exact hex.choose_spec
    · cases h
  · rintro ⟨depth, h⟩
    have hex : ∃ v depth, (M.interpretation called depth).operation op shape args = some v :=
      ⟨v, depth, h⟩
    rw [dif_pos hex]
    obtain ⟨depth', h'⟩ := hex.choose_spec
    have hmax := (kept_of_le (le_max_left depth depth')).operation op shape args v h
    rw [(kept_of_le (le_max_right depth depth')).operation op shape args _ h'] at hmax
    exact hmax

theorem offset_interpretation (depth : ℕ) : (M.interpretation called depth).offset = M.offset := by
  cases depth <;> rfl

theorem kept_meaning (depth : ℕ) : (M.interpretation called depth).Kept (M.meaning called) where
  offset := (offset_interpretation depth).symm
  loop _ _ _ h := loop_meaning.mpr ⟨depth, h⟩
  operation _ _ _ _ h := operation_meaning.mpr ⟨depth, h⟩

/-- An operation that is no call is that of the machine. -/
theorem operation_meaning_of_ne {op : HloOpcode} (hop : ∀ n, op ≠ .call n) {shape : Shape}
    {args : List (Value V)} :
    (M.meaning called).operation op shape args = M.operation op shape args := by
  have hdepth : ∀ depth, (M.interpretation called depth).operation op shape args =
      M.operation op shape args := by
    intro depth
    cases op with
    | call n => exact absurd rfl (hop n)
    | _ => cases depth <;> rfl
  ext v
  rw [operation_meaning]
  constructor
  · rintro ⟨depth, h⟩
    rwa [hdepth] at h
  · intro h
    exact ⟨0, (hdepth 0).trans h⟩

/-- What is computed is computed to some depth. -/
theorem exists_eval {c : HloComputation} {ctx : Context V} {depth id : ℕ} {v : Value V}
    (h : c.eval (M.meaning called) ctx depth id = some v) :
    ∃ nesting, c.eval (M.interpretation called nesting) ctx depth id = some v := by
  induction depth generalizing id v with
  | zero => cases h
  | succ depth ih =>
    obtain ⟨i, args, hi, hargs, happly⟩ := HloComputation.eval_succ.mp h
    obtain ⟨nesting, hnesting⟩ : ∃ nesting, List.Forall₂
        (fun o a => c.eval (M.interpretation called nesting) ctx depth o = some a)
          i.operands args := by
      clear h hi happly
      generalize i.operands = operands at hargs
      induction hargs with
      | nil => exact ⟨0, .nil⟩
      | cons ho _ ihargs =>
        obtain ⟨n, hn⟩ := ih ho
        obtain ⟨n', hn'⟩ := ihargs
        refine ⟨max n n', .cons ((kept_of_le (le_max_left n n')).eval hn) ?_⟩
        exact hn'.imp fun _ _ hv => (kept_of_le (le_max_right n n')).eval hv
    -- the operation itself has its result to some depth
    obtain ⟨nesting', happly'⟩ : ∃ nesting,
        (M.interpretation called nesting).apply ctx i args = some v := by
      unfold Interpretation.apply at happly ⊢
      cases hop : i.opcode with
      | whileLoop body =>
        simp only [hop] at happly ⊢
        split at happly
        · rename_i vs
          obtain ⟨ws, hws, hresult⟩ := Option.map_eq_some_iff.mp happly
          obtain ⟨n, hn⟩ := loop_meaning.mp hws
          exact ⟨n, by rw [hn, Option.map_some, hresult]⟩
        · cases happly
      | customCall target =>
        simp only [hop] at happly ⊢
        split
        · rename_i htarget
          rw [if_pos htarget] at happly
          exact ⟨0, happly⟩
        · rename_i htarget
          rw [if_neg htarget] at happly
          exact operation_meaning.mp happly
      | parameter _ =>
        simp only [hop] at happly ⊢
        exact ⟨0, happly⟩
      | getTupleElement _ =>
        simp only [hop] at happly ⊢
        exact ⟨0, happly⟩
      | tuple =>
        simp only [hop] at happly ⊢
        exact ⟨0, happly⟩
      | _ =>
        simp only [hop] at happly ⊢
        exact operation_meaning.mp happly
    refine ⟨max nesting nesting', HloComputation.eval_succ.mpr ⟨i, args, hi, ?_, ?_⟩⟩
    · exact hnesting.imp fun _ _ hv => (kept_of_le (le_max_left nesting nesting')).eval hv
    · exact (kept_of_le (le_max_right nesting nesting')).apply rfl rfl rfl happly'

theorem exists_run {c : HloComputation} {ctx : Context V} {v : Value V}
    (h : c.Runs (M.meaning called) ctx v) :
    ∃ depth, c.run (M.interpretation called depth) ctx depth = some v := by
  obtain ⟨d, hd⟩ := h
  obtain ⟨hall, hroot⟩ := HloComputation.run_eq_some.mp hd
  obtain ⟨n, hn⟩ : ∃ n, ∀ i ∈ c.instructions, ∃ w,
      c.eval (M.interpretation called n) ctx d i.id = some w := by
    generalize c.instructions = is at hall
    induction is with
    | nil => exact ⟨0, fun i hi => by cases hi⟩
    | cons i is ih =>
      obtain ⟨w, hw⟩ := hall i (List.mem_cons_self ..)
      obtain ⟨n, hn⟩ := exists_eval hw
      obtain ⟨n', hn'⟩ := ih fun j hj => hall j (List.mem_cons_of_mem i hj)
      refine ⟨max n n', ?_⟩
      intro j hj
      rcases List.mem_cons.mp hj with rfl | hj
      · exact ⟨w, (kept_of_le (le_max_left n n')).eval hn⟩
      · exact (hn' j hj).imp fun w hw => (kept_of_le (le_max_right n n')).eval hw
  obtain ⟨n', hn'⟩ := exists_eval hroot
  have hrun : c.run (M.interpretation called (max n n')) ctx d = some v := by
    apply HloComputation.run_eq_some.mpr ⟨_, (kept_of_le (le_max_right n n')).eval hn'⟩
    intro i hi
    exact (hn i hi).imp fun w hw => (kept_of_le (le_max_left n n')).eval hw
  exact ⟨max d (max n n'), HloComputation.run_mono (le_max_left d _)
    ((kept_of_le (le_max_right d _)).run hrun)⟩

/-- Calls have the results of the computations that they call. -/
theorem models_meaning : (M.meaning called).Models called := by
  intro n comp hcomp shape args v hv
  obtain ⟨depth, hdepth⟩ := exists_run hv
  exact operation_meaning.mpr ⟨depth + 1, Option.bind_eq_some_iff.mpr ⟨comp, hcomp, hdepth⟩⟩

/-- Loops have the results of the iterations of their bodies. -/
theorem loop_of_iterations {n : ℕ} {body : HloComputation} (hbody : called[n]? = some body)
    {step : ℕ → List (Value V) → Option (List (Value V))}
    (hstep : ∀ t vs ws, step t vs = some ws → body.Runs (M.meaning called)
      ⟨fun _ => some (.tuple vs), M.iterationOffset n t⟩ (.tuple ws))
    {vs ws : List (Value V)} (h : iterations step (M.trips n) vs = some ws) :
    (M.meaning called).loop n vs = some ws := by
  obtain ⟨depth, hdepth⟩ : ∃ depth, iterations
      (M.bodyStep (M.interpretation called depth) depth n body) (M.trips n) vs = some ws := by
    apply exists_iterations _ _ h
    · intro d d' hle t as bs has
      rw [bodyStep_eq_some] at has ⊢
      exact HloComputation.run_mono hle ((kept_of_le hle).run has)
    · intro t as bs has
      obtain ⟨depth, hdepth⟩ := exists_run (hstep t as bs has)
      exact ⟨depth, bodyStep_eq_some.mpr hdepth⟩
  exact loop_meaning.mpr ⟨depth + 1, Option.bind_eq_some_iff.mpr ⟨body, hbody, hdepth⟩⟩

/-- And the iterations of a loop that has a result run the body, each on what the last one gave. -/
theorem iterations_of_loop {n : ℕ} {vs ws : List (Value V)}
    (h : (M.meaning called).loop n vs = some ws) : ∃ body, called[n]? = some body ∧
      ∃ states : ℕ → List (Value V), states 0 = vs ∧ states (M.trips n) = ws ∧
        ∀ t < M.trips n, body.Runs (M.meaning called)
          ⟨fun _ => some (.tuple (states t)), M.iterationOffset n t⟩ (.tuple (states (t + 1))) := by
  obtain ⟨depth, h⟩ := loop_meaning.mp h
  cases depth with
  | zero => cases h
  | succ depth =>
    obtain ⟨body, hbody, h⟩ := Option.bind_eq_some_iff.mp h
    obtain ⟨states, hfirst, hlast, hstep⟩ := exists_states h
    refine ⟨body, hbody, states, hfirst, hlast, ?_⟩
    intro t ht
    exact (kept_meaning depth).runs ⟨depth, bodyStep_eq_some.mp (hstep t ht)⟩

/-- Each computation gives what it gave, in any interpretation that calls the new ones, where
the operations have a property. -/
def KeepsResults (P : Interpretation V → Prop) (called called' : List HloComputation) : Prop :=
  ∀ (n : ℕ) (comp : HloComputation), called[n]? = some comp → ∃ comp', called'[n]? = some comp' ∧
    ∀ I I', P I → P I' → I.Kept I' → I'.Models called' → ∀ ctx v,
      comp.Runs I ctx v → comp'.Runs I' ctx v

theorem KeepsResults.refl (P : Interpretation V → Prop) (called : List HloComputation) :
    KeepsResults P called called :=
  fun _ comp hcomp => ⟨comp, hcomp, fun _ _ _ _ hI _ _ _ hv => hI.runs hv⟩

theorem KeepsResults.models {P : Interpretation V → Prop} (h : KeepsResults P called called')
    (hP : P I) (hI : I.Models called') : I.Models called := by
  intro n comp hcomp shape args v hv
  obtain ⟨comp', hcomp', hkeeps⟩ := h n comp hcomp
  exact hI n comp' hcomp' shape args v (hkeeps I I hP hP (.refl I) hI _ v hv)

theorem KeepsResults.trans {P : Interpretation V → Prop} {called'' : List HloComputation}
    (h : KeepsResults P called called') (h' : KeepsResults P called' called'') :
    KeepsResults P called called'' := by
  intro n comp hcomp
  obtain ⟨comp', hcomp', hkeeps⟩ := h n comp hcomp
  obtain ⟨comp'', hcomp'', hkeeps'⟩ := h' n comp' hcomp'
  refine ⟨comp'', hcomp'', ?_⟩
  intro I I' hP hP' hI hmodels ctx v hv
  have hmid := hkeeps I I' hP hP' hI (h'.models hP' hmodels) ctx v hv
  exact hkeeps' I' I' hP' hP' (.refl I') hmodels ctx v hmid

/-- The whole module then has the same meaning. -/
theorem KeepsResults.kept {P : Interpretation V → Prop} (h : KeepsResults P called called')
    (hP : ∀ depth, P (M.interpretation called depth)) (hP' : P (M.meaning called')) :
    (M.meaning called).Kept (M.meaning called') := by
  have hdepth : ∀ depth, (M.interpretation called depth).Kept (M.meaning called') := by
    intro depth
    induction depth with
    | zero =>
      refine ⟨rfl, ?_, ?_⟩
      · intro n vs ws hws
        cases hws
      · intro op shape args v hv
        apply operation_meaning.mpr ⟨0, _⟩
        apply operationWith_imp _ hv
        intro n args v hv
        cases hv
    | succ depth ih =>
      refine ⟨rfl, ?_, ?_⟩
      · intro n vs ws hws
        obtain ⟨body, hbody, hws⟩ := Option.bind_eq_some_iff.mp hws
        obtain ⟨body', hbody', hkeeps⟩ := h n body hbody
        apply loop_of_iterations hbody' _ hws
        intro t as bs hstep
        rw [bodyStep_eq_some] at hstep
        exact hkeeps _ _ (hP depth) hP' ih models_meaning _ _ ⟨depth, hstep⟩
      · intro op shape args v hv
        cases hop : op with
        | call n =>
          rw [hop] at hv
          obtain ⟨comp, hcomp, hv⟩ := Option.bind_eq_some_iff.mp hv
          obtain ⟨comp', hcomp', hkeeps⟩ := h n comp hcomp
          exact models_meaning n comp' hcomp' shape args v
            (hkeeps _ _ (hP depth) hP' ih models_meaning _ _ ⟨depth, hv⟩)
        | _ =>
          rw [hop] at hv
          rw [operation_meaning_of_ne (by simp)]
          exact hv
  refine ⟨rfl, ?_, ?_⟩
  · intro n vs ws hws
    obtain ⟨depth, hws⟩ := loop_meaning.mp hws
    exact (hdepth depth).loop n vs ws hws
  · intro op shape args v hv
    obtain ⟨depth, hv⟩ := operation_meaning.mp hv
    exact (hdepth depth).operation op shape args v hv

end Machine

/-- Marks hand their operand through. -/
def RecolorIsIdentity (operation : HloOpcode → Shape → List (Value V) → Option (Value V)) : Prop :=
  ∀ shape v vs, operation (.customCall kCustomCallArgumentRecolor) shape (v :: vs) = some v

section recolor

variable {M : Machine V}

theorem recolorIsIdentity_interpretation (hidentity : RecolorIsIdentity M.operation)
    (called : List HloComputation) (depth : ℕ) :
    RecolorIsIdentity (M.interpretation called depth).operation := by
  intro shape v vs
  cases depth <;> exact hidentity shape v vs

theorem recolorIsIdentity_meaning (hidentity : RecolorIsIdentity M.operation)
    (called : List HloComputation) : RecolorIsIdentity (M.meaning called).operation := by
  intro shape v vs
  rw [Machine.operation_meaning_of_ne (by simp)]
  exact hidentity shape v vs

end recolor

end MultiMeshJax
