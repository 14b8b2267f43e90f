import MultiMeshJax.Hlo.Program

/-! The values of the instructions of a module whose loops run for given numbers of
iterations. The elements of the tuples of loops have values of their own, so that only what
is read has to have one; the other operations are uninterpreted. -/
namespace MultiMeshJax
namespace HloProgram

variable {V : Type}

/-- What an instruction takes out of a loop or an argument tuple. -/
inductive Element where
  | argument (number k : ℕ)
  | output (loop : HloInstruction) (body k : ℕ)
  | whole

def element (p : HloProgram) (i : HloInstruction) : Option Element :=
  match i.opcode with
  | .getTupleElement k =>
    match i.operands.head?.bind p.instruction with
    | none => none
    | some o =>
      match o.opcode with
      | .parameter number => some (.argument number k)
      | .whileLoop n => some (.output o n k)
      | _ => none
  | .whileLoop _ => some .whole
  | .parameter _ => if i.shape.isTuple then some .whole else none
  | _ => none

def tupleOperand (p : HloProgram) (tuple k : ℕ) : Option ℕ := do
  let i ← p.instruction tuple
  if i.opcode = .tuple then i.operands[k]? else none

/-- The operand of the root tuple of a loop body. -/
def rootOperand (p : HloProgram) (n k : ℕ) : Option ℕ := do
  let body ← p.called[n]?
  p.tupleOperand body.root k

/-- The operand of the input tuple of a loop. -/
def inputOperand (p : HloProgram) (loop : HloInstruction) (k : ℕ) : Option ℕ := do
  let input ← loop.operands.head?
  p.tupleOperand input k

/-- One iteration of a loop body, `eval` being the values for the elements of its argument. -/
def loopStep (p : HloProgram) (n : ℕ) (eval : (ℕ → ℕ → Option V) → ℕ → Option V)
    (state : ℕ → Option V) (k : ℕ) : Option V :=
  (p.rootOperand n k).bind (eval fun _ => state)

def loopInput (p : HloProgram) (loop : HloInstruction) (eval : ℕ → Option V) (k : ℕ) : Option V :=
  (p.inputOperand loop k).bind eval

/-- The values to a depth. `env` has the elements of the arguments, by parameter number. -/
def value (p : HloProgram) (operation : HloInstruction → List V → Option V) (trips : ℕ → ℕ) :
    ℕ → (ℕ → ℕ → Option V) → ℕ → Option V
  | 0, _, _ => none
  | depth + 1, env, id =>
    match p.instruction id with
    | none => none
    | some i =>
      match p.element i with
      | some (.argument number k) => env number k
      | some (.output loop n k) =>
        ((p.loopStep n (value p operation trips depth))^[trips n]
          (p.loopInput loop (value p operation trips depth env))) k
      | some .whole => none
      | none => do
        let args ← i.operands.mapM (value p operation trips depth env)
        operation i args

/-- The operand is one of the instruction's. -/
def HasOperand (p : HloProgram) (id operand : ℕ) : Prop :=
  ∃ i, p.instruction id = some i ∧ operand ∈ i.operands

mutual

/-- The value of the instruction depends on an element of an argument of its computation. -/
inductive Reads (p : HloProgram) (trips : ℕ → ℕ) : ℕ → ℕ → ℕ → Prop
  | argument {id number k : ℕ} {i : HloInstruction} : p.instruction id = some i →
      p.element i = some (.argument number k) → Reads p trips id number k
  | operand {id o number k : ℕ} {i : HloInstruction} : p.instruction id = some i →
      p.element i = none → o ∈ i.operands → Reads p trips o number k → Reads p trips id number k
  | output {id n j l x number k : ℕ} {i loop : HloInstruction} : p.instruction id = some i →
      p.element i = some (.output loop n j) → Carries p trips n (trips n) j l →
      p.inputOperand loop l = some x → Reads p trips x number k → Reads p trips id number k

/-- An output of a loop body depends, after some iterations, on an element of the input. -/
inductive Carries (p : HloProgram) (trips : ℕ → ℕ) : ℕ → ℕ → ℕ → ℕ → Prop
  | zero (n k : ℕ) : Carries p trips n 0 k k
  | succ {n t j k o number l : ℕ} : Carries p trips n t j k → p.rootOperand n k = some o →
      Reads p trips o number l → Carries p trips n (t + 1) j l

end

/-- The operands of an instruction have values, which another evaluation may have too. -/
theorem mapM_mono {f g : ℕ → Option V} {ids : List ℕ} {vs : List V} (h : ids.mapM f = some vs)
    (hfg : ∀ id ∈ ids, ∀ v, f id = some v → g id = some v) : ids.mapM g = some vs := by
  induction ids generalizing vs with
  | nil => exact h
  | cons id ids ih =>
    rw [List.mapM_cons, Option.bind_eq_bind, Option.bind_eq_some_iff] at h ⊢
    obtain ⟨v, hv, h⟩ := h
    obtain ⟨ws, hws, h⟩ := Option.bind_eq_some_iff.mp h
    refine ⟨v, hfg id (by simp) v hv, Option.bind_eq_some_iff.mpr ⟨ws, ?_, h⟩⟩
    exact ih hws fun other hother => hfg other (List.mem_cons_of_mem _ hother)

theorem exists_of_mapM {f : ℕ → Option V} {ids : List ℕ} {vs : List V} (h : ids.mapM f = some vs) :
    ∀ id ∈ ids, ∃ v, f id = some v := by
  induction ids generalizing vs with
  | nil => simp
  | cons id ids ih =>
    rw [List.mapM_cons, Option.bind_eq_bind, Option.bind_eq_some_iff] at h
    obtain ⟨v, hv, h⟩ := h
    obtain ⟨ws, hws, -⟩ := Option.bind_eq_some_iff.mp h
    intro other hother
    rcases List.mem_cons.mp hother with rfl | hother
    · exact ⟨v, hv⟩
    · exact ih hws other hother

/-- An element is taken out of the first operand, which is a parameter or a loop. -/
theorem element_eq_argument {p : HloProgram} {i : HloInstruction} {number k : ℕ}
    (h : p.element i = some (.argument number k)) : i.opcode = .getTupleElement k ∧
      ∃ o param, i.operands.head? = some o ∧ p.instruction o = some param ∧
        param.opcode = .parameter number := by
  unfold element at h
  cases hop : i.opcode <;> simp only [hop] at h
  case getTupleElement k' =>
    cases hhead : i.operands.head? with
    | none => simp [hhead] at h
    | some o =>
      cases hparam : p.instruction o with
      | none => simp [hhead, hparam] at h
      | some param =>
        simp only [hhead, Option.bind_some, hparam] at h
        cases hopcode : param.opcode <;> simp [hopcode] at h
        obtain ⟨rfl, rfl⟩ := h
        exact ⟨rfl, o, param, rfl, hparam, hopcode⟩
  case parameter number' =>
    split at h <;> simp at h
  all_goals simp at h

theorem element_eq_output {p : HloProgram} {i loop : HloInstruction} {n k : ℕ}
    (h : p.element i = some (.output loop n k)) : i.opcode = .getTupleElement k ∧
      ∃ o, i.operands.head? = some o ∧ p.instruction o = some loop ∧
        loop.opcode = .whileLoop n := by
  unfold element at h
  cases hop : i.opcode <;> simp only [hop] at h
  case getTupleElement k' =>
    cases hhead : i.operands.head? with
    | none => simp [hhead] at h
    | some o =>
      cases hloop : p.instruction o with
      | none => simp [hhead, hloop] at h
      | some other =>
        simp only [hhead, Option.bind_some, hloop] at h
        cases hopcode : other.opcode <;> simp [hopcode] at h
        obtain ⟨rfl, rfl, rfl⟩ := h
        exact ⟨rfl, o, rfl, hloop, hopcode⟩
  case parameter number' =>
    split at h <;> simp at h
  all_goals simp at h

theorem tupleOperand_eq_some {p : HloProgram} {tuple k operand : ℕ} :
    p.tupleOperand tuple k = some operand ↔
      ∃ i, p.instruction tuple = some i ∧ i.opcode = .tuple ∧ i.operands[k]? = some operand := by
  unfold tupleOperand
  rw [Option.bind_eq_bind, Option.bind_eq_some_iff]
  apply exists_congr
  intro i
  apply and_congr_right
  intro _
  split
  · rename_i htuple
    simp [htuple]
  · rename_i htuple
    simp [htuple]

/-- What is taken out of a loop depends on the input of the loop. -/
theorem path_inputOperand {p : HloProgram} {id n j l x : ℕ} {i loop : HloInstruction}
    (hi : p.instruction id = some i) (he : p.element i = some (.output loop n j))
    (hx : p.inputOperand loop l = some x) : Relation.ReflTransGen p.HasOperand id x := by
  obtain ⟨-, o, ho, hloop, -⟩ := element_eq_output he
  obtain ⟨tuple, htuple, hx⟩ := Option.bind_eq_some_iff.mp hx
  obtain ⟨t, ht, -, hget⟩ := tupleOperand_eq_some.mp hx
  have hoperand : p.HasOperand id o := ⟨i, hi, List.mem_of_head? ho⟩
  have hinput : p.HasOperand o tuple := ⟨loop, hloop, List.mem_of_head? htuple⟩
  exact .head hoperand (.head hinput (.single ⟨t, ht, List.mem_of_getElem? hget⟩))

/-- An element that is read is an element of an argument below the instruction. -/
theorem Reads.path {p : HloProgram} {trips : ℕ → ℕ} {id number k : ℕ} :
    p.Reads trips id number k → ∃ g i, Relation.ReflTransGen p.HasOperand id g ∧
      p.instruction g = some i ∧ p.element i = some (.argument number k)
  | .argument hi he => ⟨id, _, .refl, hi, he⟩
  | .operand hi _ ho hreads =>
    let ⟨g, j, hpath, hj⟩ := hreads.path
    ⟨g, j, .head ⟨_, hi, ho⟩ hpath, hj⟩
  | .output hi he _ hx hreads =>
    let ⟨g, j, hpath, hj⟩ := hreads.path
    ⟨g, j, (path_inputOperand hi he hx).trans hpath, hj⟩
termination_by structural h => h

end HloProgram

end MultiMeshJax
