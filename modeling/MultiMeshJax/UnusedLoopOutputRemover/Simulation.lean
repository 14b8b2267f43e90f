import MultiMeshJax.Hlo.Dataflow
import MultiMeshJax.UnusedLoopOutputRemover.Pruned

/-! A pruned loop has the values of the original one, as far as they are read. -/
namespace MultiMeshJax
namespace UnusedLoopOutputRemover

/-- A loop whose input and root are tuples of its own that do not depend on it, and whose
body reads its argument and whose users read its outputs element by element. -/
structure LoopSite (p : HloProgram) (loop tuple root param : HloInstruction) (n : ℕ)
    (body : HloComputation) : Prop where
  loop_mem : p.instruction loop.id = some loop
  loop_opcode : loop.opcode = .whileLoop n
  loop_operands : loop.operands = [tuple.id]
  only_loop : ∀ i ∈ p.instructions, i.opcode = .whileLoop n → i = loop
  loop_users : ∀ i ∈ p.instructions, loop.id ∈ i.operands → i.isGetTupleElement = true
  tuple_mem : p.instruction tuple.id = some tuple
  tuple_opcode : tuple.opcode = .tuple
  tuple_users : ∀ i ∈ p.instructions, tuple.id ∈ i.operands → i = loop
  tuple_operands : ∀ o ∈ tuple.operands, (p.instruction o).isSome
  body_eq : p.called[n]? = some body
  root_eq : body.root = root.id
  root_mem : root ∈ body.instructions
  root_opcode : root.opcode = .tuple
  root_users : ∀ i ∈ p.instructions, root.id ∉ i.operands
  root_only : ∀ (m : ℕ) c, p.called[m]? = some c → c.root = root.id → m = n
  tuple_no_root : ∀ c ∈ p.computations, c.root ≠ tuple.id
  entry_root : p.entry.root ≠ root.id
  length : tuple.operands.length ≤ root.operands.length
  body_closed : ∀ i ∈ body.instructions, ∀ o ∈ i.operands, o ∈ body.ids
  parameters : body.parameterInstructions = [param]
  param_users : ∀ i ∈ p.instructions, param.id ∈ i.operands → i.isGetTupleElement = true
  gte_operands : ∀ i ∈ p.instructions, i.isGetTupleElement = true →
    ∃ o, i.operands = [o] ∧ (p.instruction o).isSome
  tuple_acyclic : ¬ Relation.ReflTransGen p.HasOperand tuple.id loop.id
  root_acyclic : ¬ Relation.ReflTransGen p.HasOperand root.id loop.id

/-- The indices that are read `d` iterations before the end by the outputs that are used. -/
def CarriedTo (p : HloProgram) (trips : ℕ → ℕ) (n : ℕ) (used : ℕ → Prop) (d k : ℕ) : Prop :=
  ∃ j, used j ∧ p.Carries trips n d j k

section simulation

variable {V : Type} {p q : HloProgram} {loop tuple root param : HloInstruction} {n nextId : ℕ}
  {body : HloComputation} {keptInput keptOutput used : ℕ → Prop}

/-- An instruction of both modules whose operands are the same. -/
def Kept (p q : HloProgram) (tuple root id : ℕ) : Prop :=
  (p.instruction id).isSome ∧ (q.instruction id).isSome ∧ id ≠ tuple ∧ id ≠ root

variable (hsite : LoopSite p loop tuple root param n body)
  (hq : Pruned p q nextId tuple.id root.id keptInput keptOutput)
  (hp : ∀ id i, p.instruction id = some i → id < nextId)

include hp hq in
theorem instruction_of_kept {id : ℕ} (h : Kept p q tuple.id root.id id) :
    q.instruction id = p.instruction id := by
  obtain ⟨hold, hnew, hne, hne'⟩ := h
  obtain ⟨i, hi⟩ := Option.isSome_iff_exists.mp hnew
  obtain ⟨j, hj⟩ := Option.isSome_iff_exists.mp hold
  obtain ⟨i₀, hi₀, hedited⟩ := hq.old id i hi (hp id j hj)
  obtain ⟨-, rfl⟩ := HloProgram.instruction_eq_some.mp hi₀
  rw [hi, hi₀, hedited.same, hedited.other hne hne']

include hsite hq in
/-- An operand of an instruction that is kept, the loop apart, is kept. -/
theorem kept_operand {id o : ℕ} {i : HloInstruction} (hi : p.instruction id = some i)
    (hi' : q.instruction id = some i) (ho : o ∈ i.operands) (hold : (p.instruction o).isSome)
    (hloop : i ≠ loop) : Kept p q tuple.id root.id o := by
  have hmem := (HloProgram.instruction_eq_some.mp hi).1
  refine ⟨hold, hq.closed id i o hi' ho hold, ?_, ?_⟩
  · rintro rfl
    exact hloop (hsite.tuple_users i hmem ho)
  · rintro rfl
    exact hsite.root_users i hmem ho

include hq in
theorem called_of_pruned {m : ℕ} {c : HloComputation} (hc : p.called[m]? = some c) :
    ∃ c', q.called[m]? = some c' ∧ c'.root = c.root := by
  have hroots : q.called.map HloComputation.root = p.called.map HloComputation.root :=
    (List.cons.inj hq.roots).2
  have hget : (q.called.map HloComputation.root)[m]? = some c.root := by
    rw [hroots, List.getElem?_map, hc, Option.map_some]
  rw [List.getElem?_map, Option.map_eq_some_iff] at hget
  exact hget

include hsite hq hp in
/-- A tuple of which nothing was replaced. -/
theorem tupleOperand_of_kept {t k o : ℕ} (hkept : Kept p q tuple.id root.id t)
    (h : p.tupleOperand t k = some o) (ho : (p.instruction o).isSome) :
    q.tupleOperand t k = some o ∧ Kept p q tuple.id root.id o := by
  obtain ⟨i, hi, htuple, hget⟩ := HloProgram.tupleOperand_eq_some.mp h
  have hi' : q.instruction t = some i := (instruction_of_kept hq hp hkept).trans hi
  refine ⟨HloProgram.tupleOperand_eq_some.mpr ⟨i, hi', htuple, hget⟩, ?_⟩
  apply kept_operand hsite hq hi hi' (List.mem_of_getElem? hget) ho
  rintro rfl
  rw [hsite.loop_opcode] at htuple
  cases htuple

include hsite hq hp in
theorem rootOperand_of_ne {m k o : ℕ} (hne : m ≠ n) (h : p.rootOperand m k = some o)
    (ho : (p.instruction o).isSome) :
    q.rootOperand m k = some o ∧ Kept p q tuple.id root.id o := by
  obtain ⟨c, hc, h⟩ := Option.bind_eq_some_iff.mp h
  obtain ⟨c', hc', hroot⟩ := called_of_pruned hq hc
  obtain ⟨i, hi, -, -⟩ := HloProgram.tupleOperand_eq_some.mp h
  have hsome : (p.instruction c.root).isSome := Option.isSome_iff_exists.mpr ⟨i, hi⟩
  have hmem : c ∈ p.computations := List.mem_cons_of_mem _ (List.mem_of_getElem? hc)
  have hkept : Kept p q tuple.id root.id c.root := ⟨hsome, hq.rootPresent c hmem hsome,
    hsite.tuple_no_root c hmem, fun heq => hne (hsite.root_only m c hc heq)⟩
  obtain ⟨htuple, hoperand⟩ := tupleOperand_of_kept hsite hq hp hkept h ho
  refine ⟨?_, hoperand⟩
  rw [HloProgram.rootOperand, hc']
  show q.tupleOperand c'.root k = some o
  rw [hroot, htuple]

include hsite in
theorem root_instruction : p.instruction root.id = some root :=
  HloProgram.instruction_of_mem (HloProgram.mem_instructions
    (List.mem_cons_of_mem _ (List.mem_of_getElem? hsite.body_eq)) hsite.root_mem)

include hsite in
theorem rootOperand_eq (k : ℕ) : p.rootOperand n k = root.operands[k]? := by
  rw [HloProgram.rootOperand, hsite.body_eq]
  show p.tupleOperand body.root k = _
  rw [hsite.root_eq, HloProgram.tupleOperand, root_instruction hsite]
  show (if root.opcode = .tuple then root.operands[k]? else none) = _
  rw [if_pos hsite.root_opcode]

include hsite in
theorem inputOperand_eq (k : ℕ) : p.inputOperand loop k = tuple.operands[k]? := by
  rw [HloProgram.inputOperand, hsite.loop_operands]
  show p.tupleOperand tuple.id k = _
  rw [HloProgram.tupleOperand, hsite.tuple_mem]
  show (if tuple.opcode = .tuple then tuple.operands[k]? else none) = _
  rw [if_pos hsite.tuple_opcode]

include hsite hq hp in
/-- The root of the body has the operands that are kept. -/
theorem rootOperand_of_kept {k o : ℕ} (hk : keptOutput k) (h : p.rootOperand n k = some o)
    (ho : (p.instruction o).isSome) :
    q.rootOperand n k = some o ∧ Kept p q tuple.id root.id o := by
  rw [rootOperand_eq hsite] at h
  have hmem := List.mem_of_getElem? hsite.body_eq
  have hroot := root_instruction hsite
  have hpresent := hq.rootPresent body (List.mem_cons_of_mem _ hmem)
    (Option.isSome_iff_exists.mpr ⟨root, hsite.root_eq ▸ hroot⟩)
  rw [hsite.root_eq] at hpresent
  obtain ⟨i, hi⟩ := Option.isSome_iff_exists.mp hpresent
  obtain ⟨i₀, hi₀, hedited⟩ := hq.old _ i hi (hp _ _ hroot)
  obtain rfl : root = i₀ := Option.some.inj (hroot.symm.trans hi₀)
  have hget : i.operands[k]? = some o := (hedited.output rfl k hk).trans h
  have htuple : i.opcode = .tuple := by rw [hedited.same]; exact hsite.root_opcode
  obtain ⟨c', hc', hc'root⟩ := called_of_pruned hq hsite.body_eq
  have hrootMem := (HloProgram.instruction_eq_some.mp hroot).1
  constructor
  · rw [HloProgram.rootOperand, hc']
    show q.tupleOperand c'.root k = some o
    rw [hc'root, hsite.root_eq]
    exact HloProgram.tupleOperand_eq_some.mpr ⟨i, hi, htuple, hget⟩
  · refine ⟨ho, hq.closed _ i o hi (List.mem_of_getElem? hget) ho, ?_, ?_⟩
    · rintro rfl
      have hloop := hsite.tuple_users root hrootMem (List.mem_of_getElem? h)
      have hopcode := hsite.root_opcode
      rw [hloop, hsite.loop_opcode] at hopcode
      cases hopcode
    · rintro rfl
      exact hsite.root_users root hrootMem (List.mem_of_getElem? h)

include hsite hq hp in
/-- The input tuple of the loop has the operands that are kept. -/
theorem inputOperand_of_kept {k o : ℕ} (hk : keptInput k) (hloop : q.instruction loop.id = some loop)
    (h : p.inputOperand loop k = some o) (ho : (p.instruction o).isSome) :
    q.inputOperand loop k = some o ∧ Kept p q tuple.id root.id o := by
  rw [inputOperand_eq hsite] at h
  have hsome : (p.instruction tuple.id).isSome :=
    Option.isSome_iff_exists.mpr ⟨tuple, hsite.tuple_mem⟩
  have hpresent := hq.closed loop.id loop tuple.id hloop (by simp [hsite.loop_operands]) hsome
  obtain ⟨i, hi⟩ := Option.isSome_iff_exists.mp hpresent
  obtain ⟨i₀, hi₀, hedited⟩ := hq.old _ i hi (hp _ _ hsite.tuple_mem)
  obtain rfl : tuple = i₀ := Option.some.inj (hsite.tuple_mem.symm.trans hi₀)
  have hget : i.operands[k]? = some o := (hedited.input rfl k hk).trans h
  have htuple : i.opcode = .tuple := by rw [hedited.same]; exact hsite.tuple_opcode
  have htupleMem := (HloProgram.instruction_eq_some.mp hsite.tuple_mem).1
  constructor
  · rw [HloProgram.inputOperand, hsite.loop_operands]
    exact HloProgram.tupleOperand_eq_some.mpr ⟨i, hi, htuple, hget⟩
  · refine ⟨ho, hq.closed _ i o hi (List.mem_of_getElem? hget) ho, ?_, ?_⟩
    · rintro rfl
      have hloop := hsite.tuple_users tuple htupleMem (List.mem_of_getElem? h)
      have hopcode := hsite.tuple_opcode
      rw [hloop, hsite.loop_opcode] at hopcode
      cases hopcode
    · rintro rfl
      exact hsite.root_users tuple htupleMem (List.mem_of_getElem? h)

include hsite hq hp in
/-- The input tuples of the other loops have all their operands. -/
theorem inputOperand_of_ne {k o id : ℕ} {other : HloInstruction} (hne : other ≠ loop)
    (hother : p.instruction id = some other) (hother' : q.instruction id = some other)
    (h : p.inputOperand other k = some o) (ho : (p.instruction o).isSome) :
    q.inputOperand other k = some o ∧ Kept p q tuple.id root.id o := by
  obtain ⟨t, ht, h⟩ := Option.bind_eq_some_iff.mp h
  obtain ⟨i, hi, -, -⟩ := HloProgram.tupleOperand_eq_some.mp h
  have hkept : Kept p q tuple.id root.id t := kept_operand hsite hq hother hother'
    (List.mem_of_head? ht) (Option.isSome_iff_exists.mpr ⟨i, hi⟩) hne
  obtain ⟨htuple, hoperand⟩ := tupleOperand_of_kept hsite hq hp hkept h ho
  refine ⟨?_, hoperand⟩
  rw [HloProgram.inputOperand, ht]
  exact htuple

/-- The element that an instruction takes, when its first operand is there. -/
theorem element_of_kept (hsite : LoopSite p loop tuple root param n body)
    (hq : Pruned p q nextId tuple.id root.id keptInput keptOutput)
    (hp : ∀ id i, p.instruction id = some i → id < nextId) {id : ℕ} {i : HloInstruction}
    (hi : p.instruction id = some i) (hi' : q.instruction id = some i)
    (hhead : ∀ o, i.operands.head? = some o → (p.instruction o).isSome) :
    q.element i = p.element i := by
  unfold HloProgram.element
  cases hop : i.opcode <;> try rfl
  rename_i k
  have hlookup : i.operands.head?.bind q.instruction = i.operands.head?.bind p.instruction := by
    cases hoperand : i.operands.head? with
    | none => rfl
    | some o =>
      have hloop : i ≠ loop := by
        rintro rfl
        rw [hsite.loop_opcode] at hop
        cases hop
      have hkept := kept_operand hsite hq hi hi' (List.mem_of_head? hoperand) (hhead o hoperand) hloop
      exact instruction_of_kept hq hp hkept
  simp only [hlookup]

section values

variable {operation : HloInstruction → List V → Option V} {trips : ℕ → ℕ}

/-- The second module has the value wherever the first one has it. -/
def SameValue (p q : HloProgram) (operation : HloInstruction → List V → Option V)
    (trips : ℕ → ℕ) (tuple root depth : ℕ) : Prop :=
  ∀ (env env' : ℕ → ℕ → Option V) id v, Kept p q tuple root id →
    (∀ number k, p.Reads trips id number k → ∀ w, env number k = some w →
      env' number k = some w) →
    p.value operation trips depth env id = some v → q.value operation trips depth env' id = some v

theorem isSome_of_value {depth id : ℕ} {env : ℕ → ℕ → Option V} {v : V}
    (h : p.value operation trips depth env id = some v) : (p.instruction id).isSome := by
  cases depth with
  | zero => cases h
  | succ depth =>
    rw [HloProgram.value] at h
    cases hi : p.instruction id with
    | none => simp [hi] at h
    | some i => rfl

/-- The states of a loop, as far as one of its outputs depends on them. -/
theorem iterate_of_carries {depth m j : ℕ}
    (hroot : ∀ d k o, d < trips m → p.Carries trips m d j k → p.rootOperand m k = some o →
      (p.instruction o).isSome → q.rootOperand m k = some o ∧ Kept p q tuple.id root.id o)
    (hvalue : SameValue p q operation trips tuple.id root.id depth) {state state' : ℕ → Option V}
    (hstate : ∀ k w, p.Carries trips m (trips m) j k → state k = some w → state' k = some w)
    (t d : ℕ) (htrips : t + d = trips m) (k : ℕ) (w : V) (hk : p.Carries trips m d j k)
    (h : (p.loopStep m (p.value operation trips depth))^[t] state k = some w) :
    (q.loopStep m (q.value operation trips depth))^[t] state' k = some w := by
  induction t generalizing d k w with
  | zero =>
    obtain rfl : d = trips m := by omega
    exact hstate k w hk h
  | succ t ih =>
    rw [Function.iterate_succ_apply'] at h ⊢
    obtain ⟨o, ho, hv⟩ := Option.bind_eq_some_iff.mp h
    obtain ⟨ho', hkept⟩ := hroot d k o (by omega) hk ho (isSome_of_value hv)
    refine Option.bind_eq_some_iff.mpr ⟨o, ho', ?_⟩
    apply hvalue _ _ o w hkept ?_ hv
    intro number l hreads u hu
    exact ih (d + 1) (by omega) l u (hk.succ ho hreads) hu

/-- The first operand of an instruction that has a value is there. -/
theorem head_isSome_of_value {depth id o : ℕ} {env : ℕ → ℕ → Option V} {v : V} {i : HloInstruction}
    (hi : p.instruction id = some i) (ho : i.operands.head? = some o)
    (h : p.value operation trips (depth + 1) env id = some v) : (p.instruction o).isSome := by
  rw [HloProgram.value, hi] at h
  cases he : p.element i with
  | none =>
    simp only [he] at h
    obtain ⟨args, hargs, -⟩ := Option.bind_eq_some_iff.mp h
    obtain ⟨w, hw⟩ := HloProgram.exists_of_mapM hargs o (List.mem_of_head? ho)
    exact isSome_of_value hw
  | some e =>
    cases e with
    | argument number k =>
      obtain ⟨-, o', param, ho', hparam, -⟩ := HloProgram.element_eq_argument he
      obtain rfl : o = o' := Option.some.inj (ho.symm.trans ho')
      exact Option.isSome_iff_exists.mpr ⟨param, hparam⟩
    | output other m k =>
      obtain ⟨-, o', ho', hother, -⟩ := HloProgram.element_eq_output he
      obtain rfl : o = o' := Option.some.inj (ho.symm.trans ho')
      exact Option.isSome_iff_exists.mpr ⟨other, hother⟩
    | whole =>
      simp only [he] at h
      cases h

/-- The values of the instructions that are kept do not change. -/
theorem sameValue (hsite : LoopSite p loop tuple root param n body)
    (hq : Pruned p q nextId tuple.id root.id keptInput keptOutput)
    (hp : ∀ id i, p.instruction id = some i → id < nextId)
    (hused : ∀ i ∈ p.instructions, ∀ k, i.opcode = .getTupleElement k →
      i.operands.head? = some loop.id → used k)
    (hinput : ∀ k, CarriedTo p trips n used (trips n) k → keptInput k)
    (hkeep : ∀ d k, d < trips n → CarriedTo p trips n used d k → keptOutput k) (depth : ℕ) :
    SameValue p q operation trips tuple.id root.id depth := by
  induction depth with
  | zero =>
    intro env env' id v _ _ h
    cases h
  | succ depth ih =>
    intro env env' id v hkept henv h
    obtain ⟨i, hi⟩ := Option.isSome_iff_exists.mp hkept.1
    have hi' : q.instruction id = some i := (instruction_of_kept hq hp hkept).trans hi
    have hmem := (HloProgram.instruction_eq_some.mp hi).1
    have hhead : ∀ o, i.operands.head? = some o → (p.instruction o).isSome :=
      fun o ho => head_isSome_of_value hi ho h
    have helement := element_of_kept hsite hq hp hi hi' hhead
    rw [HloProgram.value, hi] at h
    rw [HloProgram.value, hi']
    simp only [helement]
    have hloop : p.element i ≠ some .whole → i ≠ loop := by
      rintro hne rfl
      apply hne
      rw [HloProgram.element, hsite.loop_opcode]
    cases he : p.element i with
    | none =>
      simp only [he] at h ⊢
      obtain ⟨args, hargs, h⟩ := Option.bind_eq_some_iff.mp h
      refine Option.bind_eq_some_iff.mpr ⟨args, HloProgram.mapM_mono hargs ?_, h⟩
      intro o ho w hw
      have hkept' := kept_operand hsite hq hi hi' ho (isSome_of_value hw) (hloop (by simp [he]))
      apply ih env env' o w hkept' ?_ hw
      intro number k hreads
      exact henv number k (.operand hi he ho hreads)
    | some e =>
      cases e with
      | argument number k =>
        simp only [he] at h ⊢
        exact henv number k (.argument hi he) v h
      | whole =>
        simp only [he] at h
        cases h
      | output other m k =>
        simp only [he] at h ⊢
        obtain ⟨hopcode, o, ho, hother, hm⟩ := HloProgram.element_eq_output he
        have hkept' := kept_operand hsite hq hi hi' (List.mem_of_head? ho) (hhead o ho)
          (hloop (by simp [he]))
        have hother' : q.instruction o = some other :=
          (instruction_of_kept hq hp hkept').trans hother
        have hid := (HloProgram.instruction_eq_some.mp hother).2
        -- the input of the loop is the same wherever the output depends on it
        have hstate : (∀ l x, p.Carries trips m (trips m) k l → p.inputOperand other l = some x →
              (p.instruction x).isSome →
              q.inputOperand other l = some x ∧ Kept p q tuple.id root.id x) →
            ∀ l w, p.Carries trips m (trips m) k l →
              p.loopInput other (p.value operation trips depth env) l = some w →
              q.loopInput other (q.value operation trips depth env') l = some w := by
          intro hsame l w hl hw
          obtain ⟨x, hx, hw⟩ := Option.bind_eq_some_iff.mp hw
          obtain ⟨hx', hkeptx⟩ := hsame l x hl hx (isSome_of_value hw)
          refine Option.bind_eq_some_iff.mpr ⟨x, hx', ?_⟩
          apply ih env env' x w hkeptx ?_ hw
          intro number a hreads
          exact henv number a (.output hi he hl hx hreads)
        have hzero : p.Carries trips m 0 k k := .zero m k
        by_cases hbody : m = n
        · subst hbody
          obtain rfl : other = loop :=
            hsite.only_loop other (HloProgram.instruction_eq_some.mp hother).1 hm
          have hk : used k := hused i hmem k hopcode (hid ▸ ho)
          refine iterate_of_carries ?_ ih (hstate ?_) (trips m) 0 rfl k v hzero h
          · intro d j x hd hj hx
            exact rootOperand_of_kept hsite hq hp (hkeep d j hd ⟨k, hk, hj⟩) hx
          · intro j x hj hx
            exact inputOperand_of_kept hsite hq hp (hinput j ⟨k, hk, hj⟩) (hid ▸ hother') hx
        · have hne : other ≠ loop := by
            rintro rfl
            exact hbody (HloOpcode.whileLoop.inj (hm.symm.trans hsite.loop_opcode))
          refine iterate_of_carries ?_ ih (hstate ?_) (trips m) 0 rfl k v hzero h
          · intro d j x hd hj hx
            exact rootOperand_of_ne hsite hq hp hbody hx
          · intro j x hj hx
            exact inputOperand_of_ne hsite hq hp hne hother hother' hx

end values

end simulation

end UnusedLoopOutputRemover
end MultiMeshJax
