import MultiMeshJax.UnusedLoopOutputRemover.Removal

/-! The visit of one loop, phase by phase. -/
namespace MultiMeshJax
namespace UnusedLoopOutputRemover

open StatusOr

/-- The outputs of a loop that its users take. -/
def UsedOutput (p : HloProgram) (loop k : ℕ) : Prop :=
  ∃ i ∈ p.users loop, i.opcode = .getTupleElement k

/-- An element of an argument tuple. -/
def RepeatedUse (p : HloProgram) (i : HloInstruction) : Prop :=
  i.isGetTupleElement = true ∧
    ∃ o param, i.operands.head? = some o ∧ p.instruction o = some param ∧ param.isParameter = true

/-- An output of a barrier is the first one, of a barrier whose operand is no such element. -/
def BarrierInRange (p : HloProgram) (i : HloInstruction) : Prop :=
  ∀ k o barrier, i.opcode = .getTupleElement k → i.operands.head? = some o →
    p.instruction o = some barrier → barrier.opcode = .optimizationBarrier →
      k = 0 ∧ ∃ x y, barrier.operands.head? = some x ∧ p.instruction x = some y ∧
        y.isGetTupleElement = false

/-- The outputs that the pass leaves alone. -/
def KeptOutput (p : HloProgram) (loop tuple root : HloInstruction) (k : ℕ) : Prop :=
  UsedOutput p loop.id k ∨ tuple.operands.length ≤ k ∨
    ∃ o i, root.operands[k]? = some o ∧ p.instruction o = some i ∧ i.color.isSome = true ∧
      RepeatedUse p i

theorem dealias_of_not_gte {p : HloProgram} {i : HloInstruction} (fuel : ℕ)
    (h : i.isGetTupleElement = false) : dealias p (fuel + 1) i = ok i := by
  unfold dealias
  unfold HloInstruction.isGetTupleElement at h
  cases hop : i.opcode <;> simp [hop] at h ⊢

theorem isRepeatedUseParameter_eq_ok {p : HloProgram} {i : HloInstruction} (hi : i ∈ p.instructions)
    (hoperand : i.isGetTupleElement = true → ∃ o, i.operands = [o] ∧ (p.instruction o).isSome)
    (hbarrier : BarrierInRange p i) :
    ∃ b, isRepeatedUseParameter p i = ok b ∧ (b = true ↔ RepeatedUse p i) := by
  obtain ⟨fuel, hfuel⟩ : ∃ fuel, p.instructions.length = fuel + 1 :=
    Nat.exists_eq_succ_of_ne_zero (List.length_pos_of_mem hi).ne'
  unfold isRepeatedUseParameter
  rw [hfuel]
  cases hgte : i.isGetTupleElement with
  | false =>
    refine ⟨false, ?_, by simp [RepeatedUse, hgte]⟩
    rw [dealias_of_not_gte _ hgte, ok_bind]
    unfold HloInstruction.isGetTupleElement at hgte
    cases hop : i.opcode <;> simp [hop] at hgte ⊢
  | true =>
    obtain ⟨o, ho, hsome⟩ := hoperand hgte
    obtain ⟨oi, hoi⟩ := Option.isSome_iff_exists.mp hsome
    have hhead : i.operands.head? = some o := by rw [ho]; rfl
    have hget : elementAt i.operands 0 = ok o := by rw [ho]; rfl
    have hinstruction : getInstruction p o = ok oi := deref_eq_ok.mpr hoi
    obtain ⟨k, hk⟩ : ∃ k, i.opcode = .getTupleElement k := by
      unfold HloInstruction.isGetTupleElement at hgte
      cases hop : i.opcode <;> simp [hop] at hgte ⊢
    by_cases hopcode : oi.opcode = .optimizationBarrier
    · obtain ⟨rfl, x, y, hx, hy, hy'⟩ := hbarrier k o oi hk hhead hoi hopcode
      have hfirst : elementAt oi.operands 0 = ok x := by
        rw [elementAt_eq_ok, ← List.head?_eq_getElem?]
        exact hx
      have hnext : getInstruction p x = ok y := deref_eq_ok.mpr hy
      refine ⟨false, ?_, ?_⟩
      · rw [dealias, hk]
        dsimp only
        rw [hget, ok_bind, hinstruction, ok_bind, if_pos hopcode, hfirst, ok_bind, hnext, ok_bind,
          dealias_of_not_gte _ hy', ok_bind]
        unfold HloInstruction.isGetTupleElement at hy'
        cases hop : y.opcode <;> simp [hop] at hy' ⊢
      · simp only [Bool.false_eq_true, false_iff]
        rintro ⟨-, o', param, ho', hparam, hparam'⟩
        obtain rfl : o = o' := Option.some.inj (hhead.symm.trans ho')
        obtain rfl : oi = param := Option.some.inj (hoi.symm.trans hparam)
        rw [HloInstruction.isParameter, hopcode] at hparam'
        cases hparam'
    · refine ⟨oi.isParameter, ?_, ?_⟩
      · rw [dealias, hk]
        dsimp only
        rw [hget, ok_bind, hinstruction, ok_bind, if_neg hopcode, pure_eq, ok_bind, hk]
        dsimp only
        rw [hget, ok_bind, hinstruction, ok_bind, pure_eq]
      · constructor
        · intro hparam
          exact ⟨hgte, o, oi, hhead, hoi, hparam⟩
        · rintro ⟨-, o', param, ho', hparam, hparam'⟩
          obtain rfl : o = o' := Option.some.inj (hhead.symm.trans ho')
          obtain rfl : oi = param := Option.some.inj (hoi.symm.trans hparam)
          exact hparam'

section phases

variable {p : HloProgram} {loop tuple root param : HloInstruction} {n nextId : ℕ}
  {body : HloComputation} {keptInput keptOutput : ℕ → Prop} {st : ProgramState} {lib : Library}
  (hsite : LoopSite p loop tuple root param n body)
  (hp : ∀ id i, p.instruction id = some i → id < nextId)

include hsite hp in
theorem root_of_reduced
    (h : Reduced p nextId tuple.id root.id loop.id keptInput keptOutput st) :
    ∃ r, st.program.instruction root.id = some r ∧ r.operands.length = root.operands.length ∧
      ∀ k, keptOutput k → r.operands[k]? = root.operands[k]? := by
  have hroot := root_instruction hsite
  have hmem := List.mem_of_getElem? hsite.body_eq
  have hpresent := h.pruned.rootPresent body (List.mem_cons_of_mem _ hmem)
    (Option.isSome_iff_exists.mpr ⟨root, hsite.root_eq ▸ hroot⟩)
  rw [hsite.root_eq] at hpresent
  obtain ⟨r, hr⟩ := Option.isSome_iff_exists.mp hpresent
  obtain ⟨i₀, hi₀, hedited⟩ := h.pruned.old _ r hr (hp _ _ hroot)
  obtain rfl : root = i₀ := Option.some.inj (hroot.symm.trans hi₀)
  exact ⟨r, hr, hedited.length, hedited.output rfl⟩

include hsite hp in
theorem loop_of_reduced
    (h : Reduced p nextId tuple.id root.id loop.id keptInput keptOutput st) :
    st.program.instruction loop.id = some loop := by
  apply (instruction_of_kept h.pruned hp ⟨?_, h.loop_stays, ?_, ?_⟩).trans hsite.loop_mem
  · exact Option.isSome_iff_exists.mpr ⟨loop, hsite.loop_mem⟩
  · intro heq
    exact hsite.tuple_acyclic (heq ▸ .refl)
  · intro heq
    exact hsite.root_acyclic (heq ▸ .refl)

include hsite hp in
theorem tuple_of_reduced
    (h : Reduced p nextId tuple.id root.id loop.id keptInput keptOutput st) :
    ∃ t, st.program.instruction tuple.id = some t ∧ t.operands.length = tuple.operands.length ∧
      ∀ k, keptInput k → t.operands[k]? = tuple.operands[k]? := by
  have hsome : (p.instruction tuple.id).isSome :=
    Option.isSome_iff_exists.mpr ⟨tuple, hsite.tuple_mem⟩
  have hloop := loop_of_reduced hsite hp h
  have hpresent := h.pruned.closed loop.id loop tuple.id hloop (by simp [hsite.loop_operands]) hsome
  obtain ⟨t, ht⟩ := Option.isSome_iff_exists.mp hpresent
  obtain ⟨i₀, hi₀, hedited⟩ := h.pruned.old _ t ht (hp _ _ hsite.tuple_mem)
  obtain rfl : tuple = i₀ := Option.some.inj (hsite.tuple_mem.symm.trans hi₀)
  exact ⟨t, ht, hedited.length, hedited.input rfl⟩

/-- A new dummy replaces an operand of one of the tuples. -/
theorem reduced_dummy (user index neighbor : ℕ) (shape : Shape)
    (h : Reduced p nextId tuple.id root.id loop.id keptInput keptOutput st)
    (hp : ∀ id i, p.instruction id = some i → id < nextId)
    (htuples : user = tuple.id ∨ user = root.id) (hinput : user = tuple.id → ¬ keptInput index)
    (houtput : user = root.id → ¬ keptOutput index) :
    Reduced p nextId tuple.id root.id loop.id keptInput keptOutput
      ((st.addInstruction neighbor (dummyOperation shape)).1.replaceOperandWith user index
        st.nextId) := by
  have hadd := h.pruned.addInstruction h.nextId_le neighbor (i := dummyOperation shape) rfl
  have hother : ∀ id, (st.program.instruction id).isSome →
      (((st.addInstruction neighbor (dummyOperation shape)).1.replaceOperandWith user index
        st.nextId).program.instruction id).isSome := by
    intro id hsome
    obtain ⟨i, hi⟩ := Option.isSome_iff_exists.mp hsome
    rw [ProgramState.replaceOperandWith, HloProgram.instruction_replaceOperandWith,
      ProgramState.instruction_addInstruction_of_some hi]
    rfl
  refine ⟨?_, ?_, hother _ h.loop_stays, fun id hid => hother id (h.users_stay id hid)⟩
  · exact hadd.replaceOperandWith hp h.nextId_le htuples hinput houtput
  · exact h.nextId_le.trans (Nat.le_succ _)

theorem Reduced.mono {loop tuple root : ℕ} {keptInput' keptOutput' : ℕ → Prop}
    (h : Reduced p nextId tuple root loop keptInput keptOutput st)
    (hinput : ∀ k, keptInput' k → keptInput k) (houtput : ∀ k, keptOutput' k → keptOutput k) :
    Reduced p nextId tuple root loop keptInput' keptOutput' st :=
  ⟨h.pruned.mono hinput houtput, h.nextId_le, h.loop_stays, h.users_stay⟩

/-- The operands of an instruction that was kept are the same instructions as before. -/
theorem operand_of_kept (hsite : LoopSite p loop tuple root param n body)
    (hp : ∀ id i, p.instruction id = some i → id < nextId)
    (h : Reduced p nextId tuple.id root.id loop.id keptInput keptOutput st) {id o : ℕ}
    {i : HloInstruction} (hkept : Kept p st.program tuple.id root.id id)
    (hi : p.instruction id = some i) (hloop : i ≠ loop) (ho : o ∈ i.operands)
    (hsome : (p.instruction o).isSome) :
    Kept p st.program tuple.id root.id o ∧ st.program.instruction o = p.instruction o := by
  have hi' : st.program.instruction id = some i := (instruction_of_kept h.pruned hp hkept).trans hi
  have hkept' := kept_operand hsite h.pruned hi hi' ho hsome hloop
  exact ⟨hkept', instruction_of_kept h.pruned hp hkept'⟩

/-- An instruction that was kept asks the same of the module as before. -/
theorem isRepeatedUseParameter_of_kept (hsite : LoopSite p loop tuple root param n body)
    (hp : ∀ id i, p.instruction id = some i → id < nextId)
    (h : Reduced p nextId tuple.id root.id loop.id keptInput keptOutput st) {id : ℕ}
    {i : HloInstruction} (hkept : Kept p st.program tuple.id root.id id)
    (hi : p.instruction id = some i) (hbarrier : BarrierInRange p i) :
    ∃ b, isRepeatedUseParameter st.program i = ok b ∧ (b = true ↔ RepeatedUse p i) := by
  have hi' : st.program.instruction id = some i := (instruction_of_kept h.pruned hp hkept).trans hi
  have hmem := (HloProgram.instruction_eq_some.mp hi).1
  -- what the first operand is in both modules
  have hfirst : i.isGetTupleElement = true → ∀ o, i.operands.head? = some o →
      (p.instruction o).isSome ∧ Kept p st.program tuple.id root.id o ∧
        st.program.instruction o = p.instruction o := by
    intro hgte o ho
    obtain ⟨o', ho', hsome⟩ := hsite.gte_operands i hmem hgte
    obtain rfl : o' = o := by simpa [ho'] using ho
    have hloop : i ≠ loop := by
      rintro rfl
      rw [HloInstruction.isGetTupleElement, hsite.loop_opcode] at hgte
      cases hgte
    exact ⟨hsome, operand_of_kept hsite hp h hkept hi hloop (by simp [ho']) hsome⟩
  have hbarrier' : BarrierInRange st.program i := by
    intro k o barrier hk ho hb hopcode
    have hgte : i.isGetTupleElement = true := by rw [HloInstruction.isGetTupleElement, hk]
    obtain ⟨-, hkept', heq⟩ := hfirst hgte o ho
    rw [heq] at hb
    obtain ⟨hzero, x, y, hx, hy, hy'⟩ := hbarrier k o barrier hk ho hb hopcode
    have hloop : barrier ≠ loop := by
      rintro rfl
      rw [hsite.loop_opcode] at hopcode
      cases hopcode
    obtain ⟨-, hx'⟩ := operand_of_kept hsite hp h hkept' hb hloop (List.mem_of_head? hx)
      (Option.isSome_iff_exists.mpr ⟨y, hy⟩)
    exact ⟨hzero, x, y, hx, hx'.trans hy, hy'⟩
  have hoperand : i.isGetTupleElement = true →
      ∃ o, i.operands = [o] ∧ (st.program.instruction o).isSome := by
    intro hgte
    obtain ⟨o, ho, hsome⟩ := hsite.gte_operands i hmem hgte
    obtain ⟨-, -, heq⟩ := hfirst hgte o (by rw [ho]; rfl)
    exact ⟨o, ho, heq ▸ hsome⟩
  obtain ⟨b, hb, hiff⟩ := isRepeatedUseParameter_eq_ok
    (HloProgram.instruction_eq_some.mp hi').1 hoperand hbarrier'
  refine ⟨b, hb, hiff.trans (and_congr_right ?_)⟩
  intro hgte
  apply exists_congr
  intro o
  apply exists_congr
  intro param
  apply and_congr_right
  intro ho
  rw [(hfirst hgte o ho).2.2]

/-- What the condition asks of the barriers. -/
def BarriersInRange (p : HloProgram) (loop tuple root : HloInstruction) : Prop :=
  ∀ k o i, k < tuple.operands.length → ¬ UsedOutput p loop.id k → root.operands[k]? = some o →
    p.instruction o = some i → i.color.isSome = true → BarrierInRange p i

/-- One output: it is left alone, or a dummy replaces it. -/
theorem safe_removeOutput (hsite : LoopSite p loop tuple root param n body)
    (hp : ∀ id i, p.instruction id = some i → id < nextId)
    (hbarriers : BarriersInRange p loop tuple root) {outputsUsed done : List ℕ} {index : ℕ}
    (hused : ∀ k, k ∈ outputsUsed ↔ UsedOutput p loop.id k) (hlt : index < tuple.operands.length)
    (hdone : index ∉ done)
    (h : Reduced p nextId tuple.id root.id loop.id (fun _ => True)
      (fun k => KeptOutput p loop tuple root k ∨ k ∉ done) st) :
    Safe (Reduced p nextId tuple.id root.id loop.id (fun _ => True)
      (fun k => KeptOutput p loop tuple root k ∨ k ∉ done ++ [index]))
      (removeOutput lib root.id tuple.id outputsUsed st index) := by
  obtain ⟨r, hr, hlength, hsame⟩ := root_of_reduced hsite hp h
  have hlt' : index < root.operands.length := hlt.trans_le hsite.length
  have ho : root.operands[index]? = some root.operands[index] := List.getElem?_eq_getElem hlt'
  have hsome : (p.instruction root.operands[index]).isSome := by
    obtain ⟨i, hi, hid⟩ := List.mem_map.mp
      (hsite.body_closed root hsite.root_mem _ (List.getElem_mem hlt'))
    have hmem := HloProgram.mem_instructions
      (List.mem_cons_of_mem _ (List.mem_of_getElem? hsite.body_eq)) hi
    exact Option.isSome_iff_exists.mpr ⟨i, HloProgram.instruction_eq_some.mpr ⟨hmem, hid⟩⟩
  obtain ⟨-, hkept⟩ := rootOperand_of_kept hsite h.pruned hp (.inr hdone)
    ((rootOperand_eq hsite index).trans ho) hsome
  obtain ⟨unused, hunused⟩ := Option.isSome_iff_exists.mp hsome
  have hunused' := (instruction_of_kept h.pruned hp hkept).trans hunused
  have hmono : ∀ k, KeptOutput p loop tuple root k ∨ k ∉ done ++ [index] →
      KeptOutput p loop tuple root k ∨ k ∉ done :=
    fun k hk => hk.imp_right fun hnot hin => hnot (List.mem_append_left _ hin)
  have hsplit : ∃ b, isUnused st.program outputsUsed index unused = ok b ∧
      (b = true → ¬ KeptOutput p loop tuple root index) := by
    unfold isUnused
    split
    · exact ⟨false, rfl, by simp⟩
    · rename_i hcontains
      have hnotUsed : ¬ UsedOutput p loop.id index := by
        rw [← hused]
        simpa using hcontains
      -- the operand is the only one that the output can be kept for
      have hkeptFor : KeptOutput p loop tuple root index →
          unused.color.isSome = true ∧ RepeatedUse p unused := by
        rintro (hk | hk | ⟨o, i, ho', hi, hcolor, hrepeated⟩)
        · exact absurd hk hnotUsed
        · omega
        · obtain rfl : root.operands[index] = o := Option.some.inj (ho.symm.trans ho')
          obtain rfl : unused = i := Option.some.inj (hunused.symm.trans hi)
          exact ⟨hcolor, hrepeated⟩
      split
      · rename_i hcolor
        refine ⟨true, rfl, fun _ hk => ?_⟩
        have := (hkeptFor hk).1
        simp_all
      · rename_i hcolor
        have hcolor' : unused.color.isSome = true := by simpa [Option.isSome_iff_ne_none] using hcolor
        obtain ⟨b, hb, hiff⟩ := isRepeatedUseParameter_of_kept hsite hp h hkept hunused
          (hbarriers index _ unused hlt hnotUsed ho hunused hcolor')
        refine ⟨!b, by rw [hb]; rfl, ?_⟩
        intro hfalse hk
        have := hiff.mpr (hkeptFor hk).2
        simp_all
  obtain ⟨replaced, hreplaced, hnot⟩ := hsplit
  have hget : elementAt r.operands index = ok root.operands[index] :=
    elementAt_eq_ok.mpr ((hsame index (.inr hdone)).trans ho)
  have hroot : getInstruction st.program root.id = ok r := deref_eq_ok.mpr hr
  have hinstruction : getInstruction st.program root.operands[index] = ok unused :=
    deref_eq_ok.mpr hunused'
  unfold removeOutput
  rw [hroot, ok_bind, hget, ok_bind, hinstruction, ok_bind, hreplaced, ok_bind]
  split
  · rename_i hreplace
    obtain ⟨t, ht, -, hsameInput⟩ := tuple_of_reduced hsite hp h
    have htuple : getInstruction st.program tuple.id = ok t := deref_eq_ok.mpr ht
    have hin : tuple.operands[index]? = some tuple.operands[index] := List.getElem?_eq_getElem hlt
    obtain ⟨-, hkeptInput⟩ := inputOperand_of_kept hsite h.pruned hp trivial
      (loop_of_reduced hsite hp h) ((inputOperand_eq hsite index).trans hin)
      (hsite.tuple_operands _ (List.getElem_mem hlt))
    obtain ⟨input, hinput⟩ := Option.isSome_iff_exists.mp hkeptInput.2.1
    have hgetInput : elementAt t.operands index = ok tuple.operands[index] :=
      elementAt_eq_ok.mpr ((hsameInput index trivial).trans hin)
    have hinputInstruction : getInstruction st.program tuple.operands[index] = ok input :=
      deref_eq_ok.mpr hinput
    rw [htuple, ok_bind, hgetInput, ok_bind, hinputInstruction, ok_bind]
    have hne : root.id ≠ tuple.id := by
      rw [← hsite.root_eq]
      exact hsite.tuple_no_root body (List.mem_cons_of_mem _ (List.mem_of_getElem? hsite.body_eq))
    have hnotKept : ¬ (KeptOutput p loop tuple root index ∨ index ∉ done ++ [index]) := by
      rintro (hk | hk)
      · exact hnot hreplace hk
      · exact hk (by simp)
    have hmonoed : Reduced p nextId tuple.id root.id loop.id (fun _ => True)
        (fun k => KeptOutput p loop tuple root k ∨ k ∉ done ++ [index]) st :=
      h.mono (fun _ _ => trivial) hmono
    have hdummy := reduced_dummy root.id index root.id input.shape hmonoed hp (.inr rfl)
      (fun heq => absurd heq hne) (fun _ => hnotKept)
    dsimp only
    split
    · apply safe_removeInstructionAndUnusedOperands hsite hp hdummy
      obtain ⟨-, hid⟩ := HloProgram.instruction_eq_some.mp hunused
      rw [hid]
      exact .inr (.inr (.single ⟨root, root_instruction hsite, List.getElem_mem hlt'⟩))
    · exact hdummy
  · exact h.mono (fun _ _ => trivial) hmono

theorem of_prefix_range {m index : ℕ} {done : List ℕ} (h : done ++ [index] <+: List.range m) :
    index < m ∧ index ∉ done := by
  constructor
  · exact List.mem_range.mp (h.subset (by simp))
  · intro hin
    have hnodup := List.nodup_range.sublist h.sublist
    exact (List.disjoint_of_nodup_append hnodup) hin (by simp)

theorem safe_removeOutputs (hsite : LoopSite p loop tuple root param n body)
    (hp : ∀ id i, p.instruction id = some i → id < nextId)
    (hbarriers : BarriersInRange p loop tuple root) {outputsUsed : List ℕ}
    (hused : ∀ k, k ∈ outputsUsed ↔ UsedOutput p loop.id k)
    (h : Reduced p nextId tuple.id root.id loop.id (fun _ => True) (fun _ => True) st) :
    Safe (Reduced p nextId tuple.id root.id loop.id (fun _ => True) (KeptOutput p loop tuple root))
      ((List.range tuple.operands.length).foldlM
        (removeOutput lib root.id tuple.id outputsUsed) st) := by
  apply (safe_foldlM (fun done => Reduced p nextId tuple.id root.id loop.id (fun _ => True)
    (fun k => KeptOutput p loop tuple root k ∨ k ∉ done)) ?_ ?_).mono
  · intro st' h'
    exact h'.mono (fun _ _ => trivial) (fun _ hk => .inl hk)
  · exact h.mono (fun _ _ => trivial) (fun _ _ => trivial)
  · intro done index hinitial c hc
    obtain ⟨hlt, hdone⟩ := of_prefix_range hinitial
    exact safe_removeOutput hsite hp hbarriers hused hlt hdone hc

include hsite in
theorem param_mem : param ∈ body.instructions ∧ param.isParameter = true := by
  have hmem : param ∈ body.parameterInstructions := by
    rw [hsite.parameters]
    exact List.mem_singleton_self _
  exact List.mem_filter.mp hmem

include hsite in
theorem instruction_of_body {i : HloInstruction} (hi : i ∈ body.instructions) :
    p.instruction i.id = some i :=
  HloProgram.instruction_of_mem (HloProgram.mem_instructions
    (List.mem_cons_of_mem _ (List.mem_of_getElem? hsite.body_eq)) hi)

/-- A user of the body's argument takes an element, and has nothing to do with the loop's users. -/
theorem user_of_param (hsite : LoopSite p loop tuple root param n body)
    (hp : ∀ id i, p.instruction id = some i → id < nextId)
    (h : Reduced p nextId tuple.id root.id loop.id keptInput keptOutput st) {user : HloInstruction}
    (huser : user ∈ st.program.users param.id) :
    (∃ k, user.opcode = .getTupleElement k) ∧ user.id ≠ loop.id ∧
      ¬ p.HasOperand user.id loop.id := by
  obtain ⟨hmem, hparam⟩ := List.mem_filter.mp huser
  have hparam : param.id ∈ user.operands := List.contains_iff_mem.mp hparam
  have hparamId := instruction_of_body hsite (param_mem hsite).1
  have hparamLt := hp _ _ hparamId
  have hlt : user.id < nextId := by
    by_contra hle
    rw [h.pruned.new _ user (HloProgram.instruction_of_mem hmem) (by omega)] at hparam
    cases hparam
  obtain ⟨i₀, hi₀, hedited⟩ := h.pruned.old _ user (HloProgram.instruction_of_mem hmem) hlt
  obtain ⟨hmem₀, hid⟩ := HloProgram.instruction_eq_some.mp hi₀
  have hparam₀ : param.id ∈ i₀.operands := by
    rcases hedited.operand _ hparam with hin | hle
    · exact hin
    · omega
  have hgte := hsite.param_users i₀ hmem₀ hparam₀
  have hopcode : user.opcode = i₀.opcode := by rw [hedited.same]
  have hk : ∃ k, i₀.opcode = .getTupleElement k := by
    unfold HloInstruction.isGetTupleElement at hgte
    cases hop : i₀.opcode <;> simp [hop] at hgte ⊢
  refine ⟨hopcode ▸ hk, ?_, ?_⟩
  · intro heq
    rw [heq] at hi₀
    obtain rfl : loop = i₀ := Option.some.inj (hsite.loop_mem.symm.trans hi₀)
    rw [HloInstruction.isGetTupleElement, hsite.loop_opcode] at hgte
    cases hgte
  · rintro ⟨i, hi, hloop⟩
    obtain rfl : i₀ = i := Option.some.inj (hi₀.symm.trans hi)
    obtain ⟨o, ho, -⟩ := hsite.gte_operands i₀ hmem₀ hgte
    rw [ho, List.mem_singleton] at hparam₀ hloop
    have heq : param.id = loop.id := hparam₀.trans hloop.symm
    obtain rfl : param = loop :=
      Option.some.inj (hparamId.symm.trans ((congrArg _ heq).trans hsite.loop_mem))
    have hparameter := (param_mem hsite).2
    rw [HloInstruction.isParameter, hsite.loop_opcode] at hparameter
    cases hparameter

/-- What an output depends on stays with the output, and has a user. -/
theorem kept_of_path (hsite : LoopSite p loop tuple root param n body)
    (hp : ∀ id i, p.instruction id = some i → id < nextId)
    (h : Reduced p nextId tuple.id root.id loop.id keptInput keptOutput st) {j o g : ℕ}
    (hj : keptOutput j) (ho : root.operands[j]? = some o)
    (hpath : Relation.ReflTransGen p.HasOperand o g) (hsome : (p.instruction g).isSome) :
    Kept p st.program tuple.id root.id g ∧ st.program.users g ≠ [] := by
  have huser : ∀ i ∈ st.program.instructions, ∀ o ∈ i.operands, st.program.users o ≠ [] := by
    intro i hi o ho hnil
    have hin : i ∈ st.program.users o :=
      List.mem_filter.mpr ⟨hi, List.contains_iff_mem.mpr ho⟩
    rw [hnil] at hin
    cases hin
  induction hpath with
  | refl =>
    obtain ⟨r, hr, -, hsame⟩ := root_of_reduced hsite hp h
    have hget : r.operands[j]? = some o := (hsame j hj).trans ho
    refine ⟨(rootOperand_of_kept hsite h.pruned hp hj
      ((rootOperand_eq hsite j).trans ho) hsome).2, ?_⟩
    exact huser r (HloProgram.instruction_eq_some.mp hr).1 o (List.mem_of_getElem? hget)
  | @tail b g hpath hoperand ih =>
    obtain ⟨i, hi, hg⟩ := hoperand
    obtain ⟨hkept, -⟩ := ih (Option.isSome_iff_exists.mpr ⟨i, hi⟩)
    have hloop : i ≠ loop := by
      rintro rfl
      apply hsite.root_acyclic
      obtain ⟨-, hid⟩ := HloProgram.instruction_eq_some.mp hi
      rw [hid]
      exact .head ⟨root, root_instruction hsite, List.mem_of_getElem? ho⟩ hpath
    refine ⟨(operand_of_kept hsite hp h hkept hi hloop hg hsome).1, ?_⟩
    have hi' := (instruction_of_kept h.pruned hp hkept).trans hi
    exact huser i (HloProgram.instruction_eq_some.mp hi').1 g hg

/-- The elements of the argument that the outputs left alone depend on. -/
def Needed (p : HloProgram) (loop tuple root : HloInstruction) (g : ℕ) : Prop :=
  ∃ j o, KeptOutput p loop tuple root j ∧ root.operands[j]? = some o ∧
    Relation.ReflTransGen p.HasOperand o g ∧ (p.instruction g).isSome

/-- The indices of the elements among `users` that are needed are in `inputsUsed`. -/
def Collected (p : HloProgram) (loop tuple root : HloInstruction) (users : List HloInstruction)
    (inputsUsed : List ℕ) : Prop :=
  ∀ user ∈ users, ∀ k, user.opcode = .getTupleElement k → Needed p loop tuple root user.id →
    k ∈ inputsUsed

theorem safe_removeArguments (hsite : LoopSite p loop tuple root param n body)
    (hp : ∀ id i, p.instruction id = some i → id < nextId)
    (h : Reduced p nextId tuple.id root.id loop.id keptInput (KeptOutput p loop tuple root) st) :
    Safe (fun r => Reduced p nextId tuple.id root.id loop.id keptInput
          (KeptOutput p loop tuple root) r.1 ∧
        Collected p loop tuple root (st.program.users param.id) r.2)
      ((st.program.users param.id).foldlM (removeArgument lib) (st, [])) := by
  apply safe_foldlM (fun done (r : ProgramState × List ℕ) =>
    Reduced p nextId tuple.id root.id loop.id keptInput (KeptOutput p loop tuple root) r.1 ∧
      Collected p loop tuple root done r.2)
  · exact ⟨h, by simp [Collected]⟩
  · rintro done user hinitial ⟨c, used⟩ ⟨hc, hdone⟩
    have huser : user ∈ st.program.users param.id := hinitial.subset (by simp)
    obtain ⟨⟨k, hk⟩, hne, hnot⟩ := user_of_param hsite hp h huser
    unfold removeArgument
    dsimp only
    split
    · rename_i hempty
      apply (safe_removeInstruction hc hne hnot).bind
      rintro c' ⟨-, hc'⟩
      refine ⟨hc', ?_⟩
      intro other hother k' hk' hneeded
      rcases List.mem_append.mp hother with hother | hother
      · exact hdone other hother k' hk' hneeded
      · obtain rfl := List.mem_singleton.mp hother
        obtain ⟨j, o, hj, ho, hpath, hsome⟩ := hneeded
        have husers := (kept_of_path hsite hp hc hj ho hpath hsome).2
        exact absurd (List.isEmpty_iff.mp hempty) husers
    · have hindex : user.tupleIndex = ok k := by rw [HloInstruction.tupleIndex, hk]; rfl
      rw [hindex, ok_bind]
      refine ⟨hc, ?_⟩
      intro other hother k' hk' hneeded
      rcases List.mem_append.mp hother with hother | hother
      · exact List.mem_cons_of_mem _ (hdone other hother k' hk' hneeded)
      · obtain rfl := List.mem_singleton.mp hother
        obtain rfl : k = k' := by simpa [hk] using hk'
        exact List.mem_cons_self

/-- What is read by an output that is left alone is among the elements that have users. -/
theorem mem_of_reads {trips : ℕ → ℕ} {inputsUsed : List ℕ} {number j o k : ℕ}
    (hsite : LoopSite p loop tuple root param n body)
    (hp : ∀ id i, p.instruction id = some i → id < nextId)
    (h : Reduced p nextId tuple.id root.id loop.id keptInput (KeptOutput p loop tuple root) st)
    (hinputs : Collected p loop tuple root (st.program.users param.id) inputsUsed)
    (hj : KeptOutput p loop tuple root j) (ho : p.rootOperand n j = some o)
    (hreads : p.Reads trips o number k) : k ∈ inputsUsed := by
  obtain ⟨g, i, hpath, hi, helement⟩ := hreads.path
  obtain ⟨hopcode, x, other, hx, hother, hparameter⟩ := HloProgram.element_eq_argument helement
  rw [rootOperand_eq hsite] at ho
  -- the path stays in the body, so the parameter is the one of the body
  have hbody : ∀ g, Relation.ReflTransGen p.HasOperand o g → g ∈ body.ids := by
    intro g hpath
    induction hpath with
    | refl => exact hsite.body_closed root hsite.root_mem o (List.mem_of_getElem? ho)
    | tail _ hoperand ih =>
      obtain ⟨i, hi, hg⟩ := hoperand
      obtain ⟨i', hi', hid⟩ := List.mem_map.mp ih
      have hlookup := instruction_of_body hsite hi'
      rw [hid, hi] at hlookup
      obtain rfl := Option.some.inj hlookup
      exact hsite.body_closed i hi' _ hg
  have hother' : other ∈ body.instructions := by
    obtain ⟨other', hmem, hid⟩ :=
      List.mem_map.mp (hbody x (hpath.tail ⟨i, hi, List.mem_of_head? hx⟩))
    have hlookup := instruction_of_body hsite hmem
    rw [hid, hother] at hlookup
    exact Option.some.inj hlookup ▸ hmem
  have hparam : other ∈ body.parameterInstructions :=
    List.mem_filter.mpr ⟨hother', by rw [HloInstruction.isParameter, hparameter]⟩
  rw [hsite.parameters, List.mem_singleton] at hparam
  subst hparam
  have hid := (HloProgram.instruction_eq_some.mp hother).2
  have hsome : (p.instruction g).isSome := Option.isSome_iff_exists.mpr ⟨i, hi⟩
  have hkept := (kept_of_path hsite hp h hj ho hpath hsome).1
  have hi' := (instruction_of_kept h.pruned hp hkept).trans hi
  obtain ⟨hmem', hid'⟩ := HloProgram.instruction_eq_some.mp hi'
  apply hinputs i ?_ k hopcode
  · rw [hid']
    exact ⟨j, o, hj, ho, hpath, hsome⟩
  · refine List.mem_filter.mpr ⟨hmem', List.contains_iff_mem.mpr ?_⟩
    rw [hid]
    exact List.mem_of_head? hx

/-- One input: it is used, or a dummy replaces it. -/
theorem safe_removeInput (hsite : LoopSite p loop tuple root param n body)
    (hp : ∀ id i, p.instruction id = some i → id < nextId) {inputsUsed done : List ℕ} {index : ℕ}
    (hlt : index < tuple.operands.length) (hdone : index ∉ done)
    (h : Reduced p nextId tuple.id root.id loop.id
      (fun k => (k ∈ inputsUsed ∨ tuple.operands.length ≤ k) ∨ k ∉ done) keptOutput st) :
    Safe (Reduced p nextId tuple.id root.id loop.id
      (fun k => (k ∈ inputsUsed ∨ tuple.operands.length ≤ k) ∨ k ∉ done ++ [index]) keptOutput)
      (removeInput lib loop tuple.id inputsUsed st index) := by
  have hmono : Reduced p nextId tuple.id root.id loop.id
      (fun k => (k ∈ inputsUsed ∨ tuple.operands.length ≤ k) ∨ k ∉ done ++ [index]) keptOutput st :=
    h.mono (fun k hk => hk.imp_right fun hnot hin => hnot (List.mem_append_left _ hin))
      (fun _ hk => hk)
  unfold removeInput
  split
  · exact hmono
  · rename_i hcontains
    obtain ⟨t, ht, -, hsame⟩ := tuple_of_reduced hsite hp h
    have hin : tuple.operands[index]? = some tuple.operands[index] := List.getElem?_eq_getElem hlt
    obtain ⟨-, hkept⟩ := inputOperand_of_kept hsite h.pruned hp (.inr hdone)
      (loop_of_reduced hsite hp h) ((inputOperand_eq hsite index).trans hin)
      (hsite.tuple_operands _ (List.getElem_mem hlt))
    obtain ⟨original, horiginal⟩ := Option.isSome_iff_exists.mp hkept.2.1
    have htuple : getInstruction st.program tuple.id = ok t := deref_eq_ok.mpr ht
    have hget : elementAt t.operands index = ok tuple.operands[index] :=
      elementAt_eq_ok.mpr ((hsame index (.inr hdone)).trans hin)
    have hinstruction : getInstruction st.program tuple.operands[index] = ok original :=
      deref_eq_ok.mpr horiginal
    rw [htuple, ok_bind, hget, ok_bind, hinstruction, ok_bind]
    have hne : tuple.id ≠ root.id := by
      rw [← hsite.root_eq]
      exact (hsite.tuple_no_root body
        (List.mem_cons_of_mem _ (List.mem_of_getElem? hsite.body_eq))).symm
    have hnot : ¬ ((index ∈ inputsUsed ∨ tuple.operands.length ≤ index) ∨ index ∉ done ++ [index]) := by
      simp only [List.contains_iff_mem] at hcontains
      simp only [List.mem_append, List.mem_singleton, or_true, not_true, or_false, not_or]
      exact ⟨hcontains, by omega⟩
    have hdummy := reduced_dummy tuple.id index loop.id original.shape hmono hp (.inl rfl)
      (fun _ => hnot) (fun heq => absurd heq hne)
    dsimp only
    split
    · apply safe_removeInstructionBackToParameters hsite hp hdummy
      exact .inr (.inl (.single ⟨tuple, hsite.tuple_mem, List.getElem_mem hlt⟩))
    · exact hdummy

theorem safe_removeInputs (hsite : LoopSite p loop tuple root param n body)
    (hp : ∀ id i, p.instruction id = some i → id < nextId) {inputsUsed : List ℕ}
    (h : Reduced p nextId tuple.id root.id loop.id (fun _ => True) keptOutput st) :
    Safe (Reduced p nextId tuple.id root.id loop.id
      (fun k => k ∈ inputsUsed ∨ tuple.operands.length ≤ k) keptOutput)
      ((List.range tuple.operands.length).foldlM (removeInput lib loop tuple.id inputsUsed) st) := by
  apply (safe_foldlM (fun done => Reduced p nextId tuple.id root.id loop.id
    (fun k => (k ∈ inputsUsed ∨ tuple.operands.length ≤ k) ∨ k ∉ done) keptOutput) ?_ ?_).mono
  · intro st' h'
    exact h'.mono (fun _ hk => .inl hk) (fun _ hk => hk)
  · exact h.mono (fun _ _ => trivial) (fun _ hk => hk)
  · intro done index hinitial c hc
    obtain ⟨hlt, hdone⟩ := of_prefix_range hinitial
    exact safe_removeInput hsite hp hlt hdone hc

end phases

end UnusedLoopOutputRemover
end MultiMeshJax
