import MultiMeshJax.ComputationFusion.TaskSemantics

/-! Which calls can be fused, and what is collected about their operands and outputs. -/
namespace MultiMeshJax
namespace ComputationFusion

open StatusOr Relation

/-- The operand is one of the instruction's. -/
def HasOperand (c : HloComputation) (id operand : ℕ) : Prop :=
  ∃ i, c.instruction id = some i ∧ operand ∈ i.operands

def Reaches (c : HloComputation) : ℕ → ℕ → Prop := TransGen (HasOperand c)

/-- What one of the calls leaves. -/
def IsOutput (c : HloComputation) (calls : List ℕ) (id : ℕ) : Prop :=
  ∃ call ∈ calls, ∃ user ∈ c.users call, user.id = id

/-- Neither a call nor an output of one. -/
def Outside (c : HloComputation) (calls : List ℕ) (id : ℕ) : Prop :=
  id ∉ calls ∧ ¬IsOutput c calls id

/-- Task calls with different called computations, in dependency order, such that no path
between two of them leaves them. What uses a call takes an element out of its tuple. -/
structure Fusable (p : TaskProgram) (calls : List ℕ) : Prop where
  distinct : p.ids.Nodup
  call : ∀ id ∈ calls, ∃ i n comp, p.computation.instruction id = some i ∧ i.opcode = .call n ∧
    p.called[n]? = some comp
  nodup : calls.Nodup
  distinct_called : ∀ id ∈ calls, ∀ id' ∈ calls, ∀ i i', p.computation.instruction id = some i →
    p.computation.instruction id' = some i' → i.opcode = i'.opcode → id = id'
  outputs : ∀ id ∈ calls, ∀ user ∈ p.computation.users id,
    user.isGetTupleElement = true ∧ user.operands = [id]
  ordered : calls.Pairwise fun earlier later => ¬Reaches p.computation earlier later
  acyclic : ∀ id ∈ calls, ¬Reaches p.computation id id
  convex : ∀ id ∈ calls, ∀ id' ∈ calls, ∀ x, Outside p.computation calls x →
    Reaches p.computation id x → ¬Reaches p.computation x id'
  roots : ∀ comp ∈ p.called, ∃ root, comp.instruction comp.root = some root ∧ root.opcode = .tuple

theorem mem_users {c : HloComputation} {id : ℕ} {user : HloInstruction} :
    user ∈ c.users id ↔ user ∈ c.instructions ∧ id ∈ user.operands := by
  simp [HloComputation.users]

namespace Fusable

variable {p : TaskProgram} {calls : List ℕ}

theorem distinct_ids (h : Fusable p calls) : p.computation.ids.Nodup :=
  (List.nodup_append.mp h.distinct).1

theorem instruction_of_mem (h : Fusable p calls) {i : HloInstruction}
    (hi : i ∈ p.computation.instructions) : p.computation.instruction i.id = some i :=
  HloComputation.instruction_of_mem h.distinct_ids hi

/-- An output is one of a single call. -/
theorem call_of_output (h : Fusable p calls) {call call' : ℕ} (hcall : call ∈ calls)
    (hcall' : call' ∈ calls) {user user' : HloInstruction}
    (huser : user ∈ p.computation.users call) (huser' : user' ∈ p.computation.users call')
    (hid : user.id = user'.id) : call = call' ∧ user = user' := by
  have hsame : user = user' := List.inj_on_of_nodup_map h.distinct_ids (mem_users.mp huser).1
    (mem_users.mp huser').1 hid
  have hops := (h.outputs call hcall user huser).2
  rw [hsame, (h.outputs call' hcall' user' huser').2] at hops
  exact ⟨(List.cons.inj hops).1.symm, hsame⟩

theorem reaches_output (h : Fusable p calls) {call : ℕ} {user : HloInstruction}
    (huser : user ∈ p.computation.users call) : HasOperand p.computation user.id call :=
  ⟨user, h.instruction_of_mem (mem_users.mp huser).1, (mem_users.mp huser).2⟩

/-- The called computations of two calls have no instruction in common. -/
theorem call_of_called (h : Fusable p calls) {call call' : ℕ} (hcall : call ∈ calls)
    (hcall' : call' ∈ calls) {i i' : HloInstruction} {n n' : ℕ} {comp comp' : HloComputation}
    (hi : p.computation.instruction call = some i) (hop : i.opcode = .call n)
    (hcomp : p.called[n]? = some comp) (hi' : p.computation.instruction call' = some i')
    (hop' : i'.opcode = .call n') (hcomp' : p.called[n']? = some comp') {id : ℕ}
    (hid : id ∈ comp.ids) (hid' : id ∈ comp'.ids) : call = call' := by
  apply h.distinct_called call hcall call' hcall' i i' hi hi'
  rw [hop, hop']
  congr 1
  by_contra hne
  have hcalled : (p.called.flatMap HloComputation.ids).Nodup := (List.nodup_append.mp h.distinct).2.1
  rw [List.nodup_flatMap] at hcalled
  have hdisjoint := List.pairwise_iff_getElem.mp hcalled.2
  obtain ⟨hn, hget⟩ := List.getElem?_eq_some_iff.mp hcomp
  obtain ⟨hn', hget'⟩ := List.getElem?_eq_some_iff.mp hcomp'
  rcases Nat.lt_or_gt_of_ne hne with hlt | hlt
  · have hdis := hdisjoint n n' hn hn' hlt
    rw [hget, hget'] at hdis
    exact hdis hid hid'
  · have hdis := hdisjoint n' n hn' hn hlt
    rw [hget, hget'] at hdis
    exact hdis hid' hid

end Fusable

/-- The called computation of one of the calls. -/
def Calls (p : TaskProgram) (calls : List ℕ) (call : ℕ) (i : HloInstruction)
    (comp : HloComputation) : Prop :=
  call ∈ calls ∧ p.computation.instruction call = some i ∧ calledComputation p i = ok comp

theorem calledComputation_eq_ok {p : TaskProgram} {i : HloInstruction} {comp : HloComputation} :
    calledComputation p i = ok comp ↔ ∃ n, i.opcode = .call n ∧ p.called[n]? = some comp := by
  unfold calledComputation
  split
  · rename_i n hop
    simp [elementAt_eq_ok, hop]
  · rename_i hop
    simp only [reduceCtorEq, false_iff, not_exists, not_and]
    intro n hcall
    exact absurd hcall (hop n)

theorem Calls.unique {p : TaskProgram} {calls : List ℕ} (h : Fusable p calls) {call call' : ℕ}
    {i i' : HloInstruction} {comp comp' : HloComputation} (hcall : Calls p calls call i comp)
    (hcall' : Calls p calls call' i' comp') {id : ℕ} (hid : id ∈ comp.ids) (hid' : id ∈ comp'.ids) :
    call = call' ∧ i = i' ∧ comp = comp' := by
  obtain ⟨hmem, hi, hcomp⟩ := hcall
  obtain ⟨hmem', hi', hcomp'⟩ := hcall'
  obtain ⟨n, hop, hn⟩ := calledComputation_eq_ok.mp hcomp
  obtain ⟨n', hop', hn'⟩ := calledComputation_eq_ok.mp hcomp'
  obtain rfl := h.call_of_called hmem hmem' hi hop hn hi' hop' hn' hid hid'
  rw [hi] at hi'
  cases hi'
  rw [hcomp] at hcomp'
  cases hcomp'
  exact ⟨rfl, rfl, rfl⟩

def outputsOf (c : HloComputation) (calls : List ℕ) : List ℕ :=
  calls.flatMap fun call => (c.users call).map HloInstruction.id

theorem mem_outputsOf {c : HloComputation} {calls : List ℕ} {id : ℕ} :
    id ∈ outputsOf c calls ↔ IsOutput c calls id := by
  simp [outputsOf, IsOutput]

theorem Fusable.outputsOf_nodup {p : TaskProgram} {calls : List ℕ} (h : Fusable p calls) :
    (outputsOf p.computation calls).Nodup := by
  rw [outputsOf, List.nodup_flatMap]
  constructor
  · intro call _
    exact h.distinct_ids.sublist ((List.filter_sublist).map HloInstruction.id)
  · apply h.nodup.imp_of_mem
    intro call call' hcall hcall' hne id hid hid'
    obtain ⟨user, huser, rfl⟩ := List.mem_map.mp hid
    obtain ⟨user', huser', heq⟩ := List.mem_map.mp hid'
    exact hne (h.call_of_output hcall hcall' huser huser' heq.symm).1

/-- What has been collected when these outputs have been seen. -/
structure CollectedFrom (p : TaskProgram) (calls outputs : List ℕ) (st : Collected) : Prop where
  produced : st.producedBySet = outputs
  needed : ∀ operand ∈ st.parametersNeeded, ¬IsOutput p.computation calls operand ∧
    ∃ call ∈ calls, HasOperand p.computation call operand
  added : ∀ operand, ∀ param ∈ st.operandsAdded operand, ∃ call i comp number,
    Calls p calls call i comp ∧ param ∈ comp.instructions ∧ param.opcode = .parameter number ∧
      i.operands[number]? = some operand
  roots : ∀ root ∈ st.rootsNeeded, ∃ call i comp, Calls p calls call i comp ∧
    ∃ user ∈ p.computation.users call, user.id = root.1 ∧ outputRoot comp user = ok root.2
  roots_produced : ∀ root ∈ st.rootsNeeded, root.1 ∈ outputs
  roots_complete : ∀ user ∈ p.computation.instructions, user.id ∈ outputs →
    isRootNeeded p.computation calls user = true → user.id ∈ st.rootsNeeded.map Prod.fst
  roots_nodup : (st.rootsNeeded.map Prod.fst).Nodup

section collect

variable {p : TaskProgram} {calls outputs : List ℕ} {st st' : Collected} {call : ℕ}
  {i : HloInstruction} {comp : HloComputation}

theorem CollectedFrom.start (p : TaskProgram) (calls : List ℕ) : CollectedFrom p calls [] {} where
  produced := rfl
  needed := by simp
  added := by simp
  roots := by simp
  roots_produced := by simp
  roots_complete := by simp
  roots_nodup := by simp

/-- An operand that one of the calls leaves is left by an earlier call. -/
theorem Fusable.output_of_earlier (h : Fusable p calls) {earlier later : List ℕ}
    (hsplit : calls = earlier ++ call :: later) (hi : p.computation.instruction call = some i) :
    ∀ operand ∈ i.operands, IsOutput p.computation calls operand →
      operand ∈ outputsOf p.computation earlier := by
  rintro operand hoperand ⟨producer, hproducer, user, huser, rfl⟩
  have hreaches : Reaches p.computation call producer :=
    .head ⟨i, hi, hoperand⟩ (.single (h.reaches_output huser))
  rw [mem_outputsOf]
  rw [hsplit, List.mem_append, List.mem_cons] at hproducer
  rcases hproducer with hproducer | rfl | hproducer
  · exact ⟨producer, hproducer, user, huser, rfl⟩
  · exact absurd hreaches (h.acyclic producer (by simp [hsplit]))
  · have hordered := h.ordered
    rw [hsplit, List.pairwise_append] at hordered
    exact absurd hreaches ((List.pairwise_cons.mp hordered.2.1).1 producer hproducer)

theorem collectOperand_keeps (hcalls : Calls p calls call i comp)
    (hoperands : ∀ operand ∈ i.operands, IsOutput p.computation calls operand → operand ∈ outputs)
    (h : CollectedFrom p calls outputs st) {operand : ℕ × ℕ}
    (hoperand : i.operands[operand.2]? = some operand.1)
    (hrun : collectOperand comp st operand = ok st') : CollectedFrom p calls outputs st' := by
  unfold collectOperand at hrun
  split at hrun
  · obtain rfl := ok.inj hrun
    exact h
  · rename_i hproduced
    obtain ⟨param, hparam, hrun⟩ := bind_eq_ok.mp hrun
    obtain rfl := ok.inj hrun
    have hmem : operand.1 ∈ i.operands := List.mem_of_getElem? hoperand
    have hfind := deref_eq_ok.mp hparam
    refine { h with needed := ?_, added := ?_ }
    · intro other hother
      dsimp only at hother
      split at hother
      · rcases List.mem_append.mp hother with hother | hother
        · exact h.needed other hother
        · rw [List.mem_singleton.mp hother]
          constructor
          · intro houtput
            apply hproduced
            rw [h.produced]
            simpa using hoperands operand.1 hmem houtput
          · exact ⟨call, hcalls.1, i, hcalls.2.1, hmem⟩
      · exact h.needed other hother
    · intro other param' hparam'
      dsimp only at hparam'
      by_cases heq : other = operand.1
      · subst heq
        rw [Function.update_self] at hparam'
        rcases List.mem_append.mp hparam' with hparam' | hparam'
        · exact h.added operand.1 param' hparam'
        · rw [List.mem_singleton.mp hparam']
          refine ⟨call, i, comp, operand.2, hcalls, List.mem_of_find?_eq_some hfind, ?_, hoperand⟩
          simpa using List.find?_some hfind
      · rw [Function.update_of_ne heq] at hparam'
        exact h.added other param' hparam'

theorem collectOutput_keeps (hfusable : Fusable p calls) (hcalls : Calls p calls call i comp)
    {user : HloInstruction} (huser : user ∈ p.computation.users call) (hnew : user.id ∉ outputs)
    (h : CollectedFrom p calls outputs st)
    (hrun : collectOutput p.computation calls comp st user = ok st') :
    CollectedFrom p calls (outputs ++ [user.id]) st' := by
  have hroots_new : user.id ∉ st.rootsNeeded.map Prod.fst := by
    intro hmem
    obtain ⟨root, hroot, heq⟩ := List.mem_map.mp hmem
    exact hnew (heq ▸ h.roots_produced root hroot)
  have hsame : ∀ other ∈ p.computation.instructions, other.id = user.id → other = user := by
    intro other hother heq
    exact List.inj_on_of_nodup_map hfusable.distinct_ids hother (mem_users.mp huser).1 heq
  unfold collectOutput at hrun
  dsimp only at hrun
  split at hrun
  · obtain ⟨root, hroot, hrun⟩ := bind_eq_ok.mp hrun
    obtain rfl := ok.inj hrun
    constructor
    · simp [h.produced]
    · exact h.needed
    · exact h.added
    · intro other hother
      rcases List.mem_append.mp hother with hother | hother
      · exact h.roots other hother
      · rw [List.mem_singleton.mp hother]
        exact ⟨call, i, comp, hcalls, user, huser, rfl, hroot⟩
    · intro other hother
      rcases List.mem_append.mp hother with hother | hother
      · exact List.mem_append_left _ (h.roots_produced other hother)
      · rw [List.mem_singleton.mp hother]
        simp
    · intro other hother houtput hneeded
      rw [List.map_append, List.mem_append]
      rcases List.mem_append.mp houtput with houtput | houtput
      · exact .inl (h.roots_complete other hother houtput hneeded)
      · exact .inr (by simpa using houtput)
    · rw [List.map_append, List.nodup_append]
      refine ⟨h.roots_nodup, by simp, ?_⟩
      intro one hone two htwo heq
      have htwo' : two = user.id := by simpa using htwo
      exact hroots_new (htwo' ▸ heq ▸ hone)
  · rename_i hneeded
    obtain rfl := ok.inj hrun
    refine { h with produced := ?_, roots_produced := ?_, roots_complete := ?_ }
    · simp [h.produced]
    · intro root hroot
      exact List.mem_append_left _ (h.roots_produced root hroot)
    · intro other hother houtput hroot
      rcases List.mem_append.mp houtput with houtput | houtput
      · exact h.roots_complete other hother houtput hroot
      · rw [hsame other hother (List.mem_singleton.mp houtput)] at hroot
        exact absurd hroot hneeded

theorem collectCall_keeps (hfusable : Fusable p calls) {earlier later : List ℕ}
    (hsplit : calls = earlier ++ call :: later)
    (h : CollectedFrom p calls (outputsOf p.computation earlier) st)
    (hrun : collectCall p calls st call = ok st') :
    CollectedFrom p calls (outputsOf p.computation (earlier ++ [call])) st' := by
  unfold collectCall at hrun
  obtain ⟨i, hi, hrun⟩ := bind_eq_ok.mp hrun
  obtain ⟨comp, hcomp, hrun⟩ := bind_eq_ok.mp hrun
  obtain ⟨st₁, hoperands, houtputs⟩ := bind_eq_ok.mp hrun
  have hinstruction : p.computation.instruction call = some i := deref_eq_ok.mp hi
  have hcalls : Calls p calls call i comp := ⟨by simp [hsplit], hinstruction, hcomp⟩
  have h₁ : CollectedFrom p calls (outputsOf p.computation earlier) st₁ := by
    apply foldlM_invariant _ hoperands h
    intro operand hoperand st st' hst hstep
    exact collectOperand_keeps hcalls (hfusable.output_of_earlier hsplit hinstruction) hst
      (List.mem_zipIdx_iff_getElem?.mp hoperand) hstep
  have hall : outputsOf p.computation calls = outputsOf p.computation earlier ++
      (p.computation.users call).map HloInstruction.id ++ outputsOf p.computation later := by
    simp [outputsOf, hsplit]
  have hnodup := hfusable.outputsOf_nodup
  rw [hall] at hnodup
  have h₂ := foldlM_prefix (fun done st => CollectedFrom p calls
    (outputsOf p.computation earlier ++ done.map HloInstruction.id) st) houtputs (by simpa using h₁)
    fun done user hinitial st st' hst hstep => by
      obtain ⟨rest, hrest⟩ := hinitial
      have huser : user ∈ p.computation.users call := by simp [← hrest]
      rw [← hrest] at hnodup
      have hnew : user.id ∉ outputsOf p.computation earlier ++ done.map HloInstruction.id := by
        simp only [List.map_append, List.map_cons, List.map_nil, ← List.append_assoc] at hnodup
        have hsub := (List.nodup_append.mp (List.nodup_append.mp hnodup).1).1
        intro hmem
        exact (List.nodup_append.mp hsub).2.2 user.id hmem user.id (by simp) rfl
      have hstep' := collectOutput_keeps hfusable hcalls huser hnew hst hstep
      simpa using hstep'
  simpa [outputsOf] using h₂

end collect

/-- What the first loop leaves. -/
theorem collected {p : TaskProgram} {calls : List ℕ} {st : Collected} (hfusable : Fusable p calls)
    (hrun : calls.foldlM (collectCall p calls) {} = ok st) :
    CollectedFrom p calls (outputsOf p.computation calls) st := by
  apply foldlM_prefix (fun done st => CollectedFrom p calls (outputsOf p.computation done) st) hrun
  · exact CollectedFrom.start p calls
  · intro done call hinitial st st' h hstep
    obtain ⟨later, hlater⟩ := hinitial
    exact collectCall_keeps hfusable (by rw [← hlater, List.append_assoc]; rfl) h hstep

end ComputationFusion
end MultiMeshJax
