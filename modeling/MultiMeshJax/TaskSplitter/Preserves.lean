import MultiMeshJax.TaskSplitter.Replaced

/-! The split keeps the values: what reads an output of the task reads one of equal value. -/
namespace MultiMeshJax
namespace TaskSplitter

open StatusOr CriticalPath HloComputation Relation
open ComputationFusion (callContext Reaches HasOperand)

section values

variable {V : Type} {I : Interpretation V} {ctx : Context V} {c₀ c : HloComputation} {task : ℕ}
  {users : List HloInstruction} {clone : ℕ → ℕ} {up : ℕ → Prop} {done : List ℕ}
  {called : List HloComputation}

theorem applies_same {p p' : TaskProgram} {i j : HloInstruction} (hcalled : p'.called = p.called)
    (hsame : SameOperation i j) {args : List (Value V)} {v : Value V}
    (h : p.Applies I ctx i args v) : p'.Applies I ctx j args v := by
  unfold TaskProgram.Applies at h ⊢
  rw [hsame.opcode, hcalled]
  cases hop : i.opcode with
  | call k =>
    simp only [hop] at h ⊢
    exact h
  | _ =>
    simp only [hop] at h ⊢
    rw [← h]
    unfold Interpretation.apply
    rw [hsame.opcode, hsame.shape, hsame.offset]

theorem Replaced.instruction (h : Replaced c₀ clone up done c) (hids : c₀.ids.Nodup) {id : ℕ}
    (hid : id ∈ c.ids) {i : HloInstruction} (hi : c₀.instruction id = some i) :
    ∃ j, c.instruction id = some j ∧ SameOperation i j ∧
      j.operands = i.operands.map (standIn clone done) := by
  obtain ⟨j, hj, rfl⟩ := List.mem_map.mp hid
  obtain ⟨hsame, hmap⟩ :=
    h.present.same hids (mem_of_instruction hi) hj (id_of_instruction hi).symm
  exact ⟨j, instruction_of_mem h.nodup hj, hsame, hmap⟩

/-- What reads no user, directly or not, keeps its value. -/
theorem Replaced.computes_of_closed (h : Replaced c₀ clone up done c) (hids : c₀.ids.Nodup)
    {A : ℕ → Prop} (hclosed : ∀ i ∈ c₀.instructions, A i.id → ∀ o ∈ i.operands, A o)
    (hkept : ∀ id, A id → standIn clone done id = id) {id : ℕ} (hA : A id) (hid : id ∈ c.ids)
    {v : Value V} (hv : (⟨c₀, called⟩ : TaskProgram).Computes I ctx id v) :
    (⟨c, called⟩ : TaskProgram).Computes I ctx id v := by
  obtain ⟨depth, hv⟩ := hv
  induction depth generalizing id v with
  | zero => exact hv.elim
  | succ depth ih =>
    obtain ⟨i, args, hi, hargs, happly⟩ := hv
    obtain ⟨j, hj, hsame, hmap⟩ := h.instruction hids hid hi
    have hmem := mem_of_instruction hi
    have hoperands : ∀ o ∈ i.operands, A o := by
      apply hclosed i hmem
      rw [id_of_instruction hi]
      exact hA
    have hsameOperands : j.operands = i.operands := by
      rw [hmap]
      exact (List.map_congr_left fun o ho => hkept o (hoperands o ho)).trans (List.map_id _)
    have happly' : (⟨c, called⟩ : TaskProgram).Applies I ctx j args v :=
      applies_same rfl hsame happly
    apply TaskProgram.Computes.of_operands hj _ happly'
    rw [hsameOperands]
    have hin : ∀ o ∈ i.operands, A o ∧ o ∈ c.ids := fun o ho =>
      ⟨hoperands o ho, h.closed j (mem_of_instruction hj) o (hsameOperands ▸ ho)⟩
    apply ((List.forall₂_and_left _ _).mpr ⟨hin, hargs⟩).imp
    rintro o w ⟨⟨hAo, hido⟩, hw⟩
    exact ih hAo hido hw

/-- Where the stand-ins have the values of the users, all that is left keeps its value. -/
theorem Replaced.computes (h : Replaced c₀ clone up done c) (hids : c₀.ids.Nodup)
    (hstandIns : ∀ id ∈ done, ∀ v, (⟨c₀, called⟩ : TaskProgram).Computes I ctx id v →
      (⟨c, called⟩ : TaskProgram).Computes I ctx (clone id) v) {id : ℕ} (hid : id ∈ c.ids)
    {v : Value V} (hv : (⟨c₀, called⟩ : TaskProgram).Computes I ctx id v) :
    (⟨c, called⟩ : TaskProgram).Computes I ctx id v := by
  obtain ⟨depth, hv⟩ := hv
  induction depth generalizing id v with
  | zero => exact hv.elim
  | succ depth ih =>
    obtain ⟨i, args, hi, hargs, happly⟩ := hv
    obtain ⟨j, hj, hsame, hmap⟩ := h.instruction hids hid hi
    have happly' : (⟨c, called⟩ : TaskProgram).Applies I ctx j args v :=
      applies_same rfl hsame happly
    apply TaskProgram.Computes.of_operands hj _ happly'
    rw [hmap, List.forall₂_map_left_iff]
    have hin : ∀ o ∈ i.operands, standIn clone done o ∈ c.ids := by
      intro o ho
      apply h.closed j (mem_of_instruction hj)
      rw [hmap]
      exact List.mem_map_of_mem ho
    apply ((List.forall₂_and_left _ _).mpr ⟨hin, hargs⟩).imp
    rintro o w ⟨hin, hw⟩
    by_cases hmem : o ∈ done
    · unfold standIn
      rw [if_pos hmem]
      exact hstandIns o hmem w ⟨depth, hw⟩
    · rw [standIn_of_notMem hmem] at hin ⊢
      exact ih hin hw

end values

section task

variable {p : TaskProgram} {task : HloInstruction} {n : ℕ} {computation : HloComputation}
  {taskRoot : HloInstruction} {st : SplitState}

/-- The task and what it takes its operands from. -/
def Upstream (p : TaskProgram) (task : HloInstruction) (id : ℕ) : Prop :=
  id = task.id ∨ Reaches p.computation task.id id

theorem TaskCall.instruction_task (h : TaskCall p task n computation taskRoot) :
    p.computation.instruction task.id = some task :=
  HloComputation.instruction_of_mem h.parent_nodup h.mem

theorem TaskCall.hasOperand (h : TaskCall p task n computation taskRoot) {i : HloInstruction}
    (hi : i ∈ p.computation.instructions) {o : ℕ} (ho : o ∈ i.operands) :
    HasOperand p.computation i.id o :=
  ⟨i, HloComputation.instruction_of_mem h.parent_nodup hi, ho⟩

theorem TaskCall.upstream_mem (h : TaskCall p task n computation taskRoot) {id : ℕ}
    (hid : Upstream p task id) : id ∈ p.computation.ids := by
  rcases hid with rfl | hreaches
  · exact List.mem_map_of_mem h.mem
  · obtain ⟨_, -, i, hi, ho⟩ := TransGen.tail'_iff.mp hreaches
    exact h.closed i (mem_of_instruction hi) id ho

theorem TaskCall.upstream_lt (h : TaskCall p task n computation taskRoot) {id : ℕ}
    (hid : Upstream p task id) : id < p.freshId :=
  ComputationFusion.lt_freshId (h.upstream_mem hid)

theorem TaskCall.upstream_operand (h : TaskCall p task n computation taskRoot)
    {i : HloInstruction} (hi : i ∈ p.computation.instructions) (hup : Upstream p task i.id) {o : ℕ}
    (ho : o ∈ i.operands) : Reaches p.computation task.id o := by
  have hstep := h.hasOperand hi ho
  rcases hup with heq | hreaches
  · rw [heq] at hstep
    exact .single hstep
  · exact .tail hreaches hstep

theorem TaskCall.not_upstream_user (h : TaskCall p task n computation taskRoot)
    {user : HloInstruction} (huser : user ∈ p.computation.users task.id) :
    ¬Upstream p task user.id := by
  obtain ⟨hmem, hread⟩ := ComputationFusion.mem_users.mp huser
  have hstep := h.hasOperand hmem hread
  rintro (heq | hreaches)
  · rw [heq] at hstep
    exact h.acyclic (.single hstep)
  · exact h.acyclic (hreaches.tail hstep)

/-- An instruction of the module with the new calls is an old one or a new one. -/
theorem Progress.cases (hst : Progress p task computation st) {i : HloInstruction}
    (hi : i ∈ st.parent.instructions) :
    i ∈ p.computation.instructions ∨ IsNew p task st i := by
  obtain ⟨added, hadded, hnew⟩ := hst.kept
  rw [hadded] at hi
  rcases List.mem_append.mp hi with hi | hi
  · exact .inl hi
  · exact .inr (hnew i hi)

theorem Progress.old_mem (hst : Progress p task computation st) {i : HloInstruction}
    (hi : i ∈ p.computation.instructions) : i ∈ st.parent.instructions := by
  obtain ⟨added, hadded, -⟩ := hst.kept
  rw [hadded]
  exact List.mem_append_left _ hi

theorem Progress.old_id (hst : Progress p task computation st) {id : ℕ}
    (hid : id ∈ p.computation.ids) : id ∈ st.parent.ids := by
  obtain ⟨i, hi, rfl⟩ := List.mem_map.mp hid
  exact List.mem_map_of_mem (hst.old_mem hi)

/-- The new instructions have no control dependencies and give none to the old ones. -/
theorem Progress.hasControlDependencies (hst : Progress p task computation st)
    (i : HloInstruction) :
    st.parent.hasControlDependencies i = p.computation.hasControlDependencies i := by
  rw [Bool.eq_iff_iff, hasControlDependencies_iff, hasControlDependencies_iff]
  apply or_congr_right
  constructor
  · rintro ⟨j, hj, hpredecessor⟩
    rcases hst.cases hj with hj | hnew
    · exact ⟨j, hj, hpredecessor⟩
    · rw [hnew.controlPredecessors] at hpredecessor
      cases hpredecessor
  · rintro ⟨j, hj, hpredecessor⟩
    exact ⟨j, hst.old_mem hj, hpredecessor⟩

/-- The element of the root tuple that an output of the task has, and what stands for it. -/
def StandsFor (st : SplitState) (taskRoot user : HloInstruction) (x : ℕ) : Prop :=
  ∃ index element, user.opcode = .getTupleElement index ∧
    taskRoot.operands[index]? = some element ∧ st.externalReplacements element = some x

theorem replaceable (h : TaskCall p task n computation taskRoot)
    (hst : Progress p task computation st) {users : List HloInstruction} {clone : ℕ → ℕ}
    (husers : ∀ user ∈ users, user ∈ p.computation.users task.id)
    (hcontrol : ∀ user ∈ users, p.computation.hasControlDependencies user = false)
    (hclone : ∀ user ∈ users, StandsFor st taskRoot user (clone user.id))
    (hroot : p.computation.root ≠ task.id) :
    Replaceable st.parent task.id users clone (Upstream p task) := by
  have hold : ∀ user ∈ users, user.id < p.freshId := by
    intro user huser
    have hmem := (ComputationFusion.mem_users.mp (husers user huser)).1
    exact ComputationFusion.lt_freshId (List.mem_map_of_mem hmem)
  have hnot : ∀ id, p.freshId ≤ id → id ∉ users.map HloInstruction.id := by
    intro id hle hin
    obtain ⟨user, huser, rfl⟩ := List.mem_map.mp hin
    have := hold user huser
    omega
  constructor
  · exact hst.nodup
  · intro i hi o ho
    rcases hst.cases hi with hi | hnew
    · exact hst.old_id (h.closed i hi o ho)
    · rcases hnew.operands o ho with htask | ⟨-, hin⟩
      · exact hst.old_id (h.closed task h.mem o htask)
      · exact hin
  · rw [hst.root]
    exact hst.old_id h.root_mem
  · rw [hst.root]
    exact hroot
  · intro user huser
    obtain ⟨hmem, -⟩ := ComputationFusion.mem_users.mp (husers user huser)
    obtain ⟨hoperands, index, -, hop⟩ := h.users user (husers user huser)
    refine ⟨hst.old_mem hmem, hoperands, by simp [HloInstruction.isParameter, hop], ?_,
      h.not_upstream_user (husers user huser)⟩
    rw [hst.hasControlDependencies]
    exact hcontrol user huser
  · intro user huser
    obtain ⟨index, element, -, -, hreplaced⟩ := hclone user huser
    obtain ⟨g, hg, hid, hle, k, call, -, -, hoperands, hcall, -⟩ := hst.target _ _ hreplaced
    refine ⟨hid ▸ List.mem_map_of_mem hg, hnot _ hle, ?_, ?_⟩
    · intro hup
      have := h.upstream_lt hup
      omega
    · intro g' hg' hid' o ho
      obtain rfl : g' = g :=
        List.inj_on_of_nodup_map hst.nodup hg' hg (hid'.trans hid.symm)
      rw [hoperands] at ho
      rw [List.mem_singleton.mp ho]
      exact hnot call.id hcall
  · intro i hi hup o ho
    rcases hst.cases hi with hi | hnew
    · exact .inr (h.upstream_operand hi hup ho)
    · have := h.upstream_lt hup
      have := hnew.id
      omega
  · exact .inl rfl

end task

end TaskSplitter
end MultiMeshJax
