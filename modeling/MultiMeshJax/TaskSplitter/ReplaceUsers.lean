import MultiMeshJax.TaskSplitter.CriticalSet

/-! When the loop over the users of the task succeeds, and what it leaves. -/
namespace MultiMeshJax
namespace TaskSplitter

open StatusOr CriticalPath HloComputation
open ComputationFusion (callContext Reaches)

variable {p : TaskProgram} {task : HloInstruction} {n : ℕ} {computation : HloComputation}
  {taskRoot : HloInstruction} {st : SplitState} {hasSideEffect : SideEffects}

section replace

/-- What stands for an output of the task. -/
def outputClone (p : TaskProgram) (taskRoot : HloInstruction) (st : SplitState) (id : ℕ) : ℕ :=
  ((p.computation.instruction id).bind fun user =>
    match user.opcode with
    | .getTupleElement index => (taskRoot.operands[index]?).bind st.externalReplacements
    | _ => none).getD 0

/-- No user reads an element of the root tuple that is a parameter. -/
def ElementsSplit (p : TaskProgram) (task : HloInstruction) (computation : HloComputation)
    (taskRoot : HloInstruction) : Prop :=
  ∀ user ∈ p.computation.users task.id, ∀ index element i, user.opcode = .getTupleElement index →
    taskRoot.operands[index]? = some element → computation.instruction element = some i →
      i.isParameter = false

/-- The call of the task has users, and can be removed once nothing uses it. -/
structure Removable (hasSideEffect : SideEffects) (p : TaskProgram) (task : HloInstruction) :
    Prop where
  used : p.computation.users task.id ≠ []
  root : p.computation.root ≠ task.id
  control : ∀ i ∈ p.computation.instructions, i.id = task.id ∨ task.id ∈ i.operands →
    p.computation.hasControlDependencies i = false
  effect : hasSideEffect task.id = false

theorem standsFor_outputClone (h : TaskCall p task n computation taskRoot)
    (hst : BothAdded p task computation taskRoot st)
    (helements : ElementsSplit p task computation taskRoot) {user : HloInstruction}
    (huser : user ∈ p.computation.users task.id) :
    StandsFor st taskRoot user (outputClone p taskRoot st user.id) := by
  obtain ⟨-, index, hindex, hop⟩ := h.users user huser
  have helement : taskRoot.operands[index]? = some taskRoot.operands[index] :=
    List.getElem?_eq_getElem hindex
  have hmem : taskRoot.operands[index] ∈ taskRoot.operands := List.getElem_mem hindex
  obtain ⟨i, hi⟩ := h.exists_operand h.root_mem_instructions hmem
  have hid := id_of_instruction hi
  obtain ⟨x, hx⟩ := hst.elements i (mem_of_instruction hi)
    (helements user huser index _ i hop helement hi) (hid ▸ hmem)
  rw [hid] at hx
  refine ⟨index, taskRoot.operands[index], hop, helement, ?_⟩
  unfold outputClone
  have hfound := HloComputation.instruction_of_mem h.parent_nodup
    (ComputationFusion.mem_users.mp huser).1
  rw [hfound, Option.bind_some, hop]
  dsimp only
  rw [helement, Option.bind_some, hx]
  rfl

/-- A user is replaced where what stands for it can take its place. -/
theorem replaceUser_eq {user : HloInstruction} {x : ℕ} (h : StandsFor st taskRoot user x)
    (parent : HloComputation) :
    replaceUser hasSideEffect taskRoot st.externalReplacements parent user =
      (parent.mapInstructions fun i =>
        if i.id = x then { i with sharding := user.sharding } else i).replaceInstruction
          hasSideEffect user x := by
  obtain ⟨index, element, hop, helement, hreplaced⟩ := h
  unfold replaceUser
  rw [HloInstruction.tupleIndex_eq_ok.mpr hop, ok_bind, elementAt_eq_ok.mpr helement, ok_bind, hreplaced, deref_some, ok_bind]

/-- What reads the task in the module with the new calls are its users. -/
theorem mem_users_of_reads (h : TaskCall p task n computation taskRoot)
    (hst : Progress p task computation st) {i : HloInstruction}
    (hi : i ∈ st.parent.instructions) (hread : task.id ∈ i.operands) :
    i ∈ p.computation.users task.id := by
  rcases hst.cases hi with hi | hnew
  · exact ComputationFusion.mem_users.mpr ⟨hi, hread⟩
  · rcases hnew.operands task.id hread with hself | ⟨hle, -⟩
    · exact absurd (.single (h.hasOperand h.mem hself)) h.acyclic
    · have := h.upstream_lt (.inl rfl)
      omega

/-- The module when the loop is done. -/
structure AllReplaced (p : TaskProgram) (task : HloInstruction) (taskRoot : HloInstruction)
    (st : SplitState) (done : List ℕ) (c : HloComputation) : Prop where
  replaced : Replaced st.parent (outputClone p taskRoot st) (Upstream p task) done c
  done : ∀ id, id ∈ done ↔ ∃ user ∈ p.computation.users task.id, user.id = id
  gone : task.id ∉ c.ids

theorem replaceUsers (h : TaskCall p task n computation taskRoot)
    (hst : BothAdded p task computation taskRoot st)
    (helements : ElementsSplit p task computation taskRoot)
    (hremovable : Removable hasSideEffect p task) (order : UserOrder p.computation) :
    ∃ parent done, (order.users task.id).foldlM
      (replaceUser hasSideEffect taskRoot st.externalReplacements) st.parent = ok parent ∧
        AllReplaced p task taskRoot st done parent := by
  have husers : ∀ user, user ∈ order.users task.id ↔ user ∈ p.computation.users task.id :=
    fun user => (order.perm task.id).mem_iff
  have hnodup : ((order.users task.id).map HloInstruction.id).Nodup := by
    rw [((order.perm task.id).map HloInstruction.id).nodup_iff]
    exact List.Nodup.sublist (List.filter_sublist.map _) h.parent_nodup
  have hreads : ∀ user ∈ order.users task.id, user ∈ p.computation.instructions ∧
      task.id ∈ user.operands := fun user huser =>
    ComputationFusion.mem_users.mp ((husers user).mp huser)
  have hbase : Replaceable st.parent task.id (order.users task.id) (outputClone p taskRoot st)
      (Upstream p task) := by
    apply replaceable h hst.progress
    · exact fun user huser => (husers user).mp huser
    · exact fun user huser =>
        hremovable.control user (hreads user huser).1 (.inr (hreads user huser).2)
    · exact fun user huser => standsFor_outputClone h hst helements ((husers user).mp huser)
    · exact hremovable.root
  have hdroppable : Droppable st.parent task.id hasSideEffect task := by
    constructor
    · exact hst.progress.old_mem h.mem
    · rfl
    · simp [HloInstruction.isParameter, h.opcode]
    · rw [hst.progress.hasControlDependencies]
      exact hremovable.control task h.mem (.inl rfl)
    · exact hremovable.effect
  have hsome : order.users task.id ≠ [] := by
    intro hnil
    have hperm := order.perm task.id
    rw [hnil] at hperm
    exact hremovable.used hperm.nil_eq.symm
  obtain ⟨parent, hrun, hparent, hgone⟩ := exists_foldlM_eq_ok (fun done c =>
      Replaced st.parent (outputClone p taskRoot st) (Upstream p task)
        (done.map HloInstruction.id) c ∧ (done = order.users task.id → task.id ∉ c.ids))
    (l := order.users task.id) (b := st.parent)
    (f := replaceUser hasSideEffect taskRoot st.externalReplacements)
    ⟨replaced_start hbase, fun hnil => absurd hnil.symm hsome⟩ (by
      rintro done user hinitial c ⟨hc, -⟩
      have huser : user ∈ order.users task.id := hinitial.subset (by simp)
      have hdone : done.map HloInstruction.id ⊆ (order.users task.id).map HloInstruction.id := by
        apply List.map_subset
        intro other hother
        exact hinitial.subset (List.mem_append_left _ hother)
      have hnew : user.id ∉ done.map HloInstruction.id := by
        intro hmem
        have hids := hnodup.sublist (hinitial.sublist.map HloInstruction.id)
        rw [List.map_append, List.nodup_append] at hids
        exact hids.2.2 user.id hmem user.id (by simp) rfl
      have hmapped := hc.mapInstructions
        (f := fun i => if i.id = outputClone p taskRoot st user.id then
          { i with sharding := user.sharding } else i)
        (fun i => by split <;> exact ⟨rfl, rfl, rfl, rfl, rfl⟩)
        (fun i => by split <;> rfl)
      obtain ⟨c', hc', hreplaced, hdropped⟩ :=
        hmapped.replaceInstruction hbase hdone huser hnew hasSideEffect
      refine ⟨c', ?_, ?_, ?_⟩
      · rw [replaceUser_eq (standsFor_outputClone h hst helements ((husers user).mp huser))]
        exact hc'
      · rw [List.map_append, List.map_singleton]
        exact hreplaced
      · intro hall
        apply hdropped task hdroppable
        intro i hi hread
        have hmem := (husers i).mpr (mem_users_of_reads h hst.progress hi hread)
        rw [← List.map_singleton, ← List.map_append, hall]
        exact List.mem_map_of_mem hmem)
  refine ⟨parent, (order.users task.id).map HloInstruction.id, hrun, hparent, ?_, hgone rfl⟩
  intro id
  rw [List.mem_map]
  exact exists_congr fun user => and_congr_left fun _ => husers user

/-- When the call of the task is gone no call names its computation. -/
theorem removeEmbeddedComputation_ok (h : TaskCall p task n computation taskRoot)
    (hst : Progress p task computation st) {done : List ℕ} {parent : HloComputation}
    (hparent : AllReplaced p task taskRoot st done parent) :
    removeEmbeddedComputation parent n = ok parent := by
  unfold removeEmbeddedComputation
  have hnone : (parent.instructions.any fun i => i.opcode == .call n) = false := by
    rw [List.any_eq_false]
    intro j hj
    rw [beq_iff_eq]
    intro hop
    obtain ⟨i, hi, hsame, -⟩ := hparent.replaced.present j hj
    rw [hsame.opcode] at hop
    rcases hst.cases hi with hi | hnew
    · rw [h.caller i hi hop] at hsame
      exact hparent.gone (hsame.id ▸ List.mem_map_of_mem hj)
    · have hlt := (List.getElem?_eq_some_iff.mp h.called).1
      rcases hnew.opcode with ⟨m, hm, hle⟩ | ⟨k, hk⟩
      · rw [hm] at hop
        have := HloOpcode.call.inj hop
        omega
      · rw [hk] at hop
        cases hop
  rw [if_neg (by simp [hnone]), pure_eq]

end replace

section blocked

variable {c c' : HloComputation} {first taskId : ℕ}

/-- The call of the task is there, and something keeps it from being removed. -/
structure Blocked (hasSideEffect : SideEffects) (n taskId : ℕ) (c : HloComputation) : Prop where
  nodup : c.ids.Nodup
  call : ∃ t ∈ c.instructions, t.id = taskId ∧ t.opcode = .call n
  kept : hasSideEffect taskId = true ∨ c.root = taskId ∨ ∃ i ∈ c.instructions,
    (i.id = taskId ∨ taskId ∈ i.operands) ∧ c.hasControlDependencies i = true

/-- Instructions with other annotations, which still read the task, are blocked too. -/
theorem Blocked.mapInstructions (h : Blocked hasSideEffect n taskId c)
    {f : HloInstruction → HloInstruction} (hf : ∀ i, SameOperation i (f i))
    (hreads : ∀ i, taskId ∈ i.operands → taskId ∈ (f i).operands) :
    Blocked hasSideEffect n taskId (c.mapInstructions f) := by
  have hids : (c.mapInstructions f).ids = c.ids := ids_mapInstructions fun i => (hf i).id
  have hmem : ∀ i ∈ c.instructions, f i ∈ (c.mapInstructions f).instructions := fun i hi =>
    List.mem_map_of_mem hi
  constructor
  · rw [hids]
    exact h.nodup
  · obtain ⟨t, ht, hid, hop⟩ := h.call
    exact ⟨f t, hmem t ht, (hf t).id.trans hid, (hf t).opcode.trans hop⟩
  · apply h.kept.imp_right
    apply Or.imp_right
    rintro ⟨i, hi, huses, hcontrol⟩
    refine ⟨f i, hmem i hi, huses.imp (fun hid => (hf i).id.trans hid) (hreads i), ?_⟩
    rw [hasControlDependencies_iff] at hcontrol ⊢
    rw [(hf i).controlPredecessors, (hf i).id]
    apply hcontrol.imp_right
    rintro ⟨j, hj, hpredecessor⟩
    exact ⟨f j, hmem j hj, (hf j).controlPredecessors ▸ hpredecessor⟩

theorem Blocked.removeInstruction (h : Blocked hasSideEffect n taskId c) (hne : first ≠ taskId)
    {i : HloInstruction} (hi : i ∈ c.instructions)
    (hremovable : c.isRemovable hasSideEffect first i = true) :
    Blocked hasSideEffect n taskId (c.removeInstruction i.id) := by
  obtain ⟨hunused, hroot, -, hcontrol, heffect⟩ := isRemovable_iff.mp hremovable
  have hother : ∀ j, c.hasControlDependencies j = true → j.id ≠ i.id ∨ j ∉ c.instructions := by
    intro j hj
    by_contra hboth
    rw [not_or, not_not, not_not] at hboth
    obtain rfl : j = i := List.inj_on_of_nodup_map h.nodup hboth.2 hi hboth.1
    rw [hcontrol] at hj
    cases hj
  have htask : taskId ≠ i.id := by
    rintro rfl
    rcases h.kept with hkept | hkept | ⟨j, hj, hid | hread, hkept⟩
    · exact hne (heffect hkept).symm
    · exact hroot hkept.symm
    · rcases hother j hkept with hnot | hnot
      · exact hnot hid
      · exact hnot hj
    · have huser : j ∈ c.users i.id := List.mem_filter.mpr ⟨hj, by simpa using hread⟩
      rw [hunused] at huser
      cases huser
  constructor
  · exact List.Nodup.sublist (List.filter_sublist.map _) h.nodup
  · obtain ⟨t, ht, rfl, hop⟩ := h.call
    exact ⟨t, mem_removeInstruction.mpr ⟨ht, htask⟩, rfl, hop⟩
  · apply h.kept.imp_right
    apply Or.imp_right
    rintro ⟨j, hj, huses, hkept⟩
    have hji : j.id ≠ i.id := (hother j hkept).resolve_right (not_not_intro hj)
    exact ⟨j, mem_removeInstruction.mpr ⟨hj, hji⟩, huses,
      hasControlDependencies_removeInstruction h.nodup hi hcontrol hkept⟩

theorem Blocked.removeItems (h : Blocked hasSideEffect n taskId c) (hne : first ≠ taskId)
    {fuel : ℕ} {worklist : List ℕ}
    (hrun : removeItems hasSideEffect first fuel worklist c = ok c') :
    Blocked hasSideEffect n taskId c' := by
  induction fuel generalizing worklist c with
  | zero =>
    cases worklist with
    | nil =>
      cases hrun
      exact h
    | cons item worklist => cases hrun
  | succ fuel ih =>
    cases worklist with
    | nil =>
      cases hrun
      exact h
    | cons item worklist =>
      rw [HloComputation.removeItems] at hrun
      split at hrun
      · exact ih h hrun
      · rename_i i hi
        split at hrun
        · rename_i hremovable
          obtain rfl := id_of_instruction hi
          exact ih (h.removeInstruction hne (mem_of_instruction hi) hremovable) hrun
        · exact ih h hrun

theorem Blocked.replaceInstruction (h : Blocked hasSideEffect n taskId c) {user : HloInstruction}
    (hne : user.id ≠ taskId) {x : ℕ}
    (hrun : c.replaceInstruction hasSideEffect user x = ok c') :
    Blocked hasSideEffect n taskId c' := by
  unfold HloComputation.replaceInstruction at hrun
  split at hrun
  · cases hrun
    exact h
  · have hmapped : Blocked hasSideEffect n taskId (c.replaceAllUsesWith user.id x) := by
      apply h.mapInstructions
      · intro i
        split <;> exact ⟨rfl, rfl, rfl, rfl, rfl⟩
      · intro i hread
        split
        · exact hread
        · exact List.mem_map.mpr ⟨taskId, hread, if_neg hne.symm⟩
    have huses : Blocked hasSideEffect n taskId (c.replaceUses user.id x) := by
      refine ⟨hmapped.nodup, hmapped.call, hmapped.kept.imp_right (Or.imp_left fun hroot => ?_)⟩
      have hroot' : c.root = taskId := hroot
      show (if c.root = user.id then x else c.root) = taskId
      rw [if_neg (hroot' ▸ hne.symm), hroot']
    unfold removeInstructionAndUnusedOperands at hrun
    split at hrun
    · exact huses.removeItems hne hrun
    · cases hrun

theorem replaceUser_eq_ok {user : HloInstruction}
    (h : replaceUser hasSideEffect taskRoot st.externalReplacements c user = ok c') :
    ∃ x, StandsFor st taskRoot user x ∧ (c.mapInstructions fun i =>
      if i.id = x then { i with sharding := user.sharding } else i).replaceInstruction
        hasSideEffect user x = ok c' := by
  unfold replaceUser at h
  obtain ⟨index, hindex, h⟩ := bind_eq_ok.mp h
  obtain ⟨element, helement, h⟩ := bind_eq_ok.mp h
  obtain ⟨x, hx, h⟩ := bind_eq_ok.mp h
  have hop : user.opcode = .getTupleElement index := HloInstruction.tupleIndex_eq_ok.mp hindex
  exact ⟨x, ⟨index, element, hop, elementAt_eq_ok.mp helement, deref_eq_ok.mp hx⟩, h⟩

/-- Every user that has been replaced read an element that its part gives. -/
theorem elementsSplit_of_ok (hst : Progress p task computation st)
    (hids : computation.ids.Nodup) (order : UserOrder p.computation) {parent : HloComputation}
    (hrun : (order.users task.id).foldlM
      (replaceUser hasSideEffect taskRoot st.externalReplacements) st.parent = ok parent) :
    ElementsSplit p task computation taskRoot := by
  intro user huser index element i hop helement hi
  obtain ⟨-, -, hall⟩ := foldlM_establishes (P := fun _ => True) (R := fun _ _ => True)
    (Q := fun user _ => ∃ x, StandsFor st taskRoot user x) (fun _ => trivial)
    (fun _ _ _ _ _ => trivial) (fun _ _ _ _ h => h) hrun trivial fun user _ c c' _ hstep =>
      ⟨trivial, trivial, (replaceUser_eq_ok hstep).imp fun _ hx => hx.1⟩
  obtain ⟨x, index', element', hop', helement', hx⟩ :=
    hall user ((order.perm task.id).mem_iff.mpr huser)
  rw [hop] at hop'
  obtain rfl := HloOpcode.getTupleElement.inj hop'
  rw [helement] at helement'
  obtain rfl := Option.some.inj helement'
  obtain ⟨j, hj, hid, hparam, -⟩ := hst.source element x hx
  rw [← hid, HloComputation.instruction_of_mem hids hj] at hi
  exact Option.some.inj hi ▸ hparam

/-- Where the computation of the task can go its call has been removed. -/
theorem removable_of_ok (h : TaskCall p task n computation taskRoot)
    (hst : Progress p task computation st) (order : UserOrder p.computation)
    {parent parent' : HloComputation} (hrun : (order.users task.id).foldlM
      (replaceUser hasSideEffect taskRoot st.externalReplacements) st.parent = ok parent)
    (hremoved : removeEmbeddedComputation parent n = ok parent') :
    Removable hasSideEffect p task := by
  have hgone : ∀ t ∈ parent.instructions, t.opcode ≠ .call n := by
    intro t ht hop
    unfold removeEmbeddedComputation at hremoved
    rw [if_pos (List.any_eq_true.mpr ⟨t, ht, by simp [hop]⟩)] at hremoved
    cases hremoved
  have hblocked : ¬Blocked hasSideEffect n task.id st.parent := by
    intro hblocked
    have hlast := foldlM_invariant (Blocked hasSideEffect n task.id) hrun hblocked (by
      intro user huser c c' hc hstep
      obtain ⟨hmem, hread⟩ :=
        ComputationFusion.mem_users.mp ((order.perm task.id).mem_iff.mp huser)
      have hne : user.id ≠ task.id := by
        intro heq
        have hself := h.hasOperand hmem hread
        rw [heq] at hself
        exact h.acyclic (.single hself)
      obtain ⟨x, -, hstep⟩ := replaceUser_eq_ok hstep
      apply Blocked.replaceInstruction _ hne hstep
      apply hc.mapInstructions
      · intro i
        split <;> exact ⟨rfl, rfl, rfl, rfl, rfl⟩
      · intro i hread
        split <;> exact hread)
    obtain ⟨t, ht, -, hop⟩ := hlast.call
    exact hgone t ht hop
  have hcall : ∃ t ∈ st.parent.instructions, t.id = task.id ∧ t.opcode = .call n :=
    ⟨task, hst.old_mem h.mem, rfl, h.opcode⟩
  constructor
  · intro hnil
    have hnone : order.users task.id = [] := by
      have hperm := order.perm task.id
      rw [hnil] at hperm
      exact hperm.eq_nil
    rw [hnone] at hrun
    obtain rfl : st.parent = parent := ok.inj hrun
    exact hgone task (hst.old_mem h.mem) h.opcode
  · intro hroot
    exact hblocked ⟨hst.nodup, hcall, .inr (.inl (hst.root.trans hroot))⟩
  · intro i hi huses
    by_contra hcontrol
    rw [Bool.not_eq_false] at hcontrol
    apply hblocked
    refine ⟨hst.nodup, hcall, .inr (.inr ⟨i, hst.old_mem hi, huses, ?_⟩)⟩
    rw [hst.hasControlDependencies]
    exact hcontrol
  · by_contra heffect
    rw [Bool.not_eq_false] at heffect
    exact hblocked ⟨hst.nodup, hcall, .inl heffect⟩

end blocked

end TaskSplitter
end MultiMeshJax
