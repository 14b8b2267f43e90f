import MultiMeshJax.TaskSplitter.Parts

/-! The users of a task become the outputs of the new calls, and the call of the task goes. -/
namespace MultiMeshJax
namespace TaskSplitter

open StatusOr CriticalPath HloComputation

/-- What stands for an instruction when the users in the list have been replaced. -/
def standIn (clone : ℕ → ℕ) (done : List ℕ) (id : ℕ) : ℕ := if id ∈ done then clone id else id

/-- Two instructions that differ in their operands and annotations. -/
structure SameOperation (i j : HloInstruction) : Prop where
  id : j.id = i.id
  opcode : j.opcode = i.opcode
  shape : j.shape = i.shape
  offset : j.offset = i.offset
  controlPredecessors : j.controlPredecessors = i.controlPredecessors

/-- A module whose users can be replaced: what `up` holds of is upstream of the task. -/
structure Replaceable (c₀ : HloComputation) (task : ℕ) (users : List HloInstruction)
    (clone : ℕ → ℕ) (up : ℕ → Prop) : Prop where
  nodup : c₀.ids.Nodup
  closed : ∀ i ∈ c₀.instructions, ∀ o ∈ i.operands, o ∈ c₀.ids
  root : c₀.root ∈ c₀.ids
  root_ne : c₀.root ≠ task
  user : ∀ user ∈ users, user ∈ c₀.instructions ∧ user.operands = [task] ∧
    user.isParameter = false ∧ c₀.hasControlDependencies user = false ∧ ¬up user.id
  output : ∀ user ∈ users, clone user.id ∈ c₀.ids ∧ clone user.id ∉ users.map HloInstruction.id ∧
    ¬up (clone user.id) ∧ ∀ g ∈ c₀.instructions, g.id = clone user.id →
      ∀ o ∈ g.operands, o ∉ users.map HloInstruction.id
  upstream : ∀ i ∈ c₀.instructions, up i.id → ∀ o ∈ i.operands, up o
  task : up task

/-- Each instruction is one of before, with other operands. -/
def Present (c₀ : HloComputation) (rename : ℕ → ℕ) (c : HloComputation) : Prop :=
  ∀ j ∈ c.instructions, ∃ i ∈ c₀.instructions, SameOperation i j ∧
    j.operands = i.operands.map rename

/-- The module when some of the users have been replaced. -/
structure Replaced (c₀ : HloComputation) (clone : ℕ → ℕ) (up : ℕ → Prop) (done : List ℕ)
    (c : HloComputation) : Prop where
  present : Present c₀ (standIn clone done) c
  nodup : c.ids.Nodup
  closed : ∀ j ∈ c.instructions, ∀ o ∈ j.operands, o ∈ c.ids
  root : c.root = standIn clone done c₀.root
  root_mem : c.root ∈ c.ids
  only : ∀ id ∈ c₀.ids, id ∉ c.ids → id ∈ done ∨ up id
  gone : ∀ id ∈ done, id ∉ c.ids

section replace

variable {c₀ c : HloComputation} {task : ℕ} {users : List HloInstruction} {clone : ℕ → ℕ}
  {up : ℕ → Prop} {done : List ℕ} {user : HloInstruction}

theorem standIn_of_notMem {id : ℕ} (h : id ∉ done) : standIn clone done id = id := if_neg h

theorem replaced_start (h : Replaceable c₀ task users clone up) : Replaced c₀ clone up [] c₀ := by
  have hstandIn : ∀ id, standIn clone [] id = id := fun id => standIn_of_notMem (by simp)
  constructor
  · intro j hj
    exact ⟨j, hj, ⟨rfl, rfl, rfl, rfl, rfl⟩, (List.map_id'' hstandIn _).symm⟩
  · exact h.nodup
  · exact h.closed
  · exact (hstandIn _).symm
  · exact h.root
  · intro id hid hnot
    exact absurd hid hnot
  · simp

/-- Annotations do not matter. -/
theorem Replaced.mapInstructions (h : Replaced c₀ clone up done c)
    {f : HloInstruction → HloInstruction} (hf : ∀ i, SameOperation i (f i))
    (hoperands : ∀ i, (f i).operands = i.operands) :
    Replaced c₀ clone up done (c.mapInstructions f) := by
  have hids : (c.mapInstructions f).ids = c.ids := ids_mapInstructions fun i => (hf i).id
  constructor
  · intro j hj
    obtain ⟨k, hk, rfl⟩ := List.mem_map.mp hj
    obtain ⟨i, hi, hsame, hmap⟩ := h.present k hk
    have hk' := hf k
    exact ⟨i, hi, ⟨hk'.id.trans hsame.id, hk'.opcode.trans hsame.opcode,
      hk'.shape.trans hsame.shape, hk'.offset.trans hsame.offset,
      hk'.controlPredecessors.trans hsame.controlPredecessors⟩, (hoperands k).trans hmap⟩
  · rw [hids]
    exact h.nodup
  · intro j hj o ho
    obtain ⟨k, hk, rfl⟩ := List.mem_map.mp hj
    rw [hids]
    exact h.closed k hk o (hoperands k ▸ ho)
  · exact h.root
  · rw [hids]
    exact h.root_mem
  · rw [hids]
    exact h.only
  · rw [hids]
    exact h.gone

theorem Present.hasControlDependencies {rename : ℕ → ℕ} (h : Present c₀ rename c)
    {i j : HloInstruction} (hsame : SameOperation i j)
    (hi : c₀.hasControlDependencies i = false) : c.hasControlDependencies j = false := by
  rw [← Bool.not_eq_true, hasControlDependencies_iff] at hi ⊢
  rintro (hpredecessors | ⟨k, hk, hk'⟩)
  · exact hi (.inl (hsame.controlPredecessors ▸ hpredecessors))
  · obtain ⟨k₀, hk₀, hksame, -⟩ := h k hk
    rw [hksame.controlPredecessors, hsame.id] at hk'
    exact hi (.inr ⟨k₀, hk₀, hk'⟩)

/-- The instruction of before that an instruction is. -/
theorem Present.same {rename : ℕ → ℕ} (h : Present c₀ rename c) (hids : c₀.ids.Nodup)
    {i j : HloInstruction} (hi : i ∈ c₀.instructions) (hj : j ∈ c.instructions)
    (hid : j.id = i.id) : SameOperation i j ∧ j.operands = i.operands.map rename := by
  obtain ⟨k, hk, hsame, hmap⟩ := h j hj
  obtain rfl : k = i := List.inj_on_of_nodup_map hids hk hi (hsame.id.symm.trans hid)
  exact ⟨hsame, hmap⟩

/-- What stands for a user is not removed. -/
theorem Replaced.clone_mem (h : Replaced c₀ clone up done c)
    (hbase : Replaceable c₀ task users clone up) (hdone : done ⊆ users.map HloInstruction.id)
    (huser : user ∈ users) : clone user.id ∈ c.ids := by
  obtain ⟨hmem, hnot, hup, -⟩ := hbase.output user huser
  by_contra hgone
  rcases h.only _ hmem hgone with hin | hin
  · exact hnot (hdone hin)
  · exact hup hin

theorem standIn_append (hbase : Replaceable c₀ task users clone up)
    (hdone : done ⊆ users.map HloInstruction.id) (huser : user ∈ users) (hnew : user.id ∉ done)
    (id : ℕ) : standIn clone (done ++ [user.id]) id =
      if standIn clone done id = user.id then clone user.id else standIn clone done id := by
  unfold standIn
  by_cases hmem : id ∈ done
  · have hne : clone id ≠ user.id := by
      intro heq
      obtain ⟨other, hother, rfl⟩ := List.mem_map.mp (hdone hmem)
      apply (hbase.output other hother).2.1
      rw [heq]
      exact List.mem_map_of_mem huser
    simp [hmem, hne]
  · by_cases heq : id = user.id
    · simp [heq, hnew]
    · simp [hmem, heq]

/-- All uses of one more user are replaced. -/
theorem Replaced.replaceUses (h : Replaced c₀ clone up done c)
    (hbase : Replaceable c₀ task users clone up) (hdone : done ⊆ users.map HloInstruction.id)
    (huser : user ∈ users) (hnew : user.id ∉ done) :
    Present c₀ (standIn clone (done ++ [user.id])) (c.replaceUses user.id (clone user.id)) ∧
      (∀ j ∈ (c.replaceUses user.id (clone user.id)).instructions, ∀ o ∈ j.operands,
        o ∈ c.ids ∧ o ≠ user.id) := by
  obtain ⟨hcloneMem, hcloneNot, hcloneUp, hcloneReads⟩ := hbase.output user huser
  have hstandIn := standIn_append hbase hdone huser hnew
  have hself : clone user.id ≠ user.id := by
    intro heq
    apply hcloneNot
    rw [heq]
    exact List.mem_map_of_mem huser
  constructor
  · intro j hj
    obtain ⟨k, hk, rfl⟩ := List.mem_map.mp hj
    obtain ⟨i, hi, hsame, hmap⟩ := h.present k hk
    split
    · rename_i hclone
      -- the new output reads no user
      refine ⟨i, hi, hsame, hmap.trans ?_⟩
      apply List.map_congr_left
      intro o ho
      have hread := hcloneReads i hi (hsame.id.symm.trans hclone) o ho
      have hold : standIn clone done o = o := standIn_of_notMem fun hin => hread (hdone hin)
      rw [hstandIn, hold, if_neg]
      intro heq
      exact hread (heq ▸ List.mem_map_of_mem huser)
    · refine ⟨i, hi, ⟨hsame.id, hsame.opcode, hsame.shape, hsame.offset,
        hsame.controlPredecessors⟩, ?_⟩
      rw [hmap, List.map_map]
      apply List.map_congr_left
      intro o _
      exact (hstandIn o).symm
  · intro j hj o ho
    obtain ⟨k, hk, rfl⟩ := List.mem_map.mp hj
    obtain ⟨i, hi, hsame, hmap⟩ := h.present k hk
    split at ho
    · rename_i hclone
      refine ⟨h.closed k hk o ho, ?_⟩
      rintro rfl
      rw [hmap] at ho
      obtain ⟨o', ho', heq⟩ := List.mem_map.mp ho
      have hread := hcloneReads i hi (hsame.id.symm.trans hclone) o' ho'
      rw [standIn_of_notMem fun hin => hread (hdone hin)] at heq
      exact hread (heq ▸ List.mem_map_of_mem huser)
    · obtain ⟨o', ho', heq⟩ := List.mem_map.mp ho
      split at heq
      · rw [← heq]
        exact ⟨h.clone_mem hbase hdone huser, hself⟩
      · rename_i hne
        rw [← heq]
        exact ⟨h.closed k hk o' ho', hne⟩

/-- What is upstream is not a user, and so is not renamed. -/
theorem Replaceable.standIn_of_up (hbase : Replaceable c₀ task users clone up)
    (hdone : done ⊆ users.map HloInstruction.id) {id : ℕ} (hid : up id) :
    standIn clone done id = id := by
  apply standIn_of_notMem
  intro hin
  obtain ⟨other, hother, rfl⟩ := List.mem_map.mp (hdone hin)
  exact (hbase.user other hother).2.2.2.2 hid

/-- The call of the task can go once all that uses it has been replaced. -/
structure Droppable (c₀ : HloComputation) (task : ℕ) (hasSideEffect : SideEffects)
    (t : HloInstruction) : Prop where
  mem : t ∈ c₀.instructions
  id : t.id = task
  parameter : t.isParameter = false
  control : c₀.hasControlDependencies t = false
  effect : hasSideEffect task = false

/-- No stand-in is the task. -/
theorem Replaceable.standIn_ne (hbase : Replaceable c₀ task users clone up)
    (hdone : done ⊆ users.map HloInstruction.id) {id : ℕ} (hid : id ≠ task) :
    standIn clone done id ≠ task := by
  unfold standIn
  split
  · rename_i hin
    obtain ⟨other, hother, rfl⟩ := List.mem_map.mp (hdone hin)
    intro heq
    exact (hbase.output other hother).2.2.1 (heq ▸ hbase.task)
  · exact hid

/-- When all the users of the task are gone its call can be removed. -/
theorem Replaceable.isRemovable (hbase : Replaceable c₀ task users clone up)
    (hdone : done ⊆ users.map HloInstruction.id) {hasSideEffect : SideEffects}
    {t t' : HloInstruction} (ht : Droppable c₀ task hasSideEffect t)
    (husers : ∀ i ∈ c₀.instructions, task ∈ i.operands → i.id ∈ done)
    (hpresent : Present c₀ (standIn clone done) c) (hgone : ∀ id ∈ done, id ∉ c.ids)
    (hroot : c.root = standIn clone done c₀.root) (ht' : t' ∈ c.instructions) (hid : t'.id = task)
    {first : ℕ} : c.isRemovable hasSideEffect first t' = true := by
  obtain ⟨hsame, -⟩ := hpresent.same hbase.nodup ht.mem ht' (hid.trans ht.id.symm)
  apply isRemovable_iff.mpr
  refine ⟨?_, ?_, ?_, hpresent.hasControlDependencies hsame ht.control, ?_⟩
  · rw [HloComputation.users, List.filter_eq_nil_iff]
    intro j hj hread
    obtain ⟨i, hi, hisame, hmap⟩ := hpresent j hj
    have htask : task ∈ i.operands := by
      have hread' : t'.id ∈ j.operands := by simpa using hread
      rw [hid, hmap] at hread'
      obtain ⟨o, ho, heq⟩ := List.mem_map.mp hread'
      by_cases hne : o = task
      · exact hne ▸ ho
      · exact absurd heq (hbase.standIn_ne hdone hne)
    apply hgone _ (husers i hi htask)
    rw [← hisame.id]
    exact List.mem_map_of_mem hj
  · rw [hid, hroot]
    exact (hbase.standIn_ne hdone hbase.root_ne).symm
  · have hparam := ht.parameter
    unfold HloInstruction.isParameter at hparam ⊢
    rwa [hsame.opcode]
  · intro heffect
    rw [hid, ht.effect] at heffect
    cases heffect

/-- A user is replaced, and the call of the task goes with the last one. -/
theorem Replaced.replaceInstruction (h : Replaced c₀ clone up done c)
    (hbase : Replaceable c₀ task users clone up) (hdone : done ⊆ users.map HloInstruction.id)
    (huser : user ∈ users) (hnew : user.id ∉ done) (hasSideEffect : SideEffects) :
    ∃ c', c.replaceInstruction hasSideEffect user (clone user.id) = ok c' ∧
      Replaced c₀ clone up (done ++ [user.id]) c' ∧
        ∀ t, Droppable c₀ task hasSideEffect t →
          (∀ i ∈ c₀.instructions, task ∈ i.operands → i.id ∈ done ++ [user.id]) →
            task ∉ c'.ids := by
  obtain ⟨huserMem, huserOperands, huserParam, huserControl, huserUp⟩ := hbase.user user huser
  obtain ⟨hcloneMem, hcloneNot, hcloneUp, -⟩ := hbase.output user huser
  obtain ⟨hpresent, hoperands⟩ := h.replaceUses hbase hdone huser hnew
  have hdone' : done ++ [user.id] ⊆ users.map HloInstruction.id := by
    apply List.append_subset.mpr ⟨hdone, ?_⟩
    simpa using ⟨user, huser, rfl⟩
  have hself : clone user.id ≠ user.id := by
    intro heq
    apply hcloneNot
    rw [heq]
    exact List.mem_map_of_mem huser
  have hcontrol : c.hasControlDependencies user = false :=
    h.present.hasControlDependencies ⟨rfl, rfl, rfl, rfl, rfl⟩ huserControl
  unfold HloComputation.replaceInstruction
  rw [if_neg (by simp [hcontrol])]
  have hids : (c.replaceUses user.id (clone user.id)).ids = c.ids := ids_replaceAllUsesWith ..
  have hroot : (c.replaceUses user.id (clone user.id)).root =
      if c.root = user.id then clone user.id else c.root := rfl
  generalize c.replaceUses user.id (clone user.id) = c₂ at hpresent hoperands hids hroot
  have hnodup : c₂.ids.Nodup := hids ▸ h.nodup
  have hrootNe : c₂.root ≠ user.id := by
    rw [hroot]
    split
    · exact hself
    · assumption
  -- the user is there, nothing uses it, and it reads the task
  obtain ⟨u, hu, huid⟩ : ∃ u ∈ c₂.instructions, u.id = user.id := by
    have hin : user.id ∈ c.ids := by
      by_contra hgone
      rcases h.only user.id (List.mem_map_of_mem huserMem) hgone with hin | hin
      · exact hnew hin
      · exact huserUp hin
    rw [← hids] at hin
    exact List.mem_map.mp hin
  obtain ⟨husame, humap⟩ := hpresent.same hbase.nodup huserMem hu huid
  rw [huserOperands, List.map_singleton, hbase.standIn_of_up hdone' hbase.task] at humap
  have hunused : c₂.users user.id = [] := by
    rw [HloComputation.users, List.filter_eq_nil_iff]
    intro j hj hread
    exact (hoperands j hj user.id (by simpa using hread)).2 rfl
  have hremovable : ∀ i, SameOperation user i → c₂.isRemovable hasSideEffect user.id i = true := by
    intro i hsame
    refine isRemovable_iff.mpr ⟨hsame.id ▸ hunused, hsame.id ▸ hrootNe.symm, ?_,
      hpresent.hasControlDependencies hsame huserControl, fun _ => hsame.id⟩
    unfold HloInstruction.isParameter at huserParam ⊢
    rwa [hsame.opcode]
  unfold removeInstructionAndUnusedOperands
  rw [if_pos (hremovable user ⟨rfl, rfl, rfl, rfl, rfl⟩)]
  have hfind : c₂.instruction user.id = some u := huid ▸ instruction_of_mem hnodup hu
  rw [removeItems_cons hfind (hremovable u husame), List.nil_append, humap]
  have hcount := numOperands_removeInstruction hu
  rw [huid, humap, List.length_singleton] at hcount
  have hmem₃ : ∀ {id}, id ∈ c₂.ids → id ≠ user.id → id ∈ (c₂.removeInstruction user.id).ids := by
    intro id hid hne
    obtain ⟨j, hj, rfl⟩ := List.mem_map.mp hid
    exact List.mem_map_of_mem (mem_removeInstruction.mpr ⟨hj, hne⟩)
  obtain ⟨c', hrun, hc'⟩ : ∃ c', removeItems hasSideEffect user.id c₂.numOperands [task]
      (c₂.removeInstruction user.id) = ok c' ∧ RemovedFrom up (c₂.removeInstruction user.id) c' := by
    apply removeItems_removedFrom
    · rw [List.length_singleton]
      omega
    · simpa using hbase.task
    · intro j hj hup o ho
      obtain ⟨i, hi, hsame, hmap⟩ := hpresent j (mem_removeInstruction.mp hj).1
      rw [hmap] at ho
      obtain ⟨o', ho', rfl⟩ := List.mem_map.mp ho
      have hup' := hbase.upstream i hi (hsame.id ▸ hup) o' ho'
      rw [hbase.standIn_of_up hdone' hup']
      exact hup'
  have hrootEq : c₂.root = standIn clone (done ++ [user.id]) c₀.root := by
    rw [hroot, standIn_append hbase hdone huser hnew, h.root]
  have hgone₃ : ∀ id ∈ done ++ [user.id], id ∉ (c₂.removeInstruction user.id).ids := by
    intro id hid hin
    obtain ⟨j, hj, rfl⟩ := List.mem_map.mp hin
    obtain ⟨hj₂, hne⟩ := mem_removeInstruction.mp hj
    rcases List.mem_append.mp hid with hid | hid
    · apply h.gone _ hid
      rw [← hids]
      exact List.mem_map_of_mem hj₂
    · exact hne (List.mem_singleton.mp hid)
  refine ⟨c', hrun, ?_, ?_⟩
  · constructor
    · intro j hj
      exact hpresent j (mem_removeInstruction.mp (hc'.sublist.subset hj)).1
    · exact List.Nodup.sublist
        ((hc'.sublist.trans List.filter_sublist).map HloInstruction.id) hnodup
    · intro j hj o ho
      have hj₂ := (mem_removeInstruction.mp (hc'.sublist.subset hj)).1
      obtain ⟨hin, hne⟩ := hoperands j hj₂ o ho
      exact hc'.closed j hj o ho (hmem₃ (hids ▸ hin) hne)
    · rw [hc'.root]
      exact hrootEq
    · rw [hc'.root]
      apply hc'.root_kept
      apply hmem₃ _ hrootNe
      show c₂.root ∈ c₂.ids
      rw [hids, hroot]
      split
      · exact h.clone_mem hbase hdone huser
      · exact h.root_mem
    · intro id hid hgone
      by_cases hin : id ∈ (c₂.removeInstruction user.id).ids
      · obtain ⟨j, hj, rfl⟩ := List.mem_map.mp hin
        exact .inr (hc'.only j hj hgone)
      · by_cases heq : id = user.id
        · exact .inl (by simp [heq])
        · have hold : id ∉ c.ids := fun hmem => hin (hmem₃ (hids ▸ hmem) heq)
          exact (h.only id hid hold).imp_left (List.mem_append_left _)
    · intro id hid hin
      exact hgone₃ id hid (hc'.ids hin)
  · intro t ht husers hin
    obtain ⟨t₃, ht₃, hid₃⟩ := List.mem_map.mp (hc'.ids hin)
    have hnodup₃ : (c₂.removeInstruction user.id).ids.Nodup :=
      hnodup.sublist (List.filter_sublist.map HloInstruction.id)
    have hfind₃ : (c₂.removeInstruction user.id).instruction task = some t₃ :=
      hid₃ ▸ instruction_of_mem hnodup₃ ht₃
    apply removeItems_first hfind₃ _ hrun hin
    have hpresent₃ : Present c₀ (standIn clone (done ++ [user.id]))
        (c₂.removeInstruction user.id) := fun j hj => hpresent j (mem_removeInstruction.mp hj).1
    exact hbase.isRemovable hdone' ht husers hpresent₃ hgone₃ hrootEq ht₃ hid₃

end replace

end TaskSplitter
end MultiMeshJax
