import MultiMeshJax.ComputationFusion.Parent
import MultiMeshJax.ComputationFusion.Selection

/-! The rounds of `Visit` end: each that finds a match leaves fewer calls. -/
namespace MultiMeshJax
namespace ComputationFusion

open StatusOr Relation

def callIds (c : HloComputation) : List ℕ :=
  (c.instructions.filter HloInstruction.isCall).map HloInstruction.id

def numCalls (p : TaskProgram) : ℕ := (callIds p.computation).length

theorem callIds_mapInstructions {c : HloComputation} {f : HloInstruction → HloInstruction}
    (hid : ∀ i, (f i).id = i.id) (hopcode : ∀ i, (f i).opcode = i.opcode) :
    callIds (c.mapInstructions f) = callIds c := by
  unfold callIds HloComputation.mapInstructions
  rw [List.filter_map, List.map_map]
  have hcall : HloInstruction.isCall ∘ f = HloInstruction.isCall := by
    funext i
    simp [HloInstruction.isCall, hopcode]
  have hids : HloInstruction.id ∘ f = HloInstruction.id := funext hid
  rw [hcall, hids]

theorem callIds_append (c : HloComputation) (i : HloInstruction) :
    callIds (append c i) = callIds c ++ if i.isCall = true then [i.id] else [] := by
  unfold callIds append
  rw [List.filter_append, List.map_append]
  split
  · rename_i h
    simp [h]
  · rename_i h
    simp [h]

section origin

variable {p : TaskProgram} {calls : List ℕ} {newCall : ℕ} {c c' : HloComputation}

/-- A computation in which everything older than the new call comes from the program, and
what is newer is the call or an output of it. -/
structure From (p : TaskProgram) (newCall : ℕ) (c : HloComputation) : Prop where
  nodup : c.ids.Nodup
  calls : (callIds c).Sublist (callIds p.computation ++ [newCall])
  opcode : ∀ j ∈ c.instructions, ∀ target, j.opcode = .customCall target →
    ∃ i ∈ p.computation.instructions, i.id = j.id ∧ i.opcode = j.opcode
  operands : ∀ j ∈ c.instructions, ∀ o ∈ j.operands, o < newCall →
    ∃ i ∈ p.computation.instructions, i.isTask = j.isTask ∧
      i.isGetTupleElement = j.isGetTupleElement ∧ o ∈ i.operands

/-- The instructions that are left come from where they came from. -/
theorem From.removeInstruction (h : From p newCall c) (id : ℕ) :
    From p newCall (c.removeInstruction id) where
  nodup := h.nodup.sublist ((List.filter_sublist).map HloInstruction.id)
  calls := by
    apply List.Sublist.trans _ h.calls
    exact (List.Sublist.filter _ List.filter_sublist).map HloInstruction.id
  opcode j hj := h.opcode j (List.mem_of_mem_filter hj)
  operands j hj := h.operands j (List.mem_of_mem_filter hj)

/-- Changes of the operands to newer instructions. -/
theorem From.mapInstructions (h : From p newCall c) {f : HloInstruction → HloInstruction}
    (hid : ∀ i, (f i).id = i.id) (hopcode : ∀ i, (f i).opcode = i.opcode)
    (hoperands : ∀ i, ∀ o ∈ (f i).operands, o ∈ i.operands ∨ newCall ≤ o) :
    From p newCall (c.mapInstructions f) where
  nodup := by
    rw [HloComputation.ids_mapInstructions hid]
    exact h.nodup
  calls := by
    rw [callIds_mapInstructions hid hopcode]
    exact h.calls
  opcode j hj target hop := by
    obtain ⟨i, hi, rfl⟩ := List.mem_map.mp hj
    rw [hopcode] at hop ⊢
    rw [hid]
    exact h.opcode i hi target hop
  operands j hj o ho hlt := by
    obtain ⟨i, hi, rfl⟩ := List.mem_map.mp hj
    have hsame : (f i).isTask = i.isTask ∧ (f i).isGetTupleElement = i.isGetTupleElement := by
      simp [HloInstruction.isTask, HloInstruction.isGetTupleElement, hopcode]
    rw [hsame.1, hsame.2]
    rcases hoperands i o ho with ho | ho
    · exact h.operands i hi o ho hlt
    · omega

/-- A new output of the new call. -/
theorem From.append_output (h : From p newCall c) {i : HloInstruction} (hnew : i.id ∉ c.ids)
    {k : ℕ} (hop : i.opcode = .getTupleElement k) (hoperands : i.operands = [newCall]) :
    From p newCall (append c i) where
  nodup := by
    have hids : (append c i).ids = c.ids ++ [i.id] := by simp [append, HloComputation.ids]
    rw [hids, List.nodup_append]
    refine ⟨h.nodup, by simp, ?_⟩
    intro id hid id' hid' heq
    exact hnew (by rwa [← List.mem_singleton.mp hid', ← heq])
  calls := by
    have hnot : i.isCall = false := by simp [HloInstruction.isCall, hop]
    rw [callIds_append, hnot, if_neg Bool.false_ne_true, List.append_nil]
    exact h.calls
  opcode j hj target htarget := by
    rcases List.mem_append.mp hj with hj | hj
    · exact h.opcode j hj target htarget
    · rw [List.mem_singleton.mp hj, hop] at htarget
      cases htarget
  operands j hj o ho hlt := by
    rcases List.mem_append.mp hj with hj | hj
    · exact h.operands j hj o ho hlt
    · rw [List.mem_singleton.mp hj, hoperands] at ho
      have := List.mem_singleton.mp ho
      omega

theorem isCall_of_calledComputation {i : HloInstruction} {comp : HloComputation}
    (h : calledComputation p i = ok comp) : i.isCall = true := by
  obtain ⟨n, hop, -⟩ := calledComputation_eq_ok.mp h
  simp [HloInstruction.isCall, hop]

/-- What is needed from outside is an operand of one of the calls. -/
def NeededByCalls (p : TaskProgram) (st : Collected) : Prop :=
  ∀ operand ∈ st.parametersNeeded, ∃ i ∈ p.computation.instructions, i.isCall = true ∧
    operand ∈ i.operands

theorem collectCall_needed {st st' : Collected} {id : ℕ} (h : NeededByCalls p st)
    (hrun : collectCall p calls st id = ok st') :
    NeededByCalls p st' ∧ id ∈ callIds p.computation := by
  unfold collectCall at hrun
  obtain ⟨call, hcall, hrun⟩ := bind_eq_ok.mp hrun
  obtain ⟨comp, hcomp, hrun⟩ := bind_eq_ok.mp hrun
  obtain ⟨st₁, hoperands, houtputs⟩ := bind_eq_ok.mp hrun
  have hcall := deref_eq_ok.mp hcall
  have hmem := HloComputation.mem_of_instruction hcall
  have hisCall := isCall_of_calledComputation hcomp
  have h₁ : NeededByCalls p st₁ := by
    apply foldlM_invariant _ hoperands h
    intro operand hoperand st st' hst hstep
    unfold collectOperand at hstep
    split at hstep
    · obtain rfl := ok.inj hstep
      exact hst
    · obtain ⟨param, -, hstep⟩ := bind_eq_ok.mp hstep
      obtain rfl := ok.inj hstep
      intro other hother
      dsimp only at hother
      split at hother
      · rcases List.mem_append.mp hother with hother | hother
        · exact hst other hother
        · rw [List.mem_singleton.mp hother]
          have hget := List.mem_zipIdx_iff_getElem?.mp hoperand
          exact ⟨call, hmem, hisCall, List.mem_of_getElem? hget⟩
      · exact hst other hother
  constructor
  · apply foldlM_invariant _ houtputs h₁
    intro user _ st st' hst hstep
    unfold collectOutput at hstep
    dsimp only at hstep
    split at hstep
    · obtain ⟨root, -, hstep⟩ := bind_eq_ok.mp hstep
      obtain rfl := ok.inj hstep
      exact hst
    · obtain rfl := ok.inj hstep
      exact hst
  · rw [← HloComputation.id_of_instruction hcall]
    exact List.mem_map_of_mem (List.mem_filter.mpr ⟨hmem, hisCall⟩)

theorem collectCalls_needed {st : Collected}
    (hrun : calls.foldlM (collectCall p calls) {} = ok st) :
    NeededByCalls p st ∧ ∀ id ∈ calls, id ∈ callIds p.computation := by
  apply foldlM_prefix (fun done st => NeededByCalls p st ∧ ∀ id ∈ done, id ∈ callIds p.computation)
    hrun
  · constructor
    · intro operand hoperand
      cases hoperand
    · intro id hid
      cases hid
  · rintro done id - st st' ⟨hst, hdone⟩ hstep
    obtain ⟨hst', hid⟩ := collectCall_needed hst hstep
    refine ⟨hst', ?_⟩
    intro other hother
    rcases List.mem_append.mp hother with hother | hother
    · exact hdone other hother
    · rw [List.mem_singleton.mp hother]
      exact hid

/-- The new call reads what the calls read. -/
theorem from_start (hids : p.computation.ids.Nodup) (hnew : p.freshId < newCall)
    {call : HloInstruction} (hid : call.id = newCall) (hop : call.isCall = true)
    (hoperands : ∀ o ∈ call.operands, ∃ i ∈ p.computation.instructions, i.isCall = true ∧
      o ∈ i.operands) :
    From p newCall (append (clearControlDependencies p.computation calls) call) := by
  have hlist : ∀ j ∈ (append (clearControlDependencies p.computation calls) call).instructions,
      j = call ∨ ∃ i ∈ p.computation.instructions, j.id = i.id ∧ j.opcode = i.opcode ∧
        j.operands = i.operands := by
    intro j hj
    rcases List.mem_append.mp hj with hj | hj
    · obtain ⟨i, hi, rfl⟩ := List.mem_map.mp hj
      exact .inr ⟨i, hi, rfl, rfl, rfl⟩
    · exact .inl (List.mem_singleton.mp hj)
  have hkind : ∀ i : HloInstruction, i.isCall = true → i.isTask = true ∧
      i.isGetTupleElement = false := by
    intro i hi
    unfold HloInstruction.isCall at hi
    unfold HloInstruction.isTask HloInstruction.isGetTupleElement
    cases hop : i.opcode <;> simp_all
  constructor
  · have hids' : (append (clearControlDependencies p.computation calls) call).ids =
        p.computation.ids ++ [call.id] := by
      simp [append, clearControlDependencies, HloComputation.ids, HloComputation.mapInstructions]
    rw [hids', List.nodup_append]
    refine ⟨hids, by simp, ?_⟩
    intro id hmem id' hid' heq
    have := lt_freshId hmem
    have hid'' := List.mem_singleton.mp hid'
    omega
  · have hsame : callIds (clearControlDependencies p.computation calls) = callIds p.computation :=
      callIds_mapInstructions (fun _ => rfl) fun _ => rfl
    rw [callIds_append, hsame, if_pos hop, hid]
  · intro j hj target htarget
    rcases hlist j hj with rfl | ⟨i, hi, hjid, hjop, -⟩
    · simp [HloInstruction.isCall, htarget] at hop
    · exact ⟨i, hi, hjid.symm, hjop.symm⟩
  · intro j hj o ho _
    rcases hlist j hj with rfl | ⟨i, hi, -, hjop, hjoperands⟩
    · obtain ⟨i, hi, hicall, hio⟩ := hoperands o ho
      obtain ⟨htask, hgte⟩ := hkind i hicall
      obtain ⟨htask', hgte'⟩ := hkind j hop
      exact ⟨i, hi, by rw [htask, htask'], by rw [hgte, hgte'], hio⟩
    · refine ⟨i, hi, ?_, ?_, hjoperands ▸ ho⟩
      · simp [HloInstruction.isTask, hjop]
      · simp [HloInstruction.isGetTupleElement, hjop]

/-- A parent whose ids are older than its next id. -/
structure FreshFrom (p : TaskProgram) (newCall : ℕ) (parent : Parent) : Prop where
  origin : From p newCall parent.computation
  fresh : ∀ id ∈ parent.computation.ids, id < parent.nextId
  newer : newCall < parent.nextId

theorem replaceOutput_from {parent parent' : Parent} (h : FreshFrom p newCall parent)
    {root : (ℕ × ℕ) × ℕ} (hrun : replaceOutput newCall parent root = ok parent') :
    FreshFrom p newCall parent' := by
  obtain ⟨new, hid, hop, hoperands, hnext, -, hlist, -⟩ := replaceOutput_eq_ok hrun
  have hmapped : parent'.computation.instructions =
      ((append parent.computation new).mapInstructions
        (replaceIn root.1.1 parent.nextId)).instructions := hlist
  have hnew : new.id ∉ parent.computation.ids := by
    intro hmem
    exact (h.fresh new.id hmem).ne hid
  have hfrom : From p newCall ((append parent.computation new).mapInstructions
      (replaceIn root.1.1 parent.nextId)) := by
    apply (h.origin.append_output hnew hop hoperands).mapInstructions (replaceIn_id _ _)
    · intro i
      unfold replaceIn
      split <;> rfl
    · intro i o ho
      unfold replaceIn at ho
      split at ho
      · exact .inl ho
      · obtain ⟨o', ho', rfl⟩ := List.mem_map.mp ho
        split
        · exact .inr h.newer.le
        · exact .inl ho'
  refine ⟨⟨?_, ?_, ?_, ?_⟩, ?_, ?_⟩
  · unfold HloComputation.ids
    rw [hmapped]
    exact hfrom.nodup
  · unfold callIds
    rw [hmapped]
    exact hfrom.calls
  · rw [hmapped]
    exact hfrom.opcode
  · rw [hmapped]
    exact hfrom.operands
  · intro id hmem
    unfold HloComputation.ids at hmem
    rw [hlist, List.map_map] at hmem
    obtain ⟨i, hi, rfl⟩ := List.mem_map.mp hmem
    rw [Function.comp_apply, replaceIn_id, hnext]
    rcases List.mem_append.mp hi with hi | hi
    · exact (h.fresh i.id (List.mem_map_of_mem hi)).trans (Nat.lt_succ_self _)
    · rw [List.mem_singleton.mp hi, hid]
      exact Nat.lt_succ_self _
  · rw [hnext]
    exact h.newer.trans (Nat.lt_succ_self _)

theorem removeCall_from (h : From p newCall c) {id : ℕ} (hrun : removeCall c id = ok c') :
    From p newCall c' ∧ c'.ids ⊆ c.ids ∧ id ∉ c'.ids := by
  unfold removeCall at hrun
  obtain ⟨c₁, houtputs, hrun⟩ := bind_eq_ok.mp hrun
  have hsubset : ∀ (c : HloComputation) (removed : ℕ), (c.removeInstruction removed).ids ⊆ c.ids :=
    fun c removed => ((List.filter_sublist).map HloInstruction.id).subset
  have h₁ : From p newCall c₁ ∧ c₁.ids ⊆ c.ids := by
    apply foldlM_invariant (fun c₁ => From p newCall c₁ ∧ c₁.ids ⊆ c.ids) houtputs
      ⟨h, List.Subset.refl _⟩
    rintro user _ c₁ c₂ ⟨hfrom, hsub⟩ hstep
    unfold removeOutput at hstep
    split at hstep
    · cases hstep
    · split at hstep
      · cases hstep
      · obtain rfl := ok.inj hstep
        exact ⟨hfrom.removeInstruction _, List.Subset.trans (hsubset c₁ _) hsub⟩
  split at hrun
  · cases hrun
  · obtain rfl := ok.inj hrun
    refine ⟨h₁.1.removeInstruction id, List.Subset.trans (hsubset c₁ id) h₁.2, ?_⟩
    intro hmem
    obtain ⟨i, hi, heq⟩ := List.mem_map.mp hmem
    have hne := (List.mem_filter.mp hi).2
    simp [heq] at hne

theorem removeCalls_from (h : From p newCall c) {ids : List ℕ}
    (hrun : ids.foldlM removeCall c = ok c') : From p newCall c' ∧ ∀ id ∈ ids, id ∉ c'.ids := by
  apply foldlM_prefix (fun done c => From p newCall c ∧ ∀ id ∈ done, id ∉ c.ids) hrun
  · refine ⟨h, ?_⟩
    intro id hid
    cases hid
  · rintro done id - c c' ⟨hfrom, hdone⟩ hstep
    obtain ⟨hfrom', hsubset, hid⟩ := removeCall_from hfrom hstep
    refine ⟨hfrom', ?_⟩
    intro other hother
    rcases List.mem_append.mp hother with hother | hother
    · exact fun hmem => hdone other hother (hsubset hmem)
    · rw [List.mem_singleton.mp hother]
      exact hid

/-- A fusion puts one call in the place of the calls. -/
theorem fuseCalls_from (hids : p.computation.ids.Nodup) {p' : TaskProgram}
    (hrun : fuseCalls p calls = ok (p', newCall)) :
    From p newCall p'.computation ∧ p.freshId < newCall ∧
      ∀ id ∈ calls, id ∈ callIds p.computation ∧ id ∉ callIds p'.computation := by
  unfold fuseCalls at hrun
  split at hrun
  · cases hrun
  rename_i front rest
  obtain ⟨first, -, hrun⟩ := bind_eq_ok.mp hrun
  obtain ⟨st, hst, hrun⟩ := bind_eq_ok.mp hrun
  obtain ⟨⟨fused, shape, n⟩, hbuild, hrun⟩ := bind_eq_ok.mp hrun
  obtain ⟨parent, hparent, hrun⟩ := bind_eq_ok.mp hrun
  obtain ⟨c, hremove, hrun⟩ := bind_eq_ok.mp hrun
  obtain ⟨rfl, rfl⟩ : _ ∧ _ := by simpa using ok.inj hrun
  obtain ⟨hneeded, hcalls⟩ := collectCalls_needed hst
  have hnew := buildFused_fresh hbuild
  set call : HloInstruction :=
    { id := n, opcode := .call p.called.length, operands := st.parametersNeeded
      shape := shape, color := first.color }
  have hstart : FreshFrom p n
      ⟨append (clearControlDependencies p.computation (front :: rest)) call, n + 1⟩ := by
    refine ⟨from_start hids hnew rfl rfl hneeded, ?_, Nat.lt_succ_self n⟩
    intro id hmem
    have hmem' : id ∈ p.computation.ids ∨ id = n := by
      simpa [append, HloComputation.ids, clearControlDependencies, HloComputation.mapInstructions]
        using hmem
    show id < n + 1
    rcases hmem' with hmem' | rfl
    · exact ((lt_freshId hmem').trans hnew).trans (Nat.lt_succ_self _)
    · exact Nat.lt_succ_self _
  have hreplaced := foldlM_invariant _ hparent hstart fun root _ _ _ h hstep =>
    replaceOutput_from h hstep
  obtain ⟨hfrom, hgone⟩ := removeCalls_from hreplaced.origin hremove
  have hadd := @addControlDependency_fields n
    (controlPredecessors p.computation (front :: rest))
    (controlSuccessors p.computation (front :: rest))
  refine ⟨hfrom.mapInstructions (fun i => (hadd i).1) (fun i => (hadd i).2.1)
    fun i o ho => .inl ((hadd i).2.2.2.2 ▸ ho), hnew, ?_⟩
  intro id hid
  refine ⟨hcalls id hid, ?_⟩
  intro hmem
  unfold addControlDependencies at hmem
  rw [callIds_mapInstructions (fun i => (hadd i).1) fun i => (hadd i).2.1] at hmem
  obtain ⟨i, hi, rfl⟩ := List.mem_map.mp hmem
  exact hgone i.id (List.mem_reverse.mpr hid) (List.mem_map_of_mem (List.mem_of_mem_filter hi))

theorem numCalls_fuseCalls (hids : p.computation.ids.Nodup) (hcalls : calls.Nodup)
    {p' : TaskProgram} (hrun : fuseCalls p calls = ok (p', newCall)) :
    numCalls p' + calls.length ≤ numCalls p + 1 := by
  obtain ⟨hfrom, -, hids'⟩ := fuseCalls_from hids hrun
  have hleft : ((callIds p'.computation).filter fun id => !calls.contains id) =
      callIds p'.computation := by
    rw [List.filter_eq_self]
    intro id hid
    have hnot : id ∉ calls := fun hmem => (hids' id hmem).2 hid
    simpa using hnot
  have hsub := (hfrom.calls.filter fun id => !calls.contains id).length_le
  rw [hleft, List.filter_append, List.length_append] at hsub
  have hone := List.length_filter_le (fun id => !calls.contains id) [newCall]
  have hmem : calls.length ≤ ((callIds p.computation).filter fun id => calls.contains id).length := by
    apply (List.subperm_of_subset hcalls _).length_le
    intro id hid
    simpa using ⟨(hids' id hid).1, hid⟩
  have hsplit := List.length_eq_length_filter_add (l := callIds p.computation)
    fun id => calls.contains id
  unfold numCalls
  rw [List.length_singleton] at hone
  omega

end origin

section rounds

variable {p : TaskProgram}

/-- A computation of task calls: the ids are different, and where elements are taken from a
custom call no task uses it. -/
structure TaskGraph (p : TaskProgram) : Prop where
  distinct : p.computation.ids.Nodup
  customCalls : ColorDfs.CustomCallsTaken p.computation

theorem TaskGraph.fuseCalls (hp : TaskGraph p) {calls : List ℕ} {p' : TaskProgram} {newCall : ℕ}
    (hrun : fuseCalls p calls = ok (p', newCall)) : TaskGraph p' := by
  obtain ⟨hfrom, hnew, -⟩ := fuseCalls_from hp.distinct hrun
  refine ⟨hfrom.nodup, ?_⟩
  intro source i target hi hop gte hgte hisGte user huser
  obtain ⟨hgteMem, hgteOperand⟩ := mem_users.mp hgte
  obtain ⟨huserMem, huserOperand⟩ := mem_users.mp huser
  obtain ⟨old, hold, hid, hopcode⟩ :=
    hfrom.opcode i (HloComputation.mem_of_instruction hi) target hop
  rw [HloComputation.id_of_instruction hi] at hid
  have hlt : source < newCall := by
    have hmem : source ∈ p.computation.ids := hid ▸ List.mem_map_of_mem hold
    exact (lt_freshId hmem).trans hnew
  obtain ⟨gte', hgteMem', -, hisGte', hgteOperand'⟩ :=
    hfrom.operands gte hgteMem source hgteOperand hlt
  obtain ⟨user', huserMem', htask, -, huserOperand'⟩ :=
    hfrom.operands user huserMem source huserOperand hlt
  rw [← htask]
  apply hp.customCalls source old target _ (hopcode.trans hop) gte'
    (mem_users.mpr ⟨hgteMem', hgteOperand'⟩) (hisGte'.trans hisGte) user'
    (mem_users.mpr ⟨huserMem', huserOperand'⟩)
  rw [← hid]
  exact HloComputation.instruction_of_mem hp.distinct hold

theorem fuseSets_keeps {v : List HloInstruction} {sets : List (List HloInstruction)}
    (hp : TaskGraph p) (hnodup : (sets.flatten.map HloInstruction.id).Nodup) {p' : TaskProgram}
    (hrun : sets.foldlM (fuseSet v) p = ok p') :
    TaskGraph p' ∧ numCalls p' + (sets.map List.length).sum ≤ numCalls p + sets.length := by
  apply foldlM_prefix (fun done q => TaskGraph q ∧
    numCalls q + (done.map List.length).sum ≤ numCalls p + done.length) hrun
  · exact ⟨hp, by simp⟩
  · rintro done set ⟨rest, hrest⟩ q q' ⟨hq, hle⟩ hstep
    unfold fuseSet at hstep
    obtain ⟨⟨fused, newCall⟩, hfuse, hstep⟩ := bind_eq_ok.mp hstep
    obtain rfl := ok.inj hstep
    have hset : (set.map HloInstruction.id).Nodup := by
      have hmem : set ∈ sets := by simp [← hrest]
      exact List.Nodup.sublist ((List.sublist_flatten_of_mem hmem).map HloInstruction.id) hnodup
    have hsorted : (sortedCalls v set).Perm (set.map HloInstruction.id) :=
      List.perm_insertionSort _ _
    have hcount := numCalls_fuseCalls hq.distinct (hsorted.nodup_iff.mpr hset) hfuse
    rw [hsorted.length_eq, List.length_map] at hcount
    refine ⟨hq.fuseCalls hfuse, ?_⟩
    simp only [List.map_append, List.map_cons, List.map_nil, List.sum_append, List.sum_cons,
      List.sum_nil, List.length_append, List.length_cons, List.length_nil]
    omega

theorem length_le_sum {sets : List (List HloInstruction)} (h : ∀ set ∈ sets, set ≠ []) :
    sets.length ≤ (sets.map List.length).sum := by
  induction sets with
  | nil => exact le_rfl
  | cons set sets ih =>
    have hset := List.length_pos_of_ne_nil (h set (by simp))
    have hrest := ih fun other hother => h other (List.mem_cons_of_mem _ hother)
    rw [List.map_cons, List.sum_cons, List.length_cons]
    omega

theorem tasks_of_postorder (hp : TaskGraph p) {postorder : List HloInstruction}
    (horder : ColorDfs.colorSortedPostorder p.computation = some (ok postorder)) :
    Tasks (postorder.filter HloInstruction.isTask) where
  distinct := (ColorDfs.tasks_nodup hp.customCalls horder).2
  task _ hi := (List.mem_filter.mp hi).2

/-- A round that finds a match leaves fewer calls. -/
theorem round_decreases {options : VisitOptions} (hp : TaskGraph p) {p' : TaskProgram}
    (hrun : options.round p = some (ok (p', true))) : TaskGraph p' ∧ numCalls p' < numCalls p := by
  unfold VisitOptions.round at hrun
  obtain ⟨order, horder, hrun⟩ := Option.map_eq_some_iff.mp hrun
  obtain ⟨postorder, hpostorder, hrun⟩ := bind_eq_ok.mp hrun
  obtain ⟨st, hst, hrun⟩ := bind_eq_ok.mp hrun
  obtain ⟨fused, hfuse, hrun⟩ := bind_eq_ok.mp hrun
  obtain ⟨rfl, hsome⟩ : fused = p' ∧ (!st.sets.isEmpty) = true := by simpa using ok.inj hrun
  rw [hpostorder] at horder
  have hselection := noError_findFusionSets (m := options.matching p) (tasks_of_postorder hp horder)
  rw [hst] at hselection
  obtain ⟨hvalid, hpair⟩ := hselection
  obtain ⟨hp', hle⟩ := fuseSets_keeps hp hvalid.nodup hfuse
  refine ⟨hp', ?_⟩
  cases hsets : st.sets with
  | nil => simp [hsets] at hsome
  | cons set rest =>
    have htwo := hpair set rest hsets
    have hrest := length_le_sum fun other hother =>
      hvalid.nonempty other (hsets ▸ List.mem_cons_of_mem set hother)
    rw [hsets, List.map_cons, List.sum_cons, List.length_cons] at hle
    omega

theorem visit_isSome (options : VisitOptions) {rounds : ℕ} (hp : TaskGraph p)
    (hlt : numCalls p < rounds) (changed : Bool) : (options.visit rounds p changed).isSome := by
  induction rounds generalizing p changed with
  | zero => cases hlt
  | succ rounds ih =>
    have hround : (options.round p).isSome := by
      unfold VisitOptions.round
      rw [Option.isSome_map]
      exact ColorDfs.colorSortedPostorder_isSome p.computation
    unfold VisitOptions.visit
    split
    · rename_i hnone
      rw [hnone] at hround
      cases hround
    · rename_i p' hrun
      obtain ⟨hp', hless⟩ := round_decreases hp hrun
      exact ih hp' (by omega) true
    · rfl
    · rfl
    · rfl

/-- What a round does: its selection ends in no error, so that no match is in a set already,
it puts no call in two sets, and if there is a set then one has two calls and the calls
get fewer. -/
structure RoundDecreases (options : VisitOptions) (p : TaskProgram) : Prop where
  noError : ∀ postorder message,
    ColorDfs.colorSortedPostorder p.computation = some (ok postorder) →
      (options.matching p).findFusionSets (postorder.filter HloInstruction.isTask) ≠ error message
  disjoint : ∀ postorder st,
    ColorDfs.colorSortedPostorder p.computation = some (ok postorder) →
      (options.matching p).findFusionSets (postorder.filter HloInstruction.isTask) = ok st →
        (st.sets.flatten.map HloInstruction.id).Nodup
  pair : ∀ postorder st,
    ColorDfs.colorSortedPostorder p.computation = some (ok postorder) →
      (options.matching p).findFusionSets (postorder.filter HloInstruction.isTask) = ok st →
        st.sets ≠ [] → ∃ set ∈ st.sets, 2 ≤ set.length
  fewer : ∀ p', options.round p = some (ok (p', true)) → numCalls p' < numCalls p

theorem roundDecreases_of_taskGraph (options : VisitOptions) (hp : TaskGraph p) :
    RoundDecreases options p where
  noError postorder message horder hrun := by
    have h := noError_findFusionSets (m := options.matching p) (tasks_of_postorder hp horder)
    rw [hrun] at h
    exact h
  disjoint postorder st horder hrun := by
    have h := noError_findFusionSets (m := options.matching p) (tasks_of_postorder hp horder)
    rw [hrun] at h
    exact h.1.nodup
  pair postorder st horder hrun hne := by
    have h := noError_findFusionSets (m := options.matching p) (tasks_of_postorder hp horder)
    rw [hrun] at h
    cases hsets : st.sets with
    | nil => exact absurd hsets hne
    | cons set rest => exact ⟨set, by simp, h.2 set rest hsets⟩
  fewer p' hrun := (round_decreases hp hrun).2

/-- Two calls of one colour that read each other's output through a third. -/
def coloredCalls : TaskProgram where
  computation :=
    { instructions :=
        [{ id := 0, opcode := .parameter 0 },
         { id := 1, opcode := .call 0, operands := [0], color := some "a" },
         { id := 2, opcode := .getTupleElement 0, operands := [1], color := some "a" },
         { id := 3, opcode := .call 1, operands := [2], color := some "a" },
         { id := 4, opcode := .getTupleElement 0, operands := [3], color := some "a" }]
      root := 4 }
  called :=
    [{ instructions :=
         [{ id := 5, opcode := .parameter 0 },
          { id := 6, opcode := .other "negate", operands := [5] },
          { id := 7, opcode := .tuple, operands := [6] }]
       root := 7 },
     { instructions :=
         [{ id := 8, opcode := .parameter 0 },
          { id := 9, opcode := .other "negate", operands := [8] },
          { id := 10, opcode := .tuple, operands := [9] }]
       root := 10 }]

theorem taskGraph_coloredCalls : TaskGraph coloredCalls where
  distinct := by decide
  customCalls source i target hi hop := by
    have hnone : ∀ j ∈ coloredCalls.computation.instructions, ∀ t, j.opcode ≠ .customCall t := by
      simp [coloredCalls]
    exact absurd hop (hnone i (HloComputation.mem_of_instruction hi) target)

end rounds

end ComputationFusion
end MultiMeshJax
