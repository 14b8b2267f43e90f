import MultiMeshJax.LoopUnroll.Unroll

/-! What the clones of the iterations are: each reads the clones of its own iteration and the
outputs of the one before. -/
namespace MultiMeshJax
namespace LoopUnroll

open StatusOr

/-- The instruction with another name, colour or sharding. -/
structure SameData (i j : HloInstruction) : Prop where
  id : j.id = i.id
  opcode : j.opcode = i.opcode
  operands : j.operands = i.operands
  controlPredecessors : j.controlPredecessors = i.controlPredecessors
  shape : j.shape = i.shape
  offset : j.offset = i.offset

theorem SameData.refl (i : HloInstruction) : SameData i i := ⟨rfl, rfl, rfl, rfl, rfl, rfl⟩

theorem SameData.trans {i j k : HloInstruction} (h : SameData i j) (h' : SameData j k) :
    SameData i k where
  id := h'.id.trans h.id
  opcode := h'.opcode.trans h.opcode
  operands := h'.operands.trans h.operands
  controlPredecessors := h'.controlPredecessors.trans h.controlPredecessors
  shape := h'.shape.trans h.shape
  offset := h'.offset.trans h.offset

/-- Nothing of the first computation is lost but names and colours. -/
def Extends (c c' : HloComputation) : Prop :=
  ∀ id i, c.instruction id = some i → ∃ j, c'.instruction id = some j ∧ SameData i j

theorem Extends.refl (c : HloComputation) : Extends c c := fun _ i hi => ⟨i, hi, .refl i⟩

theorem Extends.trans {c c' c'' : HloComputation} (h : Extends c c') (h' : Extends c' c'') :
    Extends c c'' := by
  intro id i hi
  obtain ⟨j, hj, hsame⟩ := h id i hi
  obtain ⟨k, hk, hsame'⟩ := h' id j hj
  exact ⟨k, hk, hsame.trans hsame'⟩

theorem extends_mapInstructions {c : HloComputation} {f : HloInstruction → HloInstruction}
    (hf : ∀ i, SameData i (f i)) : Extends c (c.mapInstructions f) := by
  intro id i hi
  refine ⟨f i, ?_, hf i⟩
  rw [HloComputation.instruction_mapInstructions (fun i => (hf i).id), hi, Option.map_some]

section states

variable {st st' : CloneState}

/-- The ids of the parent are older than the next id. -/
def CloneState.Fresh (st : CloneState) : Prop := ∀ id ∈ st.parent.ids, id < st.nextId

/-- Only names and colours are different. -/
structure Renamed (st st' : CloneState) : Prop where
  parent : Extends st.parent st'.parent
  ids : st'.parent.ids = st.parent.ids
  root : st'.parent.root = st.parent.root
  nextId : st'.nextId = st.nextId
  cloneMap : st'.cloneMap = st.cloneMap
  tasks : st'.tasks = st.tasks
  prevLoopOutputTuple : st'.prevLoopOutputTuple = st.prevLoopOutputTuple
  dummyTuples : st'.dummyTuples = st.dummyTuples

theorem Renamed.refl (st : CloneState) : Renamed st st :=
  ⟨.refl _, rfl, rfl, rfl, rfl, rfl, rfl, rfl⟩

theorem Renamed.trans {st'' : CloneState} (h : Renamed st st') (h' : Renamed st' st'') :
    Renamed st st'' where
  parent := h.parent.trans h'.parent
  ids := h'.ids.trans h.ids
  root := h'.root.trans h.root
  nextId := h'.nextId.trans h.nextId
  cloneMap := h'.cloneMap.trans h.cloneMap
  tasks := h'.tasks.trans h.tasks
  prevLoopOutputTuple := h'.prevLoopOutputTuple.trans h.prevLoopOutputTuple
  dummyTuples := h'.dummyTuples.trans h.dummyTuples

theorem Renamed.fresh (h : Renamed st st') (hfresh : st.Fresh) : st'.Fresh := by
  intro id hid
  rw [h.ids] at hid
  rw [h.nextId]
  exact hfresh id hid

theorem renamed_setSchedulingName (st : CloneState) (id name : ℕ) :
    Renamed st (st.setSchedulingName id name) := by
  refine ⟨?_, ?_, rfl, rfl, rfl, rfl, rfl, rfl⟩
  · apply extends_mapInstructions
    intro i
    split <;> exact ⟨rfl, rfl, rfl, rfl, rfl, rfl⟩
  · apply HloComputation.ids_mapInstructions
    intro i
    split <;> rfl

theorem renamed_shareName {id input : ℕ} (hrun : st.shareName id input = ok st') :
    Renamed st st' := by
  unfold CloneState.shareName at hrun
  obtain ⟨never, -, hrun⟩ := bind_eq_ok.mp hrun
  split at hrun
  · obtain rfl := ok.inj hrun
    exact renamed_setSchedulingName st id input
  · obtain rfl := ok.inj hrun
    exact .refl st

theorem renamed_colorClone {iter id : ℕ} {cloneIsInputOperand : Bool}
    (hrun : colorClone iter st id cloneIsInputOperand = ok st') : Renamed st st' := by
  unfold colorClone at hrun
  split at hrun
  · obtain rfl := ok.inj hrun
    exact .refl st
  · obtain ⟨i, -, hrun⟩ := bind_eq_ok.mp hrun
    obtain ⟨dependent, -, hrun⟩ := bind_eq_ok.mp hrun
    split at hrun
    · obtain ⟨⟨color, colors⟩, -, hrun⟩ := bind_eq_ok.mp hrun
      obtain rfl := ok.inj hrun
      refine ⟨?_, ?_, rfl, rfl, rfl, rfl, rfl, rfl⟩
      · apply extends_mapInstructions
        intro i
        split <;> exact ⟨rfl, rfl, rfl, rfl, rfl, rfl⟩
      · apply HloComputation.ids_mapInstructions
        intro i
        split <;> rfl
    · obtain rfl := ok.inj hrun
      exact .refl st

theorem extends_add (st : CloneState) (i : HloInstruction) :
    Extends st.parent (st.add i).parent := by
  intro id j hj
  refine ⟨j, ?_, .refl j⟩
  have hj' : st.parent.instructions.find? (fun k => k.id == id) = some j := hj
  show (st.parent.instructions ++ [{ i with id := st.nextId }]).find? _ = some j
  rw [List.find?_append, hj']
  rfl

theorem ids_add (st : CloneState) (i : HloInstruction) :
    (st.add i).parent.ids = st.parent.ids ++ [st.nextId] := by
  simp [CloneState.add, HloComputation.ids]

theorem fresh_add (hfresh : st.Fresh) (i : HloInstruction) : (st.add i).Fresh := by
  intro id hid
  rw [ids_add] at hid
  show id < st.nextId + 1
  rcases List.mem_append.mp hid with hid | hid
  · exact (hfresh id hid).trans (Nat.lt_succ_self _)
  · rw [List.mem_singleton.mp hid]
    exact Nat.lt_succ_self _

theorem instruction_add_self (hfresh : st.Fresh) (i : HloInstruction) :
    (st.add i).parent.instruction st.nextId = some { i with id := st.nextId } := by
  have hnone : st.parent.instructions.find? (fun j => j.id == st.nextId) = none := by
    rw [List.find?_eq_none]
    intro j hj heq
    have hid : j.id = st.nextId := by simpa using heq
    exact (hfresh j.id (List.mem_map_of_mem hj)).ne hid
  show (st.parent.instructions ++ [{ i with id := st.nextId }]).find? _ = some _
  rw [List.find?_append, hnone]
  simp

end states

/-- The instruction has a clone of its own in each iteration. -/
def IsCloned (loop : Loop) (b : HloInstruction) : Prop :=
  match b.opcode with
  | .getTupleElement _ => b.operands[0]? ≠ some loop.parameterTuple
  | .call _ => True
  | .customCall _ => True
  | _ => False

/-- The clone of an instruction, among the ids of its iteration. -/
structure NewClone (c : HloComputation) (low high : ℕ) (cloneMap : ℕ → Option ℕ)
    (b j : HloInstruction) : Prop where
  cloneMap : cloneMap b.id = some j.id
  low : low ≤ j.id
  high : j.id < high
  instruction : c.instruction j.id = some j
  opcode : j.opcode = b.opcode
  shape : j.shape = b.shape
  controlPredecessors : j.controlPredecessors = []

/-- What an instruction of the body becomes in an iteration with these inputs. -/
def CloneOf (loop : Loop) (c : HloComputation) (low high : ℕ) (cloneMap : ℕ → Option ℕ)
    (inputs : List ℕ) (iter : ℕ) (b : HloInstruction) : Prop :=
  match b.opcode with
  | .parameter _ => True
  | .getTupleElement index => ∃ source input carried, b.operands[0]? = some source ∧
      loop.inputs[index]? = some input ∧ loop.properties input = some carried ∧
      if source = loop.parameterTuple then ∃ v, cloneMap b.id = some v ∧
        if carried.isSome then inputs[index]? = some v else v = input
      else ∃ o j, cloneMap source = some o ∧ NewClone c low high cloneMap b j ∧ j.operands = [o]
  | .call _ => ∃ j, NewClone c low high cloneMap b j ∧
      List.Forall₂ (fun o v => cloneMap o = some v) b.operands j.operands
  | .customCall target => ∃ j, NewClone c low high cloneMap b j ∧ j.operands = b.operands ∧
      (target = kCustomCallSliceOffset → j.offset = some (iter * loop.config.microbatchSize))
  | _ => False

section mono

variable {loop : Loop} {c c' : HloComputation} {low high low' high' iter : ℕ}
  {cloneMap cloneMap' : ℕ → Option ℕ} {inputs : List ℕ} {b j : HloInstruction}

/-- A clone that later steps have only renamed. -/
theorem NewClone.mono (h : NewClone c low high cloneMap b j) (hextends : Extends c c')
    (hmap : ∀ id v, cloneMap id = some v → cloneMap' id = some v) (hlow : low' ≤ low)
    (hhigh : high ≤ high') : ∃ k, NewClone c' low' high' cloneMap' b k ∧ SameData j k := by
  obtain ⟨k, hk, hsame⟩ := hextends j.id j h.instruction
  refine ⟨k, ?_, hsame⟩
  constructor
  · rw [hsame.id]
    exact hmap b.id j.id h.cloneMap
  · rw [hsame.id]
    exact hlow.trans h.low
  · rw [hsame.id]
    exact h.high.trans_le hhigh
  · rw [hsame.id]
    exact hk
  · exact hsame.opcode.trans h.opcode
  · exact hsame.shape.trans h.shape
  · exact hsame.controlPredecessors.trans h.controlPredecessors

theorem CloneOf.mono (h : CloneOf loop c low high cloneMap inputs iter b)
    (hextends : Extends c c') (hmap : ∀ id v, cloneMap id = some v → cloneMap' id = some v)
    (hlow : low' ≤ low) (hhigh : high ≤ high') :
    CloneOf loop c' low' high' cloneMap' inputs iter b := by
  unfold CloneOf at h ⊢
  split at h
  · trivial
  · obtain ⟨source, input, carried, hsource, hinput, hcarried, h⟩ := h
    refine ⟨source, input, carried, hsource, hinput, hcarried, ?_⟩
    split at h
    · rename_i hparameter
      rw [if_pos hparameter]
      obtain ⟨v, hv, h⟩ := h
      exact ⟨v, hmap _ _ hv, h⟩
    · rename_i hparameter
      rw [if_neg hparameter]
      obtain ⟨o, j, ho, hj, hoperands⟩ := h
      obtain ⟨k, hk, hsame⟩ := hj.mono hextends hmap hlow hhigh
      exact ⟨o, k, hmap _ _ ho, hk, hsame.operands.trans hoperands⟩
  · obtain ⟨j, hj, hoperands⟩ := h
    obtain ⟨k, hk, hsame⟩ := hj.mono hextends hmap hlow hhigh
    refine ⟨k, hk, ?_⟩
    rw [hsame.operands]
    exact hoperands.imp fun o v ho => hmap o v ho
  · obtain ⟨j, hj, hoperands, hoffset⟩ := h
    obtain ⟨k, hk, hsame⟩ := hj.mono hextends hmap hlow hhigh
    refine ⟨k, hk, hsame.operands.trans hoperands, ?_⟩
    intro htarget
    rw [hsame.offset]
    exact hoffset htarget
  · exact h

end mono

/-- What the clone of an instruction that is not the root changes. -/
structure Step (loop : Loop) (inputs : List ℕ) (iter : ℕ) (b : HloInstruction)
    (st st' : CloneState) : Prop where
  parent : Extends st.parent st'.parent
  fresh : st'.Fresh
  nextId : st.nextId ≤ st'.nextId
  root : st'.parent.root = st.parent.root
  prevLoopOutputTuple : st'.prevLoopOutputTuple = st.prevLoopOutputTuple
  others : ∀ id, id ≠ b.id → st'.cloneMap id = st.cloneMap id
  clone : CloneOf loop st'.parent st.nextId st'.nextId st'.cloneMap inputs iter b
  tasks : st'.tasks = st.tasks ++ if b.isCall = true then (st'.cloneMap b.id).toList else []

section step

variable {loop : Loop} {st st' : CloneState} {inputs : List ℕ} {iter : ℕ} {b prev : HloInstruction}

theorem Step.of_renamed {st'' : CloneState} (h : Step loop inputs iter b st st')
    (hrenamed : Renamed st' st'') : Step loop inputs iter b st st'' where
  parent := h.parent.trans hrenamed.parent
  fresh := hrenamed.fresh h.fresh
  nextId := hrenamed.nextId ▸ h.nextId
  root := hrenamed.root.trans h.root
  prevLoopOutputTuple := hrenamed.prevLoopOutputTuple.trans h.prevLoopOutputTuple
  others id hid := by
    rw [hrenamed.cloneMap]
    exact h.others id hid
  clone := by
    rw [hrenamed.nextId, hrenamed.cloneMap]
    exact h.clone.mono hrenamed.parent (fun _ _ h => h) le_rfl le_rfl
  tasks := by
    rw [hrenamed.tasks, hrenamed.cloneMap]
    exact h.tasks

/-- An instruction that is added as the clone of one of the body. -/
theorem newClone_add (hfresh : st.Fresh) {clone : HloInstruction} (hopcode : clone.opcode = b.opcode)
    (hshape : clone.shape = b.shape) (hcontrol : clone.controlPredecessors = []) :
    NewClone (st.add clone).parent st.nextId (st.nextId + 1)
      (Function.update st.cloneMap b.id (some st.nextId)) b { clone with id := st.nextId } where
  cloneMap := Function.update_self _ _ _
  low := le_rfl
  high := Nat.lt_succ_self _
  instruction := instruction_add_self hfresh clone
  opcode := hopcode
  shape := hshape
  controlPredecessors := hcontrol

theorem getClone_eq_ok {id v : ℕ} : st.getClone id = ok v ↔ st.cloneMap id = some v := by
  unfold CloneState.getClone
  split
  · rename_i clone hclone
    rw [hclone]
    constructor
    · intro h
      rw [ok.inj h]
    · intro h
      rw [Option.some.inj h]
      rfl
  · rename_i hnone
    simp [hnone]

/-- A clone that is known is not that of a new instruction. -/
theorem update_of_some {id v : ℕ} (hnew : st.cloneMap b.id = none) (h : st.cloneMap id = some v)
    (entry : Option ℕ) : Function.update st.cloneMap b.id entry id = some v := by
  have hne : id ≠ b.id := by
    intro heq
    rw [heq, hnew] at h
    cases h
  rw [Function.update_of_ne hne]
  exact h

theorem cloneElement_step (hfresh : st.Fresh) (hnew : st.cloneMap b.id = none)
    (hprev : st.parent.instruction st.prevLoopOutputTuple = some prev) {flag : Bool}
    (hrun : cloneElement loop st b = ok (st', flag)) :
    Step loop prev.operands iter b st st' := by
  unfold cloneElement at hrun
  obtain ⟨index, hindex, hrun⟩ := bind_eq_ok.mp hrun
  obtain ⟨input, hinput, hrun⟩ := bind_eq_ok.mp hrun
  obtain ⟨carried, hcarried, hrun⟩ := bind_eq_ok.mp hrun
  obtain ⟨source, hsource, hrun⟩ := bind_eq_ok.mp hrun
  have hop : b.opcode = .getTupleElement index := HloInstruction.tupleIndex_eq_ok.mp hindex
  have hcall : b.isCall = false := by simp [HloInstruction.isCall, hop]
  have hinput := elementAt_eq_ok.mp hinput
  have hcarried : loop.properties input = some carried := deref_eq_ok.mp hcarried
  have hsource := elementAt_eq_ok.mp hsource
  split at hrun
  · rename_i hparameter
    split at hrun
    · rename_i hsome
      obtain ⟨prev', hprev', hrun⟩ := bind_eq_ok.mp hrun
      obtain ⟨value, hvalue, hrun⟩ := bind_eq_ok.mp hrun
      obtain ⟨st₁, hshare, hrun⟩ := bind_eq_ok.mp hrun
      have hrenamed := renamed_shareName hshare
      obtain ⟨rfl, -⟩ := Prod.mk.inj (ok.inj hrun)
      have hprev' := deref_eq_ok.mp hprev'
      obtain rfl : prev = prev' := by simpa [hprev] using hprev'
      refine ⟨hrenamed.parent, hrenamed.fresh hfresh, hrenamed.nextId.ge, hrenamed.root,
        hrenamed.prevLoopOutputTuple, ?_, ?_, ?_⟩
      · intro id hid
        show Function.update st₁.cloneMap b.id _ id = _
        rw [Function.update_of_ne hid, hrenamed.cloneMap]
      · unfold CloneOf
        rw [hop]
        refine ⟨source, input, carried, hsource, hinput, hcarried, ?_⟩
        rw [if_pos hparameter]
        refine ⟨value, Function.update_self _ _ _, ?_⟩
        rw [if_pos hsome]
        exact elementAt_eq_ok.mp hvalue
      · rw [hcall]
        simpa [CloneState.setClone] using hrenamed.tasks
    · rename_i hnone
      obtain ⟨rfl, -⟩ := Prod.mk.inj (ok.inj hrun)
      refine ⟨.refl _, hfresh, le_rfl, rfl, rfl, ?_, ?_, ?_⟩
      · intro id hid
        exact Function.update_of_ne hid _ _
      · unfold CloneOf
        rw [hop]
        refine ⟨source, input, carried, hsource, hinput, hcarried, ?_⟩
        rw [if_pos hparameter]
        refine ⟨input, Function.update_self _ _ _, ?_⟩
        rw [if_neg hnone]
      · rw [hcall]
        simp [CloneState.setClone]
  · rename_i hparameter
    obtain ⟨newOperand, hoperand, hrun⟩ := bind_eq_ok.mp hrun
    obtain ⟨rfl, -⟩ := Prod.mk.inj (ok.inj hrun)
    refine ⟨extends_add st _, fresh_add hfresh _, Nat.le_succ _, rfl, rfl, ?_, ?_, ?_⟩
    · intro id hid
      exact Function.update_of_ne hid _ _
    · unfold CloneOf
      rw [hop]
      refine ⟨source, input, carried, hsource, hinput, hcarried, ?_⟩
      rw [if_neg hparameter]
      exact ⟨newOperand, _, update_of_some hnew (getClone_eq_ok.mp hoperand) _,
        newClone_add hfresh hop.symm rfl rfl, rfl⟩
    · rw [hcall]
      simp [CloneState.setClone, CloneState.add]

theorem cloneCall_step (hfresh : st.Fresh) (hnew : st.cloneMap b.id = none)
    (hcall : b.isCall = true) (hrun : cloneCall loop st b = ok st') :
    Step loop inputs iter b st st' := by
  obtain ⟨n, hop⟩ : ∃ n, b.opcode = .call n := by
    unfold HloInstruction.isCall at hcall
    split at hcall
    · rename_i n hop
      exact ⟨n, hop⟩
    · cases hcall
  unfold cloneCall at hrun
  split at hrun
  · cases hrun
  obtain ⟨newOperands, hoperands, hrun⟩ := bind_eq_ok.mp hrun
  obtain rfl := ok.inj hrun
  refine ⟨extends_add st _, fresh_add hfresh _, Nat.le_succ _, rfl, rfl, ?_, ?_, ?_⟩
  · intro id hid
    exact Function.update_of_ne hid _ _
  · unfold CloneOf
    rw [hop]
    refine ⟨_, newClone_add hfresh hop.symm rfl rfl, ?_⟩
    exact (mapM_eq_ok.mp hoperands).imp fun o v ho =>
      update_of_some hnew (getClone_eq_ok.mp ho) _
  · rw [if_pos hcall]
    show _ = st.tasks ++ (Function.update st.cloneMap b.id (some st.nextId) b.id).toList
    rw [Function.update_self]
    rfl

theorem cloneCustomCall_step (hfresh : st.Fresh) {target : String}
    (hop : b.opcode = .customCall target) (hrun : cloneCustomCall loop st iter b = ok st') :
    Step loop inputs iter b st st' := by
  have hcall : b.isCall = false := by simp [HloInstruction.isCall, hop]
  unfold cloneCustomCall at hrun
  split at hrun
  · obtain ⟨offset, hoffset, hrun⟩ := bind_eq_ok.mp hrun
    obtain rfl := ok.inj hrun
    refine ⟨extends_add st _, fresh_add hfresh _, Nat.le_succ _, rfl, rfl, ?_, ?_, ?_⟩
    · intro id hid
      exact Function.update_of_ne hid _ _
    · unfold CloneOf
      rw [hop]
      refine ⟨_, newClone_add hfresh hop.symm rfl rfl, rfl, ?_⟩
      intro _
      rw [← (int_eq_ok.mp hoffset).2]
    · rw [hcall]
      simp [CloneState.setClone, CloneState.add]
  · rename_i hslice
    split at hrun
    · obtain rfl := ok.inj hrun
      refine ⟨extends_add st _, fresh_add hfresh _, Nat.le_succ _, rfl, rfl, ?_, ?_, ?_⟩
      · intro id hid
        exact Function.update_of_ne hid _ _
      · unfold CloneOf
        rw [hop]
        refine ⟨_, newClone_add hfresh hop.symm rfl rfl, rfl, ?_⟩
        rintro rfl
        exact absurd (by simp [HloInstruction.isCustomCall, hop]) hslice
      · rw [hcall]
        simp [CloneState.setClone, CloneState.add]
    · cases hrun

/-- Each instruction but the root is cloned in its place. -/
theorem cloneInstruction_step (hfresh : st.Fresh) (hnew : st.cloneMap b.id = none)
    (hprev : st.parent.instruction st.prevLoopOutputTuple = some prev) (htuple : b.opcode ≠ .tuple)
    (hrun : cloneInstruction loop iter st b = ok st') : Step loop prev.operands iter b st st' := by
  unfold cloneInstruction at hrun
  obtain ⟨⟨st₁, flag⟩, hclone, hrun⟩ := bind_eq_ok.mp hrun
  have hrenamed := renamed_colorClone hrun
  suffices hstep : Step loop prev.operands iter b st st₁ from hstep.of_renamed hrenamed
  unfold cloneOpcode at hclone
  split at hclone
  · rename_i n hop
    obtain ⟨rfl, -⟩ := Prod.mk.inj (ok.inj hclone)
    refine ⟨.refl _, hfresh, le_rfl, rfl, rfl, fun _ _ => rfl, ?_, ?_⟩
    · unfold CloneOf
      rw [hop]
      trivial
    · simp [HloInstruction.isCall, hop]
  · exact cloneElement_step hfresh hnew hprev hclone
  · rename_i n hop
    obtain ⟨st₂, hst₂, hclone⟩ := bind_eq_ok.mp hclone
    obtain ⟨rfl, -⟩ := Prod.mk.inj (ok.inj hclone)
    exact cloneCall_step hfresh hnew (by simp [HloInstruction.isCall, hop]) hst₂
  · rename_i hop
    exact absurd hop htuple
  · rename_i target hop
    obtain ⟨st₂, hst₂, hclone⟩ := bind_eq_ok.mp hclone
    obtain ⟨rfl, -⟩ := Prod.mk.inj (ok.inj hclone)
    exact cloneCustomCall_step hfresh hop hst₂
  · cases hclone

end step

section root

variable {loop : Loop} {st st' : CloneState} {iter : ℕ} {b : HloInstruction}

/-- The operands of the root are the clones of the iteration, some of them with a new name. -/
theorem cloneRootOperands_spec {acc : CloneState × List ℕ}
    (hrun : b.operands.zipIdx.foldlM (cloneRootOperand loop) (st, []) = ok acc) :
    Renamed st acc.1 ∧ List.Forall₂ (fun o v => st.cloneMap o = some v) b.operands acc.2 := by
  have h := foldlM_prefix (fun done acc => Renamed st acc.1 ∧
    List.Forall₂ (fun o v => st.cloneMap o = some v) (done.map Prod.fst) acc.2) hrun
    ⟨.refl st, .nil⟩ fun done operand _ acc acc' hacc hstep => by
      obtain ⟨hrenamed, hvalues⟩ := hacc
      unfold cloneRootOperand at hstep
      obtain ⟨newOperand, hnew, hstep⟩ := bind_eq_ok.mp hstep
      obtain ⟨carried, -, hstep⟩ := bind_eq_ok.mp hstep
      have hclone := getClone_eq_ok.mp hnew
      rw [hrenamed.cloneMap] at hclone
      rw [List.map_append]
      have hadded := List.rel_append hvalues (.cons hclone .nil)
      split at hstep
      · obtain ⟨never, -, hstep⟩ := bind_eq_ok.mp hstep
        split at hstep
        · obtain ⟨input, -, hstep⟩ := bind_eq_ok.mp hstep
          obtain rfl := ok.inj hstep
          exact ⟨hrenamed.trans (renamed_setSchedulingName _ _ _), hadded⟩
        · obtain rfl := ok.inj hstep
          exact ⟨hrenamed, hadded⟩
      · obtain rfl := ok.inj hstep
        exact ⟨hrenamed, hadded⟩
  simpa using h

/-- The tuple of the outputs of an iteration. -/
structure RootStep (b : HloInstruction) (st st' : CloneState) : Prop where
  parent : Extends st.parent st'.parent
  fresh : st'.Fresh
  nextId : st.nextId ≤ st'.nextId
  root : st'.parent.root = st.parent.root
  cloneMap : st'.cloneMap = st.cloneMap
  tasks : st'.tasks = st.tasks
  tuple : ∃ tuple, st'.parent.instruction st'.prevLoopOutputTuple = some tuple ∧
    tuple.opcode = .tuple ∧ st.nextId ≤ tuple.id ∧
    List.Forall₂ (fun o v => st.cloneMap o = some v) b.operands tuple.operands

theorem cloneInstruction_root (hfresh : st.Fresh) (hnew : st.cloneMap b.id = none)
    (hop : b.opcode = .tuple) (hrun : cloneInstruction loop iter st b = ok st') :
    RootStep b st st' := by
  unfold cloneInstruction at hrun
  obtain ⟨⟨st₁, flag⟩, hclone, hrun⟩ := bind_eq_ok.mp hrun
  unfold cloneOpcode at hclone
  simp only [hop] at hclone
  obtain ⟨st₂, hroot, hclone⟩ := bind_eq_ok.mp hclone
  obtain ⟨rfl, rfl⟩ := Prod.mk.inj (ok.inj hclone)
  unfold cloneRoot at hroot
  split at hroot
  · cases hroot
  obtain ⟨⟨st₃, newOperands⟩, hoperands, hroot⟩ := bind_eq_ok.mp hroot
  obtain ⟨hrenamed, hvalues⟩ := cloneRootOperands_spec hoperands
  have hfresh₃ := hrenamed.fresh hfresh
  have hnone : st₂.cloneMap b.id = none := by
    rw [← ok.inj hroot]
    show st₃.cloneMap b.id = none
    rw [hrenamed.cloneMap]
    exact hnew
  have hcolor : colorClone iter st₂ b.id false = ok st₂ := by
    -- the root has no clone that could be given a colour
    unfold colorClone
    rw [hnone]
    rfl
  obtain rfl : st₂ = st' := ok.inj (hcolor.symm.trans hrun)
  obtain rfl := ok.inj hroot
  exact {
    parent := hrenamed.parent.trans (extends_add st₃ _)
    fresh := fresh_add hfresh₃ _
    nextId := hrenamed.nextId.ge.trans (Nat.le_succ _)
    root := hrenamed.root
    cloneMap := hrenamed.cloneMap
    tasks := hrenamed.tasks
    tuple := ⟨_, instruction_add_self hfresh₃ _, hop, hrenamed.nextId.ge, hvalues⟩ }

end root

section iteration

variable {loop : Loop} {front : List HloInstruction} {root : HloInstruction}
  {st st' : CloneState} {iter : ℕ}

/-- The body lists its instructions before their users, and the tuple of its outputs last. -/
structure CanonicalBody (body : HloComputation) (front : List HloInstruction)
    (root : HloInstruction) : Prop where
  instructions : body.instructions = front ++ [root]
  root : root.opcode = .tuple
  front : ∀ b ∈ front, b.opcode ≠ .tuple
  nodup : body.ids.Nodup

/-- The clones of the calls, in the order of the body. -/
def taskRow (front : List HloInstruction) (cloneMap : ℕ → Option ℕ) : List ℕ :=
  front.flatMap fun b => if b.isCall = true then (cloneMap b.id).toList else []

/-- The clones of the instructions that are done. -/
structure FrontDone (loop : Loop) (inputs : List ℕ) (iter : ℕ) (st : CloneState)
    (done : List HloInstruction) (st' : CloneState) : Prop where
  parent : Extends st.parent st'.parent
  fresh : st'.Fresh
  nextId : st.nextId ≤ st'.nextId
  root : st'.parent.root = st.parent.root
  prevLoopOutputTuple : st'.prevLoopOutputTuple = st.prevLoopOutputTuple
  clones : ∀ b ∈ done, CloneOf loop st'.parent st.nextId st'.nextId st'.cloneMap inputs iter b
  dom : ∀ id v, st'.cloneMap id = some v → ∃ b ∈ done, b.id = id
  distinct : ∀ b ∈ done, ∀ b' ∈ done, IsCloned loop b → IsCloned loop b' → ∀ v,
    st'.cloneMap b.id = some v → st'.cloneMap b'.id = some v → b = b'
  tasks : st'.tasks = taskRow done st'.cloneMap

/-- A clone of its own has an id of the iteration. -/
theorem CloneOf.bounds {c : HloComputation} {low high : ℕ} {cloneMap : ℕ → Option ℕ}
    {inputs : List ℕ} {b : HloInstruction} (h : CloneOf loop c low high cloneMap inputs iter b)
    (hcloned : IsCloned loop b) :
    ∃ j, NewClone c low high cloneMap b j := by
  unfold CloneOf at h
  unfold IsCloned at hcloned
  split at h
  · rename_i n hop
    simp [hop] at hcloned
  · rename_i n hop
    simp only [hop] at hcloned
    obtain ⟨source, _, _, hsource, _, _, h⟩ := h
    rw [if_neg] at h
    · obtain ⟨_, j, _, hj, _⟩ := h
      exact ⟨j, hj⟩
    · rintro rfl
      exact hcloned hsource
  · obtain ⟨j, hj, -⟩ := h
    exact ⟨j, hj⟩
  · obtain ⟨j, hj, -⟩ := h
    exact ⟨j, hj⟩
  · exact h.elim

theorem cloneFront_spec {prev : HloInstruction} (hfresh : st.Fresh)
    (hempty : st.cloneMap = fun _ => none) (htasks : st.tasks = [])
    (hprev : st.parent.instruction st.prevLoopOutputTuple = some prev)
    (htuple : ∀ b ∈ front, b.opcode ≠ .tuple)
    (hnodup : (front.map HloInstruction.id).Nodup)
    (hrun : front.foldlM (cloneInstruction loop iter) st = ok st') :
    FrontDone loop prev.operands iter st front st' := by
  apply foldlM_prefix (FrontDone loop prev.operands iter st) hrun
  · refine ⟨.refl _, hfresh, le_rfl, rfl, rfl, ?_, ?_, ?_, ?_⟩
    · intro b hb
      cases hb
    · intro id v hv
      rw [hempty] at hv
      cases hv
    · intro b hb
      cases hb
    · rw [htasks]
      rfl
  · intro done b hinitial acc acc' hacc hstep
    have hb : b ∈ front := hinitial.subset (by simp)
    have hfar : ∀ b' ∈ done, b'.id ≠ b.id := by
      intro b' hb' heq
      have hsub := (hinitial.sublist.map HloInstruction.id).nodup hnodup
      rw [List.map_append, List.nodup_append] at hsub
      exact hsub.2.2 _ (List.mem_map_of_mem hb') _ (by simp) heq
    have hnew : acc.cloneMap b.id = none := by
      cases hclone : acc.cloneMap b.id with
      | none => rfl
      | some v =>
        obtain ⟨b', hb', hid⟩ := hacc.dom b.id v hclone
        exact absurd hid (hfar b' hb')
    obtain ⟨prev', hprev', hsame⟩ := hacc.parent _ _ hprev
    rw [← hacc.prevLoopOutputTuple] at hprev'
    have hstep := cloneInstruction_step hacc.fresh hnew hprev' (htuple b hb) hstep
    rw [hsame.operands] at hstep
    have hmap : ∀ id v, acc.cloneMap id = some v → acc'.cloneMap id = some v := by
      intro id v hv
      rw [hstep.others id]
      · exact hv
      · rintro rfl
        rw [hnew] at hv
        cases hv
    refine ⟨hacc.parent.trans hstep.parent, hstep.fresh, hacc.nextId.trans hstep.nextId,
      hstep.root.trans hacc.root, hstep.prevLoopOutputTuple.trans hacc.prevLoopOutputTuple,
      ?_, ?_, ?_, ?_⟩
    · intro b' hb'
      rcases List.mem_append.mp hb' with hb' | hb'
      · exact (hacc.clones b' hb').mono hstep.parent hmap le_rfl hstep.nextId
      · obtain rfl := List.mem_singleton.mp hb'
        exact hstep.clone.mono (.refl _) (fun _ _ h => h) hacc.nextId le_rfl
    · intro id v hv
      by_cases hid : id = b.id
      · exact ⟨b, by simp, hid.symm⟩
      · rw [hstep.others id hid] at hv
        obtain ⟨b', hb', hid'⟩ := hacc.dom id v hv
        exact ⟨b', List.mem_append_left _ hb', hid'⟩
    · have hclash : ∀ b' ∈ done, IsCloned loop b' → IsCloned loop b → ∀ v,
          acc'.cloneMap b'.id = some v → acc'.cloneMap b.id ≠ some v := by
        -- the ids of the earlier clones lie below those of this one
        intro b' hb' hcloned' hcloned v hv' hv
        obtain ⟨j', hj'⟩ := (hacc.clones b' hb').bounds hcloned'
        obtain ⟨j, hj⟩ := hstep.clone.bounds hcloned
        rw [hstep.others _ (hfar b' hb'), hj'.cloneMap] at hv'
        rw [hj.cloneMap] at hv
        have hlow := hj.low
        have hhigh := hj'.high
        rw [Option.some.inj hv] at hlow
        rw [Option.some.inj hv'] at hhigh
        omega
      intro b₁ hb₁ b₂ hb₂ hcloned₁ hcloned₂ v hv₁ hv₂
      rcases List.mem_append.mp hb₁ with hdone₁ | hlast₁ <;>
        rcases List.mem_append.mp hb₂ with hdone₂ | hlast₂
      · rw [hstep.others _ (hfar b₁ hdone₁)] at hv₁
        rw [hstep.others _ (hfar b₂ hdone₂)] at hv₂
        exact hacc.distinct b₁ hdone₁ b₂ hdone₂ hcloned₁ hcloned₂ v hv₁ hv₂
      · obtain rfl := List.mem_singleton.mp hlast₂
        exact absurd hv₂ (hclash b₁ hdone₁ hcloned₁ hcloned₂ v hv₁)
      · obtain rfl := List.mem_singleton.mp hlast₁
        exact absurd hv₁ (hclash b₂ hdone₂ hcloned₂ hcloned₁ v hv₂)
      · rw [List.mem_singleton.mp hlast₁, List.mem_singleton.mp hlast₂]
    · rw [hstep.tasks, hacc.tasks, taskRow, taskRow, List.flatMap_append]
      congr 1
      · apply List.flatMap_congr
        intro b' hb'
        rw [hstep.others _ (hfar b' hb')]
      · simp

/-- What an iteration adds: the clones, and a tuple of its outputs. -/
structure Iteration (loop : Loop) (front : List HloInstruction) (root : HloInstruction)
    (inputs : List ℕ) (iter : ℕ) (st st' : CloneState) : Prop where
  parent : Extends st.parent st'.parent
  fresh : st'.Fresh
  nextId : st.nextId ≤ st'.nextId
  unmoved : st'.parent.root = st.parent.root
  clones : ∀ b ∈ front, CloneOf loop st'.parent st.nextId st'.nextId st'.cloneMap inputs iter b
  dom : ∀ id v, st'.cloneMap id = some v → ∃ b ∈ front, b.id = id
  distinct : ∀ b ∈ front, ∀ b' ∈ front, IsCloned loop b → IsCloned loop b' → ∀ v,
    st'.cloneMap b.id = some v → st'.cloneMap b'.id = some v → b = b'
  tasks : st'.tasks = taskRow front st'.cloneMap
  tuple : ∃ tuple, st'.parent.instruction st'.prevLoopOutputTuple = some tuple ∧
    tuple.opcode = .tuple ∧ st.nextId ≤ tuple.id ∧
    List.Forall₂ (fun o v => st'.cloneMap o = some v) root.operands tuple.operands

theorem cloneIteration_spec {prev : HloInstruction} (hbody : CanonicalBody loop.body front root)
    (hfresh : st.Fresh) (hprev : st.parent.instruction st.prevLoopOutputTuple = some prev)
    {rows rows' : List (List ℕ)} (hrun : cloneIteration loop (st, rows) iter = ok (st', rows')) :
    Iteration loop front root prev.operands iter st st' ∧
      rows' = rows ++ [taskRow front st'.cloneMap] := by
  unfold cloneIteration at hrun
  obtain ⟨st₂, hfold, hrun⟩ := bind_eq_ok.mp hrun
  obtain ⟨rfl, rfl⟩ := Prod.mk.inj (ok.inj hrun)
  rw [hbody.instructions, List.foldlM_append] at hfold
  obtain ⟨st₁, hfront, hroot⟩ := bind_eq_ok.mp hfold
  have hids : (front.map HloInstruction.id ++ [root.id]).Nodup := by
    have hnodup := hbody.nodup
    rw [HloComputation.ids, hbody.instructions, List.map_append] at hnodup
    exact hnodup
  have hstart : { st with cloneMap := fun _ => none, tasks := [] }.Fresh := hfresh
  have hfront := cloneFront_spec hstart rfl rfl hprev hbody.front (List.nodup_append.mp hids).1 hfront
  have hnew : st₁.cloneMap root.id = none := by
    cases hclone : st₁.cloneMap root.id with
    | none => rfl
    | some v =>
      obtain ⟨b, hb, hid⟩ := hfront.dom root.id v hclone
      exact absurd hid ((List.nodup_append.mp hids).2.2 _ (List.mem_map_of_mem hb) _ (by simp))
  obtain ⟨st₂', hst₂, hdone⟩ := bind_eq_ok.mp hroot
  obtain rfl := ok.inj hdone
  have hroot := cloneInstruction_root hfront.fresh hnew hbody.root hst₂
  have htasks : st₂'.tasks = taskRow front st₂'.cloneMap := by
    rw [hroot.tasks, hroot.cloneMap]
    exact hfront.tasks
  refine ⟨⟨hfront.parent.trans hroot.parent, hroot.fresh, hfront.nextId.trans hroot.nextId,
    hroot.root.trans hfront.root, ?_, ?_, ?_, htasks, ?_⟩, ?_⟩
  · intro b hb
    rw [hroot.cloneMap]
    exact (hfront.clones b hb).mono hroot.parent (fun _ _ h => h) le_rfl hroot.nextId
  · rw [hroot.cloneMap]
    exact hfront.dom
  · rw [hroot.cloneMap]
    exact hfront.distinct
  · obtain ⟨tuple, htuple, hop, hlow, hvalues⟩ := hroot.tuple
    rw [hroot.cloneMap]
    exact ⟨tuple, htuple, hop, hfront.nextId.trans hlow, hvalues⟩
  · rw [htasks]

end iteration

end LoopUnroll
end MultiMeshJax
