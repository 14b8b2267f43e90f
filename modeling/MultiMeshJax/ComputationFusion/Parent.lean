import MultiMeshJax.ComputationFusion.Cloned

/-! What the parent of the fused calls is after the edits: the instructions outside read the
outputs of the new call. -/
namespace MultiMeshJax
namespace ComputationFusion

open StatusOr

/-- The instruction that has the value of this one when these outputs are replaced. -/
def renamed (newCall : ℕ) (names : List ℕ) (id : ℕ) : ℕ :=
  if id ∈ names then newCall + 1 + names.idxOf id else id

/-- The same operation of the replaced operands. -/
structure Renamed (newCall : ℕ) (names : List ℕ) (i j : HloInstruction) : Prop where
  id : j.id = i.id
  opcode : j.opcode = i.opcode
  shape : j.shape = i.shape
  offset : j.offset = i.offset
  operands : j.operands = i.operands.map (renamed newCall names)

variable {p : TaskProgram} {calls names : List ℕ} {newCall : ℕ}

theorem renamed_of_notMem {id : ℕ} (h : id ∉ names) : renamed newCall names id = id := by
  simp [renamed, h]

theorem renamed_nil (id : ℕ) : renamed newCall [] id = id := by simp [renamed]

theorem map_renamed_nil (ids : List ℕ) : ids.map (renamed newCall []) = ids :=
  List.map_id'' renamed_nil ids

theorem renamed_getElem (hnodup : names.Nodup) {k id : ℕ} (hk : names[k]? = some id) :
    renamed newCall names id = newCall + 1 + k := by
  obtain ⟨hlt, rfl⟩ := List.getElem?_eq_some_iff.mp hk
  unfold renamed
  rw [if_pos (List.getElem_mem hlt), hnodup.idxOf_getElem]

/-- One more output is replaced. -/
theorem renamed_append {old : ℕ} (hold : old ≤ newCall) (hnew : old ∉ names) (id : ℕ) :
    renamed newCall (names ++ [old]) id =
      if renamed newCall names id = old then newCall + 1 + names.length
      else renamed newCall names id := by
  by_cases hmem : id ∈ names
  · have hne : newCall + 1 + names.idxOf id ≠ old := by omega
    simp [renamed, hmem, hne, List.idxOf_append_of_mem hmem]
  · rw [renamed_of_notMem hmem]
    by_cases heq : id = old
    · subst heq
      simp [renamed, List.idxOf_append_of_notMem hmem]
    · simp [renamed, hmem, heq]

theorem lt_freshId {id : ℕ} (h : id ∈ p.computation.ids) : id < p.freshId := by
  have hle : id ≤ p.ids.foldr max 0 := HloComputation.le_foldr_max (List.mem_append_left _ h)
  unfold TaskProgram.freshId
  omega

section append

variable {c : HloComputation} {i : HloInstruction}

theorem instruction_append {id : ℕ} (h : id ≠ i.id) :
    (append c i).instruction id = c.instruction id := by
  unfold HloComputation.instruction append
  rw [List.find?_append, List.find?_cons_of_neg (by simpa using Ne.symm h)]
  simp

theorem instruction_append_self (h : i.id ∉ c.ids) :
    (append c i).instruction i.id = some i := by
  have hnone : c.instructions.find? (fun j => j.id == i.id) = none := by
    rw [List.find?_eq_none]
    intro j hj heq
    have hid : j.id = i.id := by simpa using heq
    exact h (hid ▸ List.mem_map_of_mem hj)
  unfold HloComputation.instruction append
  rw [List.find?_append, hnone]
  simp

end append

/-- The parent when these outputs are replaced. -/
structure Replaced (p : TaskProgram) (calls : List ℕ) (newCall : ℕ) (call : HloInstruction)
    (roots : List (ℕ × ℕ)) (parent : Parent) : Prop where
  nextId : parent.nextId = newCall + 1 + roots.length
  fresh : ∀ id ∈ parent.computation.ids, id < parent.nextId
  kept : ∀ id i, p.computation.instruction id = some i → ∃ j,
    parent.computation.instruction id = some j ∧ Renamed newCall (roots.map Prod.fst) i j
  call : ∃ j, parent.computation.instruction newCall = some j ∧
    Renamed newCall (roots.map Prod.fst) call j
  outputs : ∀ k < roots.length, ∃ j, parent.computation.instruction (newCall + 1 + k) = some j ∧
    j.opcode = .getTupleElement k ∧ j.operands = [newCall]
  users : ∀ j ∈ parent.computation.instructions, ∀ id ∈ calls, id ∈ j.operands →
    IsOutput p.computation calls j.id
  root : parent.computation.root = renamed newCall (roots.map Prod.fst) p.computation.root

/-- The new call is newer than the module. -/
theorem buildFused_fresh {st : Collected} {fused : HloComputation} {shape : Shape}
    (hrun : buildFused p calls st = ok (fused, shape, newCall)) : p.freshId < newCall := by
  unfold buildFused at hrun
  obtain ⟨b₁, hparameters, hrun⟩ := bind_eq_ok.mp hrun
  obtain ⟨b₂, hclones, hrun⟩ := bind_eq_ok.mp hrun
  obtain ⟨operands, -, hrun⟩ := bind_eq_ok.mp hrun
  have h₁ : p.freshId ≤ b₁.nextId := by
    apply foldlM_invariant (fun b => p.freshId ≤ b.nextId) hparameters le_rfl
    intro operand _ b b' hb hstep
    unfold addParameter at hstep
    obtain ⟨param, -, hstep⟩ := bind_eq_ok.mp hstep
    obtain rfl := ok.inj hstep
    exact hb.trans (Nat.le_succ _)
  have h₂ : p.freshId ≤ b₂.nextId := by
    apply foldlM_invariant (fun b => p.freshId ≤ b.nextId) hclones h₁
    intro id _ b b' hb hstep
    unfold cloneCall at hstep
    obtain ⟨call, -, hstep⟩ := bind_eq_ok.mp hstep
    obtain ⟨comp, -, hstep⟩ := bind_eq_ok.mp hstep
    obtain ⟨b₃, hinstructions, houtputs⟩ := bind_eq_ok.mp hstep
    have h₃ : p.freshId ≤ b₃.nextId := by
      apply foldlM_invariant (fun b => p.freshId ≤ b.nextId) hinstructions hb
      intro i _ b b' hb hstep
      unfold cloneInstruction at hstep
      split at hstep
      · obtain ⟨operand, -, hstep⟩ := bind_eq_ok.mp hstep
        obtain rfl := ok.inj hstep
        exact hb
      · split at hstep
        · obtain rfl := ok.inj hstep
          exact hb
        · obtain ⟨operands, -, hstep⟩ := bind_eq_ok.mp hstep
          obtain rfl := ok.inj hstep
          exact hb.trans (Nat.le_succ _)
    apply foldlM_invariant (fun b => p.freshId ≤ b.nextId) houtputs h₃
    intro user _ b b' hb hstep
    unfold cloneOutput at hstep
    obtain ⟨root, -, hstep⟩ := bind_eq_ok.mp hstep
    obtain rfl := ok.inj hstep
    exact hb
  obtain ⟨-, -, rfl⟩ : _ ∧ _ ∧ _ := by simpa using ok.inj hrun
  exact Nat.lt_succ_of_le h₂

section replace

variable {call : HloInstruction} {roots : List (ℕ × ℕ)} {parent parent' : Parent}

theorem Renamed.replace {i j : HloInstruction} (h : Renamed newCall names i j) {old : ℕ}
    (hold : old ≤ newCall) (hnew : old ∉ names) : Renamed newCall (names ++ [old]) i
      { j with operands := j.operands.map fun o =>
          if o = old then newCall + 1 + names.length else o } where
  id := h.id
  opcode := h.opcode
  shape := h.shape
  offset := h.offset
  operands := by
    rw [h.operands, List.map_map]
    apply List.map_congr_left
    intro o _
    exact (renamed_append hold hnew o).symm

theorem replaced_start (hnew : p.freshId < newCall)
    (hid : call.id = newCall) (hoperands : ∀ id ∈ calls, id ∉ call.operands) :
    Replaced p calls newCall call []
      ⟨append (clearControlDependencies p.computation calls) call, newCall + 1⟩ := by
  have hids : (clearControlDependencies p.computation calls).ids = p.computation.ids :=
    HloComputation.ids_mapInstructions fun i => rfl
  have hlookup : ∀ id, (clearControlDependencies p.computation calls).instruction id =
      (p.computation.instruction id).map _ :=
    HloComputation.instruction_mapInstructions fun i => rfl
  have hlt : ∀ id ∈ p.computation.ids, id < newCall := fun id h => (lt_freshId h).trans hnew
  subst hid
  constructor
  · rfl
  · intro id hmem
    have hmem' : id ∈ p.computation.ids ∨ id = call.id := by
      simpa [append, HloComputation.ids, clearControlDependencies, HloComputation.mapInstructions]
        using hmem
    show id < call.id + 1
    rcases hmem' with hmem' | rfl
    · exact (hlt id hmem').trans (Nat.lt_succ_self _)
    · exact Nat.lt_succ_self _
  · intro id i hi
    have hne : id ≠ call.id := (hlt id (HloComputation.mem_ids_of_instruction hi)).ne
    have hfound := instruction_append (c := clearControlDependencies p.computation calls) hne
    rw [hlookup, hi] at hfound
    exact ⟨_, hfound, rfl, rfl, rfl, rfl, (map_renamed_nil i.operands).symm⟩
  · refine ⟨call, instruction_append_self ?_, rfl, rfl, rfl, rfl, (map_renamed_nil _).symm⟩
    rw [hids]
    exact fun hmem => (hlt call.id hmem).false
  · intro k hk
    cases hk
  · intro j hj id hmem hoperand
    rcases List.mem_append.mp hj with hj | hj
    · obtain ⟨i, hi, rfl⟩ := List.mem_map.mp hj
      exact ⟨id, hmem, i, mem_users.mpr ⟨hi, hoperand⟩, rfl⟩
    · rw [List.mem_singleton.mp hj] at hoperand
      exact absurd hoperand (hoperands id hmem)
  · simp [renamed_nil, append, clearControlDependencies, HloComputation.mapInstructions]

/-- The instruction with one output replaced. -/
def replaceIn (old new : ℕ) (i : HloInstruction) : HloInstruction :=
  if i.id = new then i
  else { i with operands := i.operands.map fun o => if o = old then new else o }

theorem replaceIn_id (old new : ℕ) (i : HloInstruction) : (replaceIn old new i).id = i.id := by
  unfold replaceIn
  split <;> rfl

theorem replaceIn_of_ne {old new : ℕ} {i : HloInstruction} (h : i.id ≠ new) :
    replaceIn old new i =
      { i with operands := i.operands.map fun o => if o = old then new else o } := if_neg h

theorem replaceOutput_eq_ok {root : ℕ × ℕ} {k : ℕ}
    (hrun : replaceOutput newCall parent (root, k) = ok parent') : ∃ new : HloInstruction,
      new.id = parent.nextId ∧ new.opcode = .getTupleElement k ∧ new.operands = [newCall] ∧
      parent'.nextId = parent.nextId + 1 ∧
      (∀ id, parent'.computation.instruction id =
        ((append parent.computation new).instruction id).map (replaceIn root.1 parent.nextId)) ∧
      parent'.computation.instructions =
        (append parent.computation new).instructions.map (replaceIn root.1 parent.nextId) ∧
      parent'.computation.root =
        if parent.computation.root = root.1 then parent.nextId else parent.computation.root := by
  unfold replaceOutput at hrun
  obtain ⟨gte, hgte, hrun⟩ := bind_eq_ok.mp hrun
  have hid : gte.id = root.1 := HloComputation.id_of_instruction (deref_eq_ok.mp hgte)
  obtain rfl := ok.inj hrun
  rw [← hid]
  set new : HloInstruction := { gte with
    id := parent.nextId, opcode := .getTupleElement k, operands := [newCall]
    controlPredecessors := [] }
  refine ⟨new, rfl, rfl, rfl, rfl, ?_⟩
  set edited := (append parent.computation new).replaceAllUsesWith gte.id new.id
  have hlist : edited.instructions =
      (append parent.computation new).instructions.map (replaceIn gte.id parent.nextId) := rfl
  have hinstructions : (if edited.root = gte.id then { edited with root := new.id }
      else edited).instructions = edited.instructions := by
    split <;> rfl
  refine ⟨?_, by rw [hinstructions, hlist], ?_⟩
  · intro id
    rw [HloComputation.instruction, hinstructions]
    exact HloComputation.instruction_mapInstructions (replaceIn_id gte.id parent.nextId) id
  · show (if edited.root = gte.id then { edited with root := new.id } else edited).root = _
    have hroot : edited.root = parent.computation.root := rfl
    split
    · rename_i heq
      rw [← hroot, if_pos heq]
    · rename_i hne
      rw [← hroot, if_neg hne]

/-- One output is taken out of the new call. -/
theorem replaceOutput_keeps (hfusable : Fusable p calls) (hnew : p.freshId < newCall)
    (h : Replaced p calls newCall call roots parent) {root : ℕ × ℕ}
    (hroot : root.1 ∈ p.computation.ids) (hnotMem : root.1 ∉ roots.map Prod.fst)
    (hrun : replaceOutput newCall parent (root, roots.length) = ok parent') :
    Replaced p calls newCall call (roots ++ [root]) parent' := by
  have hlt : ∀ id ∈ p.computation.ids, id < newCall := fun id h => (lt_freshId h).trans hnew
  have hold : root.1 < newCall := hlt root.1 hroot
  have hnextId := h.nextId
  have hlength : (roots.map Prod.fst).length = roots.length := List.length_map _
  have hnames : (roots ++ [root]).map Prod.fst = roots.map Prod.fst ++ [root.1] := by simp
  obtain ⟨new, hnewId, hopcode, hoperands, hnext, hlookup, hlist, hrootEq⟩ :=
    replaceOutput_eq_ok hrun
  -- what is in the parent already only has its operands renamed
  have hkept : ∀ {id i j}, parent.computation.instruction id = some j → id < parent.nextId →
      Renamed newCall (roots.map Prod.fst) i j → ∃ j', parent'.computation.instruction id = some j' ∧
        Renamed newCall ((roots ++ [root]).map Prod.fst) i j' := by
    intro id i j hj hid hrenamed
    have hjid := HloComputation.id_of_instruction hj
    refine ⟨_, by rw [hlookup, instruction_append (by omega), hj]; rfl, ?_⟩
    rw [replaceIn_of_ne (by omega), hnames]
    have hstep := hrenamed.replace hold.le hnotMem
    rwa [hlength, ← hnextId] at hstep
  constructor
  · rw [hnext, hnextId, List.length_append]
    rfl
  · intro id hmem
    rw [hnext]
    have hmem' : id ∈ parent.computation.ids ∨ id = new.id := by
      unfold HloComputation.ids at hmem
      rw [hlist, List.map_map] at hmem
      obtain ⟨i, hi, rfl⟩ := List.mem_map.mp hmem
      rw [Function.comp_apply, replaceIn_id]
      rcases List.mem_append.mp hi with hi | hi
      · exact .inl (List.mem_map_of_mem hi)
      · exact .inr (by rw [List.mem_singleton.mp hi])
    rcases hmem' with hmem' | rfl
    · exact (h.fresh id hmem').trans (Nat.lt_succ_self _)
    · omega
  · intro id i hi
    obtain ⟨j, hj, hrenamed⟩ := h.kept id i hi
    have hid := hlt id (HloComputation.mem_ids_of_instruction hi)
    exact hkept hj (by omega) hrenamed
  · obtain ⟨j, hj, hrenamed⟩ := h.call
    exact hkept hj (by omega) hrenamed
  · intro k hk
    rw [List.length_append, List.length_singleton] at hk
    rcases Nat.lt_succ_iff_lt_or_eq.mp hk with hk | rfl
    · obtain ⟨j, hj, hjopcode, hjoperands⟩ := h.outputs k hk
      have hjid := HloComputation.id_of_instruction hj
      refine ⟨_, by rw [hlookup, instruction_append (by omega), hj]; rfl, ?_⟩
      rw [replaceIn_of_ne (by omega)]
      refine ⟨hjopcode, ?_⟩
      rw [hjoperands, List.map_singleton, if_neg (by omega)]
    · have hself : new.id = newCall + 1 + roots.length := by omega
      have hfound : (append parent.computation new).instruction new.id = some new := by
        apply instruction_append_self
        intro hmem
        exact (h.fresh _ hmem).ne hnewId
      rw [hself] at hfound
      refine ⟨new, ?_, hopcode, hoperands⟩
      rw [hlookup, hfound, Option.map_some, replaceIn, if_pos hnewId]
  · intro j hj id hmem hoperand
    rw [hlist] at hj
    obtain ⟨i, hi, rfl⟩ := List.mem_map.mp hj
    obtain ⟨user, n, comp, huser, -⟩ := hfusable.call id hmem
    have hid := hlt id (HloComputation.mem_ids_of_instruction huser)
    rw [replaceIn_id]
    rcases List.mem_append.mp hi with hi | hi
    · have hne : i.id ≠ parent.nextId := (h.fresh i.id (List.mem_map_of_mem hi)).ne
      rw [replaceIn_of_ne hne] at hoperand
      obtain ⟨o, ho, heq⟩ := List.mem_map.mp hoperand
      split at heq
      · omega
      · subst heq
        exact h.users i hi o hmem ho
    · rw [List.mem_singleton.mp hi, replaceIn, if_pos hnewId, hoperands] at hoperand
      rw [List.mem_singleton.mp hoperand] at hid
      omega
  · rw [hrootEq, h.root, hnames, renamed_append hold.le hnotMem, hlength, hnextId]

end replace

section remove

variable {c₀ c c' : HloComputation}

/-- A computation from which only calls and their outputs have been removed. -/
structure Removed (p : TaskProgram) (calls : List ℕ) (c₀ c : HloComputation) : Prop where
  kept : ∀ id, Outside p.computation calls id → c.instruction id = c₀.instruction id
  subset : c.instructions ⊆ c₀.instructions
  root : c.root = c₀.root

theorem Removed.refl (p : TaskProgram) (calls : List ℕ) (c : HloComputation) :
    Removed p calls c c := ⟨fun _ _ => rfl, List.Subset.refl _, rfl⟩

theorem Removed.removeInstruction (h : Removed p calls c₀ c) {removed : ℕ}
    (hremoved : ¬Outside p.computation calls removed) :
    Removed p calls c₀ (c.removeInstruction removed) where
  kept id hid := by
    have hne : id ≠ removed := fun heq => hremoved (heq ▸ hid)
    rw [HloComputation.instruction_removeInstruction hne]
    exact h.kept id hid
  subset _ hi := h.subset (List.mem_of_mem_filter hi)
  root := h.root

theorem removeOutput_keeps (h : Removed p calls c₀ c) {user : HloInstruction}
    (huser : IsOutput p.computation calls user.id) (hrun : removeOutput c user = ok c') :
    Removed p calls c₀ c' := by
  unfold removeOutput at hrun
  split at hrun
  · cases hrun
  · split at hrun
    · cases hrun
    · obtain rfl := ok.inj hrun
      exact h.removeInstruction fun houtside => houtside.2 huser

/-- What uses a call is one of its outputs, and is removed before it. -/
theorem removeCall_keeps (h : Removed p calls c₀ c)
    (husers : ∀ j ∈ c₀.instructions, ∀ id ∈ calls, id ∈ j.operands →
      IsOutput p.computation calls j.id) {id : ℕ} (hid : id ∈ calls)
    (hrun : removeCall c id = ok c') : Removed p calls c₀ c' ∧ id ≠ c₀.root := by
  unfold removeCall at hrun
  obtain ⟨c₁, houtputs, hrun⟩ := bind_eq_ok.mp hrun
  have h₁ : Removed p calls c₀ c₁ := by
    apply foldlM_invariant _ houtputs h
    intro user huser c c' hc hstep
    obtain ⟨hmem, hoperand⟩ := mem_users.mp huser
    exact removeOutput_keeps hc (husers user (h.subset hmem) id hid hoperand) hstep
  split at hrun
  · cases hrun
  · rename_i hfree
    obtain rfl := ok.inj hrun
    refine ⟨h₁.removeInstruction fun houtside => houtside.1 hid, ?_⟩
    intro heq
    apply hfree
    simp [h₁.root, heq]

theorem removeCalls_keeps (husers : ∀ j ∈ c₀.instructions, ∀ id ∈ calls, id ∈ j.operands →
      IsOutput p.computation calls j.id) {ids : List ℕ} (hids : ∀ id ∈ ids, id ∈ calls)
    (hrun : ids.foldlM removeCall c₀ = ok c') : Removed p calls c₀ c' ∧ c₀.root ∉ ids := by
  have h := foldlM_prefix (fun done c => Removed p calls c₀ c ∧ c₀.root ∉ done) hrun
    ⟨Removed.refl p calls c₀, by simp⟩ fun done id hinitial c c' hc hstep => by
      have hmem : id ∈ ids := hinitial.subset (by simp)
      obtain ⟨hremoved, hne⟩ := removeCall_keeps hc.1 husers (hids id hmem) hstep
      refine ⟨hremoved, ?_⟩
      rw [List.mem_append, List.mem_singleton, not_or]
      exact ⟨hc.2, fun heq => hne heq.symm⟩
  exact h

theorem addControlDependency_fields (predecessors successors : List ℕ) (i : HloInstruction) :
    (addControlDependency newCall predecessors successors i).id = i.id ∧
      (addControlDependency newCall predecessors successors i).opcode = i.opcode ∧
      (addControlDependency newCall predecessors successors i).shape = i.shape ∧
      (addControlDependency newCall predecessors successors i).offset = i.offset ∧
      (addControlDependency newCall predecessors successors i).operands = i.operands := by
  unfold addControlDependency
  split
  · exact ⟨rfl, rfl, rfl, rfl, rfl⟩
  · split <;> exact ⟨rfl, rfl, rfl, rfl, rfl⟩

theorem instruction_addControlDependencies (predecessors successors : List ℕ) {id : ℕ}
    {i : HloInstruction} (hi : c.instruction id = some i) : ∃ j,
    (addControlDependencies c newCall predecessors successors).instruction id = some j ∧
      j.id = i.id ∧ j.opcode = i.opcode ∧ j.shape = i.shape ∧ j.offset = i.offset ∧
      j.operands = i.operands := by
  refine ⟨addControlDependency newCall predecessors successors i, ?_,
    addControlDependency_fields predecessors successors i⟩
  unfold addControlDependencies
  rw [HloComputation.instruction_mapInstructions, hi, Option.map_some]
  exact fun j => (addControlDependency_fields predecessors successors j).1

end remove

/-- The program in which one call stands for the calls. -/
structure FusedInto (p : TaskProgram) (calls : List ℕ) (st : Collected) (fused : HloComputation)
    (newCall : ℕ) (p' : TaskProgram) : Prop where
  called : p'.called = p.called ++ [fused]
  kept : ∀ id i, Outside p.computation calls id → p.computation.instruction id = some i → ∃ j,
    p'.computation.instruction id = some j ∧ Renamed newCall (st.rootsNeeded.map Prod.fst) i j
  call : ∃ j, p'.computation.instruction newCall = some j ∧ j.opcode = .call p.called.length ∧
    j.operands = st.parametersNeeded
  outputs : ∀ k < st.rootsNeeded.length, ∃ j,
    p'.computation.instruction (newCall + 1 + k) = some j ∧ j.opcode = .getTupleElement k ∧
      j.operands = [newCall]
  root : p'.computation.root =
    renamed newCall (st.rootsNeeded.map Prod.fst) p.computation.root
  root_notMem : p.computation.root ∉ calls

section fused

variable {st : Collected}

/-- No call has the tuple of a call as its operand. -/
theorem Fusable.operand_notMem (h : Fusable p calls) {call operand : ℕ} (hcall : call ∈ calls)
    (hoperand : HasOperand p.computation call operand) : operand ∉ calls := by
  intro hmem
  obtain ⟨i, hi, hoperand⟩ := hoperand
  obtain ⟨j, n, comp, hj, hop, -⟩ := h.call call hcall
  obtain rfl : i = j := by simpa [hi] using hj
  have huser : i ∈ p.computation.users operand :=
    mem_users.mpr ⟨HloComputation.mem_of_instruction hi, hoperand⟩
  have hgte := (h.outputs operand hmem i huser).1
  simp [HloInstruction.isGetTupleElement, hop] at hgte

theorem Fusable.mem_ids_of_isOutput {id : ℕ} (h : IsOutput p.computation calls id) :
    id ∈ p.computation.ids := by
  obtain ⟨call, -, user, huser, rfl⟩ := h
  exact List.mem_map_of_mem (mem_users.mp huser).1

/-- No call is an output. -/
theorem Fusable.not_isOutput_of_mem (h : Fusable p calls) {id : ℕ} (hid : id ∈ calls) :
    ¬IsOutput p.computation calls id := by
  rintro ⟨call, hcall, user, huser, rfl⟩
  obtain ⟨i, n, comp, hi, hop, -⟩ := h.call user.id hid
  obtain rfl : user = i := by simpa [h.instruction_of_mem (mem_users.mp huser).1] using hi
  have hgte := (h.outputs call hcall user huser).1
  simp [HloInstruction.isGetTupleElement, hop] at hgte

theorem Fusable.outside_of_notMem (h : Fusable p calls) {id : ℕ} (hid : id ∉ p.computation.ids) :
    Outside p.computation calls id := by
  constructor
  · intro hmem
    obtain ⟨i, n, comp, hi, -⟩ := h.call id hmem
    exact hid (HloComputation.mem_ids_of_instruction hi)
  · intro houtput
    exact hid (Fusable.mem_ids_of_isOutput houtput)

/-- What the second loop leaves. -/
theorem replaceOutputs_keeps (hfusable : Fusable p calls) (hnew : p.freshId < newCall)
    {call : HloInstruction} {parent parent' : Parent} {roots : List (ℕ × ℕ)}
    (hstart : Replaced p calls newCall call [] parent) (hnodup : (roots.map Prod.fst).Nodup)
    (hroots : ∀ root ∈ roots, IsOutput p.computation calls root.1)
    (hrun : roots.zipIdx.foldlM (replaceOutput newCall) parent = ok parent') :
    Replaced p calls newCall call roots parent' := by
  have h := foldlM_prefix (fun done parent => Replaced p calls newCall call (done.map Prod.fst)
    parent) hrun hstart fun done root hinitial parent parent' hparent hstep => by
      obtain ⟨hindex, -, hinitial⟩ := of_prefix_zipIdx hinitial
      have hmem : root.1 ∈ roots := hinitial.subset (by simp)
      have hnames := hnodup.sublist (hinitial.map Prod.fst).sublist
      rw [List.map_append, List.nodup_append] at hnames
      rw [List.map_append]
      apply replaceOutput_keeps hfusable hnew hparent
        (Fusable.mem_ids_of_isOutput (hroots root.1 hmem))
      · intro hmem
        exact hnames.2.2 _ hmem root.1.1 (by simp) rfl
      · rw [List.length_map, ← hindex]
        exact hstep
  simpa using h

theorem fuseCalls_eq_ok (hfusable : Fusable p calls) {p' : TaskProgram}
    (hrun : fuseCalls p calls = ok (p', newCall)) : ∃ st fused shape,
      CollectedFrom p calls (outputsOf p.computation calls) st ∧
      buildFused p calls st = ok (fused, shape, newCall) ∧
      FusedInto p calls st fused newCall p' := by
  unfold fuseCalls at hrun
  split at hrun
  · cases hrun
  rename_i front rest
  obtain ⟨first, -, hrun⟩ := bind_eq_ok.mp hrun
  obtain ⟨st, hst, hrun⟩ := bind_eq_ok.mp hrun
  obtain ⟨⟨fused, shape, n⟩, hbuild, hrun⟩ := bind_eq_ok.mp hrun
  obtain ⟨parent, hparent, hrun⟩ := bind_eq_ok.mp hrun
  obtain ⟨c, hremove, hrun⟩ := bind_eq_ok.mp hrun
  obtain ⟨rfl, rfl⟩ : _ ∧ _ := by simpa using ok.inj hrun
  have hcollected := collected hfusable hst
  have hnew := buildFused_fresh hbuild
  refine ⟨st, fused, shape, hcollected, hbuild, ?_⟩
  set call : HloInstruction :=
    { id := n, opcode := .call p.called.length, operands := st.parametersNeeded
      shape := shape, color := first.color } with hcall
  have hneeded : ∀ id ∈ front :: rest, id ∉ call.operands := by
    intro id hid hmem
    obtain ⟨-, call', hcall', hoperand⟩ := hcollected.needed id hmem
    exact hfusable.operand_notMem hcall' hoperand hid
  have hreplaced := replaceOutputs_keeps hfusable hnew (replaced_start hnew rfl hneeded)
    hcollected.roots_nodup
    (fun root hroot => mem_outputsOf.mp (hcollected.roots_produced root hroot)) hparent
  obtain ⟨hremoved, hroot⟩ := removeCalls_keeps hreplaced.users
    (fun id hid => List.mem_reverse.mp hid) hremove
  have houtside : ∀ k, Outside p.computation (front :: rest) (n + k) := by
    intro k
    apply hfusable.outside_of_notMem
    intro hmem
    have := lt_freshId hmem
    omega
  constructor
  · rfl
  · intro id i hid hi
    obtain ⟨j, hj, hrenamed⟩ := hreplaced.kept id i hi
    rw [← hremoved.kept id hid] at hj
    obtain ⟨k, hk, hkid, hopcode, hshape, hoffset, hoperands⟩ :=
      instruction_addControlDependencies _ _ hj
    exact ⟨k, hk, hkid.trans hrenamed.id, hopcode.trans hrenamed.opcode,
      hshape.trans hrenamed.shape, hoffset.trans hrenamed.offset, hoperands.trans hrenamed.operands⟩
  · obtain ⟨j, hj, hrenamed⟩ := hreplaced.call
    rw [← hremoved.kept n (houtside 0)] at hj
    obtain ⟨k, hk, -, hopcode, -, -, hoperands⟩ := instruction_addControlDependencies _ _ hj
    refine ⟨k, hk, hopcode.trans hrenamed.opcode, ?_⟩
    rw [hoperands, hrenamed.operands]
    apply (List.map_congr_left _).trans (List.map_id _)
    intro id hid
    apply renamed_of_notMem
    intro hmem
    obtain ⟨root, hroot, rfl⟩ := List.mem_map.mp hmem
    exact (hcollected.needed root.1 hid).1
      (mem_outputsOf.mp (hcollected.roots_produced root hroot))
  · intro k hk
    obtain ⟨j, hj, hjopcode, hjoperands⟩ := hreplaced.outputs k hk
    rw [← hremoved.kept _ (by simpa [Nat.add_assoc] using houtside (1 + k))] at hj
    obtain ⟨i, hi, -, hopcode, -, -, hoperands⟩ := instruction_addControlDependencies _ _ hj
    exact ⟨i, hi, hopcode.trans hjopcode, hoperands.trans hjoperands⟩
  · exact hremoved.root.trans hreplaced.root
  · intro hmem
    have hsame : parent.computation.root = p.computation.root := by
      rw [hreplaced.root]
      apply renamed_of_notMem
      intro hname
      obtain ⟨root, hneeded, heq⟩ := List.mem_map.mp hname
      apply hfusable.not_isOutput_of_mem hmem
      rw [← heq]
      exact mem_outputsOf.mp (hcollected.roots_produced root hneeded)
    apply hroot
    rw [hsame]
    exact List.mem_reverse.mpr hmem

end fused

end ComputationFusion
end MultiMeshJax
