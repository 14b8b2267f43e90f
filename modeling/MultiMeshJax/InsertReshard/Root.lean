import MultiMeshJax.InsertReshard.Visits

/-! The visits of the root tuple: they leave the operands of the tasks alone, but for
scalars, which they replace by a copy on all devices. -/
namespace MultiMeshJax
namespace InsertReshard

open StatusOr Sharding

variable {p : HloPartition} {base st st' : State}

/-- The instruction with this id has kept all but its operands. -/
def Persists (st st' : State) (id : ℕ) : Prop :=
  ∀ i, st.entry.instruction id = some i →
    ∃ ops, st'.entry.instruction id = some { i with operands := ops }

theorem Persists.trans {st'' : State} {id : ℕ} (h : Persists st st' id)
    (h' : Persists st' st'' id) : Persists st st'' id := by
  intro i hi
  obtain ⟨ops, hops⟩ := h i hi
  obtain ⟨ops', hops'⟩ := h' _ hops
  exact ⟨ops', hops'⟩

/-- A replicated copy on all devices. -/
def IsGlobal (p : HloPartition) (st : State) (o : ℕ) : Prop :=
  ∃ i color, st.entry.instruction o = some i ∧ i.opcode = .customCall kCustomCallReshard ∧
    i.sharding = some .replicated ∧ i.color = some color ∧
    st.partition.devicesForColor color = ok p.devices

/-- What has become of an operand of a task. -/
def Source (p : HloPartition) (base st : State) (o o' : ℕ) : Prop :=
  (o' = o ∧ Persists base st o) ∨
    ∃ i, base.entry.instruction o = some i ∧ i.shape.dimensions = [] ∧ IsGlobal p st o'

theorem IsGlobal.mono {o : ℕ} (h : IsGlobal p st o) (hpersists : Persists st st' o)
    (hextends : st.partition.Extends st'.partition) : IsGlobal p st' o := by
  obtain ⟨i, color, hi, hopcode, hsharding, hcolor, hdevices⟩ := h
  obtain ⟨ops, hops⟩ := hpersists i hi
  exact ⟨_, color, hops, hopcode, hsharding, hcolor, hextends.devicesForColor _ _ hdevices⟩

theorem Source.mono {o o' : ℕ} (h : Source p base st o o') (hpersists : Persists st st' o')
    (hextends : st.partition.Extends st'.partition) : Source p base st' o o' := by
  rcases h with ⟨rfl, hbase⟩ | ⟨i, hi, hdims, hglobal⟩
  · exact Or.inl ⟨rfl, hbase.trans hpersists⟩
  · exact Or.inr ⟨i, hi, hdims, hglobal.mono hpersists hextends⟩

/-- What holds while the operands of the root are visited. -/
structure Finishing (p : HloPartition) (base st : State) : Prop where
  tuple : ∃ t, st.entry.instruction base.entry.root = some t ∧ t.opcode = .tuple
  extends_ : p.Extends st.partition
  global : st.partition.GlobalColorConsistent
  nodup : st.entry.ids.Nodup
  calls : ∀ i ∈ base.entry.instructions, i.isCall = true →
    ∃ ops, st.entry.instruction i.id = some { i with operands := ops } ∧
      List.Forall₂ (Source p base st) i.operands ops
  onlyCalls : ∀ i ∈ st.entry.instructions, i.isCall = true →
    ∃ c ∈ base.entry.instructions, c.id = i.id ∧ c.isCall = true

/-- The operands of the calls are found in the computation. -/
def ClosedCalls (base : State) : Prop :=
  ∀ i ∈ base.entry.instructions, i.isCall = true → ∀ o ∈ i.operands,
    ∃ x, base.entry.instruction o = some x

theorem finishing_start (hpartition : base.partition = p) (hglobal : p.GlobalColorConsistent)
    (hnodup : base.entry.ids.Nodup) {root : HloInstruction}
    (hroot : base.entry.instruction base.entry.root = some root) (htuple : root.opcode = .tuple) :
    Finishing p base base where
  tuple := ⟨root, hroot, htuple⟩
  extends_ := hpartition ▸ HloPartition.Extends.refl p
  global := hpartition ▸ hglobal
  nodup := hnodup
  calls i hi _ := by
    refine ⟨i.operands, HloComputation.instruction_of_mem hnodup hi, ?_⟩
    rw [List.forall₂_same]
    intro o _
    exact Or.inl ⟨rfl, fun j hj => ⟨j.operands, hj⟩⟩
  onlyCalls i hi hcall := ⟨i, hi, rfl, hcall⟩

/-- The operand of a task exists. -/
theorem Source.exists_instruction {o o' : ℕ} (h : Source p base st o o')
    (ho : ∃ x, base.entry.instruction o = some x) : ∃ x, st.entry.instruction o' = some x := by
  rcases h with ⟨rfl, hbase⟩ | ⟨_, _, _, i, _, hi, _⟩
  · obtain ⟨x, hx⟩ := ho
    obtain ⟨ops, hops⟩ := hbase x hx
    exact ⟨_, hops⟩
  · exact ⟨i, hi⟩

theorem instruction_of_addInstruction {c : HloComputation} {i x : HloInstruction} {id : ℕ}
    (hx : c.instruction id = some x) : (c.addInstruction i).instruction id = some x := by
  rw [← hx]
  apply HloComputation.instruction_addInstruction
  rintro rfl
  exact HloComputation.freshId_notMem (HloComputation.mem_ids_of_instruction hx)

/-- Adding an instruction that is no call. -/
theorem Finishing.addInstruction (h : Finishing p base st) {i : HloInstruction}
    (hcall : i.isCall = false) (hentry : st'.entry = st.entry.addInstruction i)
    (hextends : st.partition.Extends st'.partition)
    (hglobal : st'.partition.GlobalColorConsistent) : Finishing p base st' := by
  have hpersists : ∀ id x, st.entry.instruction id = some x → st'.entry.instruction id = some x :=
    fun id x hx => hentry ▸ instruction_of_addInstruction hx
  refine ⟨?_, h.extends_.trans hextends, hglobal, ?_, ?_, ?_⟩
  · obtain ⟨t, ht, htuple⟩ := h.tuple
    exact ⟨t, hpersists _ _ ht, htuple⟩
  · rw [hentry]
    exact HloComputation.ids_addInstruction_nodup _ h.nodup
  · intro c hc hcall
    obtain ⟨ops, hops, hsource⟩ := h.calls c hc hcall
    refine ⟨ops, hpersists _ _ hops, ?_⟩
    apply hsource.imp
    intro o o' ho
    exact ho.mono (fun x hx => ⟨x.operands, hpersists _ _ hx⟩) hextends
  · intro c hc hc'
    rw [hentry] at hc
    rcases List.mem_append.mp hc with hc | hc
    · exact h.onlyCalls c hc hc'
    · rw [List.mem_singleton.mp hc] at hc'
      exact absurd hc' (by simpa [HloInstruction.isCall] using hcall)

private theorem forall₂_map {R R' : ℕ → ℕ → Prop} {f : ℕ → ℕ} {xs ys : List ℕ}
    (h : List.Forall₂ R xs ys) (hf : ∀ x ∈ xs, ∀ y ∈ ys, R x y → R' x (f y)) :
    List.Forall₂ R' xs (ys.map f) := by
  induction h with
  | nil => exact .nil
  | cons hxy _ ih =>
    refine .cons (hf _ (by simp) _ (by simp) hxy) (ih ?_)
    intro x hx y hy
    exact hf x (List.mem_cons_of_mem _ hx) y (List.mem_cons_of_mem _ hy)

/-- Replacing an operand by one that will do for the tasks that read it. -/
theorem Finishing.replaceAllUses (h : Finishing p base st) {old new : ℕ}
    (hnew : ∀ c ∈ base.entry.instructions, c.isCall = true → ∀ ops,
      st.entry.instruction c.id = some { c with operands := ops } → old ∈ ops →
        ∀ o ∈ c.operands, Source p base st o old → Source p base st o new)
    (hentry : st'.entry = st.entry.replaceAllUsesWith old new)
    (hpartition : st'.partition = st.partition) : Finishing p base st' := by
  have hfind : ∀ id, st'.entry.instruction id = (st.entry.instruction id).map fun i =>
      if i.id = new then i
      else { i with operands := i.operands.map fun o => if o = old then new else o } := by
    intro id
    rw [hentry]
    apply HloComputation.instruction_mapInstructions
    intro i
    split <;> rfl
  have hpersists : ∀ id, Persists st st' id := by
    intro id x hx
    rw [hfind, hx, Option.map_some]
    split
    · exact ⟨x.operands, rfl⟩
    · exact ⟨_, rfl⟩
  have hextends : st.partition.Extends st'.partition :=
    hpartition ▸ HloPartition.Extends.refl _
  refine ⟨?_, h.extends_.trans hextends, hpartition ▸ h.global, ?_, ?_, ?_⟩
  · obtain ⟨t, ht, htuple⟩ := h.tuple
    obtain ⟨ops, hops⟩ := hpersists _ t ht
    exact ⟨_, hops, htuple⟩
  · rw [hentry, HloComputation.ids_replaceAllUsesWith]
    exact h.nodup
  · intro c hc hcall
    obtain ⟨ops, hops, hsource⟩ := h.calls c hc hcall
    rw [hfind, hops, Option.map_some]
    split
    · exact ⟨ops, rfl, hsource.imp fun o o' ho => ho.mono (hpersists o') hextends⟩
    · refine ⟨_, rfl, forall₂_map hsource ?_⟩
      intro o ho o' ho' hoo'
      split
      · rename_i heq
        subst heq
        exact (hnew c hc hcall ops hops ho' o ho hoo').mono (hpersists new) hextends
      · exact hoo'.mono (hpersists o') hextends
  · intro c hc hcall
    rw [hentry] at hc
    obtain ⟨c', hc', rfl⟩ := List.mem_map.mp hc
    have honly := h.onlyCalls c' hc'
    split at hcall
    · rename_i heq
      rw [if_pos heq]
      exact honly hcall
    · rename_i hne
      rw [if_neg hne]
      exact honly hcall

/-- Removing an instruction that no task reads. -/
theorem Finishing.removeInstruction (h : Finishing p base st) {removed : ℕ}
    (htuple : removed ≠ base.entry.root)
    (hunused : ∀ c ∈ base.entry.instructions, c.isCall = true → c.id ≠ removed ∧ ∀ ops,
      st.entry.instruction c.id = some { c with operands := ops } → removed ∉ ops)
    (hentry : st'.entry = st.entry.removeInstruction removed)
    (hpartition : st'.partition = st.partition) : Finishing p base st' := by
  have hfind : ∀ id, id ≠ removed → st'.entry.instruction id = st.entry.instruction id := by
    intro id hid
    rw [hentry]
    exact HloComputation.instruction_removeInstruction hid
  have hextends : st.partition.Extends st'.partition :=
    hpartition ▸ HloPartition.Extends.refl _
  refine ⟨?_, h.extends_.trans hextends, hpartition ▸ h.global, ?_, ?_, ?_⟩
  · rw [hfind _ htuple.symm]
    exact h.tuple
  · rw [hentry]
    exact h.nodup.sublist (List.filter_sublist.map _)
  · intro c hc hcall
    obtain ⟨hid, hops'⟩ := hunused c hc hcall
    obtain ⟨ops, hops, hsource⟩ := h.calls c hc hcall
    refine ⟨ops, (hfind _ hid).trans hops, ?_⟩
    have hmem := hops' ops hops
    rw [← List.map_id ops]
    apply forall₂_map hsource
    intro o _ o' ho' hoo'
    refine hoo'.mono (fun x hx => ⟨x.operands, ?_⟩) hextends
    rw [hfind o' (fun heq => hmem (heq ▸ ho')), hx]
  · intro c hc hcall
    rw [hentry] at hc
    exact h.onlyCalls c (List.mem_of_mem_filter hc) hcall

/-- Whether or not a reshard is made, nothing else is touched. -/
theorem makeReshardIfNeeded_entry {color : String} {operandDevices devices : DeviceList}
    {operand user : HloInstruction} {result : Option ℕ}
    (h : makeReshardIfNeeded st color operandDevices devices operand user = ok (st', result)) :
    st'.partition = st.partition ∧ (st'.entry = st.entry ∨
      ∃ reshard, reshard.isCall = false ∧ st'.entry = st.entry.addInstruction reshard) := by
  unfold makeReshardIfNeeded at h
  split at h
  · obtain ⟨z, -, h⟩ := bind_eq_ok.mp h
    split at h
    · cases h
      exact ⟨rfl, Or.inl rfl⟩
    · cases h
      exact ⟨rfl, Or.inr ⟨_, rfl, rfl⟩⟩
  · cases h
    exact ⟨rfl, Or.inl rfl⟩

theorem visitScalar_spec (h : Finishing p base st) (hclosed : ClosedCalls base)
    {operand : HloInstruction} (hoperand : st.entry.instruction operand.id = some operand)
    (hdims : operand.shape.dimensions = []) (hrun : visitScalar st operand = ok st') :
    Finishing p base st' := by
  unfold visitScalar at hrun
  split at hrun
  · cases hrun
  · obtain ⟨devices, -, hrun⟩ := bind_eq_ok.mp hrun
    split at hrun
    · obtain ⟨⟨globalColor, partition⟩, hglobal, hrun⟩ := bind_eq_ok.mp hrun
      obtain ⟨hextends, hconsistent, hdevices⟩ :=
        HloPartition.findOrAllocateGlobalColor_spec h.global hglobal
      obtain rfl := ok.inj hrun
      set reshard : HloInstruction :=
        { id := 0, opcode := .customCall kCustomCallReshard, operands := [operand.id],
          shape := operand.shape, sharding := some .replicated, color := some globalColor }
        with hreshard
      set st₁ : State :=
        { st with entry := st.entry.addInstruction reshard, partition := partition } with hst₁
      have hadded : Finishing p base st₁ := h.addInstruction rfl rfl hextends hconsistent
      refine hadded.replaceAllUses ?_ rfl rfl
      intro c hc hcall ops _ _ o ho hsource
      have hfresh : IsGlobal p st₁ st.entry.freshId :=
        ⟨_, globalColor, HloComputation.instruction_addInstruction_freshId reshard, rfl, rfl, rfl,
          hdevices.trans (congrArg ok h.extends_.devices)⟩
      rcases hsource with ⟨rfl, hbase⟩ | ⟨i, hi, hidims, -⟩
      · obtain ⟨i, hi⟩ := hclosed c hc hcall _ ho
        obtain ⟨ops, hops⟩ := hbase i hi
        have hsame : { i with operands := ops } = operand := Option.some_injective _
          (hops.symm.trans (instruction_of_addInstruction hoperand))
        have hshape : i.shape = operand.shape := (congrArg HloInstruction.shape hsame :)
        exact Or.inr ⟨i, hi, hshape ▸ hdims, hfresh⟩
      · exact Or.inr ⟨i, hi, hidims, hfresh⟩
    · obtain rfl := ok.inj hrun
      exact h

/-- No task reads the instruction, and it is none itself. -/
def Unread (base st : State) (id : ℕ) : Prop :=
  ∀ c ∈ base.entry.instructions, c.isCall = true → c.id ≠ id ∧ ∀ ops,
    st.entry.instruction c.id = some { c with operands := ops } → id ∉ ops

/-- What only the root tuple reads no task reads. -/
theorem Finishing.unread (h : Finishing p base st) {root i : HloInstruction}
    (hroot : root ∈ st.entry.instructions) (htuple : root.opcode = .tuple)
    (huses : i.id ∈ root.operands) (hi : st.entry.instruction i.id = some i)
    (hcall : i.isCall = false) (husers : (st.entry.users i.id).length = 1) :
    Unread base st i.id := by
  have hrootUser : root ∈ st.entry.users i.id :=
    List.mem_filter.mpr ⟨hroot, by simpa using huses⟩
  obtain ⟨user, huser⟩ := List.length_eq_one_iff.mp husers
  intro c hc hcCall
  obtain ⟨ops', hops', -⟩ := h.calls c hc hcCall
  constructor
  · intro hid
    rw [hid, hi] at hops'
    have hopcode : i.opcode = c.opcode :=
      (congrArg HloInstruction.opcode (Option.some_injective _ hops') :)
    rw [HloInstruction.isCall, hopcode] at hcall
    rw [HloInstruction.isCall, hcall] at hcCall
    cases hcCall
  · intro ops hops hmem
    have hcallUser : { c with operands := ops } ∈ st.entry.users i.id :=
      List.mem_filter.mpr ⟨HloComputation.mem_of_instruction hops, by simpa using hmem⟩
    rw [huser] at hrootUser hcallUser
    have hsame := (List.mem_singleton.mp hcallUser).trans (List.mem_singleton.mp hrootUser).symm
    have hopcode : c.opcode = root.opcode := (congrArg HloInstruction.opcode hsame :)
    rw [HloInstruction.isCall, hopcode, htuple] at hcCall
    cases hcCall

theorem Unread.of_entry (h : Finishing p base st) {id : ℕ} (hunread : Unread base st id)
    (hpersists : ∀ c ∈ base.entry.instructions, ∀ x, st.entry.instruction c.id = some x →
      st'.entry.instruction c.id = some x) : Unread base st' id := by
  intro c hc hcall
  obtain ⟨hid, hops⟩ := hunread c hc hcall
  refine ⟨hid, fun ops hops' => ?_⟩
  obtain ⟨ops₀, hops₀, -⟩ := h.calls c hc hcall
  have hsame : ops₀ = ops := congrArg HloInstruction.operands
    (Option.some_injective _ ((hpersists c hc _ hops₀).symm.trans hops'))
  exact hsame ▸ hops ops₀ hops₀

/-- The recoloring instruction is replaced for the root only, and removed. -/
theorem Finishing.replaceUnread (h : Finishing p base st) {id new : ℕ}
    (hunread : Unread base st id) (hid : id ≠ base.entry.root)
    (hentry : st'.entry = (st.entry.replaceAllUsesWith id new).removeInstruction id)
    (hpartition : st'.partition = st.partition) : Finishing p base st' := by
  set st₁ : State := { st with entry := st.entry.replaceAllUsesWith id new } with hst₁
  have hreplaced : Finishing p base st₁ := by
    refine @Finishing.replaceAllUses p base st st₁ h id new ?_ rfl rfl
    intro c hc hcall ops hops hmem
    exact absurd hmem ((hunread c hc hcall).2 ops hops)
  apply hreplaced.removeInstruction hid _ hentry hpartition
  intro c hc hcall
  refine ⟨(hunread c hc hcall).1, fun ops hops => ?_⟩
  obtain ⟨ops₀, hops₀, -⟩ := h.calls c hc hcall
  have hnot := (hunread c hc hcall).2 ops₀ hops₀
  have hfind : st₁.entry.instruction c.id = (st.entry.instruction c.id).map fun i =>
      if i.id = new then i
      else { i with operands := i.operands.map fun o => if o = id then new else o } := by
    apply HloComputation.instruction_mapInstructions
    intro i
    split <;> rfl
  rw [hops, hops₀, Option.map_some] at hfind
  have hsame := congrArg HloInstruction.operands (Option.some_injective _ hfind)
  split at hsame
  · have hsame : ops = ops₀ := hsame
    exact hsame ▸ hnot
  · have hkept : (ops₀.map fun o => if o = id then new else o) = ops₀ := by
      conv_rhs => rw [← List.map_id ops₀]
      apply List.map_congr_left
      intro o ho
      apply if_neg
      rintro rfl
      exact hnot ho
    have hsame : ops = ops₀.map fun o => if o = id then new else o := hsame
    rw [hsame, hkept]
    exact hnot

theorem visitRecolor_spec (h : Finishing p base st) {root recolor : HloInstruction}
    (hroot : st.entry.instruction base.entry.root = some root) (htuple : root.opcode = .tuple)
    (huses : recolor.id ∈ root.operands)
    (hrecolor : st.entry.instruction recolor.id = some recolor)
    (hcustom : recolor.opcode = .customCall kCustomCallRootTupleRecolor)
    (hrun : visitRecolor st recolor = ok st') : Finishing p base st' := by
  have hcall : recolor.isCall = false := by rw [HloInstruction.isCall, hcustom]
  have hid : recolor.id ≠ base.entry.root := by
    intro hid
    rw [hid, hroot] at hrecolor
    rw [Option.some_injective _ hrecolor, hcustom] at htuple
    cases htuple
  unfold visitRecolor at hrun
  split at hrun
  · cases hrun
  · obtain ⟨devices, -, hrun⟩ := bind_eq_ok.mp hrun
    split at hrun
    · split at hrun
      · cases hrun
      · rename_i husers
        obtain ⟨operand, -, hrun⟩ := bind_eq_ok.mp hrun
        split at hrun
        · cases hrun
        · obtain ⟨operandDevices, -, hrun⟩ := bind_eq_ok.mp hrun
          obtain ⟨⟨st₁, result⟩, hmake, hrun⟩ := bind_eq_ok.mp hrun
          obtain rfl := ok.inj hrun
          have hunread := h.unread (HloComputation.mem_of_instruction hroot) htuple huses hrecolor
            hcall (not_not.mp husers)
          obtain ⟨hpartition, hentry | ⟨reshard, hreshard, hentry⟩⟩ :=
            makeReshardIfNeeded_entry hmake
          · apply h.replaceUnread hunread hid
            · rw [← hentry]
            · exact hpartition
          · have hadded : Finishing p base st₁ := h.addInstruction hreshard hentry
              (hpartition ▸ HloPartition.Extends.refl _) (hpartition ▸ h.global)
            refine hadded.replaceUnread (hunread.of_entry h ?_) hid rfl rfl
            intro c hc x hx
            rw [hentry]
            exact instruction_of_addInstruction hx
    · cases hrun

theorem visitRootOperand_spec (h : Finishing p base st) (hclosed : ClosedCalls base) {index : ℕ}
    (hrun : visitRootOperand base.entry.root st index = ok st') : Finishing p base st' := by
  obtain ⟨root, hroot, htuple⟩ := h.tuple
  rw [visitRootOperand, hroot, deref_some, ok_bind] at hrun
  simp only [bind_eq_ok, deref_eq_ok] at hrun
  obtain ⟨operandId, hoperandId, operand, hoperand, hrun⟩ := hrun
  obtain rfl := HloComputation.id_of_instruction hoperand
  have huses := List.mem_of_getElem? (elementAt_eq_ok.mp hoperandId)
  split at hrun
  · rename_i hcustom
    exact visitRecolor_spec h hroot htuple huses hoperand (of_decide_eq_true hcustom) hrun
  · split at hrun
    · rename_i hdims
      exact visitScalar_spec h hclosed hoperand hdims hrun
    · obtain rfl := ok.inj hrun
      exact h

/-- What the visits of the root keep of every task and its operands. -/
structure Finished (p : HloPartition) (base st : State) : Prop where
  extends_ : p.Extends st.partition
  nodup : st.entry.ids.Nodup
  calls : ∀ i ∈ base.entry.instructions, i.isCall = true →
    ∃ ops, st.entry.instruction i.id = some { i with operands := ops } ∧
      List.Forall₂ (Source p base st) i.operands ops
  onlyCalls : ∀ i ∈ st.entry.instructions, i.isCall = true →
    ∃ c ∈ base.entry.instructions, c.id = i.id ∧ c.isCall = true

theorem Finishing.finished (h : Finishing p base st) : Finished p base st :=
  ⟨h.extends_, h.nodup, h.calls, h.onlyCalls⟩

theorem visitRoot_spec (hpartition : base.partition = p) (hglobal : p.GlobalColorConsistent)
    (hnodup : base.entry.ids.Nodup) (hclosed : ClosedCalls base)
    (hrun : visitRoot base = ok st) : Finished p base st := by
  obtain ⟨root, hroot, hrun⟩ := bind_eq_ok.mp hrun
  rw [deref_eq_ok] at hroot
  split at hrun
  · rename_i htuple
    have hloop := foldlM_invariant (Finishing p base) hrun
      (finishing_start hpartition hglobal hnodup hroot htuple)
      (fun index _ c c' hc hstep => visitRootOperand_spec hc hclosed hstep)
    exact hloop.finished
  · obtain rfl := ok.inj hrun
    refine ⟨hpartition ▸ HloPartition.Extends.refl p, hnodup, ?_, ?_⟩
    · intro i hi _
      refine ⟨i.operands, HloComputation.instruction_of_mem hnodup hi, ?_⟩
      rw [List.forall₂_same]
      intro o _
      exact Or.inl ⟨rfl, fun j hj => ⟨j.operands, hj⟩⟩
    · intro i hi hcall
      exact ⟨i, hi, rfl, hcall⟩

end InsertReshard
end MultiMeshJax
