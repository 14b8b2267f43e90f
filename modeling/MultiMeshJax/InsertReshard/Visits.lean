import MultiMeshJax.InsertReshard.Sites

/-! The visits of the calls: one operand, one call, all instructions. -/
namespace MultiMeshJax
namespace InsertReshard

open StatusOr Sharding

variable {p : HloPartition} {m : HloModule} {st st' : State}

theorem valueOrDie_eq_ok {α : Type} {x : StatusOr α} {a : α} : valueOrDie x = ok a ↔ x = ok a := by
  cases x <;> simp [valueOrDie]

@[simp] theorem getInstructionDevices_operands (q : HloPartition) (i : HloInstruction)
    (ops : List ℕ) :
    getInstructionDevices q { i with operands := ops } = getInstructionDevices q i := rfl

@[simp] theorem isPlaceholder_operands (i : HloInstruction) (ops : List ℕ) :
    isPlaceholder { i with operands := ops } = isPlaceholder i := rfl

/-- A reshard is returned exactly if the site needs one, and it is the one of its key. -/
theorem makeReshardIfNeeded_spec (h : Visiting p m st) {s : Site} (hs : IsSite p m s)
    {ops : List ℕ} {color : String} (hcolor : s.call.color = some color) {result : Option ℕ}
    (hrun : makeReshardIfNeeded st color s.operandDevices s.devices
      { s.operand with operands := ops } s.parameter = ok (st', result)) :
    Visiting p m st' ∧ Keeps p m st st' ∧
      ((s.needsReshard = false ∧ result = none) ∨
        ∃ r key, s.needsReshard = true ∧ result = some r ∧ s.HasKey key ∧
          st'.reshardMap.lookup key = some r) := by
  unfold makeReshardIfNeeded at hrun
  split at hrun
  · rename_i hneeds
    have hneeds : s.needsReshard = true := hneeds
    obtain ⟨z, hz, hrun⟩ := bind_eq_ok.mp hrun
    have hkey : s.HasKey ⟨z, s.operand.id⟩ := ⟨rfl, valueOrDie_eq_ok.mp hz⟩
    split at hrun
    · rename_i r hlookup
      obtain ⟨rfl, rfl⟩ := Prod.mk.inj (ok.inj hrun)
      exact ⟨h, Keeps.refl _, Or.inr ⟨r, _, hneeds, rfl, hkey, hlookup⟩⟩
    · rename_i hlookup
      obtain ⟨rfl, rfl⟩ := Prod.mk.inj (ok.inj hrun)
      have hreshard : IsReshardFor s
          { id := 0, opcode := .customCall kCustomCallReshard, operands := [s.operand.id],
            shape := s.parameter.shape, sharding := s.parameter.sharding, color := some color } :=
        ⟨rfl, rfl, hcolor.symm, rfl⟩
      have hadded := h.addReshard hs hneeds hkey hlookup hreshard
      refine ⟨hadded.1, hadded.2, Or.inr ⟨_, _, hneeds, rfl, hkey, ?_⟩⟩
      simp
  · rename_i hneeds
    obtain ⟨rfl, rfl⟩ := Prod.mk.inj (ok.inj hrun)
    refine ⟨h, Keeps.refl _, Or.inl ⟨?_, rfl⟩⟩
    exact Bool.eq_false_iff.mpr hneeds

/-- Writing its reshard to a site settles the site and keeps the others. -/
theorem Visiting.replaceOperand (hids : m.entry.ids.Nodup) (h : Visiting p m st) {s : Site}
    (hs : IsSite p m s) {r : ℕ} {key : ReshardKey} (hneeds : s.needsReshard = true)
    (hkey : s.HasKey key) (hlookup : st.reshardMap.lookup key = some r) :
    let st' := { st with
      entry := st.entry.replaceOperandWith s.call.id s.index r, changed := true }
    Visiting p m st' ∧ Keeps p m st st' ∧ Settled st' s := by
  intro st'
  have hfind : ∀ id, st'.entry.instruction id = (st.entry.instruction id).map fun i =>
      if i.id = s.call.id then { i with operands := i.operands.set s.index r } else i := by
    intro id
    apply HloComputation.instruction_mapInstructions
    intro i
    split <;> rfl
  have hmoved : Moved st' s r := Or.inr ⟨hneeds, key, hkey, hlookup⟩
  have hsame : ∀ i ∈ m.entry.instructions, i.id = s.call.id → i = s.call :=
    fun i hi hid => List.inj_on_of_nodup_map hids hi hs.argument.call_mem hid
  refine ⟨⟨h.partition, h.root, ?_, ?_, ?_, ?_⟩, ⟨fun _ _ hr => hr, ?_⟩, ?_⟩
  · rw [HloComputation.ids_replaceOperandWith]
    exact h.nodup
  · intro i hi
    obtain ⟨ops, hops, hlen, hreplaced⟩ := h.given i hi
    rw [hfind, hops, Option.map_some]
    by_cases hid : i.id = s.call.id
    · obtain rfl := hsame i hi hid
      refine ⟨ops.set s.index r, by simp, by rw [List.length_set, hlen], ?_⟩
      intro k o ho
      by_cases hk : s.index = k
      · exact Or.inr ⟨s, hs, rfl, hk, hneeds⟩
      · rw [List.getElem?_set_ne hk] at ho
        exact hreplaced k o ho
    · exact ⟨ops, by simp [hid], hlen, hreplaced⟩
  · intro i hi
    obtain ⟨j, hj, rfl⟩ := List.mem_map.mp hi
    have hadded := h.added j hj
    split <;> exact hadded
  · intro key' r' hr'
    obtain ⟨hr, t, i, ht, htneeds, htkey, hi, hfor⟩ := h.reshards key' r' hr'
    refine ⟨hr, t, i, ht, htneeds, htkey, ?_, hfor⟩
    have hid : i.id ≠ s.call.id := by
      rw [HloComputation.id_of_instruction hi]
      rintro rfl
      exact hr (List.mem_map_of_mem hs.argument.call_mem)
    rw [hfind, hi, Option.map_some, if_neg hid]
  · rintro t ht ⟨i, o, hi, ho, ht'⟩
    have hid := HloComputation.id_of_instruction hi
    have ht' : Moved st' t o := ht'
    by_cases hcall : t.call.id = s.call.id
    · have hcall' := hsame _ ht.argument.call_mem hcall
      by_cases hindex : s.index = t.index
      · obtain rfl := ht.unique hs hcall' hindex.symm
        refine ⟨_, r, by rw [hfind, hi, Option.map_some, if_pos hid], ?_, hmoved⟩
        rw [List.getElem?_set_self (List.getElem?_eq_some_iff.mp ho).1]
      · refine ⟨_, o, by rw [hfind, hi, Option.map_some, if_pos (hid.trans hcall)], ?_, ht'⟩
        rw [List.getElem?_set_ne hindex, ho]
    · refine ⟨i, o, ?_, ho, ht'⟩
      rw [hfind, hi, Option.map_some, if_neg (hid ▸ hcall)]
  · obtain ⟨ops, hops, hlen, -⟩ := h.given s.call hs.argument.call_mem
    refine ⟨_, r, by rw [hfind, hops, Option.map_some, if_pos rfl], ?_, hmoved⟩
    rw [List.getElem?_set_self]
    rw [hlen]
    exact (List.getElem?_eq_some_iff.mp hs.operand_id).1

/-- The visit of an operand settles its site, if it is one. -/
theorem visitOperand_spec (hwf : WellSharded p m) (h : Visiting p m st)
    {call : HloInstruction} {parameters : List HloInstruction} {toApply : ℕ} {color : String}
    {devices : DeviceList} (hcall : call ∈ m.entry.instructions)
    (hopcode : call.opcode = .call toApply) (hparameters : m.parameters[toApply]? = some parameters)
    (hcolor : call.color = some color) (hdevices : p.devicesForColor color = ok devices)
    {o k : ℕ} (ho : call.operands[k]? = some o)
    (hrun : visitOperand parameters color devices call.id st (o, k) = ok st') :
    Visiting p m st' ∧ Keeps p m st st' ∧ Visited p m st' call k := by
  have hmem := hwf.closed call hcall o (List.mem_of_getElem? ho)
  obtain ⟨operand, hoperandMem, rfl⟩ := List.mem_map.mp hmem
  have hoperand := HloComputation.instruction_of_mem hwf.nodup hoperandMem
  obtain ⟨ops, hops⟩ := h.instruction hoperand
  rw [visitOperand, hops, deref_some, ok_bind] at hrun
  have hoperandOf : ∀ s, IsSite p m s → s.call = call → s.index = k → s.operand = operand := by
    rintro s hs rfl rfl
    obtain ⟨o, ho', hso⟩ := hs.operand_eq
    cases ho.symm.trans ho'
    exact Option.some_injective _ (hso.symm.trans hoperand)
  split at hrun
  · rename_i hplaceholder
    obtain rfl := ok.inj hrun
    refine ⟨h, Keeps.refl _, ?_, ?_⟩
    · intro o' operand' ho' hoperand' hcomputed
      cases ho.symm.trans ho'
      cases hoperand.symm.trans hoperand'
      exact absurd hplaceholder (by simp [hcomputed])
    · intro s hs hcall hindex
      have hcomputed := hs.computed
      rw [hoperandOf s hs hcall hindex] at hcomputed
      exact absurd hplaceholder (by simp [hcomputed])
  · rename_i hcomputed
    obtain ⟨parameter, hparameter, hrun⟩ := bind_eq_ok.mp hrun
    obtain ⟨operandDevices, hoperandDevices, hrun⟩ := bind_eq_ok.mp hrun
    rw [h.partition, getInstructionDevices_operands] at hoperandDevices
    obtain ⟨⟨st₁, result⟩, hmake, hrun⟩ := bind_eq_ok.mp hrun
    -- the site of this operand
    set s : Site := ⟨call, k, operand, parameter, operandDevices, devices⟩ with hsdef
    have hs : IsSite p m s :=
      ⟨⟨hcall, ⟨toApply, parameters, hopcode, hparameters, elementAt_eq_ok.mp hparameter⟩,
        color, hcolor, hdevices⟩, ⟨_, ho, hoperand⟩, by simpa using hcomputed, hoperandDevices⟩
    have honly : ∀ t, IsSite p m t → t.call = call → t.index = k → t = s :=
      fun t ht htcall htindex => ht.unique hs htcall htindex
    obtain ⟨hvisiting, hkeeps, ⟨hneeds, rfl⟩ | ⟨r, key, hneeds, rfl, hkey, hlookup⟩⟩ :=
      makeReshardIfNeeded_spec h hs hcolor hmake
    · obtain rfl := ok.inj hrun
      refine ⟨hvisiting, hkeeps, fun _ _ _ _ _ => ⟨s, hs, rfl, rfl⟩, ?_⟩
      intro t ht htcall htindex
      obtain rfl := honly t ht htcall htindex
      obtain ⟨ops', hops', hlen, hreplaced⟩ := hvisiting.given _ hcall
      have hk : k < ops'.length := hlen ▸ (List.getElem?_eq_some_iff.mp ho).1
      refine ⟨_, operand.id, hops', ?_, Or.inl ⟨hneeds, rfl⟩⟩
      rcases hreplaced k _ (List.getElem?_eq_getElem hk) with hsame | ⟨u, hu, hucall, huindex, huneeds⟩
      · show ops'[k]? = _
        rw [List.getElem?_eq_getElem hk, ← hsame, ho]
      · rw [honly u hu hucall huindex, hneeds] at huneeds
        cases huneeds
    · obtain rfl := ok.inj hrun
      obtain ⟨hvisiting', hkeeps', hsettled⟩ :=
        hvisiting.replaceOperand hwf.nodup hs hneeds hkey hlookup
      refine ⟨hvisiting', hkeeps.trans hkeeps', fun _ _ _ _ _ => ⟨s, hs, rfl, rfl⟩, ?_⟩
      intro t ht htcall htindex
      obtain rfl := honly t ht htcall htindex
      exact hsettled

/-- A call has been visited: it has devices, and its operands have been visited. -/
def CallVisited (p : HloPartition) (m : HloModule) (i : HloInstruction) (st : State) : Prop :=
  i.isCall = true → (∃ color devices, i.color = some color ∧ p.devicesForColor color = ok devices) ∧
    ∀ k < i.operands.length, Visited p m st i k

theorem visitInstruction_spec (hwf : WellSharded p m) (h : Visiting p m st)
    {i : HloInstruction} (hi : i ∈ m.entry.instructions)
    (hrun : visitInstruction m st i = ok st') :
    Visiting p m st' ∧ Keeps p m st st' ∧ CallVisited p m i st' := by
  unfold visitInstruction at hrun
  split at hrun
  · rename_i toApply hopcode
    obtain ⟨parameters, hparameters, hrun⟩ := bind_eq_ok.mp hrun
    split at hrun
    · cases hrun
    · rename_i color hcolor
      obtain ⟨devices, hdevices, hrun⟩ := bind_eq_ok.mp hrun
      rw [h.partition] at hdevices
      obtain ⟨hvisiting, hkeeps, hvisited⟩ := foldlM_establishes (P := Visiting p m)
        (R := Keeps p m) (Q := fun (x : ℕ × ℕ) c => Visited p m c i x.2)
        Keeps.refl (fun _ _ _ => Keeps.trans) (fun _ _ _ hkeeps hx => hx.mono hkeeps) hrun h (by
          intro x hx c c' hc hstep
          exact visitOperand_spec hwf hc hi hopcode (elementAt_eq_ok.mp hparameters) hcolor
            hdevices (List.mem_zipIdx_iff_getElem?.mp hx) hstep)
      refine ⟨hvisiting, hkeeps, fun _ => ⟨⟨color, devices, hcolor, hdevices⟩, ?_⟩⟩
      intro k hk
      exact hvisited (i.operands[k], k)
        (List.mem_zipIdx_iff_getElem?.mpr (List.getElem?_eq_getElem hk))
  · rename_i hne
    obtain rfl := ok.inj hrun
    refine ⟨h, Keeps.refl _, fun hcall => ?_⟩
    unfold HloInstruction.isCall at hcall
    split at hcall
    · rename_i toApply hopcode
      exact absurd hopcode (hne toApply)
    · cases hcall

/-- After the instructions are visited every call is. -/
theorem visitInstructions_spec (hwf : WellSharded p m)
    (hrun : m.entry.instructions.foldlM (visitInstruction m)
      { entry := m.entry, partition := p } = ok st) :
    Visiting p m st ∧ ∀ i ∈ m.entry.instructions, CallVisited p m i st := by
  obtain ⟨hvisiting, -, hcalls⟩ := foldlM_establishes (P := Visiting p m) (R := Keeps p m)
    (Q := CallVisited p m) Keeps.refl (fun _ _ _ => Keeps.trans)
    (fun i c c' hkeeps hi hcall => ⟨(hi hcall).1, fun k hk => ((hi hcall).2 k hk).mono hkeeps⟩)
    hrun (visiting_start hwf) (fun i hi c c' hc hstep => visitInstruction_spec hwf hc hi hstep)
  exact ⟨hvisiting, hcalls⟩

end InsertReshard
end MultiMeshJax
