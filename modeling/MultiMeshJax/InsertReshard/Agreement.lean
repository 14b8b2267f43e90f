import MultiMeshJax.InsertReshard.Root

/-! When the operands are where the tasks expect them after `MpmdInsertReshard`. -/
namespace MultiMeshJax
namespace InsertReshard

open StatusOr Sharding

variable {p p' : HloPartition} {m : HloModule} {base fin : State}

theorem getInstructionDevices_extends {i : HloInstruction} {d : DeviceList}
    (hextends : p.Extends p') (h : getInstructionDevices p i = ok d) :
    getInstructionDevices p' i = ok d := by
  unfold getInstructionDevices at h ⊢
  rw [hextends.devices]
  cases hcolor : i.color with
  | none => simpa [hcolor] using h
  | some color =>
    simp only [hcolor] at h ⊢
    exact hextends.devicesForColor _ _ h

namespace IsSite

variable {s t : Site}

theorem shape_eq (hs : IsSite p m s) (hwf : WellSharded p m) :
    s.operand.shape = s.parameter.shape := by
  obtain ⟨o, ho, hoperand⟩ := hs.operand_eq
  exact hwf.shape_eq _ _ _ _ _ _ hs.argument ho hoperand

theorem parameter_placed (hs : IsSite p m s) (hwf : WellSharded p m) :
    Placed s.parameter.shape s.devices s.parameter.shardingOrReplicated :=
  hwf.parameter_placed _ _ _ _ hs.argument

theorem operand_placed (hs : IsSite p m s) (hwf : WellSharded p m) :
    Placed s.parameter.shape s.operandDevices s.operand.shardingOrReplicated := by
  rw [← hs.shape_eq hwf]
  exact hwf.operand_placed s hs

theorem operand_of_id (hs : IsSite p m s) (ht : IsSite p m t)
    (hid : s.operand.id = t.operand.id) : s.operand = t.operand := by
  obtain ⟨o, -, hoperand⟩ := hs.operand_eq
  obtain ⟨o', -, hoperand'⟩ := ht.operand_eq
  obtain rfl := HloComputation.id_of_instruction hoperand
  obtain rfl := HloComputation.id_of_instruction hoperand'
  rw [hid] at hoperand
  exact Option.some_injective _ (hoperand.symm.trans hoperand')

/-- Sites with one key read the same operand, have the same devices, and divide alike. -/
theorem of_key (hwf : WellSharded p m) (hs : IsSite p m s) (ht : IsSite p m t) {key : ReshardKey}
    (hskey : s.HasKey key) (htkey : t.HasKey key) :
    s.parameter.shape = t.parameter.shape ∧ s.devices = t.devices ∧
      tileExtents s.rank s.parameter.shardingOrReplicated =
        tileExtents s.rank t.parameter.shardingOrReplicated := by
  have hoperand := hs.operand_of_id ht (hskey.1.symm.trans htkey.1)
  have hshape : s.parameter.shape = t.parameter.shape := by
    rw [← hs.shape_eq hwf, ← ht.shape_eq hwf, hoperand]
  have hmatches : ∀ {u : Site}, IsSite p m u → ∀ a replicated,
      u.parameter.shardingOrReplicated = .tiled a replicated →
        ShapeMatches a.dimensions replicated u.parameter.shape := by
    intro u hu a replicated ha
    have hplaced := hu.parameter_placed hwf
    rw [ha] at hplaced
    exact hplaced.1
  obtain ⟨hsdevices, hsextents⟩ := xlaShapeToZukuShape_eq_ok (hmatches hs) hskey.2
  obtain ⟨htdevices, htextents⟩ := xlaShapeToZukuShape_eq_ok (hmatches ht) htkey.2
  refine ⟨hshape, hsdevices.symm.trans htdevices, ?_⟩
  rw [Site.rank, ← hsextents, hshape, ← htextents]

end IsSite

/-- What has become of a site. -/
inductive Outcome (p : HloPartition) (reshards : ReshardKey → Option HloInstruction)
    (s s' : Site) : Prop where
  | kept (needs : s.needsReshard = false)
      (sharding : s'.operand.shardingOrReplicated = s.operand.shardingOrReplicated)
      (devices : s'.operandDevices = s.operandDevices)
  | moved (key : ReshardKey) (reshard : HloInstruction) (needs : s.needsReshard = true)
      (hasKey : s.HasKey key) (found : reshards key = some reshard)
      (sharding : s'.operand.sharding = reshard.sharding)
      (devices : s'.operandDevices = s.devices)
  | everywhere (scalar : s.parameter.shape.dimensions = [])
      (sharding : s'.operand.shardingOrReplicated = .replicated)
      (devices : s'.operandDevices = p.devices)

def reshardOf (base : State) (key : ReshardKey) : Option HloInstruction :=
  (base.reshardMap.lookup key).bind base.entry.instruction

/-- No call is added. -/
theorem mem_ids_of_isCall (h : Visiting p m base) {i : HloInstruction}
    (hi : i ∈ base.entry.instructions) (hcall : i.isCall = true) : i.id ∈ m.entry.ids := by
  rcases h.added i hi with hmem | hopcode
  · exact hmem
  · rw [HloInstruction.isCall, hopcode] at hcall
    cases hcall

/-- The operands of the calls exist while the operands are visited. -/
theorem closedCalls (hwf : WellSharded p m) (h : Visiting p m base)
    (hvisited : ∀ i ∈ m.entry.instructions, CallVisited p m i base) : ClosedCalls base := by
  intro i hi hcall o ho
  obtain ⟨c, hc, hid⟩ := List.mem_map.mp (mem_ids_of_isCall h hi hcall)
  obtain ⟨ops, hops, hlen, hreplaced⟩ := h.given c hc
  have hsame := HloComputation.instruction_of_mem h.nodup hi
  rw [← hid, hops] at hsame
  have hieq := Option.some_injective _ hsame
  subst hieq
  obtain ⟨k, hk⟩ := List.mem_iff_getElem?.mp ho
  rcases hreplaced k o hk with hkept | ⟨s, hs, rfl, rfl, hneeds⟩
  · obtain ⟨x, hx, rfl⟩ := List.mem_map.mp (hwf.closed c hc o (List.mem_of_getElem? hkept))
    obtain ⟨ops', hops', -⟩ := h.given x hx
    exact ⟨_, hops'⟩
  · have hklt := (List.getElem?_eq_some_iff.mp hs.operand_id).1
    obtain ⟨i', o', hi', ho', hmoved⟩ :=
      ((hvisited _ hc hcall).2 s.index hklt).settled s hs rfl rfl
    rw [hops] at hi'
    obtain rfl := Option.some_injective _ hi'
    obtain rfl := Option.some_injective _ (hk.symm.trans ho')
    rcases hmoved with ⟨hnot, -⟩ | ⟨-, key, -, hlookup⟩
    · rw [hneeds] at hnot
      cases hnot
    · obtain ⟨-, t, x, -, -, -, hx, -⟩ := h.reshards key _ hlookup
      exact ⟨x, hx⟩

/-- An argument stays one, with the operands that its call then has. -/
theorem IsArgument.finished {call parameter : HloInstruction} {index : ℕ} {devices : DeviceList}
    (h : IsArgument p m call index parameter devices) (hf : Finished p base fin) {ops : List ℕ}
    (hops : fin.entry.instruction call.id = some { call with operands := ops }) :
    IsArgument fin.partition { m with entry := fin.entry } { call with operands := ops } index
      parameter devices := by
  obtain ⟨-, hparameter, color, hcolor, hdevices⟩ := h
  exact ⟨HloComputation.mem_of_instruction hops, hparameter, color, hcolor,
    hf.extends_.devicesForColor _ _ hdevices⟩

theorem isCall_of_opcode {i : HloInstruction} {n : ℕ} (h : i.opcode = .call n) :
    i.isCall = true := by
  rw [HloInstruction.isCall, h]

theorem IsArgument.isCall {call parameter : HloInstruction} {index : ℕ} {devices : DeviceList}
    (h : IsArgument p m call index parameter devices) : call.isCall = true := by
  obtain ⟨-, ⟨_, _, hopcode, -⟩, -⟩ := h
  exact isCall_of_opcode hopcode

/-- The operands of a call before and after the visits of the root. -/
theorem exists_operands (hv : Visiting p m base) (hf : Finished p base fin) {call : HloInstruction}
    (hmem : call ∈ m.entry.instructions) (hcall : call.isCall = true) :
    ∃ ops ops', base.entry.instruction call.id = some { call with operands := ops } ∧
      fin.entry.instruction call.id = some { call with operands := ops' } ∧
      List.Forall₂ (Source p base fin) ops ops' := by
  obtain ⟨ops, hops, -⟩ := hv.given call hmem
  obtain ⟨ops', hops', hsource⟩ := hf.calls _ (HloComputation.mem_of_instruction hops) hcall
  exact ⟨ops, ops', hops, hops', hsource⟩

/-- A settled site is a site when the pass is done, with one of the outcomes. -/
theorem exists_outcome (hwf : WellSharded p m) (hv : Visiting p m base)
    (hvisited : ∀ i ∈ m.entry.instructions, CallVisited p m i base)
    (hf : Finished p base fin) {s : Site} (hs : IsSite p m s) :
    ∃ s', IsSite fin.partition { m with entry := fin.entry } s' ∧ s'.call.id = s.call.id ∧
      s'.index = s.index ∧ s'.parameter = s.parameter ∧ s'.devices = s.devices ∧
      Outcome p (reshardOf base) s s' := by
  have hcall := hs.argument.isCall
  have hcallMem := hs.argument.call_mem
  obtain ⟨ops, ops', hops, hops', hsource⟩ := exists_operands hv hf hcallMem hcall
  have hk := (List.getElem?_eq_some_iff.mp hs.operand_id).1
  obtain ⟨i, o, hi, ho, hmoved⟩ := ((hvisited _ hcallMem hcall).2 s.index hk).settled s hs rfl rfl
  rw [hops] at hi
  obtain rfl := Option.some_injective _ hi
  have ho : ops[s.index]? = some o := ho
  obtain ⟨hlt, rfl⟩ := List.getElem?_eq_some_iff.mp ho
  have hlt' : s.index < ops'.length := hsource.length_eq ▸ hlt
  have hget : ({ s.call with operands := ops' } : HloInstruction).operands[s.index]? =
      some ops'[s.index] := List.getElem?_eq_getElem hlt'
  have hargument := hs.argument.finished hf hops'
  rcases hsource.get hlt hlt' with ⟨hsame, hpersists⟩ | ⟨x, hx, hdims, hglobal⟩
  · simp only [List.get_eq_getElem] at hsame hpersists
    rcases hmoved with ⟨hneeds, hid⟩ | ⟨hneeds, key, hkey, hlookup⟩
    · -- the operand itself
      obtain ⟨o, -, hoperand⟩ := hs.operand_eq
      obtain rfl := HloComputation.id_of_instruction hoperand
      obtain ⟨ops₁, hops₁⟩ := hv.instruction hoperand
      rw [hid] at hpersists
      obtain ⟨ops₂, hops₂⟩ := hpersists _ hops₁
      rw [hsame, hid] at hget
      refine ⟨⟨_, s.index, { s.operand with operands := ops₂ }, s.parameter, s.operandDevices,
        s.devices⟩, ⟨hargument, ⟨_, hget, hops₂⟩, hs.computed, ?_⟩, rfl, rfl, rfl, rfl,
        .kept hneeds rfl rfl⟩
      exact getInstructionDevices_extends hf.extends_ hs.operandDevices_eq
    · -- a reshard
      obtain ⟨-, t, x, ht, -, htkey, hx, hfor⟩ := hv.reshards key _ hlookup
      obtain ⟨ops₂, hops₂⟩ := hpersists x hx
      obtain ⟨color, hcolor, hdevices⟩ := ht.argument.devices_eq
      have hxcolor : x.color = some color := hfor.color.trans hcolor
      have hsameDevices := (IsSite.of_key hwf hs ht hkey htkey).2.1
      rw [hsame] at hget
      refine ⟨⟨_, s.index, { x with operands := ops₂ }, s.parameter, s.devices, s.devices⟩,
        ⟨hargument, ⟨_, hget, hops₂⟩, ?_, ?_⟩, rfl, rfl, rfl, rfl,
        .moved key x hneeds hkey ?_ rfl rfl⟩
      · rw [isPlaceholder, HloInstruction.isCustomCall, HloInstruction.isCustomCall, hfor.opcode]
        decide
      · rw [getInstructionDevices_operands, getInstructionDevices, hxcolor, hsameDevices]
        exact hf.extends_.devicesForColor _ _ hdevices
      · rw [reshardOf, hlookup, Option.bind_some, hx]
  · -- the copy on all devices
    simp only [List.get_eq_getElem] at hx hglobal
    obtain ⟨j, color, hj, hopcode, hsharding, hcolor, hdevices⟩ := hglobal
    refine ⟨⟨_, s.index, j, s.parameter, p.devices, s.devices⟩,
      ⟨hargument, ⟨_, hget, hj⟩, ?_, ?_⟩, rfl, rfl, rfl, rfl, .everywhere ?_ ?_ rfl⟩
    · rw [isPlaceholder, HloInstruction.isCustomCall, HloInstruction.isCustomCall, hopcode]
      decide
    · rw [getInstructionDevices, hcolor]
      exact hdevices
    · rcases hmoved with ⟨-, hid⟩ | ⟨-, key, hkey, hlookup⟩
      · obtain ⟨o, -, hoperand⟩ := hs.operand_eq
        obtain rfl := HloComputation.id_of_instruction hoperand
        obtain ⟨ops₁, hops₁⟩ := hv.instruction hoperand
        rw [hid, hops₁] at hx
        rw [← hs.shape_eq hwf, ← hdims, ← Option.some_injective _ hx]
      · obtain ⟨-, t, x', ht, -, htkey, hx', hfor⟩ := hv.reshards key _ hlookup
        obtain rfl := Option.some_injective _ (hx.symm.trans hx')
        rw [(IsSite.of_key hwf hs ht hkey htkey).1, ← hfor.shape, hdims]
    · rw [HloInstruction.shardingOrReplicated, hsharding, Option.getD_some]

/-- Where the pass takes two shardings for the same, they list every device at the same
tile: an operand that it leaves in place and the parameter, and two parameters for which
it makes one reshard. -/
structure OrdersAgree (p : HloPartition) (m : HloModule) : Prop where
  kept : ∀ s, IsSite p m s → s.needsReshard = false →
    SameTileOrder s.rank s.devices.numDevices s.operand.shardingOrReplicated
      s.parameter.shardingOrReplicated
  shared : ∀ s t key, IsSite p m s → IsSite p m t → s.needsReshard = true →
    t.needsReshard = true → s.HasKey key → t.HasKey key →
      SameTileOrder s.rank s.devices.numDevices s.parameter.shardingOrReplicated
        t.parameter.shardingOrReplicated

/-- The two reasons not to insert a reshard. -/
theorem needsReshard_eq_false {s : Site} (h : s.needsReshard = false) :
    (s.operand.shardingOrReplicated = .replicated ∧
      s.parameter.shardingOrReplicated = .replicated ∧ s.operandDevices.contains s.devices) ∨
    s.operandDevices = s.devices ∧
      meshEquivalentSharding s.operand.shardingOrReplicated s.parameter.shardingOrReplicated =
        true := by
  unfold Site.needsReshard needsReshard at h
  split at h
  · rename_i hreplicated
    simp only [Bool.and_eq_true, HloSharding.isReplicated, decide_eq_true_eq] at hreplicated
    exact Or.inl ⟨hreplicated.1.1, hreplicated.1.2, hreplicated.2⟩
  · simp only [Bool.or_eq_false_iff, decide_eq_false_iff_not, not_not, Bool.not_eq_false'] at h
    exact Or.inr h

theorem agrees_iff_of_kept (hwf : WellSharded p m) {s : Site} (hs : IsSite p m s)
    (hneeds : s.needsReshard = false) :
    s.Agrees ↔ SameTileOrder s.rank s.devices.numDevices s.operand.shardingOrReplicated
      s.parameter.shardingOrReplicated := by
  have hparameter := hs.parameter_placed hwf
  have hoperand := hs.operand_placed hwf
  rcases needsReshard_eq_false hneeds with ⟨ho, hp, hcontains⟩ | ⟨hdevices, hequivalent⟩
  · rw [Site.Agrees, ho, hp]
    refine iff_of_true (Or.inr ⟨?_, ?_, hcontains⟩) trivial
    · exact @fullyReplicated_of_extents s.parameter.shape _ _ _ trivial rfl
    · exact @fullyReplicated_of_extents s.parameter.shape _ _ _ trivial rfl
  · rw [Site.Agrees, hdevices]
    rw [hdevices] at hoperand
    exact agrees_iff hoperand hparameter (tileExtents_of_meshEquivalent hoperand hparameter hequivalent)

/-- A scalar agrees with its copy on all devices. -/
theorem agrees_of_everywhere (hwf : WellSharded p m) {s : Site} {call : HloInstruction}
    (h : IsArgument p m call s.index s.parameter s.devices)
    (hscalar : s.parameter.shape.dimensions = [])
    (hsharding : s.operand.shardingOrReplicated = .replicated)
    (hoperand : s.operandDevices = p.devices) : s.Agrees := by
  obtain ⟨color, -, hcolor⟩ := h.devices_eq
  have hrank : s.rank = 0 := by rw [Site.rank, hscalar, List.length_nil]
  rw [Site.Agrees, hsharding, hoperand, hrank]
  refine Or.inr ⟨?_, ?_, hwf.contains color _ hcolor⟩
  · exact @fullyReplicated_of_extents s.parameter.shape _ _ _ trivial rfl
  · exact fullyReplicated_of_extents (hwf.parameter_placed _ _ _ _ h) (tileExtents_zero _)

theorem Site.HasKey.unique {s : Site} {key key' : ReshardKey} (h : s.HasKey key)
    (h' : s.HasKey key') : key = key' := by
  obtain ⟨z, o⟩ := key
  obtain ⟨z', o'⟩ := key'
  obtain rfl : o = o' := h.1.trans h'.1.symm
  obtain rfl : z = z' := ok.inj (h.2.symm.trans h'.2)
  rfl

/-- A reshard is made for a site that needs it. -/
theorem exists_reshardFor (hv : Visiting p m base) {key : ReshardKey} {i : HloInstruction}
    (h : reshardOf base key = some i) :
    ∃ t, IsSite p m t ∧ t.needsReshard = true ∧ t.HasKey key ∧
      i.sharding = t.parameter.sharding := by
  obtain ⟨r, hlookup, hi⟩ := Option.bind_eq_some_iff.mp h
  obtain ⟨-, t, x, ht, hneeds, hkey, hx, hfor⟩ := hv.reshards key r hlookup
  obtain rfl := Option.some_injective _ (hi.symm.trans hx)
  exact ⟨t, ht, hneeds, hkey, hfor.sharding⟩

/-- A reshard that was made for `t` agrees where `t` is placed like the site. -/
theorem agrees_iff_of_moved (hwf : WellSharded p m) {s s' t : Site} (hs : IsSite p m s)
    (ht : IsSite p m t) {key : ReshardKey} (hskey : s.HasKey key) (htkey : t.HasKey key)
    (hparameter : s'.parameter = s.parameter) (hdevices : s'.devices = s.devices)
    (hsharding : s'.operand.sharding = t.parameter.sharding)
    (hoperand : s'.operandDevices = s.devices) :
    s'.Agrees ↔ SamePlacement s.rank s.devices s.devices t.parameter.shardingOrReplicated
      s.parameter.shardingOrReplicated := by
  obtain ⟨hshape, hsame, hextents⟩ := IsSite.of_key hwf hs ht hskey htkey
  have htplaced := ht.parameter_placed hwf
  have hsharding' : s'.operand.shardingOrReplicated = t.parameter.shardingOrReplicated := by
    rw [HloInstruction.shardingOrReplicated, hsharding, HloInstruction.shardingOrReplicated]
  rw [← hshape, ← hsame] at htplaced
  rw [samePlacement_iff htplaced (hs.parameter_placed hwf) hextents.symm,
    ← agrees_iff htplaced (hs.parameter_placed hwf) hextents.symm, Site.Agrees, Site.rank,
    hparameter, hdevices, hoperand, hsharding', Site.rank]

/-- A call of the result is a given call, with other operands. -/
theorem exists_call (hv : Visiting p m base) (hf : Finished p base fin) {call : HloInstruction}
    (hmem : call ∈ fin.entry.instructions) (hcall : call.isCall = true) :
    ∃ c ∈ m.entry.instructions, c.isCall = true ∧ ∃ ops ops',
      base.entry.instruction c.id = some { c with operands := ops } ∧
      call = { c with operands := ops' } ∧ List.Forall₂ (Source p base fin) ops ops' := by
  obtain ⟨b, hb, hbid, hbcall⟩ := hf.onlyCalls call hmem hcall
  obtain ⟨c, hc, hcid⟩ := List.mem_map.mp (mem_ids_of_isCall hv hb hbcall)
  have hccall : c.isCall = true := by
    obtain ⟨ops, hops, -⟩ := hv.given c hc
    have hbase := HloComputation.instruction_of_mem hv.nodup hb
    rw [← hcid, hops] at hbase
    rw [← Option.some_injective _ hbase] at hbcall
    exact hbcall
  obtain ⟨ops, ops', hops, hops', hsource⟩ := exists_operands hv hf hc hccall
  refine ⟨c, hc, hccall, ops, ops', hops, ?_, hsource⟩
  have hfin := HloComputation.instruction_of_mem hf.nodup hmem
  rw [← hbid, ← hcid, hops'] at hfin
  exact (Option.some_injective _ hfin).symm

/-- An operand that no task computes is one of no site, unless it is a scalar that was
copied to all devices. -/
theorem agrees_of_placeholder (hwf : WellSharded p m) (hv : Visiting p m base)
    {s' : Site} (hs' : IsSite fin.partition { m with entry := fin.entry } s')
    {c x : HloInstruction} {o o₁ : ℕ} {ops : List ℕ} (hc : c ∈ m.entry.instructions)
    (hargument : IsArgument p m c s'.index s'.parameter s'.devices)
    (ho : c.operands[s'.index]? = some o) (hx : m.entry.instruction o = some x)
    (hplaceholder : isPlaceholder x = true)
    (hops : base.entry.instruction c.id = some { c with operands := ops })
    (ho₁ : ops[s'.index]? = some o₁) (hsource : Source p base fin o₁ s'.operand.id)
    (hfound : fin.entry.instruction s'.operand.id = some s'.operand) : s'.Agrees := by
  -- no reshard was put in its place
  have hkept : o₁ = o := by
    obtain ⟨ops₀, hops₀, -, hreplaced⟩ := hv.given c hc
    have hsame : ops = ops₀ := (congrArg HloInstruction.operands
      (Option.some_injective _ (hops.symm.trans hops₀)) :)
    rcases hreplaced _ o₁ (hsame ▸ ho₁) with hgiven | ⟨s, hs, hcall, hindex, -⟩
    · exact Option.some_injective _ (hgiven.symm.trans ho)
    · obtain ⟨o', ho', hoperand⟩ := hs.operand_eq
      rw [hcall, hindex, ho] at ho'
      obtain rfl := Option.some_injective _ ho'
      obtain rfl := Option.some_injective _ (hx.symm.trans hoperand)
      have hcomputed := hs.computed
      rw [hplaceholder] at hcomputed
      cases hcomputed
  subst hkept
  obtain ⟨ops₁, hops₁⟩ := hv.instruction hx
  rcases hsource with ⟨hid, hpersists⟩ | ⟨i, hi, hdims, j, color, hj, -, hsharding, hcolor, hdevices⟩
  · obtain ⟨ops₂, hops₂⟩ := hpersists _ hops₁
    rw [← hid, hfound] at hops₂
    have hcomputed := hs'.computed
    rw [Option.some_injective _ hops₂] at hcomputed
    have hcomputed : isPlaceholder x = false := hcomputed
    rw [hplaceholder] at hcomputed
    cases hcomputed
  · obtain rfl := Option.some_injective _ (hfound.symm.trans hj)
    have hshape : x.shape = i.shape :=
      (congrArg HloInstruction.shape (Option.some_injective _ (hops₁.symm.trans hi)) :)
    apply agrees_of_everywhere hwf hargument
    · rw [← hwf.shape_eq _ _ _ _ _ _ hargument ho hx, hshape, hdims]
    · rw [HloInstruction.shardingOrReplicated, hsharding, Option.getD_some]
    · have hoperandDevices := hs'.operandDevices_eq
      simp only [getInstructionDevices, hcolor] at hoperandDevices
      exact ok.inj (hoperandDevices.symm.trans hdevices)

/-- A site of the result agrees, or it comes from a site. -/
theorem exists_origin (hwf : WellSharded p m) (hv : Visiting p m base)
    (hvisited : ∀ i ∈ m.entry.instructions, CallVisited p m i base)
    (hf : Finished p base fin) {s' : Site}
    (hs' : IsSite fin.partition { m with entry := fin.entry } s') :
    s'.Agrees ∨ ∃ s, IsSite p m s ∧ s'.index = s.index ∧ s'.parameter = s.parameter ∧
      s'.devices = s.devices ∧ Outcome p (reshardOf base) s s' := by
  obtain ⟨c, hc, hccall, ops, ops', hops, hcall, hsource⟩ :=
    exists_call hv hf hs'.argument.call_mem hs'.argument.isCall
  -- the argument is one of the given module
  have hargument : IsArgument p m c s'.index s'.parameter s'.devices := by
    obtain ⟨⟨color, devices, hcolor, hdevices⟩, -⟩ := hvisited c hc hccall
    obtain ⟨color', hcolor', hdevices'⟩ := hs'.argument.devices_eq
    have hparameter := hs'.argument.parameter_eq
    rw [hcall] at hparameter hcolor'
    cases hcolor.symm.trans hcolor'
    have hsame := ok.inj ((hf.extends_.devicesForColor _ _ hdevices).symm.trans hdevices')
    exact ⟨hc, hparameter, color, hcolor, hsame ▸ hdevices⟩
  have hk := hs'.operand_id
  rw [hcall] at hk
  obtain ⟨hlt', hget'⟩ := List.getElem?_eq_some_iff.mp hk
  have hlt : s'.index < ops.length := hsource.length_eq ▸ hlt'
  have hat := hsource.get hlt hlt'
  simp only [List.get_eq_getElem] at hat
  have hfound : fin.entry.instruction s'.operand.id = some s'.operand := by
    obtain ⟨o, -, ho⟩ := hs'.operand_eq
    have ho : fin.entry.instruction o = some s'.operand := ho
    rwa [HloComputation.id_of_instruction ho]
  have hltc : s'.index < c.operands.length := by
    obtain ⟨ops₀, hops₀, hlen, -⟩ := hv.given c hc
    have hsame : ops = ops₀ := (congrArg HloInstruction.operands
      (Option.some_injective _ (hops.symm.trans hops₀)) :)
    rwa [← hlen, ← hsame]
  have ho := List.getElem?_eq_getElem hltc
  obtain ⟨x, hxmem, hxid⟩ := List.mem_map.mp (hwf.closed c hc _ (List.mem_of_getElem? ho))
  have hx := HloComputation.instruction_of_mem hwf.nodup hxmem
  rw [hxid] at hx
  cases hplaceholder : isPlaceholder x with
  | true =>
    have hget' : ops'[s'.index] = s'.operand.id := hget'
    rw [hget'] at hat
    exact Or.inl (agrees_of_placeholder hwf hv hs' hc hargument ho hx hplaceholder hops
      (List.getElem?_eq_getElem hlt) hat hfound)
  | false =>
    obtain ⟨s, hs, hscall, hsindex⟩ :=
      ((hvisited c hc hccall).2 s'.index hltc).covered _ x ho hx hplaceholder
    obtain ⟨s'', hs'', hid, hindex, hparameter, hdevices, houtcome⟩ :=
      exists_outcome hwf hv hvisited hf hs
    have hsame : s'' = s' := by
      apply hs''.unique hs'
      · apply List.inj_on_of_nodup_map hf.nodup hs''.argument.call_mem hs'.argument.call_mem
        rw [hid, hscall, hcall]
      · rw [hindex, hsindex]
    subst hsame
    exact Or.inr ⟨s, hs, hindex, hparameter, hdevices, houtcome⟩

/-- The state after the calls and the state after the root. -/
theorem run_spec (hwf : WellSharded p m) {m' : HloModule} {changed : Bool}
    (hrun : run p m = ok (m', p', changed)) :
    ∃ base fin, Visiting p m base ∧ (∀ i ∈ m.entry.instructions, CallVisited p m i base) ∧
      Finished p base fin ∧ m' = { m with entry := fin.entry } ∧ p' = fin.partition := by
  simp only [run, bind_eq_ok] at hrun
  obtain ⟨base, hbase, fin, hfin, hresult⟩ := hrun
  obtain ⟨hv, hvisited⟩ := visitInstructions_spec hwf hbase
  have hf := visitRoot_spec hv.partition hwf.global hv.nodup (closedCalls hwf hv hvisited) hfin
  cases hresult
  exact ⟨base, fin, hv, hvisited, hf, rfl, rfl⟩

/-- The condition, of a site with its outcome. -/
theorem agrees_of_outcome (hwf : WellSharded p m) (hv : Visiting p m base)
    (horders : OrdersAgree p m) {s s' : Site} (hs : IsSite p m s) (hindex : s'.index = s.index)
    (hparameter : s'.parameter = s.parameter) (hdevices : s'.devices = s.devices)
    (h : Outcome p (reshardOf base) s s') : s'.Agrees := by
  cases h with
  | kept hneeds hsharding hoperand =>
    have hagrees := (agrees_iff_of_kept hwf hs hneeds).mpr (horders.kept s hs hneeds)
    rwa [Site.Agrees, Site.rank, hparameter, hdevices, hsharding, hoperand]
  | moved key reshard hneeds hkey hfound hsharding hoperand =>
    obtain ⟨t, ht, htneeds, htkey, htsharding⟩ := exists_reshardFor hv hfound
    rw [agrees_iff_of_moved hwf hs ht hkey htkey hparameter hdevices
      (hsharding.trans htsharding) hoperand]
    have horder := horders.shared s t key hs ht hneeds htneeds hkey htkey
    obtain ⟨hshape, hsame, hextents⟩ := IsSite.of_key hwf hs ht hkey htkey
    have htplaced := ht.parameter_placed hwf
    rw [← hshape, ← hsame] at htplaced
    exact ((samePlacement_iff (hs.parameter_placed hwf) htplaced hextents).mpr horder).symm
  | everywhere hscalar hsharding hoperand =>
    have hargument := hs.argument
    rw [← hindex, ← hparameter, ← hdevices] at hargument
    exact agrees_of_everywhere hwf hargument (hparameter ▸ hscalar) hsharding hoperand

theorem ordersAgree_of_placesOperands (hwf : WellSharded p m) (hv : Visiting p m base)
    (hvisited : ∀ i ∈ m.entry.instructions, CallVisited p m i base) (hf : Finished p base fin)
    (h : PlacesOperands fin.partition { m with entry := fin.entry }) : OrdersAgree p m where
  kept s hs hneeds := by
    obtain ⟨s', hs', -, hindex, hparameter, hdevices, houtcome⟩ :=
      exists_outcome hwf hv hvisited hf hs
    have hagrees := h s' hs'
    cases houtcome with
    | kept _ hsharding hoperand =>
      rw [← agrees_iff_of_kept hwf hs hneeds]
      rwa [Site.Agrees, Site.rank, hparameter, hdevices, hsharding, hoperand] at hagrees
    | moved _ _ hneeds' => exact absurd hneeds' (by simp [hneeds])
    | everywhere hscalar =>
      have hplaced := hs.operand_placed hwf
      rcases needsReshard_eq_false hneeds with ⟨ho, -, -⟩ | ⟨hsame, -⟩
      · rw [ho]
        trivial
      · rw [hsame] at hplaced
        rw [Site.rank, hscalar, List.length_nil]
        exact sameTileOrder_zero hplaced (hs.parameter_placed hwf)
  shared s t key hs ht hsneeds htneeds hskey htkey := by
    obtain ⟨hshape, hsame, hextents⟩ := IsSite.of_key hwf hs ht hskey htkey
    have hsplaced := hs.parameter_placed hwf
    have htplaced := ht.parameter_placed hwf
    rw [← hshape, ← hsame] at htplaced
    obtain ⟨s', hs', -, -, hsparameter, hsdevices, hsoutcome⟩ :=
      exists_outcome hwf hv hvisited hf hs
    obtain ⟨t', ht', -, -, htparameter, htdevices, htoutcome⟩ :=
      exists_outcome hwf hv hvisited hf ht
    have hzero : s.parameter.shape.dimensions = [] →
        SameTileOrder s.rank s.devices.numDevices s.parameter.shardingOrReplicated
          t.parameter.shardingOrReplicated := by
      intro hscalar
      rw [Site.rank, hscalar, List.length_nil]
      exact sameTileOrder_zero hsplaced htplaced
    cases hsoutcome with
    | kept hnot => exact absurd hsneeds (by simp [hnot])
    | everywhere hscalar => exact hzero hscalar
    | moved key₁ reshard _ hkey₁ hfound hssharding hsoperand =>
      obtain rfl := hkey₁.unique hskey
      cases htoutcome with
      | kept hnot => exact absurd htneeds (by simp [hnot])
      | everywhere hscalar => exact hzero (hshape ▸ hscalar)
      | moved key₂ reshard₂ _ hkey₂ hfound₂ htsharding htoperand =>
        obtain rfl := hkey₂.unique htkey
        obtain rfl := Option.some_injective _ (hfound.symm.trans hfound₂)
        -- both sites read the reshard of `u`
        obtain ⟨u, hu, -, hukey, husharding⟩ := exists_reshardFor hv hfound
        have hsplace := (agrees_iff_of_moved hwf hs hu hskey hukey hsparameter hsdevices
          (hssharding.trans husharding) hsoperand).mp (h s' hs')
        have htplace := (agrees_iff_of_moved hwf ht hu htkey hukey htparameter htdevices
          (htsharding.trans husharding) htoperand).mp (h t' ht')
        have hrank : t.rank = s.rank := by rw [Site.rank, Site.rank, hshape]
        rw [← hsame, hrank] at htplace
        exact (samePlacement_iff hsplaced htplaced hextents).mp (hsplace.symm.trans htplace)

/-- After the pass every task finds its operands where it expects them, exactly if the
shardings that the pass takes for the same list every device at the same tile. -/
theorem run_placesOperands_iff (hwf : WellSharded p m) {m' : HloModule} {changed : Bool}
    (hrun : run p m = ok (m', p', changed)) : PlacesOperands p' m' ↔ OrdersAgree p m := by
  obtain ⟨base, fin, hv, hvisited, hf, rfl, rfl⟩ := run_spec hwf hrun
  constructor
  · exact ordersAgree_of_placesOperands hwf hv hvisited hf
  · intro horders s' hs'
    rcases exists_origin hwf hv hvisited hf hs' with hagrees | ⟨s, hs, hindex, hparameter, hdevices, houtcome⟩
    · exact hagrees
    · exact agrees_of_outcome hwf hv horders hs hindex hparameter hdevices houtcome

/-- The devices 0 to 3, with a colour for all of them. -/
def fourDevices : HloPartition where
  devices := ⟨0, 4⟩
  colors := [("task_f", { name := "task_f", devices := ⟨0, 4⟩ })]
  deviceListToColors := [(⟨0, 4⟩, ["task_f"])]
  maxColor := 1

/-- An argument with one sharding, that a task reads into a parameter with another one. -/
def oneTask (argument parameter : HloSharding) : HloModule where
  entry :=
    { instructions := [
        { id := 0, opcode := .parameter 0, shape := .array .f32 [4, 4], sharding := argument },
        { id := 1, opcode := .call 0, operands := [0], shape := .tuple [(.f32, [4, 4])],
          color := "task_f" },
        { id := 2, opcode := .getTupleElement 0, operands := [1], shape := .array .f32 [4, 4],
          color := "task_f" },
        { id := 3, opcode := .tuple, operands := [2], shape := .tuple [(.f32, [4, 4])] }]
      root := 3 }
  parameters := [[
    { id := 0, opcode := .parameter 0, shape := .array .f32 [4, 4], sharding := parameter }]]

def oneTaskSite (argument parameter : HloSharding) : Site where
  call :=
    { id := 1, opcode := .call 0, operands := [0], shape := .tuple [(.f32, [4, 4])],
      color := "task_f" }
  index := 0
  operand := { id := 0, opcode := .parameter 0, shape := .array .f32 [4, 4], sharding := argument }
  parameter :=
    { id := 0, opcode := .parameter 0, shape := .array .f32 [4, 4], sharding := parameter }
  operandDevices := ⟨0, 4⟩
  devices := ⟨0, 4⟩

section oneTask

variable {argument parameter : HloSharding}

theorem isSite_oneTaskSite (h : getDevices argument ⟨0, 4⟩ = ok ⟨0, 4⟩) :
    IsSite fourDevices (oneTask argument parameter) (oneTaskSite argument parameter) where
  argument := ⟨by simp [oneTask, oneTaskSite], ⟨0, _, rfl, rfl, rfl⟩, "task_f", rfl, rfl⟩
  operand_eq := ⟨0, rfl, rfl⟩
  computed := rfl
  operandDevices_eq := h

theorem isArgument_oneTask {call p : HloInstruction} {index : ℕ} {devices : DeviceList}
    (h : IsArgument fourDevices (oneTask argument parameter) call index p devices) :
    call = (oneTaskSite argument parameter).call ∧ index = 0 ∧
      p = (oneTaskSite argument parameter).parameter ∧ devices = ⟨0, 4⟩ := by
  obtain ⟨hmem, ⟨n, ps, hopcode, hps, hp⟩, color, hcolor, hdevices⟩ := h
  have hcall : call = (oneTaskSite argument parameter).call := by
    simp only [oneTask, List.mem_cons, List.not_mem_nil, or_false] at hmem
    rcases hmem with rfl | rfl | rfl | rfl
    · cases hopcode
    · rfl
    · cases hopcode
    · cases hopcode
  subst hcall
  cases hopcode
  cases hcolor
  obtain rfl := Option.some_injective _ hps
  obtain rfl := ok.inj hdevices
  cases index with
  | zero =>
    cases hp
    exact ⟨rfl, rfl, rfl, rfl⟩
  | succ index => cases hp

theorem eq_oneTaskSite (h : getDevices argument ⟨0, 4⟩ = ok ⟨0, 4⟩) {s : Site}
    (hs : IsSite fourDevices (oneTask argument parameter) s) :
    s = oneTaskSite argument parameter := by
  obtain ⟨hcall, hindex, -, -⟩ := isArgument_oneTask hs.argument
  exact hs.unique (isSite_oneTaskSite h) hcall hindex

theorem wellSharded_oneTask (h : getDevices argument ⟨0, 4⟩ = ok ⟨0, 4⟩)
    (hargument : Placed (.array .f32 [4, 4]) ⟨0, 4⟩ argument)
    (hparameter : Placed (.array .f32 [4, 4]) ⟨0, 4⟩ parameter) :
    WellSharded fourDevices (oneTask argument parameter) where
  nodup := by simp [oneTask, HloComputation.ids]
  closed i hi o ho := by
    simp only [oneTask, List.mem_cons, List.not_mem_nil, or_false] at hi
    rcases hi with rfl | rfl | rfl | rfl <;> simp_all [oneTask, HloComputation.ids]
  operand_placed s hs := by
    rw [eq_oneTaskSite h hs]
    exact hargument
  parameter_placed call index p devices hp := by
    obtain ⟨-, -, rfl, rfl⟩ := isArgument_oneTask hp
    exact hparameter
  shape_eq call index p devices o operand hp ho hoperand := by
    obtain ⟨rfl, rfl, rfl, -⟩ := isArgument_oneTask hp
    cases ho
    cases hoperand
    rfl
  contains color devices hdevices := by
    obtain ⟨config, hconfig, rfl⟩ := HloPartition.devicesForColor_eq_ok.mp hdevices
    rw [fourDevices, List.lookup_cons] at hconfig
    split at hconfig
    · cases hconfig
      exact fun x hx => hx
    · cases hconfig
  global := rfl

end oneTask

theorem squareDims_pos : ∀ d ∈ [2, 2], 0 < d := by decide

theorem columnsFirst_two_le : [2, 2] ≠ [] ∧ ∀ r ∈ [2, 2], 2 ≤ r := by decide

theorem columnsFirst_unmerged : [1, 0].IsChain fun a b => b ≠ a + 1 := by decide

theorem rowsFirst_prod : [4].prod = [2, 2].prod := rfl

theorem rowsFirst_perm : [0].Perm (List.range [4].length) := .refl _

theorem rowsFirst_two_le : [4].length = 1 ∨ [4] ≠ [] ∧ ∀ r ∈ [4], 2 ≤ r := Or.inl rfl

theorem rowsFirst_unmerged : [0].IsChain fun a b => b ≠ a + 1 := .singleton 0

/-- `[2,2]<=[4]`. -/
def rowsFirst : HloSharding := .tiled (.iota {
  dims := [2, 2], reshapeDims := [4], transposePerm := [0], offset := 0, dims_pos := squareDims_pos,
  prod_eq := rowsFirst_prod, perm := rowsFirst_perm, two_le := rowsFirst_two_le,
  unmerged := rowsFirst_unmerged }) false

/-- `[2,2]<=[2,2]T(1,0)`. -/
def columnsFirst : HloSharding := .tiled (.iota {
  dims := [2, 2], reshapeDims := [2, 2], transposePerm := [1, 0], offset := 0,
  dims_pos := squareDims_pos, prod_eq := rfl, perm := .swap 0 1 [],
  two_le := Or.inr columnsFirst_two_le, unmerged := columnsFirst_unmerged }) false

theorem placed_rowsFirst : Placed (.array .f32 [4, 4]) ⟨0, 4⟩ rowsFirst :=
  ⟨rfl, rfl, by decide⟩

theorem placed_columnsFirst : Placed (.array .f32 [4, 4]) ⟨0, 4⟩ columnsFirst :=
  ⟨rfl, rfl, by decide⟩

/-- A tiled argument is replicated for the task that wants it whole. -/
theorem run_placesOperands_replicate : ∃ m' p', run fourDevices (oneTask rowsFirst .replicated) =
    ok (m', p', true) ∧ PlacesOperands p' m' := by
  have hwf : WellSharded fourDevices (oneTask rowsFirst .replicated) :=
    wellSharded_oneTask rfl placed_rowsFirst trivial
  refine ⟨_, _, rfl, (run_placesOperands_iff hwf rfl).mpr ⟨?_, ?_⟩⟩
  · intro s hs hneeds
    rw [eq_oneTaskSite rfl hs] at hneeds
    cases hneeds
  · intro s t key hs ht _ _ _ _
    rw [eq_oneTaskSite rfl hs, eq_oneTaskSite rfl ht]
    exact SameTileOrder.refl _ _ _

/-- Tiles in rows and tiles in columns have the same tile dimensions, so that the pass
leaves the argument as it is: device 1 holds tile 1 of it, and the task expects tile 2. -/
theorem run_columnsFirst_misplaced : ∃ m' p',
    run fourDevices (oneTask rowsFirst columnsFirst) = ok (m', p', false) ∧
      ¬ PlacesOperands p' m' := by
  refine ⟨_, _, rfl, fun h => ?_⟩
  have hagrees : Sharding.Agrees 2 ⟨0, 4⟩ ⟨0, 4⟩ rowsFirst columnsFirst :=
    h _ (isSite_oneTaskSite rfl)
  have horder := (agrees_iff placed_rowsFirst placed_columnsFirst rfl).mp hagrees
  exact absurd (horder 1 (by decide)) (by decide)

end InsertReshard
end MultiMeshJax
