import MultiMeshJax.InsertReshard.Pass
import MultiMeshJax.Sharding.Placement

/-! The places at which a task reads an operand, and the reshards that `MpmdInsertReshard`
puts there. -/
namespace MultiMeshJax
namespace InsertReshard

open StatusOr Sharding

/-- A parameter of the computation that a call runs on the devices of its colour. -/
structure IsArgument (p : HloPartition) (m : HloModule) (call : HloInstruction) (index : ℕ)
    (parameter : HloInstruction) (devices : DeviceList) : Prop where
  call_mem : call ∈ m.entry.instructions
  parameter_eq : ∃ toApply parameters, call.opcode = .call toApply ∧
    m.parameters[toApply]? = some parameters ∧ parameters[index]? = some parameter
  devices_eq : ∃ color, call.color = some color ∧ p.devicesForColor color = ok devices

/-- A call that reads an operand into a parameter. -/
structure Site where
  call : HloInstruction
  index : ℕ
  operand : HloInstruction
  parameter : HloInstruction
  operandDevices : DeviceList
  devices : DeviceList

structure IsSite (p : HloPartition) (m : HloModule) (s : Site) : Prop where
  argument : IsArgument p m s.call s.index s.parameter s.devices
  operand_eq : ∃ o, s.call.operands[s.index]? = some o ∧ m.entry.instruction o = some s.operand
  computed : isPlaceholder s.operand = false
  operandDevices_eq : getInstructionDevices p s.operand = ok s.operandDevices

namespace Site

def rank (s : Site) : ℕ := s.parameter.shape.dimensions.length

/-- The operand puts the same data on the same devices as the parameter. -/
def Agrees (s : Site) : Prop :=
  Sharding.Agrees s.rank s.operandDevices s.devices s.operand.shardingOrReplicated
    s.parameter.shardingOrReplicated

def needsReshard (s : Site) : Bool :=
  InsertReshard.needsReshard s.operandDevices s.devices s.operand.shardingOrReplicated
    s.parameter.shardingOrReplicated

/-- The key under which a reshard of the operand is found again. -/
def HasKey (s : Site) (key : ReshardKey) : Prop :=
  key.producer = s.operand.id ∧ xlaShapeToZukuShape s.parameter.shape s.devices
    s.parameter.shardingOrReplicated true = ok key.shardedShape

end Site

/-- Every task finds its operands where it expects them. -/
def PlacesOperands (p : HloPartition) (m : HloModule) : Prop := ∀ s, IsSite p m s → s.Agrees

/-- The module as XLA validates it: ids are distinct, operands exist and have the shapes of
the parameters, and each sharding assigns the devices of its instruction. -/
structure WellSharded (p : HloPartition) (m : HloModule) : Prop where
  nodup : m.entry.ids.Nodup
  closed : ∀ i ∈ m.entry.instructions, ∀ o ∈ i.operands, o ∈ m.entry.ids
  operand_placed : ∀ s, IsSite p m s →
    Placed s.operand.shape s.operandDevices s.operand.shardingOrReplicated
  parameter_placed : ∀ call index parameter devices,
    IsArgument p m call index parameter devices →
      Placed parameter.shape devices parameter.shardingOrReplicated
  shape_eq : ∀ call index parameter devices o operand,
    IsArgument p m call index parameter devices → call.operands[index]? = some o →
      m.entry.instruction o = some operand → operand.shape = parameter.shape
  contains : ∀ color devices, p.devicesForColor color = ok devices → p.devices.contains devices
  global : p.GlobalColorConsistent

variable {p : HloPartition} {m : HloModule}

theorem IsArgument.unique {call parameter parameter' : HloInstruction} {index : ℕ}
    {devices devices' : DeviceList} (h : IsArgument p m call index parameter devices)
    (h' : IsArgument p m call index parameter' devices') :
    parameter = parameter' ∧ devices = devices' := by
  obtain ⟨-, ⟨n, ps, hn, hps, hk⟩, color, hcolor, hdevices⟩ := h
  obtain ⟨-, ⟨n', ps', hn', hps', hk'⟩, color', hcolor', hdevices'⟩ := h'
  cases hn.symm.trans hn'
  cases hps.symm.trans hps'
  cases hcolor.symm.trans hcolor'
  exact ⟨Option.some_injective _ (hk.symm.trans hk'), ok.inj (hdevices.symm.trans hdevices')⟩

theorem IsSite.unique {s t : Site} (hs : IsSite p m s) (ht : IsSite p m t)
    (hcall : s.call = t.call) (hindex : s.index = t.index) : s = t := by
  obtain ⟨call, index, operand, parameter, operandDevices, devices⟩ := s
  obtain ⟨call', index', operand', parameter', operandDevices', devices'⟩ := t
  obtain rfl : call = call' := hcall
  obtain rfl : index = index' := hindex
  obtain ⟨rfl, rfl⟩ : parameter = parameter' ∧ devices = devices' :=
    hs.argument.unique ht.argument
  obtain ⟨o, ho, hoperand⟩ := hs.operand_eq
  obtain ⟨o', ho', hoperand'⟩ := ht.operand_eq
  cases ho.symm.trans ho'
  obtain rfl : operand = operand' := Option.some_injective _ (hoperand.symm.trans hoperand')
  obtain rfl : operandDevices = operandDevices' :=
    ok.inj (hs.operandDevices_eq.symm.trans ht.operandDevices_eq)
  rfl

theorem IsSite.operand_id {s : Site} (h : IsSite p m s) :
    s.call.operands[s.index]? = some s.operand.id := by
  obtain ⟨o, ho, hoperand⟩ := h.operand_eq
  rw [ho, HloComputation.id_of_instruction hoperand]

/-- The reshard that is inserted for a site. -/
structure IsReshardFor (s : Site) (i : HloInstruction) : Prop where
  opcode : i.opcode = .customCall kCustomCallReshard
  sharding : i.sharding = s.parameter.sharding
  color : i.color = s.call.color
  shape : i.shape = s.parameter.shape

/-- What holds while the operands are visited. -/
structure Visiting (p : HloPartition) (m : HloModule) (st : State) : Prop where
  partition : st.partition = p
  root : st.entry.root = m.entry.root
  nodup : st.entry.ids.Nodup
  /-- An operand is replaced only where a reshard is needed. -/
  given : ∀ i ∈ m.entry.instructions, ∃ ops, st.entry.instruction i.id = some { i with operands := ops } ∧
    ops.length = i.operands.length ∧ ∀ k o : ℕ, ops[k]? = some o → i.operands[k]? = some o ∨
      ∃ s, IsSite p m s ∧ s.call = i ∧ s.index = k ∧ s.needsReshard = true
  added : ∀ i ∈ st.entry.instructions, i.id ∈ m.entry.ids ∨
    i.opcode = .customCall kCustomCallReshard
  reshards : ∀ key r, st.reshardMap.lookup key = some r → r ∉ m.entry.ids ∧
    ∃ t i, IsSite p m t ∧ t.needsReshard = true ∧ t.HasKey key ∧
      st.entry.instruction r = some i ∧ IsReshardFor t i

/-- The operand that a site has after its visit. -/
def Moved (st : State) (s : Site) (o : ℕ) : Prop :=
  s.needsReshard = false ∧ o = s.operand.id ∨
    s.needsReshard = true ∧ ∃ key, s.HasKey key ∧ st.reshardMap.lookup key = some o

def Settled (st : State) (s : Site) : Prop :=
  ∃ i o, st.entry.instruction s.call.id = some i ∧ i.operands[s.index]? = some o ∧ Moved st s o

/-- An operand has been visited: unless no task computes it, it is one of a site, and the
site is settled. -/
structure Visited (p : HloPartition) (m : HloModule) (st : State) (call : HloInstruction)
    (index : ℕ) : Prop where
  covered : ∀ o operand, call.operands[index]? = some o → m.entry.instruction o = some operand →
    isPlaceholder operand = false → ∃ s, IsSite p m s ∧ s.call = call ∧ s.index = index
  settled : ∀ s, IsSite p m s → s.call = call → s.index = index → Settled st s

/-- Later visits keep the reshards and the visited sites. -/
structure Keeps (p : HloPartition) (m : HloModule) (st st' : State) : Prop where
  reshards : ∀ key r, st.reshardMap.lookup key = some r → st'.reshardMap.lookup key = some r
  settled : ∀ s, IsSite p m s → Settled st s → Settled st' s

theorem Keeps.refl (st : State) : Keeps p m st st := ⟨fun _ _ h => h, fun _ _ h => h⟩

theorem Keeps.trans {st st' st'' : State} (h : Keeps p m st st') (h' : Keeps p m st' st'') :
    Keeps p m st st'' :=
  ⟨fun k r hr => h'.reshards k r (h.reshards k r hr),
    fun s hs hsettled => h'.settled s hs (h.settled s hs hsettled)⟩

theorem Visited.mono {st st' : State} {call : HloInstruction} {index : ℕ}
    (h : Visited p m st call index) (hkeeps : Keeps p m st st') : Visited p m st' call index :=
  ⟨h.covered, fun s hs hcall hindex => hkeeps.settled s hs (h.settled s hs hcall hindex)⟩

theorem Moved.mono {st st' : State} {s : Site} {o : ℕ}
    (h : ∀ key r, st.reshardMap.lookup key = some r → st'.reshardMap.lookup key = some r)
    (hmoved : Moved st s o) : Moved st' s o := by
  rcases hmoved with hkept | ⟨hneeds, key, hkey, hlookup⟩
  · exact Or.inl hkept
  · exact Or.inr ⟨hneeds, key, hkey, h _ _ hlookup⟩

theorem visiting_start (hwf : WellSharded p m) :
    Visiting p m { entry := m.entry, partition := p } where
  partition := rfl
  root := rfl
  nodup := hwf.nodup
  given i hi := ⟨i.operands, HloComputation.instruction_of_mem hwf.nodup hi, rfl,
    fun _ _ h => Or.inl h⟩
  added i hi := Or.inl (List.mem_map_of_mem hi)
  reshards key r h := by simp at h

theorem Visiting.id_mem {st : State} (h : Visiting p m st) {id : ℕ} (hid : id ∈ m.entry.ids) :
    id ∈ st.entry.ids := by
  obtain ⟨i, hi, rfl⟩ := List.mem_map.mp hid
  obtain ⟨ops, hops, -⟩ := h.given i hi
  exact HloComputation.mem_ids_of_instruction hops

/-- A given instruction, as it is found during the visits. -/
theorem Visiting.instruction {st : State} (h : Visiting p m st) {id : ℕ} {i : HloInstruction}
    (hi : m.entry.instruction id = some i) :
    ∃ ops, st.entry.instruction id = some { i with operands := ops } := by
  obtain ⟨ops, hops, -⟩ := h.given i (HloComputation.mem_of_instruction hi)
  obtain rfl := HloComputation.id_of_instruction hi
  exact ⟨ops, hops⟩

/-- A new reshard for a site keeps what holds. -/
theorem Visiting.addReshard {st : State} (h : Visiting p m st) {s : Site} (hs : IsSite p m s)
    (hneeds : s.needsReshard = true) {key : ReshardKey} (hkey : s.HasKey key)
    (hnew : st.reshardMap.lookup key = none) {reshard : HloInstruction}
    (hreshard : IsReshardFor s reshard) :
    Visiting p m { st with
        entry := st.entry.addInstruction reshard
        reshardMap := (key, st.entry.freshId) :: st.reshardMap } ∧
      Keeps p m st { st with
        entry := st.entry.addInstruction reshard
        reshardMap := (key, st.entry.freshId) :: st.reshardMap } := by
  have hfresh : ∀ id ∈ m.entry.ids, id ≠ st.entry.freshId := by
    rintro id hid rfl
    exact HloComputation.freshId_notMem (h.id_mem hid)
  have hkept : ∀ key' r, st.reshardMap.lookup key' = some r →
      ((key, st.entry.freshId) :: st.reshardMap).lookup key' = some r := by
    intro key' r hlookup
    have hne : key' ≠ key := by
      rintro rfl
      rw [hnew] at hlookup
      cases hlookup
    rw [List.lookup_cons, beq_eq_false_iff_ne.mpr hne, hlookup]
  refine ⟨⟨h.partition, h.root, HloComputation.ids_addInstruction_nodup _ h.nodup, ?_, ?_, ?_⟩, hkept, ?_⟩
  · intro i hi
    obtain ⟨ops, hops, hrest⟩ := h.given i hi
    refine ⟨ops, ?_, hrest⟩
    rw [← hops]
    exact HloComputation.instruction_addInstruction _ (hfresh _ (List.mem_map_of_mem hi))
  · intro i hi
    rcases List.mem_append.mp hi with hi | hi
    · exact h.added i hi
    · rw [List.mem_singleton.mp hi]
      exact Or.inr hreshard.opcode
  · intro key' r hlookup
    rw [List.lookup_cons] at hlookup
    split at hlookup
    · rename_i heq
      obtain rfl : key' = key := by simpa using heq
      obtain rfl := Option.some_injective _ hlookup
      refine ⟨fun hmem => hfresh _ hmem rfl, s, _, hs, hneeds, hkey,
        HloComputation.instruction_addInstruction_freshId reshard, ?_⟩
      exact ⟨hreshard.opcode, hreshard.sharding, hreshard.color, hreshard.shape⟩
    · obtain ⟨hr, t, i, ht, htneeds, htkey, hi, hfor⟩ := h.reshards key' r hlookup
      refine ⟨hr, t, i, ht, htneeds, htkey, ?_, hfor⟩
      rw [← hi]
      apply HloComputation.instruction_addInstruction
      rintro rfl
      exact HloComputation.freshId_notMem (HloComputation.mem_ids_of_instruction hi)
  · rintro t ht ⟨i, o, hi, ho, hmoved⟩
    refine ⟨i, o, ?_, ho, hmoved.mono hkept⟩
    rw [← hi]
    exact HloComputation.instruction_addInstruction _
      (hfresh _ (List.mem_map_of_mem ht.argument.call_mem))

end InsertReshard
end MultiMeshJax
