import MultiMeshJax.ComputationFusion.Parent
import MultiMeshJax.TaskSplitter.Subtasks

/-! The module with the calls of the parts: the replacements have the values of what they
replace. -/
namespace MultiMeshJax

variable {V : Type} {I : Interpretation V} {ctx : Context V}

namespace TaskProgram

/-- More instructions and more called computations do not change the values. -/
theorem Computes.extend {p p' : TaskProgram} {id : ℕ} {v : Value V}
    (hkept : ∀ id i, p.computation.instruction id = some i → p'.computation.instruction id = some i)
    (hcalled : ∃ more, p'.called = p.called ++ more) (h : p.Computes I ctx id v) :
    p'.Computes I ctx id v := by
  obtain ⟨more, hcalled⟩ := hcalled
  obtain ⟨depth, h⟩ := h
  refine ⟨depth, ?_⟩
  induction depth generalizing id v with
  | zero => exact h.elim
  | succ depth ih =>
    obtain ⟨i, args, hi, hargs, hv⟩ := h
    refine ⟨i, args, hkept id i hi, hargs.imp fun o a ho => ih ho, ?_⟩
    unfold Applies at hv ⊢
    cases hop : i.opcode with
    | call k =>
      simp only [hop] at hv ⊢
      obtain ⟨comp, hcomp, hv⟩ := hv
      refine ⟨comp, ?_, hv⟩
      rw [hcalled, List.getElem?_append_left (List.getElem?_eq_some_iff.mp hcomp).1, hcomp]
    | _ =>
      simp only [hop] at hv ⊢
      exact hv

end TaskProgram

namespace TaskSplitter

open StatusOr CriticalPath HloComputation
open ComputationFusion (callContext)

/-- The colours do not change the values. -/
theorem computes_assignColor {c : HloComputation} {color : String} {id : ℕ} {v : Value V}
    (h : c.Computes I ctx id v) : (c.mapInstructions (assignColor color)).Computes I ctx id v := by
  obtain ⟨depth, h⟩ := h
  refine ⟨depth, ?_⟩
  induction depth generalizing id v with
  | zero => cases h
  | succ depth ih =>
    obtain ⟨i, args, hi, hargs, hv⟩ := eval_succ.mp h
    refine eval_succ.mpr ⟨assignColor color i, args, ?_, hargs.imp fun o a ho => ih ho, hv⟩
    rw [instruction_mapInstructions (f := assignColor color) (fun i => rfl), hi, Option.map_some]

def SplitState.program (st : SplitState) : TaskProgram := ⟨st.parent, st.called⟩

section roots

variable {st : SplitState} {subtask : ℕ} {color : String} {rs : List HloInstruction}

/-- What takes a root out of the new call. -/
def rootOutput (subtask : ℕ) (color : String) (first : ℕ) (root : HloInstruction × ℕ) :
    HloInstruction :=
  { id := first + root.2, opcode := .getTupleElement root.2, operands := [subtask]
    shape := root.1.shape, sharding := root.1.sharding, color := some color }

/-- The state when the first roots have been taken out. -/
structure RootsCloned (st : SplitState) (subtask : ℕ) (color : String) (rs : List HloInstruction)
    (k : ℕ) (st' : SplitState) : Prop where
  parent : st'.parent = ⟨st.parent.instructions ++
    (rs.zipIdx.take k).map (rootOutput subtask color st.nextId), st.parent.root⟩
  nextId : st'.nextId = st.nextId + k
  called : st'.called = st.called
  partition : st'.partition = st.partition
  newColors : st'.newColors = st.newColors
  replacement : ∀ e x, st'.externalReplacements e = some x → st.externalReplacements e = some x ∨
    ∃ (j : ℕ) (r : HloInstruction), j < k ∧ rs[j]? = some r ∧ r.id = e ∧ x = st.nextId + j
  replaced : ∀ e, (∃ x, st.externalReplacements e = some x) ∨
    (∃ (j : ℕ) (r : HloInstruction), j < k ∧ rs[j]? = some r ∧ r.id = e) →
      ∃ x, st'.externalReplacements e = some x

theorem cloneRoots (st : SplitState) (subtask : ℕ) (color : String) (rs : List HloInstruction) :
    RootsCloned st subtask color rs rs.length (rs.zipIdx.foldl (cloneRoot subtask color) st) := by
  apply foldl_zipIdx (RootsCloned st subtask color rs)
  · constructor
    · simp
    · rfl
    · rfl
    · rfl
    · rfl
    · intro e x hx
      exact .inl hx
    · rintro e (hx | ⟨j, r, hj, -⟩)
      · exact hx
      · omega
  · intro k r st' hr hst'
    have hget : rs.zipIdx[k]? = some (r, k) := by simp [hr]
    constructor
    · rw [List.take_add_one, hget, List.map_append]
      unfold cloneRoot
      rw [hst'.parent, hst'.nextId, List.append_assoc]
      rfl
    · show st'.nextId + 1 = _
      rw [hst'.nextId, Nat.add_assoc]
    · exact hst'.called
    · exact hst'.partition
    · exact hst'.newColors
    · intro e x hx
      have hx' : Function.update st'.externalReplacements r.id (some st'.nextId) e = some x := hx
      by_cases heq : e = r.id
      · rw [heq, Function.update_self] at hx'
        refine .inr ⟨k, r, Nat.lt_succ_self k, hr, heq.symm, ?_⟩
        rw [← Option.some.inj hx', hst'.nextId]
      · rw [Function.update_of_ne heq] at hx'
        rcases hst'.replacement e x hx' with hold | ⟨j, r', hj, hget', hid, hx⟩
        · exact .inl hold
        · exact .inr ⟨j, r', by omega, hget', hid, hx⟩
    · intro e he
      show ∃ x, Function.update st'.externalReplacements r.id (some st'.nextId) e = some x
      by_cases heq : e = r.id
      · rw [heq, Function.update_self]
        exact ⟨_, rfl⟩
      · rw [Function.update_of_ne heq]
        apply hst'.replaced
        rcases he with hold | ⟨j, r', hj, hget', hid⟩
        · exact .inl hold
        · refine .inr ⟨j, r', ?_, hget', hid⟩
          rcases Nat.lt_succ_iff_lt_or_eq.mp hj with hlt | rfl
          · exact hlt
          · rw [hr] at hget'
            cases hget'
            exact absurd hid.symm heq

end roots

section parts

variable {p : TaskProgram} {task : HloInstruction} {n : ℕ} {computation : HloComputation}
  {taskRoot : HloInstruction} {st st' : SplitState} {color : String} {part : Part}

/-- The task has these arguments, and all its instructions have values for them. -/
structure Arguments (I : Interpretation V) (ctx : Context V) (p : TaskProgram)
    (task : HloInstruction) (computation : HloComputation) (args : List (Value V)) : Prop where
  operands : List.Forall₂ (p.Computes I ctx) task.operands args
  values : ∀ i ∈ computation.instructions, ∃ v,
    computation.Computes I (callContext ctx args) i.id v

/-- A new instruction calls a new computation or takes a value out of a new call. -/
structure IsNew (p : TaskProgram) (task : HloInstruction) (st : SplitState) (i : HloInstruction) :
    Prop where
  id : p.freshId ≤ i.id
  opcode : (∃ m, i.opcode = .call m ∧ p.called.length ≤ m) ∨ ∃ k, i.opcode = .getTupleElement k
  operands : ∀ o ∈ i.operands, o ∈ task.operands ∨ (p.freshId ≤ o ∧ o ∈ st.parent.ids)
  controlPredecessors : i.controlPredecessors = []

/-- The state after some of the parts. -/
structure Progress (p : TaskProgram) (task : HloInstruction) (computation : HloComputation)
    (st : SplitState) : Prop where
  kept : ∃ added, st.parent.instructions = p.computation.instructions ++ added ∧
    ∀ i ∈ added, IsNew p task st i
  root : st.parent.root = p.computation.root
  called : ∃ more, st.called = p.called ++ more
  calls : ∀ i ∈ st.parent.instructions, ∀ m, i.opcode = .call m → m < st.called.length
  fresh : ∀ i ∈ st.parent.instructions, i.id < st.nextId
  nodup : st.parent.ids.Nodup
  next : p.freshId ≤ st.nextId
  source : ∀ e x, st.externalReplacements e = some x →
    ∃ i ∈ computation.instructions, i.id = e ∧ i.isParameter = false ∧ e ≠ computation.root
  target : ∀ e x, st.externalReplacements e = some x → ∃ g ∈ st.parent.instructions, g.id = x ∧
    p.freshId ≤ x ∧ ∃ k, ∃ call ∈ st.parent.instructions, g.opcode = .getTupleElement k ∧
      g.operands = [call.id] ∧ p.freshId ≤ call.id ∧
        ∃ m, call.opcode = .call m ∧ p.called.length ≤ m
  values : ∀ (V : Type) (I : Interpretation V) (ctx : Context V) args,
    Arguments I ctx p task computation args → ∀ e x, st.externalReplacements e = some x →
      ∀ v, computation.Computes I (callContext ctx args) e v → st.program.Computes I ctx x v

theorem progress_start (h : TaskCall p task n computation taskRoot) (partition : HloPartition) :
    Progress p task computation
      { parent := p.computation, called := p.called, partition := partition
        nextId := p.freshId } where
  kept := ⟨[], by simp, by simp⟩
  root := rfl
  called := ⟨[], by simp⟩
  calls := h.calls
  fresh i hi := ComputationFusion.lt_freshId (List.mem_map_of_mem hi)
  nodup := h.parent_nodup
  next := le_rfl
  source e x hx := by cases hx
  target e x hx := by cases hx
  values V I ctx args _ e x hx := by cases hx

/-- The values of the module are those before. -/
theorem Progress.computes (h : Progress p task computation st) {id : ℕ} {v : Value V}
    (hv : p.Computes I ctx id v) : st.program.Computes I ctx id v := by
  obtain ⟨added, hadded, -⟩ := h.kept
  apply hv.extend _ h.called
  intro id i hi
  show st.parent.instruction id = some i
  unfold HloComputation.instruction at hi ⊢
  rw [hadded, List.find?_append, hi]
  rfl

/-- The call of a part. -/
def partCall (st : SplitState) (newColor : String) (shape : Shape) (operands : List ℕ)
    (subtask : ℕ) : HloInstruction :=
  { id := subtask, opcode := .call st.called.length, operands := operands, shape := shape
    color := some newColor }

/-- The state with the call of a part. -/
def withCall (st : SplitState) (newColor : String) (partition : HloPartition)
    (built : HloComputation) (shape : Shape) (operands : List ℕ) (subtask : ℕ) : SplitState :=
  { st with
    parent := ⟨st.parent.instructions ++ [partCall st newColor shape operands subtask],
      st.parent.root⟩
    called := st.called ++ [built.mapInstructions (assignColor newColor)]
    partition := partition
    nextId := subtask + 1
    newColors := st.newColors ++ [newColor] }

/-- What a part adds to the module. -/
structure PartAdded (task : HloInstruction) (computation : HloComputation) (color : String)
    (part : Part) (st st' : SplitState) (newColor : String) (partition : HloPartition)
    (built : HloComputation) (shape : Shape) (operands : List ℕ) (subtask : ℕ) : Prop where
  cloned : st.partition.cloneColor color (color ++ part.suffix) none none = ok (newColor, partition)
  run : buildSubtask task computation st.externalReplacements part.config part.instructions
    st.nextId = ok (built, shape, operands, subtask)
  outputs : RootsCloned (withCall st newColor partition built shape operands subtask) subtask newColor
    (roots part.config) (roots part.config).length st'

theorem addPart_eq_ok (h : addPart task computation color st part = ok st') :
    ∃ newColor partition built shape operands subtask,
      PartAdded task computation color part st st' newColor partition built shape operands
        subtask := by
  unfold addPart at h
  obtain ⟨⟨newColor, partition⟩, hcolor, h⟩ := bind_eq_ok.mp h
  obtain ⟨⟨built, shape, operands, subtask⟩, hbuilt, h⟩ := bind_eq_ok.mp h
  refine ⟨newColor, partition, built, shape, operands, subtask, hcolor, hbuilt, ?_⟩
  rw [← ok.inj h]
  exact cloneRoots (withCall st newColor partition built shape operands subtask) subtask newColor
    (roots part.config)

section added

variable {newColor : String} {partition : HloPartition} {built : HloComputation} {shape : Shape}
  {operands : List ℕ} {subtask : ℕ}

/-- What takes the roots of a part out of its call. -/
def partOutputs (part : Part) (newColor : String) (subtask : ℕ) : List HloInstruction :=
  (roots part.config).zipIdx.map (rootOutput subtask newColor (subtask + 1))

theorem PartAdded.instructions (h : PartAdded task computation color part st st' newColor partition
    built shape operands subtask) : st'.parent.instructions = st.parent.instructions ++
      partCall st newColor shape operands subtask :: partOutputs part newColor subtask := by
  rw [h.outputs.parent, List.take_of_length_le (by simp)]
  show (st.parent.instructions ++ [_]) ++ _ = _
  rw [List.append_assoc]
  rfl

theorem mem_partOutputs {g : HloInstruction} (hg : g ∈ partOutputs part newColor subtask) :
    ∃ (k : ℕ) (r : HloInstruction), (roots part.config)[k]? = some r ∧
      g = rootOutput subtask newColor (subtask + 1) (r, k) := by
  obtain ⟨⟨r, k⟩, hmem, rfl⟩ := List.mem_map.mp hg
  exact ⟨k, r, List.mem_zipIdx_iff_getElem?.mp hmem, rfl⟩

theorem PartAdded.lookup (h : PartAdded task computation color part st st' newColor partition
    built shape operands subtask) {id : ℕ} {i : HloInstruction}
    (hi : st.parent.instruction id = some i) : st'.parent.instruction id = some i := by
  unfold HloComputation.instruction at hi ⊢
  rw [h.instructions, List.find?_append, hi]
  rfl

theorem partOutputs_ids : (partOutputs part newColor subtask).map HloInstruction.id =
    List.range' (subtask + 1) (roots part.config).length := by
  unfold partOutputs
  rw [List.map_map]
  have hmap : (HloInstruction.id ∘ rootOutput subtask newColor (subtask + 1)) =
      (fun k => subtask + 1 + k) ∘ Prod.snd := rfl
  rw [hmap, ← List.map_map, List.zipIdx_map_snd, List.map_add_range']

/-- The operands of the call of a part are operands of the task or are new. -/
theorem PartAdded.operand (h : PartAdded task computation color part st st' newColor partition
    built shape operands subtask) (hst : Progress p task computation st) {o : ℕ}
    (ho : o ∈ operands) : o ∈ task.operands ∨ (p.freshId ≤ o ∧ o ∈ st.parent.ids) := by
  obtain ⟨externals, internals, rfl, hexternals, hinternals⟩ := buildSubtask_operands h.run
  rcases List.mem_append.mp ho with ho | ho
  · obtain ⟨k, hk⟩ := List.mem_iff_getElem?.mp ho
    obtain ⟨param, -, number, -, hnumber⟩ := forall₂_getElem? hexternals.flip hk
    exact .inl (List.mem_of_getElem? hnumber)
  · obtain ⟨k, hk⟩ := List.mem_iff_getElem?.mp ho
    obtain ⟨param, -, hreplaced⟩ := forall₂_getElem? hinternals.flip hk
    obtain ⟨g, hg, rfl, hid, -⟩ := hst.target _ _ hreplaced
    exact .inr ⟨hid, List.mem_map_of_mem hg⟩

theorem PartAdded.nodup (h : PartAdded task computation color part st st' newColor partition
    built shape operands subtask) (hst : Progress p task computation st) :
    st'.parent.ids.Nodup := by
  have hnext := buildSubtask_next h.run
  unfold HloComputation.ids
  rw [h.instructions, List.map_append, List.map_cons, partOutputs_ids, List.nodup_append]
  have hnew : List.range' subtask ((roots part.config).length + 1) =
      subtask :: List.range' (subtask + 1) (roots part.config).length := rfl
  refine ⟨hst.nodup, ?_, ?_⟩
  · exact hnew ▸ List.nodup_range'
  · intro a ha b hb heq
    obtain ⟨i, hi, rfl⟩ := List.mem_map.mp ha
    have hlt := hst.fresh i hi
    have hmem : b ∈ List.range' subtask ((roots part.config).length + 1) := hb
    have hle := (List.mem_range'_1.mp hmem).1
    omega

/-- The instructions after a part is added. -/
theorem PartAdded.cases (h : PartAdded task computation color part st st' newColor partition
    built shape operands subtask) {i : HloInstruction} (hi : i ∈ st'.parent.instructions) :
    i ∈ st.parent.instructions ∨ i = partCall st newColor shape operands subtask ∨
      i ∈ partOutputs part newColor subtask := by
  rw [h.instructions, List.mem_append, List.mem_cons] at hi
  exact hi

theorem PartAdded.called (h : PartAdded task computation color part st st' newColor partition
    built shape operands subtask) :
    st'.called = st.called ++ [built.mapInstructions (assignColor newColor)] := h.outputs.called

theorem PartAdded.mem_ids (h : PartAdded task computation color part st st' newColor partition
    built shape operands subtask) {id : ℕ} (hid : id ∈ st.parent.ids) : id ∈ st'.parent.ids := by
  obtain ⟨i, hi, rfl⟩ := List.mem_map.mp hid
  apply List.mem_map_of_mem
  rw [h.instructions]
  exact List.mem_append_left _ hi

theorem PartAdded.call_mem (h : PartAdded task computation color part st st' newColor partition
    built shape operands subtask) :
    partCall st newColor shape operands subtask ∈ st'.parent.instructions := by
  rw [h.instructions]
  simp

theorem PartAdded.computes (h : PartAdded task computation color part st st' newColor partition
    built shape operands subtask) {id : ℕ} {v : Value V} (hv : st.program.Computes I ctx id v) :
    st'.program.Computes I ctx id v := by
  apply hv.extend
  · intro id i hi
    exact h.lookup hi
  · exact ⟨_, h.called⟩

/-- The call of a part has the values of the roots of the part. -/
theorem PartAdded.call_computes (h : PartAdded task computation color part st st' newColor
    partition built shape operands subtask) (hcall : TaskCall p task n computation taskRoot)
    (hst : Progress p task computation st) (hset : part.instructions ⊆ computation.instructions)
    {operandsVisited : List ℕ} (hconfig : Classified computation
      (part.instructions.map HloInstruction.id) part.instructions (part.config, operandsVisited))
    {args : List (Value V)} (hargs : Arguments I ctx p task computation args)
    {vs : List (Value V)} (hvs : List.Forall₂ (fun root v =>
      computation.Computes I (callContext ctx args) root.id v) (roots part.config) vs) :
    st'.program.Computes I ctx subtask (.tuple vs) := by
  obtain ⟨externals, internals, hoperands, hexternals, hinternals⟩ := buildSubtask_operands h.run
  have hfound : ∀ param ∈ part.config.externalParameters ++ part.config.internalParameters,
      computation.instruction param.id = some param := by
    intro param hparam
    rcases List.mem_append.mp hparam with hparam | hparam
    · exact ((hconfig.seen.external param).mp hparam).1
    · exact ((hconfig.seen.internal param).mp hparam).1
  obtain ⟨newArgs, hnewArgs⟩ := exists_forall₂ fun param hparam =>
    hargs.values param (mem_of_instruction (hfound param hparam))
  -- an operand has the value that the parameter has in the task
  have hvalues : List.Forall₂ (st'.program.Computes I ctx) operands newArgs := by
    rw [hoperands]
    have hfeeds := List.rel_append
      (hexternals.imp fun param operand => (Or.inl :
        _ → TakesOperand task param operand ∨ st.externalReplacements param.id = some operand))
      (hinternals.imp fun param operand => Or.inr)
    apply ComputationFusion.forall₂_trans hfeeds hnewArgs
    rintro param operand w hparam (⟨number, hop, hnumber⟩ | hreplaced) hw
    · obtain ⟨i, _, hi, -, happly⟩ := hw.cases
      rw [hfound param hparam] at hi
      cases hi
      obtain ⟨v, hv, hcomputes⟩ := forall₂_getElem? hargs.operands hnumber
      have hargument : args[number]? = some w := by
        simpa [Interpretation.apply, hop, callContext] using happly
      rw [hv] at hargument
      cases hargument
      exact h.computes (hst.computes hcomputes)
    · exact h.computes (hst.values V I ctx args hargs param.id operand hreplaced w hw)
  have hlookup : st'.parent.instruction subtask =
      some (partCall st newColor shape operands subtask) :=
    HloComputation.instruction_of_mem (h.nodup hst) h.call_mem
  apply TaskProgram.Computes.of_operands hlookup hvalues
  refine ⟨built.mapInstructions (assignColor newColor), ?_, ?_⟩
  · show st'.called[st.called.length]? = _
    rw [h.called]
    simp
  · exact computes_assignColor (buildSubtask_computes hcall hset h.run hnewArgs hvs)

/-- A part is added to a module in which the parts before it were. -/
theorem PartAdded.progress (h : PartAdded task computation color part st st' newColor partition
    built shape operands subtask) (hcall : TaskCall p task n computation taskRoot)
    (hst : Progress p task computation st) (hset : part.instructions ⊆ computation.instructions)
    (hroot : computation.root ∉ part.instructions.map HloInstruction.id)
    {operandsVisited : List ℕ} (hconfig : Classified computation
      (part.instructions.map HloInstruction.id) part.instructions (part.config, operandsVisited)) :
    Progress p task computation st' := by
  have hnext := buildSubtask_next h.run
  have hstNext := hst.next
  have hnextId : st'.nextId = subtask + 1 + (roots part.config).length := h.outputs.nextId
  have hsubtask : subtask ∈ st'.parent.ids := List.mem_map_of_mem h.call_mem
  have hout : ∀ g ∈ partOutputs part newColor subtask, ∃ k < (roots part.config).length,
      g.id = subtask + 1 + k ∧ g.opcode = .getTupleElement k ∧ g.operands = [subtask] ∧
        g.controlPredecessors = [] := by
    intro g hg
    obtain ⟨k, r, hr, rfl⟩ := mem_partOutputs hg
    exact ⟨k, (List.getElem?_eq_some_iff.mp hr).1, rfl, rfl, rfl, rfl⟩
  constructor
  · obtain ⟨added, hadded, hnew⟩ := hst.kept
    refine ⟨added ++ partCall st newColor shape operands subtask ::
      partOutputs part newColor subtask, by rw [h.instructions, hadded, List.append_assoc], ?_⟩
    intro i hi
    rcases List.mem_append.mp hi with hi | hi
    · exact ⟨(hnew i hi).id, (hnew i hi).opcode, fun o ho => ((hnew i hi).operands o ho).imp_right
        fun hin => ⟨hin.1, h.mem_ids hin.2⟩, (hnew i hi).controlPredecessors⟩
    rcases List.mem_cons.mp hi with rfl | hi
    · refine ⟨by show p.freshId ≤ subtask; omega, .inl ⟨st.called.length, rfl, ?_⟩, ?_, rfl⟩
      · obtain ⟨more, hmore⟩ := hst.called
        rw [hmore, List.length_append]
        omega
      · intro o ho
        exact (h.operand hst ho).imp_right fun hin => ⟨hin.1, h.mem_ids hin.2⟩
    · obtain ⟨k, -, hid, hop, hoperands, hcontrol⟩ := hout i hi
      refine ⟨by omega, .inr ⟨k, hop⟩, ?_, hcontrol⟩
      intro o ho
      rw [hoperands] at ho
      obtain rfl := List.mem_singleton.mp ho
      exact .inr ⟨by omega, hsubtask⟩
  · rw [h.outputs.parent]
    exact hst.root
  · obtain ⟨more, hmore⟩ := hst.called
    exact ⟨more ++ [_], by rw [h.called, hmore, List.append_assoc]⟩
  · intro i hi m hop
    rw [h.called, List.length_append, List.length_singleton]
    rcases h.cases hi with hi | rfl | hi
    · have := hst.calls i hi m hop
      omega
    · have heq : st.called.length = m := HloOpcode.call.inj hop
      omega
    · obtain ⟨k, -, -, hgte, -⟩ := hout i hi
      rw [hgte] at hop
      cases hop
  · intro i hi
    rcases h.cases hi with hi | rfl | hi
    · have := hst.fresh i hi
      omega
    · show subtask < st'.nextId
      omega
    · obtain ⟨k, hk, hid, -⟩ := hout i hi
      omega
  · exact h.nodup hst
  · omega
  · intro e x hx
    rcases h.outputs.replacement e x hx with hold | ⟨j, r, -, hr, rfl, -⟩
    · exact hst.source e x hold
    · obtain ⟨hmem, hparam, -⟩ := (hconfig.roots r).mp (List.mem_of_getElem? hr)
      exact ⟨r, hset hmem, rfl, hparam, fun heq => hroot (heq ▸ List.mem_map_of_mem hmem)⟩
  · intro e x hx
    have hold : ∀ k ∈ st.parent.instructions, k ∈ st'.parent.instructions := by
      intro k hk
      rw [h.instructions]
      exact List.mem_append_left _ hk
    rcases h.outputs.replacement e x hx with hx | ⟨j, r, -, hr, -, rfl⟩
    · obtain ⟨g, hg, hid, hle, k, call, hmem, hrest⟩ := hst.target e x hx
      exact ⟨g, hold g hg, hid, hle, k, call, hold call hmem, hrest⟩
    · refine ⟨rootOutput subtask newColor (subtask + 1) (r, j), ?_, rfl, ?_, j, _, h.call_mem, rfl,
        rfl, ?_, st.called.length, rfl, ?_⟩
      · rw [h.instructions]
        apply List.mem_append_right
        exact List.mem_cons_of_mem _ (List.mem_map_of_mem (List.mem_zipIdx_iff_getElem?.mpr hr))
      · show p.freshId ≤ subtask + 1 + j
        omega
      · show p.freshId ≤ subtask
        omega
      · obtain ⟨more, hmore⟩ := hst.called
        rw [hmore, List.length_append]
        omega
  · intro V I ctx args hargs e x hx v hv
    rcases h.outputs.replacement e x hx with hold | ⟨j, r, -, hr, rfl, rfl⟩
    · exact h.computes (hst.values V I ctx args hargs e x hold v hv)
    · obtain ⟨vs, hvs⟩ := exists_forall₂ fun root hroot =>
        hargs.values root (hset ((hconfig.roots root).mp hroot).1)
      have htuple := h.call_computes hcall hst hset hconfig hargs hvs
      obtain ⟨w, hw, hcomputes⟩ := forall₂_getElem? hvs hr
      obtain rfl := hv.unique hcomputes
      have hmem : rootOutput subtask newColor (subtask + 1) (r, j) ∈ st'.parent.instructions := by
        rw [h.instructions]
        apply List.mem_append_right
        exact List.mem_cons_of_mem _ (List.mem_map_of_mem (List.mem_zipIdx_iff_getElem?.mpr hr))
      apply TaskProgram.Computes.of_operands
        (HloComputation.instruction_of_mem (h.nodup hst) hmem) (.cons htuple .nil)
      simpa [TaskProgram.Applies, rootOutput, Interpretation.apply] using hw

end added

end parts

end TaskSplitter
end MultiMeshJax
