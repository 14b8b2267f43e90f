import MultiMeshJax.Foundation.Run
import MultiMeshJax.Hlo.Program

/-! `MpmdInPlaceCollectives`: an output of a call that is a collective of a parameter gets the
scheduling name of the operand. -/
namespace MultiMeshJax
namespace InPlaceCollectives

open StatusOr

def kSPMDShardToFullShape : String := "SPMDShardToFullShape"
def kSPMDFullToShardShape : String := "SPMDFullToShardShape"

section pass

/-- The loop of `GetMatchingCollectiveInput`. The cases fall through: a change between the
full and the shard shape counts as a collective. -/
def followInput (comp : HloComputation) : ℕ → Bool → ℕ → StatusOr (Option ℕ)
  | 0, _, _ => fatal "more steps than the fuel allows"
  | fuel + 1, foundCollective, id => do
    let rootInput ← comp.getInstruction id
    match rootInput.opcode with
    | .parameter number => return if foundCollective then some number else none
    | .customCall target =>
      if target = kSPMDShardToFullShape ∨ target = kSPMDFullToShardShape then do
        let operand ← elementAt rootInput.operands 0
        followInput comp fuel true operand
      else return none
    | .other mnemonic =>
      if mnemonic = "all-reduce" then do
        let operand ← elementAt rootInput.operands 0
        followInput comp fuel true operand
      else if mnemonic = "convert" then do
        let operand ← elementAt rootInput.operands 0
        followInput comp fuel foundCollective operand
      else return none
    | _ => return none

/-- `GetMatchingCollectiveInput`. -/
def matchingCollectiveInput (comp : HloComputation) (outputNumber : ℕ) : StatusOr (Option ℕ) := do
  let root ← comp.rootInstruction
  let rootInput ← elementAt root.operands outputNumber
  followInput comp (comp.instructions.length + 1) false rootInput

def setSchedulingName (c : HloComputation) (id name : ℕ) : HloComputation :=
  c.mapInstructions fun i => if i.id = id then { i with schedulingName := some name } else i

def visitUser (comp : HloComputation) (call : HloInstruction) (c : HloComputation)
    (user : HloInstruction) : StatusOr HloComputation := do
  let index ← user.tupleIndex
  let collectiveOperandIndex ← matchingCollectiveInput comp index
  match collectiveOperandIndex with
  | some number => do
    let operand ← elementAt call.operands number
    let input ← c.getInstruction operand
    match input.schedulingName with
    | some name => return setSchedulingName c user.id name
    | none => return c
  | none => return c

def visit (called : List HloComputation) (c : HloComputation) (instruction : HloInstruction) :
    StatusOr HloComputation :=
  match instruction.opcode with
  | .call n => do
    let computation ← elementAt called n
    (c.users instruction.id).foldlM (visitUser computation instruction) c
  | _ => return c

def run (called : List HloComputation) (c : HloComputation) : StatusOr HloComputation :=
  c.instructions.foldlM (visit called) c

end pass

section sharing

/-- One instruction of the entry computation is visited. -/
def Step (called : List HloComputation) (c : HloComputation) (call : HloInstruction)
    (c' : HloComputation) : Prop :=
  visit called c call = ok c'

/-- An output of a call with an operand, by the index and the number that they have in the call,
and the scheduling name of the operand. -/
structure Pair where
  output : HloInstruction
  input : HloInstruction
  index : ℕ
  number : ℕ
  schedulingName : ℕ

/-- The visit of the call gives the output the name of the operand. -/
structure Shares (called : List HloComputation) (c : HloComputation) (call : HloInstruction)
    (pair : Pair) : Prop where
  user : pair.output ∈ c.users call.id
  index : pair.output.opcode = .getTupleElement pair.index
  matched : ∃ n comp, call.opcode = .call n ∧ called[n]? = some comp ∧
    matchingCollectiveInput comp pair.index = ok (some pair.number)
  operand : call.operands[pair.number]? = some pair.input.id
  found : c.instruction pair.input.id = some pair.input
  name : pair.input.schedulingName = some pair.schedulingName

def elementType : Shape → Option PrimitiveType
  | .array type _ => some type
  | .tuple _ => none

variable (byteSizeOf : Shape → ℕ)

def SameBuffer (s t : Shape) : Prop := elementType s = elementType t ∧ byteSizeOf s = byteSizeOf t

/-- An instruction that runs later than the call reads the value. -/
def ReadAfter (c : HloComputation) (call id : ℕ) : Prop :=
  ∃ earlier i later, c.instructions = earlier ++ i :: later ∧ i.id = call ∧
    ∃ reader ∈ later, id ∈ reader.operands

/-- Each output that is made to share the buffer of an operand may do so. -/
structure SharesSafely (called : List HloComputation) (c : HloComputation) (call : HloInstruction)
    (c' : HloComputation) : Prop where
  buffer : ∀ pair, Shares called c call pair →
    SameBuffer byteSizeOf pair.output.shape pair.input.shape
  unread : ∀ pair, Shares called c call pair → ¬ReadAfter c' call.id pair.input.id
  distinct : ∀ pair other, Shares called c call pair → Shares called c call other →
    pair.index ≠ other.index → ∀ i j, c'.instruction pair.output.id = some i →
      c'.instruction other.output.id = some j → i.schedulingName ≠ j.schedulingName

/-- What there is to check before the call is visited: the operations between the parameter and
the output restore its type and size, the call is the last to use the operand, and two outputs
come from operands of different names. -/
structure Checked (called : List HloComputation) (c : HloComputation) (call : HloInstruction) :
    Prop where
  restored : ∀ pair, Shares called c call pair → ∀ n comp root id output param,
    call.opcode = .call n → called[n]? = some comp → comp.instruction comp.root = some root →
      root.operands[pair.index]? = some id → comp.instruction id = some output →
        param ∈ comp.instructions → param.opcode = .parameter pair.number →
          SameBuffer byteSizeOf output.shape param.shape
  lastUse : ∀ pair, Shares called c call pair → ¬ReadAfter c call.id pair.input.id
  names : ∀ pair other, Shares called c call pair → Shares called c call other →
    pair.index ≠ other.index → pair.schedulingName ≠ other.schedulingName

/-- The operations that the loop goes through. -/
def isFollowed (i : HloInstruction) : Bool :=
  i.opcode ∈ [.customCall kSPMDShardToFullShape, .customCall kSPMDFullToShardShape,
    .other "all-reduce", .other "convert"]

/-- What holds of a module: the operands and the outputs of a call have the shapes that they
have in the called computation, whose instructions come after their operands. -/
structure WellFormed (called : List HloComputation) (c : HloComputation) : Prop where
  distinct : c.ids.Nodup
  operands : ∀ i ∈ c.instructions, ∀ o ∈ i.operands, o ∈ c.ids
  acyclic : ∀ i ∈ c.instructions, ∀ user ∈ c.users i.id, user.id ∉ i.operands
  call : ∀ i ∈ c.instructions, ∀ n, i.opcode = .call n → ∃ comp, called[n]? = some comp
  inputs : ∀ i ∈ c.instructions, ∀ n comp, i.opcode = .call n → called[n]? = some comp →
    ∀ param ∈ comp.instructions, ∀ number, param.opcode = .parameter number →
      ∃ operand input, i.operands[number]? = some operand ∧ c.instruction operand = some input ∧
        input.shape = param.shape
  outputs : ∀ i ∈ c.instructions, ∀ n comp, i.opcode = .call n → called[n]? = some comp →
    ∀ user ∈ c.users i.id, ∃ index root id output, user.opcode = .getTupleElement index ∧
      comp.instruction comp.root = some root ∧ root.operands[index]? = some id ∧
        comp.instruction id = some output ∧ user.shape = output.shape
  distinct_called : ∀ comp ∈ called, comp.ids.Nodup
  listed : ∀ comp ∈ called, ∀ earlier i later, comp.instructions = earlier ++ i :: later →
    ∀ o ∈ i.operands, o ∈ earlier.map HloInstruction.id
  unary : ∀ comp ∈ called, ∀ i ∈ comp.instructions, isFollowed i = true → i.operands ≠ []

end sharing

section chain

variable {comp : HloComputation} {fuel id number : ℕ} {found : Bool}

theorem exists_parameter (h : followInput comp fuel found id = ok (some number)) :
    ∃ param ∈ comp.instructions, param.opcode = .parameter number := by
  induction fuel generalizing found id with
  | zero => cases h
  | succ fuel ih =>
    unfold followInput at h
    obtain ⟨i, hi, h⟩ := bind_eq_ok.mp h
    have hmem := HloComputation.mem_of_instruction (deref_eq_ok.mp hi)
    split at h
    · rename_i k hop
      cases found with
      | false => cases h
      | true =>
        cases h
        exact ⟨i, hmem, hop⟩
    · split at h
      · obtain ⟨operand, -, h⟩ := bind_eq_ok.mp h
        exact ih h
      · cases h
    · split at h
      · obtain ⟨operand, -, h⟩ := bind_eq_ok.mp h
        exact ih h
      · split at h
        · obtain ⟨operand, -, h⟩ := bind_eq_ok.mp h
          exact ih h
        · cases h
    · cases h

theorem exists_parameter_of_matching {index : ℕ}
    (h : matchingCollectiveInput comp index = ok (some number)) :
    ∃ param ∈ comp.instructions, param.opcode = .parameter number := by
  unfold matchingCollectiveInput at h
  obtain ⟨root, -, h⟩ := bind_eq_ok.mp h
  obtain ⟨rootInput, -, h⟩ := bind_eq_ok.mp h
  exact exists_parameter h

/-- The fuel is enough for a computation whose instructions come after their operands. -/
theorem followInput_ok (hdistinct : comp.ids.Nodup)
    (hlisted : ∀ earlier i later, comp.instructions = earlier ++ i :: later →
      ∀ o ∈ i.operands, o ∈ earlier.map HloInstruction.id)
    (hunary : ∀ i ∈ comp.instructions, isFollowed i = true → i.operands ≠ [])
    {earlier later : List HloInstruction} {i : HloInstruction}
    (hsplit : comp.instructions = earlier ++ i :: later) (hfuel : earlier.length < fuel) :
    ∃ result, followInput comp fuel found i.id = ok result := by
  induction fuel generalizing found earlier i later with
  | zero => omega
  | succ fuel ih =>
    have hmem : i ∈ comp.instructions := by simp [hsplit]
    have hrun : comp.getInstruction i.id = ok i :=
      deref_eq_ok.mpr (HloComputation.instruction_of_mem hdistinct hmem)
    -- an operation that is followed has an operand, which is listed earlier
    have hoperand : isFollowed i = true → ∀ found, ∃ operand result,
        elementAt i.operands 0 = ok operand ∧ followInput comp fuel found operand = ok result := by
      intro hfollowed found
      have hne := hunary i hmem hfollowed
      have hzero : elementAt i.operands 0 = ok (i.operands.head hne) := by
        rw [elementAt_eq_ok, ← List.head?_eq_getElem?, List.head?_eq_some_head hne]
      have hearlier := hlisted earlier i later hsplit _ (List.head_mem hne)
      obtain ⟨j, hj, hid⟩ := List.mem_map.mp hearlier
      obtain ⟨front, back, rfl⟩ := List.append_of_mem hj
      have hsplit' : comp.instructions = front ++ j :: (back ++ i :: later) := by simp [hsplit]
      obtain ⟨result, hresult⟩ : ∃ result, followInput comp fuel found j.id = ok result := by
        apply ih hsplit'
        rw [List.length_append, List.length_cons] at hfuel
        omega
      exact ⟨_, result, hzero, by rw [← hid, hresult]⟩
    unfold followInput
    rw [hrun, ok_bind]
    split
    · exact ⟨_, rfl⟩
    · rename_i target hop
      split
      · rename_i htarget
        have hfollowed : isFollowed i = true := by
          rcases htarget with rfl | rfl <;> simp [isFollowed, hop]
        obtain ⟨operand, result, hzero, hresult⟩ := hoperand hfollowed true
        exact ⟨result, by rw [hzero, ok_bind, hresult]⟩
      · exact ⟨_, rfl⟩
    · rename_i mnemonic hop
      split
      · rename_i hmnemonic
        obtain ⟨operand, result, hzero, hresult⟩ :=
          hoperand (by simp [isFollowed, hop, hmnemonic]) true
        exact ⟨result, by rw [hzero, ok_bind, hresult]⟩
      · split
        · rename_i hmnemonic
          obtain ⟨operand, result, hzero, hresult⟩ :=
            hoperand (by simp [isFollowed, hop, hmnemonic]) found
          exact ⟨result, by rw [hzero, ok_bind, hresult]⟩
        · exact ⟨_, rfl⟩
    · exact ⟨_, rfl⟩

end chain

section names

variable {called : List HloComputation} {c c' c₁ c₂ : HloComputation}

def unnamed (i : HloInstruction) : HloInstruction := { i with schedulingName := none }

/-- Two computations that differ in their scheduling names. -/
def Renamed (c c' : HloComputation) : Prop :=
  c.instructions.map unnamed = c'.instructions.map unnamed

/-- Two instructions that differ in their scheduling names. -/
structure Alike (i j : HloInstruction) : Prop where
  id : j.id = i.id
  opcode : j.opcode = i.opcode
  operands : j.operands = i.operands
  shape : j.shape = i.shape

theorem alike_of_unnamed {i j : HloInstruction} (h : unnamed i = unnamed j) : Alike i j where
  id := (congrArg HloInstruction.id h).symm
  opcode := (congrArg HloInstruction.opcode h).symm
  operands := (congrArg HloInstruction.operands h).symm
  shape := (congrArg HloInstruction.shape h).symm

theorem Renamed.symm (h : Renamed c c') : Renamed c' c := Eq.symm h

theorem Renamed.ids (h : Renamed c c') : c'.ids = c.ids := by
  have hids : ∀ d : HloComputation, d.ids = (d.instructions.map unnamed).map HloInstruction.id := by
    intro d
    rw [List.map_map]
    rfl
  rw [hids, hids, h]

theorem Renamed.mem (h : Renamed c c') {j : HloInstruction} (hj : j ∈ c'.instructions) :
    ∃ i ∈ c.instructions, Alike i j := by
  have hmem : unnamed j ∈ c.instructions.map unnamed := by
    rw [h]
    exact List.mem_map_of_mem hj
  obtain ⟨i, hi, heq⟩ := List.mem_map.mp hmem
  exact ⟨i, hi, alike_of_unnamed heq⟩

theorem Renamed.instruction (h : Renamed c c') (hdistinct : c.ids.Nodup) {id : ℕ}
    {j : HloInstruction} (hj : c'.instruction id = some j) :
    ∃ i, c.instruction id = some i ∧ Alike i j := by
  obtain ⟨i, hi, halike⟩ := h.mem (HloComputation.mem_of_instruction hj)
  refine ⟨i, ?_, halike⟩
  rw [← HloComputation.id_of_instruction hj, halike.id]
  exact HloComputation.instruction_of_mem hdistinct hi

theorem Renamed.user (h : Renamed c c') {id : ℕ} {j : HloInstruction} (hj : j ∈ c'.users id) :
    ∃ i ∈ c.users id, Alike i j := by
  obtain ⟨hmem, hoperand⟩ := List.mem_filter.mp hj
  obtain ⟨i, hi, halike⟩ := h.mem hmem
  refine ⟨i, List.mem_filter.mpr ⟨hi, ?_⟩, halike⟩
  rw [← halike.operands]
  exact hoperand

theorem renamed_setSchedulingName (h : Renamed c c₁) (id name : ℕ) :
    Renamed c (setSchedulingName c₁ id name) := by
  unfold Renamed setSchedulingName HloComputation.mapInstructions
  rw [h, List.map_map]
  apply List.map_congr_left
  intro i _
  rw [Function.comp_apply]
  split <;> rfl

theorem instruction_setSchedulingName (id name other : ℕ) :
    (setSchedulingName c id name).instruction other = (c.instruction other).map fun i =>
      if i.id = id then { i with schedulingName := some name } else i := by
  apply HloComputation.instruction_mapInstructions
  intro i
  split <;> rfl

theorem Renamed.readAfter (h : Renamed c c') {call id : ℕ} (hread : ReadAfter c' call id) :
    ReadAfter c call id := by
  obtain ⟨earlier, i, later, hsplit, hid, reader, hreader, hoperand⟩ := hread
  have hmap : c.instructions.map unnamed =
      earlier.map unnamed ++ unnamed i :: later.map unnamed := by
    rw [h, hsplit, List.map_append, List.map_cons]
  obtain ⟨front, rest, hfront, -, hrest⟩ := List.map_eq_append_iff.mp hmap
  obtain ⟨j, back, rfl, hj, hback⟩ := List.map_eq_cons_iff.mp hrest
  have hmem : unnamed reader ∈ back.map unnamed := by
    rw [hback]
    exact List.mem_map_of_mem hreader
  obtain ⟨reader', hreader', heq⟩ := List.mem_map.mp hmem
  refine ⟨front, j, back, hfront, ?_, reader', hreader', ?_⟩
  · rw [← hid, (alike_of_unnamed hj).id]
  · rw [← (alike_of_unnamed heq).operands]
    exact hoperand

/-- A user gets at most a new name. -/
theorem visitUser_eq {comp : HloComputation} {call user : HloInstruction}
    (h : visitUser comp call c user = ok c') :
    c' = c ∨ ∃ name, c' = setSchedulingName c user.id name := by
  unfold visitUser at h
  obtain ⟨index, -, h⟩ := bind_eq_ok.mp h
  obtain ⟨matched, -, h⟩ := bind_eq_ok.mp h
  split at h
  · obtain ⟨operand, -, h⟩ := bind_eq_ok.mp h
    obtain ⟨input, -, h⟩ := bind_eq_ok.mp h
    split at h
    · exact .inr ⟨_, (ok.inj h).symm⟩
    · exact .inl (ok.inj h).symm
  · exact .inl (ok.inj h).symm

theorem visitUser_renamed {comp : HloComputation} {call user : HloInstruction}
    (hrun : visitUser comp call c₁ user = ok c₂) (h : Renamed c c₁) : Renamed c c₂ := by
  rcases visitUser_eq hrun with rfl | ⟨name, rfl⟩
  · exact h
  · exact renamed_setSchedulingName h user.id name

theorem visit_renamed {call : HloInstruction} (hrun : visit called c₁ call = ok c₂)
    (h : Renamed c c₁) : Renamed c c₂ := by
  unfold visit at hrun
  split at hrun
  · obtain ⟨comp, -, hrun⟩ := bind_eq_ok.mp hrun
    exact foldlM_invariant (Renamed c) hrun h fun user _ d d' hd hstep => visitUser_renamed hstep hd
  · cases hrun
    exact h

end names

section visits

variable {called : List HloComputation} {c st st' : HloComputation} {call : HloInstruction}

theorem instruction_setSchedulingName_ne {d : HloComputation} {id name other : ℕ}
    (h : other ≠ id) : (setSchedulingName d id name).instruction other = d.instruction other := by
  rw [instruction_setSchedulingName]
  cases hfind : d.instruction other with
  | none => rfl
  | some i =>
    rw [Option.map_some, if_neg (by rwa [HloComputation.id_of_instruction hfind])]

theorem users_nodup (hdistinct : st.ids.Nodup) (id : ℕ) :
    ((st.users id).map HloInstruction.id).Nodup :=
  hdistinct.sublist (List.filter_sublist.map HloInstruction.id)

/-- An operand of a call is none of its users. -/
theorem WellFormed.input_notMem (h : WellFormed called c) (hst : Renamed c st)
    (hcall : call ∈ c.instructions) {operand : ℕ} (hoperand : operand ∈ call.operands) :
    operand ∉ (st.users call.id).map HloInstruction.id := by
  intro hmem
  obtain ⟨user, huser, rfl⟩ := List.mem_map.mp hmem
  obtain ⟨original, horiginal, halike⟩ := hst.user huser
  apply h.acyclic call hcall original horiginal
  rw [← halike.id]
  exact hoperand

/-- What the visit of a user does when the user shares the name of an operand. -/
theorem visitUser_of_shares {comp : HloComputation} {n : ℕ} {pair : Pair} {d d' : HloComputation}
    (hshares : Shares called st call pair) (hop : call.opcode = .call n)
    (hcomp : called[n]? = some comp)
    (hinput : d.instruction pair.input.id = st.instruction pair.input.id)
    (hrun : visitUser comp call d pair.output = ok d') :
    d' = setSchedulingName d pair.output.id pair.schedulingName := by
  obtain ⟨n', comp', hop', hcomp', hmatched⟩ := hshares.matched
  rw [hop] at hop'
  cases hop'
  rw [hcomp] at hcomp'
  cases hcomp'
  have hindex : pair.output.tupleIndex = ok pair.index :=
    HloInstruction.tupleIndex_eq_ok.mpr hshares.index
  have hfound : d.getInstruction pair.input.id = ok pair.input :=
    deref_eq_ok.mpr (hinput.trans hshares.found)
  unfold visitUser at hrun
  rw [hindex, ok_bind, hmatched, ok_bind] at hrun
  dsimp only at hrun
  rw [elementAt_eq_ok.mpr hshares.operand, ok_bind, hfound, ok_bind, hshares.name] at hrun
  exact (ok.inj hrun).symm

/-- The users that have been visited have the names of their operands, and no other name is
changed. -/
structure Named (called : List HloComputation) (st : HloComputation) (call : HloInstruction)
    (done : List HloInstruction) (d : HloComputation) : Prop where
  kept : ∀ id, id ∉ done.map HloInstruction.id → d.instruction id = st.instruction id
  named : ∀ pair, Shares called st call pair → pair.output ∈ done →
    d.instruction pair.output.id =
      some { pair.output with schedulingName := some pair.schedulingName }

theorem visit_named (h : WellFormed called c) (hst : Renamed c st) (hcall : call ∈ c.instructions)
    {n : ℕ} {comp : HloComputation} (hop : call.opcode = .call n) (hcomp : called[n]? = some comp)
    (hrun : (st.users call.id).foldlM (visitUser comp call) st = ok st') :
    Named called st call (st.users call.id) st' := by
  have hdistinct : st.ids.Nodup := by
    rw [hst.ids]
    exact h.distinct
  apply foldlM_prefix (Named called st call) hrun
  · constructor
    · intro id _
      rfl
    · intro pair _ hmem
      cases hmem
  intro done user hinitial d d' hd hstep
  have hnodup : ((done ++ [user]).map HloInstruction.id).Nodup :=
    (users_nodup hdistinct call.id).sublist (hinitial.map HloInstruction.id).sublist
  rw [List.map_append, List.nodup_append] at hnodup
  have huser : user ∈ st.users call.id := hinitial.subset (by simp)
  have hnew : user.id ∉ done.map HloInstruction.id := by
    intro hmem
    exact hnodup.2.2 _ hmem user.id (by simp) rfl
  have hother : ∀ id, id ≠ user.id → d'.instruction id = d.instruction id := by
    intro id hne
    rcases visitUser_eq hstep with rfl | ⟨name, rfl⟩
    · rfl
    · exact instruction_setSchedulingName_ne hne
  constructor
  · intro id hid
    rw [List.map_append, List.mem_append, not_or] at hid
    rw [hother id (by simpa using hid.2), hd.kept id hid.1]
  · intro pair hshares hmem
    rcases List.mem_append.mp hmem with hmem | hmem
    · have hne : pair.output.id ≠ user.id := by
        intro heq
        exact hnew (heq ▸ List.mem_map_of_mem hmem)
      rw [hother _ hne, hd.named pair hshares hmem]
    · obtain rfl := List.mem_singleton.mp hmem
      have hinput : d.instruction pair.input.id = st.instruction pair.input.id := by
        apply hd.kept
        intro hdone
        apply h.input_notMem hst hcall (List.mem_of_getElem? hshares.operand)
        have hsubset : done ⊆ st.users call.id := fun x hx =>
          hinitial.subset (List.mem_append_left _ hx)
        exact List.map_subset _ hsubset hdone
      rw [visitUser_of_shares hshares hop hcomp hinput hstep, instruction_setSchedulingName,
        hd.kept _ hnew, HloComputation.instruction_of_mem hdistinct (List.mem_filter.mp huser).1,
        Option.map_some, if_pos rfl]

/-- After the visit of a call its outputs have the names that they share. -/
theorem Shares.named (h : WellFormed called c) (hst : Renamed c st) (hcall : call ∈ c.instructions)
    {pair : Pair} (hshares : Shares called st call pair) (hrun : visit called st call = ok st') :
    st'.instruction pair.output.id =
      some { pair.output with schedulingName := some pair.schedulingName } := by
  obtain ⟨n, comp, hop, hcomp, -⟩ := hshares.matched
  unfold visit at hrun
  simp only [hop] at hrun
  rw [elementAt_eq_ok.mpr hcomp, ok_bind] at hrun
  exact (visit_named h hst hcall hop hcomp hrun).named pair hshares hshares.user

end visits

section safety

variable {called : List HloComputation} {c st st' : HloComputation} {call : HloInstruction}
  {byteSizeOf : Shape → ℕ}

/-- The output and the operand have the shapes that they have inside the called computation. -/
theorem Shares.shapes (h : WellFormed called c) (hst : Renamed c st)
    (hcall : call ∈ c.instructions) {pair : Pair} (hshares : Shares called st call pair) :
    ∃ n comp root id output param, call.opcode = .call n ∧ called[n]? = some comp ∧
      comp.instruction comp.root = some root ∧ root.operands[pair.index]? = some id ∧
        comp.instruction id = some output ∧ param ∈ comp.instructions ∧
          param.opcode = .parameter pair.number ∧ pair.output.shape = output.shape ∧
            ∀ param ∈ comp.instructions, param.opcode = .parameter pair.number →
              pair.input.shape = param.shape := by
  obtain ⟨n, comp, hop, hcomp, hmatched⟩ := hshares.matched
  obtain ⟨user, huser, halike⟩ := hst.user hshares.user
  obtain ⟨index, root, id, output, huserOp, hroot, hid, houtput, hshape⟩ :=
    h.outputs call hcall n comp hop hcomp user huser
  have hindex : index = pair.index := by
    have heq := halike.opcode
    rw [hshares.index, huserOp] at heq
    exact (HloOpcode.getTupleElement.inj heq).symm
  obtain ⟨param, hparam, hparamOp⟩ := exists_parameter_of_matching hmatched
  refine ⟨n, comp, root, id, output, param, hop, hcomp, hroot, hindex ▸ hid, houtput, hparam,
    hparamOp, halike.shape.trans hshape, ?_⟩
  intro param hparam hparamOp
  obtain ⟨operand, input, hoperand, hinput, hinputShape⟩ :=
    h.inputs call hcall n comp hop hcomp param hparam pair.number hparamOp
  rw [hshares.operand] at hoperand
  cases hoperand
  obtain ⟨original, horiginal, hinputAlike⟩ := hst.instruction h.distinct hshares.found
  rw [hinput] at horiginal
  cases horiginal
  exact hinputAlike.shape.trans hinputShape

/-- What a visit does is safe where the checks hold, and only there. -/
theorem sharesSafely_iff_checked (h : WellFormed called c) (hst : Renamed c st)
    (hcall : call ∈ c.instructions) (hrun : visit called st call = ok st') :
    SharesSafely byteSizeOf called st call st' ↔ Checked byteSizeOf called st call := by
  have hafter : Renamed st st' := visit_renamed hrun rfl
  have hread : ∀ id, ReadAfter st' call.id id ↔ ReadAfter st call.id id := fun id =>
    ⟨hafter.readAfter, hafter.symm.readAfter⟩
  constructor
  · intro hsafe
    constructor
    · intro pair hshares n comp root id output param hop hcomp hroot hid houtput hparam hparamOp
      obtain ⟨n', comp', root', id', output', param', hop', hcomp', hroot', hid', houtput', -, -,
        hshape, hinput⟩ := hshares.shapes h hst hcall
      rw [hop] at hop'
      cases hop'
      rw [hcomp] at hcomp'
      cases hcomp'
      rw [hroot] at hroot'
      cases hroot'
      rw [hid] at hid'
      cases hid'
      rw [houtput] at houtput'
      cases houtput'
      rw [← hshape, ← hinput param hparam hparamOp]
      exact hsafe.buffer pair hshares
    · intro pair hshares hbefore
      exact hsafe.unread pair hshares ((hread _).mpr hbefore)
    · intro pair other hpair hother hne heq
      apply hsafe.distinct pair other hpair hother hne _ _ (hpair.named h hst hcall hrun)
        (hother.named h hst hcall hrun)
      rw [heq]
  · intro hchecked
    constructor
    · intro pair hshares
      obtain ⟨n, comp, root, id, output, param, hop, hcomp, hroot, hid, houtput, hparam, hparamOp,
        hshape, hinput⟩ := hshares.shapes h hst hcall
      rw [hshape, hinput param hparam hparamOp]
      exact hchecked.restored pair hshares n comp root id output param hop hcomp hroot hid houtput
        hparam hparamOp
    · intro pair hshares hlater
      exact hchecked.lastUse pair hshares ((hread _).mp hlater)
    · intro pair other hpair hother hne i j hi hj heq
      rw [hpair.named h hst hcall hrun] at hi
      rw [hother.named h hst hcall hrun] at hj
      cases hi
      cases hj
      exact hchecked.names pair other hpair hother hne (Option.some.inj heq)

theorem matchingCollectiveInput_ok (h : WellFormed called c) {comp : HloComputation}
    (hcomp : comp ∈ called) {root output : HloInstruction} {index id : ℕ}
    (hroot : comp.instruction comp.root = some root) (hid : root.operands[index]? = some id)
    (houtput : comp.instruction id = some output) :
    ∃ matched, matchingCollectiveInput comp index = ok matched := by
  obtain ⟨earlier, later, hsplit⟩ :=
    List.append_of_mem (HloComputation.mem_of_instruction houtput)
  have hlength : earlier.length < comp.instructions.length + 1 := by
    rw [hsplit, List.length_append]
    omega
  have hrootRun : comp.rootInstruction = ok root := deref_eq_ok.mpr hroot
  unfold matchingCollectiveInput
  rw [hrootRun, ok_bind, elementAt_eq_ok.mpr hid, ok_bind,
    ← HloComputation.id_of_instruction houtput]
  exact followInput_ok (h.distinct_called comp hcomp) (h.listed comp hcomp) (h.unary comp hcomp)
    hsplit hlength

theorem visit_ok (h : WellFormed called c) (hst : Renamed c st) (hcall : call ∈ c.instructions) :
    ∃ st', visit called st call = ok st' ∧ Renamed c st' := by
  unfold visit
  split
  · rename_i n hop
    obtain ⟨comp, hcomp⟩ := h.call call hcall n hop
    have hmem : comp ∈ called := List.mem_of_getElem? hcomp
    rw [elementAt_eq_ok.mpr hcomp, ok_bind]
    apply exists_foldlM_eq_ok (fun _ => Renamed c) hst
    intro done user hinitial d hd
    obtain ⟨original, horiginal, halike⟩ := hst.user (hinitial.subset (by simp : user ∈ _))
    obtain ⟨index, root, id, output, huserOp, hroot, hid, houtput, -⟩ :=
      h.outputs call hcall n comp hop hcomp original horiginal
    obtain ⟨matched, hmatched⟩ := matchingCollectiveInput_ok h hmem hroot hid houtput
    have hindex : user.tupleIndex = ok index :=
      HloInstruction.tupleIndex_eq_ok.mpr (halike.opcode.trans huserOp)
    have hrun : ∃ d', visitUser comp call d user = ok d' := by
      unfold visitUser
      rw [hindex, ok_bind, hmatched, ok_bind]
      cases matched with
      | none => exact ⟨d, rfl⟩
      | some number =>
        obtain ⟨param, hparam, hparamOp⟩ := exists_parameter_of_matching hmatched
        obtain ⟨operand, input, hoperand, hinput, -⟩ :=
          h.inputs call hcall n comp hop hcomp param hparam number hparamOp
        obtain ⟨i, hi⟩ : ∃ i, d.instruction operand = some i := by
          have hin : operand ∈ d.ids := by
            rw [hd.ids]
            exact HloComputation.mem_ids_of_instruction hinput
          obtain ⟨i, hi, rfl⟩ := List.mem_map.mp hin
          refine ⟨i, HloComputation.instruction_of_mem ?_ hi⟩
          rw [hd.ids]
          exact h.distinct
        dsimp only
        rw [elementAt_eq_ok.mpr hoperand, ok_bind,
          show d.getInstruction operand = ok i from deref_eq_ok.mpr hi, ok_bind]
        split
        · exact ⟨_, rfl⟩
        · exact ⟨d, rfl⟩
    obtain ⟨d', hd'⟩ := hrun
    exact ⟨d', hd', visitUser_renamed hd' hd⟩
  · exact ⟨st, rfl, hst⟩

end safety

namespace LaterReader

def argument : HloInstruction := { id := 0, opcode := .parameter 0, schedulingName := some 0 }

def call : HloInstruction :=
  { id := 1, opcode := .call 0, operands := [0], shape := .tuple [(.f32, [])] }

def output : HloInstruction := { id := 2, opcode := .getTupleElement 0, operands := [1] }

def reader : HloInstruction := { id := 3, opcode := .other "negate", operands := [0] }

def root : HloInstruction :=
  { id := 4, opcode := .tuple, operands := [2, 3], shape := .tuple [(.f32, []), (.f32, [])] }

/-- The argument of an all-reduce is negated after it. -/
def entry : HloComputation := ⟨[argument, call, output, reader, root], 4⟩

def allReduce : HloComputation := ⟨[
  { id := 10, opcode := .parameter 0 },
  { id := 11, opcode := .other "all-reduce", operands := [10] },
  { id := 12, opcode := .tuple, operands := [11], shape := .tuple [(.f32, [])] }], 12⟩

def byteSizeOf (s : Shape) : ℕ := 4 * s.dimensions.prod

end LaterReader

section laterReader

open LaterReader

theorem laterReader_isCall {i : HloInstruction} (hi : i ∈ entry.instructions) {n : ℕ}
    (hop : i.opcode = .call n) : i = call ∧ n = 0 := by
  have hcases : i = argument ∨ i = call ∨ i = output ∨ i = reader ∨ i = root := by
    simpa [entry] using hi
  rcases hcases with rfl | rfl | rfl | rfl | rfl
  · cases hop
  · exact ⟨rfl, (HloOpcode.call.inj hop).symm⟩
  · cases hop
  · cases hop
  · cases hop

theorem wellFormed_laterReader : WellFormed [allReduce] entry where
  distinct := by decide
  operands := by decide
  acyclic := by decide
  call i hi n hop := by
    obtain ⟨rfl, rfl⟩ := laterReader_isCall hi hop
    exact ⟨allReduce, rfl⟩
  inputs i hi n comp hop hcomp param hparam number hparamOp := by
    obtain ⟨rfl, rfl⟩ := laterReader_isCall hi hop
    cases hcomp
    obtain rfl | rfl | rfl := by simpa [allReduce] using hparam
    · cases hparamOp
      exact ⟨0, argument, rfl, rfl, rfl⟩
    · cases hparamOp
    · cases hparamOp
  outputs i hi n comp hop hcomp user huser := by
    obtain ⟨rfl, rfl⟩ := laterReader_isCall hi hop
    cases hcomp
    obtain rfl : user = output := by
      have hmem : user ∈ [output] := huser
      exact List.mem_singleton.mp hmem
    exact ⟨0, _, 11, _, rfl, rfl, rfl, rfl, rfl⟩
  distinct_called := by decide
  listed comp hcomp earlier i later hsplit := by
    obtain rfl := List.mem_singleton.mp hcomp
    have htake : earlier = allReduce.instructions.take earlier.length := by simp [hsplit]
    have hget : allReduce.instructions[earlier.length]? = some i := by simp [hsplit]
    have hlt : earlier.length < 3 := (List.getElem?_eq_some_iff.mp hget).1
    rw [htake]
    generalize earlier.length = k at hget hlt
    interval_cases k <;> cases hget <;> decide
  unary := by decide

end laterReader

end InPlaceCollectives
end MultiMeshJax
