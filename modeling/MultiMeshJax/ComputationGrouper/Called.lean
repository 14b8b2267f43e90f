import MultiMeshJax.ComputationGrouper.Built

/-! The calls of the tasks, beside the instructions that they are going to replace. -/
namespace MultiMeshJax
namespace ComputationGrouper

open StatusOr HloComputation
open ColorDfs (Dag OnlyElements colorSortedPostorder)

/-- An instruction is as high as its place in the order; what the order does not need is above. -/
def level (c : HloComputation) (order : List HloInstruction) (rank : ℕ → ℕ) (id : ℕ) : ℕ :=
  if id = c.root ∨ id ∉ order.map HloInstruction.id then 4 * order.length + 8 + 2 * rank id
  else 4 * (position order id + 1) + 2

/-- What is always an operand is below all tasks, or right above its loop. -/
def operandLevel (c : HloComputation) (order : List HloInstruction) (rank : ℕ → ℕ)
    (i : HloInstruction) : ℕ :=
  match i.operands with
  | [] => 0
  | o :: _ =>
    if (c.instruction o).any HloInstruction.isParameter then 1 else level c order rank o + 1

def groupedRank (config : Config) (c : HloComputation) (order : List HloInstruction)
    (rank : ℕ → ℕ) (id : ℕ) : ℕ :=
  match c.instruction id with
  | none => 0
  | some i =>
    if id ≠ c.root ∧ isAlwaysTaskOperand config c i = ok true then operandLevel c order rank i
    else level c order rank id

/-- The call of a task is right below its first instruction. -/
def callRank (first : ℕ) : ℕ := 4 * (first + 1)

section rank

variable {config : Config} {properties : Properties} {c : HloComputation}
  {order : List HloInstruction} {rank : ℕ → ℕ} {i : HloInstruction}

theorem isAlwaysTaskOperand_cases (hc : Groupable config properties c) (hdag : Dag c rank)
    (hi : i ∈ c.instructions) (h : isAlwaysTaskOperand config c i = ok true) : i.operands = [] ∨
      ∃ o j, i.operands = [o] ∧ c.instruction o = some j ∧
        (isMicrobatchLoop config j = true ∨ j.isParameter = true) := by
  cases hgte : i.isGetTupleElement with
  | false => exact .inl (hc.leaves i hi h hgte)
  | true =>
    right
    obtain ⟨o, ho⟩ := hdag.elements i hi hgte
    unfold HloInstruction.isGetTupleElement at hgte
    unfold isAlwaysTaskOperand at h
    split at hgte
    · rename_i k hop
      rw [hop] at h
      obtain ⟨j, hj, h⟩ := bind_eq_ok.mp h
      obtain ⟨o', ho', hj⟩ := bind_eq_ok.mp hj
      rw [elementAt_eq_ok, ho] at ho'
      obtain rfl := Option.some.inj ho'
      exact ⟨o, j, ho, deref_eq_ok.mp hj, Bool.or_eq_true _ _ ▸ ok.inj h⟩
    · cases hgte

theorem isAlwaysTaskOperand_parameter (h : i.isParameter = true) :
    isAlwaysTaskOperand config c i = ok true := by
  unfold HloInstruction.isParameter at h
  split at h
  · rename_i n hop
    simp [isAlwaysTaskOperand, hop]
  · cases h

theorem isAlwaysTaskOperand_microbatchLoop (h : isMicrobatchLoop config i = true) :
    isAlwaysTaskOperand config c i = ok false := by
  unfold isMicrobatchLoop at h
  split at h
  · rename_i n hop
    simp [isAlwaysTaskOperand, hop]
  · cases h

theorem ne_root_of_operand (hc : Groupable config properties c) (hi : i ∈ c.instructions) {o : ℕ}
    (ho : o ∈ i.operands) : o ≠ c.root := by
  rintro rfl
  have huser : i ∈ c.users c.root := mem_users.mpr ⟨hi, ho⟩
  rw [hc.rootUsers] at huser
  cases huser

theorem groupedRank_parameter (hc : Groupable config properties c) (hi : c.instruction i.id = some i)
    (hroot : i.id ≠ c.root) (h : i.isParameter = true) :
    groupedRank config c order rank i.id = 0 := by
  have halways : isAlwaysTaskOperand config c i = ok true := isAlwaysTaskOperand_parameter h
  have hgte : i.isGetTupleElement = false := by
    unfold HloInstruction.isParameter at h
    unfold HloInstruction.isGetTupleElement
    split at h
    · rename_i n hop
      rw [hop]
    · cases h
  simp [groupedRank, hi, hroot, halways, operandLevel,
    hc.leaves i (mem_of_instruction hi) halways hgte]

theorem groupedRank_of_not_always (hi : c.instruction i.id = some i)
    (h : isAlwaysTaskOperand config c i ≠ ok true) :
    groupedRank config c order rank i.id = level c order rank i.id := by
  simp [groupedRank, hi, h]

theorem groupedRank_root (hi : c.instruction c.root = some i) :
    groupedRank config c order rank c.root = level c order rank c.root := by
  simp [groupedRank, hi]

theorem level_le (id : ℕ) : level c order rank id ≤ 4 * order.length + 8 + 2 * rank id := by
  unfold level
  split
  · exact le_refl _
  · rename_i hboth
    obtain ⟨j, hj, hid⟩ := List.mem_map.mp (not_not.mp (not_or.mp hboth).2)
    have hlast := position_lt hj
    rw [hid] at hlast
    omega

theorem le_level (id : ℕ) : 6 ≤ level c order rank id := by
  unfold level
  split <;> omega

/-- Operands are below an instruction with room for their elements. -/
theorem level_add_two_le (hc : Groupable config properties c) (hdag : Dag c rank)
    (horder : TaskOrder c order) {o : ℕ} (hi : i ∈ c.instructions) (ho : o ∈ i.operands) :
    level c order rank o + 2 ≤ level c order rank i.id := by
  have hrank := hdag.descends i hi o ho
  have hle : level c order rank o ≤ 4 * order.length + 8 + 2 * rank o := level_le o
  by_cases hboth : i.id = c.root ∨ i.id ∉ order.map HloInstruction.id
  · have hlevel : level c order rank i.id = 4 * order.length + 8 + 2 * rank i.id := if_pos hboth
    omega
  · have hlevel : level c order rank i.id = 4 * (position order i.id + 1) + 2 := if_neg hboth
    obtain ⟨j, hj, hid⟩ := List.mem_map.mp (not_not.mp (not_or.mp hboth).2)
    obtain rfl := List.inj_on_of_nodup_map hdag.nodup (mem_of_instruction (horder.mem j hj)) hi hid
    obtain ⟨k, hk, rfl, hlt⟩ := horder.before j hj o ho
    have hplace : ¬(k.id = c.root ∨ k.id ∉ order.map HloInstruction.id) := by
      rintro (hroot | hnot)
      · exact ne_root_of_operand hc hi ho hroot
      · exact hnot (List.mem_map_of_mem hk)
    have hoperand : level c order rank k.id = 4 * (position order k.id + 1) + 2 := if_neg hplace
    omega

/-- What is always an operand is below everything, or an element of a loop. -/
theorem groupedRank_always (hc : Groupable config properties c) (hdag : Dag c rank)
    (hi : c.instruction i.id = some i) (hroot : i.id ≠ c.root)
    (halways : isAlwaysTaskOperand config c i = ok true) :
    groupedRank config c order rank i.id ≤ 1 ∨ ∃ l, i.operands = [l.id] ∧
      c.instruction l.id = some l ∧ isMicrobatchLoop config l = true ∧
        groupedRank config c order rank i.id = level c order rank l.id + 1 := by
  have hrank : groupedRank config c order rank i.id = operandLevel c order rank i := by
    simp [groupedRank, hi, hroot, halways]
  rw [hrank]
  rcases isAlwaysTaskOperand_cases hc hdag (mem_of_instruction hi) halways with
    hnil | ⟨o, j, ho, hj, hkind⟩
  · simp [operandLevel, hnil]
  · obtain rfl := id_of_instruction hj
    cases hparameter : j.isParameter with
    | true => simp [operandLevel, ho, hj, hparameter]
    | false =>
      rw [hparameter] at hkind
      exact .inr ⟨j, ho, hj, hkind.resolve_right (by simp), by simp [operandLevel, ho, hj, hparameter]⟩

theorem ranked_groupedRank (hc : Groupable config properties c) (hdag : Dag c rank)
    (horder : TaskOrder c order) : Ranked (groupedRank config c order rank) c := by
  intro i hi o ho
  have hi' := instruction_of_mem hdag.nodup hi
  obtain ⟨j, hj, rfl⟩ := List.mem_map.mp (hdag.closed i hi o ho)
  have hj' := instruction_of_mem hdag.nodup hj
  have hroot := ne_root_of_operand hc hi ho
  have hlevel := level_add_two_le hc hdag horder hi ho
  have hoperand : groupedRank config c order rank j.id < level c order rank i.id := by
    by_cases halways : isAlwaysTaskOperand config c j = ok true
    · have hcases : groupedRank config c order rank j.id ≤ 1 ∨ ∃ l, j.operands = [l.id] ∧
          c.instruction l.id = some l ∧ isMicrobatchLoop config l = true ∧
            groupedRank config c order rank j.id = level c order rank l.id + 1 :=
        groupedRank_always hc hdag hj' hroot halways
      rcases hcases with hle | ⟨l, hl, -, -, heq⟩
      · have hhigh : 6 ≤ level c order rank i.id := le_level i.id
        omega
      · have hbelow := level_add_two_le hc hdag horder hj (hl ▸ List.mem_singleton_self l.id)
        omega
    · rw [groupedRank_of_not_always hj' halways]
      omega
  by_cases halways : i.id ≠ c.root ∧ isAlwaysTaskOperand config c i = ok true
  · have hrank : groupedRank config c order rank i.id = operandLevel c order rank i := by
      simp only [groupedRank, hi']
      rw [if_pos halways]
    rw [hrank]
    rcases isAlwaysTaskOperand_cases hc hdag hi halways.2 with hnil | ⟨o, k, hoperands, hk, hkind⟩
    · rw [hnil] at ho
      cases ho
    · rw [hoperands, List.mem_singleton] at ho
      rw [← ho, hj'] at hk
      obtain rfl := Option.some.inj hk
      cases hparameter : j.isParameter with
      | true =>
        rw [groupedRank_parameter hc hj' hroot hparameter]
        simp [operandLevel, hoperands, ← ho, hj', hparameter]
      | false =>
        rw [hparameter] at hkind
        have hloop := isAlwaysTaskOperand_microbatchLoop (c := c) (hkind.resolve_right (by simp))
        rw [groupedRank_of_not_always hj' (by simp [hloop])]
        simp [operandLevel, hoperands, ← ho, hj', hparameter]
  · have hrank : groupedRank config c order rank i.id = level c order rank i.id := by
      simp only [groupedRank, hi']
      rw [if_neg halways]
    rw [hrank]
    exact hoperand

/-- What a task reads that is always an operand is below its call: a loop before the instruction
that reads it is before the whole task. -/
theorem groupedRank_lt_callRank (hc : Groupable config properties c) (hdag : Dag c rank)
    (horder : TaskOrder c order) {first w : ℕ} {j : HloInstruction}
    (hw : InTask config properties c order first w) (hi : c.instruction w = some i)
    (hj : j ∈ c.instructions) (hp : j.id ∈ i.operands)
    (halways : isAlwaysTaskOperand config c j = ok true) :
    groupedRank config c order rank j.id < callRank first := by
  have hroot := ne_root_of_operand hc (mem_of_instruction hi) hp
  have hcases : groupedRank config c order rank j.id ≤ 1 ∨ ∃ l, j.operands = [l.id] ∧
      c.instruction l.id = some l ∧ isMicrobatchLoop config l = true ∧
        groupedRank config c order rank j.id = level c order rank l.id + 1 :=
    groupedRank_always hc hdag (instruction_of_mem hdag.nodup hj) hroot halways
  unfold callRank
  rcases hcases with hle | ⟨l, hl, hl', hloop, heq⟩
  · omega
  · obtain ⟨i', hi', rfl, -, -⟩ := hw.instruction
    rw [horder.mem i' hi'] at hi
    obtain rfl := Option.some.inj hi
    obtain ⟨j', hj', hid, hltj⟩ := horder.before i' hi' j.id hp
    obtain rfl := List.inj_on_of_nodup_map hdag.nodup (mem_of_instruction (horder.mem j' hj')) hj hid
    have hread : l.id ∈ j'.operands := hl ▸ List.mem_singleton_self l.id
    obtain ⟨l', hl'', hid', hltl⟩ := horder.before j' hj' l.id hread
    obtain rfl : l' = l := List.inj_on_of_nodup_map hdag.nodup
      (mem_of_instruction (horder.mem l' hl'')) (mem_of_instruction hl') hid'
    have hbefore := hw.loops l' hl'' hloop (hltl.trans hltj)
    have hplace : ¬(l'.id = c.root ∨ l'.id ∉ order.map HloInstruction.id) := by
      rintro (h | h)
      · exact ne_root_of_operand hc hj hread h
      · exact h (List.mem_map_of_mem hl'')
    have hlevel : level c order rank l'.id = 4 * (position order l'.id + 1) + 2 := if_neg hplace
    omega

end rank

section calls

variable {V : Type}

/-- Calls of the computations from this number on have the results of these. -/
def Modeled (I : Interpretation V) (number : ℕ) (called : List HloComputation) : Prop :=
  ∀ (n : ℕ) (comp : HloComputation), number ≤ n → called[n]? = some comp → ∀ shape args v,
    comp.Runs I (argumentContext args) v → I.operation (.call n) shape args = some v

theorem Modeled.of_prefix {I : Interpretation V} {number : ℕ} {called called' : List HloComputation}
    (h : Modeled I number called') (hlater : called <+: called') : Modeled I number called := by
  intro n comp hle hcomp
  obtain ⟨rest, rfl⟩ := hlater
  apply h n comp hle
  rwa [List.getElem?_append_left (List.getElem?_eq_some_iff.mp hcomp).1]

/-- What stands for an instruction outside of its task: itself if it is always an operand, or an
output of one of the first calls. -/
inductive StandsFor (config : Config) (c : HloComputation) (order : List HloInstruction)
    (first : ℕ → ℕ) (val : ℕ → Value V) (rank : ℕ → ℕ) (ids : List ℕ) (count x y : ℕ) : Prop
  | itself {i : HloInstruction} (heq : y = x) (hi : i ∈ c.instructions) (hid : i.id = x)
      (halways : isAlwaysTaskOperand config c i = ok true)
  | output {k : ℕ} (hk : k < count) (hroot : TaskRoot config c order (first k) x)
      (hnew : y ∉ c.ids) (hin : y ∈ ids) (hval : val y = val x)
      (hrank : rank y = callRank (first k) + 1)

/-- The calls of the first tasks are there, beside the instructions of the computation. -/
structure Emitted (config : Config) (c : HloComputation) (order : List HloInstruction)
    (first : ℕ → ℕ) (I : Interpretation V) (ctx : Context V) (result : Value V)
    (val : ℕ → Value V) (rank : ℕ → ℕ) (count : ℕ) (st : Replacing) : Prop where
  evaluates : Evaluates I ctx val rank result st.computation
  fresh : ∀ id ∈ st.computation.ids, id < st.module.nextId
  original : c.instructions <+: st.computation.instructions
  added : ∀ j ∈ st.computation.instructions, j ∈ c.instructions ∨ ∀ i ∈ c.instructions,
    i.id ∈ j.operands → isAlwaysTaskOperand config c i = ok true
  clones : ∀ x y, st.gteRootClones x = some y →
    StandsFor config c order first val rank st.computation.ids count x y

variable {config : Config} {properties : Properties} {c : HloComputation}
  {order : List HloInstruction} {first : ℕ → ℕ} {I : Interpretation V} {ctx : Context V}
  {result : Value V} {val : ℕ → Value V} {rank height : ℕ → ℕ} {count : ℕ} {st st' : Replacing}

/-- What a call reads is there, below the call. -/
theorem Emitted.callOperand (hc : Groupable config properties c) (hdag : Dag c height)
    (horder : TaskOrder c order)
    (h : Emitted config c order first I ctx result val rank count st)
    (hsame : ∀ id ∈ c.ids, rank id = groupedRank config c order height id)
    (hincreasing : ∀ k < count, first k < first count) {w p q : ℕ} {i : HloInstruction}
    (hw : InTask config properties c order (first count) w) (hi : c.instruction w = some i)
    (hp : p ∈ i.operands) (hrun : ComputationGrouper.callOperand st p = ok q) :
    (q ∈ st.computation.ids ∧ rank q < callRank (first count)) ∧ val q = val p ∧
      ∀ j ∈ c.instructions, j.id = q → isAlwaysTaskOperand config c j = ok true := by
  obtain ⟨j, hj, rfl⟩ := List.mem_map.mp (hdag.closed i (mem_of_instruction hi) p hp)
  have hj' := instruction_of_mem hdag.nodup hj
  have hroot := ne_root_of_operand hc (mem_of_instruction hi) hp
  have hin : j.id ∈ st.computation.ids := List.mem_map_of_mem (h.original.subset hj)
  have hunique : ∀ j' ∈ c.instructions, j'.id = j.id → j' = j := fun j' hj' hid =>
    List.inj_on_of_nodup_map hdag.nodup hj' hj hid
  obtain ⟨k, hk, hrun⟩ := bind_eq_ok.mp hrun
  have hk : k = j := by
    rw [getInstruction, deref_eq_ok,
      instruction_of_mem h.evaluates.nodup (h.original.subset hj)] at hk
    exact (Option.some.inj hk).symm
  rw [hk] at hrun
  split at hrun
  · rename_i hparameter
    obtain rfl := ok.inj hrun
    refine ⟨⟨hin, ?_⟩, rfl, ?_⟩
    · rw [hsame j.id (List.mem_map_of_mem hj), groupedRank_parameter hc hj' hroot hparameter]
      exact Nat.succ_pos _
    · intro j' hj' hid
      rw [hunique j' hj' hid]
      exact isAlwaysTaskOperand_parameter hparameter
  · split at hrun
    · rename_i clone hclone
      obtain rfl := ok.inj hrun
      cases h.clones j.id clone hclone with
      | @itself j' heq hj' hid halways =>
        obtain rfl := hunique j' hj' hid
        rw [heq]
        refine ⟨⟨hin, ?_⟩, rfl, fun j' hj' hid => by rwa [hunique j' hj' hid]⟩
        rw [hsame j'.id (List.mem_map_of_mem hj)]
        exact groupedRank_lt_callRank hc hdag horder hw hi hj hp halways
      | @output k hk _ hnew hin hval hrank =>
        refine ⟨⟨hin, ?_⟩, hval, ?_⟩
        · have hless := hincreasing k hk
          rw [hrank]
          unfold callRank
          omega
        · intro j' hj' hid
          exact absurd (hid ▸ List.mem_map_of_mem hj') hnew
    · cases hrun

theorem StandsFor.mono {val' : ℕ → Value V} {rank' : ℕ → ℕ} {ids ids' : List ℕ} {count' x y : ℕ}
    (h : StandsFor config c order first val rank ids count x y) (hsub : c.ids ⊆ ids)
    (hids : ids ⊆ ids') (hval : ∀ id ∈ ids, val' id = val id)
    (hrank : ∀ id ∈ ids, rank' id = rank id) (hle : count ≤ count') :
    StandsFor config c order first val' rank' ids' count' x y := by
  cases h with
  | itself heq hi hid halways => exact .itself heq hi hid halways
  | output hk hroot hnew hin hvalue hlevel =>
    obtain ⟨i, hi, hid, -⟩ := hroot.instruction
    refine .output (hk.trans_le hle) hroot hnew (hids hin) ?_ ?_
    · rw [hval y hin, hval x (hsub (hid ▸ List.mem_map_of_mem hi)), hvalue]
    · rw [hrank y hin, hlevel]

theorem Emitted.subset (h : Emitted config c order first I ctx result val rank count st) :
    c.ids ⊆ st.computation.ids := by
  intro id hid
  obtain ⟨i, hi, rfl⟩ := List.mem_map.mp hid
  exact List.mem_map_of_mem (h.original.subset hi)

theorem Emitted.mono (h : Emitted config c order first I ctx result val rank count st) {count' : ℕ}
    (hle : count ≤ count') : Emitted config c order first I ctx result val rank count' st where
  evaluates := h.evaluates
  fresh := h.fresh
  original := h.original
  added := h.added
  clones x y hy := (h.clones x y hy).mono h.subset (List.Subset.refl _) (fun _ _ => rfl)
    (fun _ _ => rfl) hle

/-- An instruction is added that reads nothing of the computation but what is always an operand. -/
theorem Emitted.add (h : Emitted config c order first I ctx result val rank count st)
    {j : HloInstruction} {w : Value V} {r : ℕ}
    (hoperands : ∀ o ∈ j.operands, o ∈ st.computation.ids ∧ rank o < r)
    (happly : I.apply ctx { j with id := st.module.nextId } (j.operands.map val) = some w)
    (halways : ∀ i ∈ c.instructions, i.id ∈ j.operands → isAlwaysTaskOperand config c i = ok true) :
    Emitted config c order first I ctx result (Function.update val st.module.nextId w)
      (Function.update rank st.module.nextId r) count (addToComputation st j) := by
  have hnew : st.module.nextId ∉ st.computation.ids := fun hin => (h.fresh _ hin).false
  have hids : (addToComputation st j).computation.ids = st.computation.ids ++ [st.module.nextId] := by
    simp [addToComputation, ComputationFusion.append, ids]
  have hother : ∀ id ∈ st.computation.ids, id ≠ st.module.nextId :=
    fun id hid => (h.fresh id hid).ne
  have hevaluates :=
    h.evaluates.append (j := { j with id := st.module.nextId }) hnew hoperands happly
  refine ⟨hevaluates, ?_, ?_, ?_, ?_⟩
  · intro id hid
    rw [hids] at hid
    rcases List.mem_append.mp hid with hid | hid
    · exact (h.fresh id hid).trans (Nat.lt_succ_self _)
    · rw [List.mem_singleton.mp hid]
      exact Nat.lt_succ_self _
  · exact h.original.trans (List.prefix_append _ _)
  · intro k hk
    rcases List.mem_append.mp hk with hk | hk
    · exact h.added k hk
    · rw [List.mem_singleton.mp hk]
      exact .inr halways
  · intro x y hy
    rw [hids]
    exact (h.clones x y hy).mono h.subset (List.subset_append_left _ _)
      (fun id hid => Function.update_of_ne (hother id hid) _ _)
      (fun id hid => Function.update_of_ne (hother id hid) _ _) (le_refl _)

/-- The outputs of a call that has the values of the roots are being taken out. -/
structure Emitting (config : Config) (c : HloComputation) (order : List HloInstruction)
    (first : ℕ → ℕ) (I : Interpretation V) (ctx : Context V) (result : Value V)
    (val : ℕ → Value V) (rank : ℕ → ℕ) (count : ℕ) (roots : List ℕ) (call : ℕ) (st : Replacing) :
    Prop extends Emitted config c order first I ctx result val rank (count + 1) st where
  call_mem : call ∈ st.computation.ids
  call_new : call ∉ c.ids
  call_val : val call = .tuple (roots.map val)
  call_rank : rank call = callRank (first count)

/-- An edit leaves the values and ranks of the computation as they are. -/
def Agree (ids : List ℕ) (val val' : ℕ → Value V) (rank rank' : ℕ → ℕ) : Prop :=
  ∀ id ∈ ids, val' id = val id ∧ rank' id = rank id

/-- What the module knows of the ids that it has is kept. -/
structure Module.Extends (m m' : Module) : Prop where
  nextId : m.nextId ≤ m'.nextId
  properties : ∀ id < m.nextId, ∀ b, m.properties id = some b → m'.properties id = some b

theorem Module.Extends.trans {m m' m'' : Module} (h : m.Extends m') (h' : m'.Extends m'') :
    m.Extends m'' where
  nextId := h.nextId.trans h'.nextId
  properties id hlt b hb := h'.properties id (hlt.trans_le h.nextId) b (h.properties id hlt b hb)

theorem addOutput_module {call : ℕ} {d : BuildContext} {root : (ℕ × ℕ) × ℕ}
    (hrun : ComputationGrouper.addOutput d call st root = ok st') :
    st'.module.called = st.module.called ∧ st.module.Extends st'.module := by
  unfold ComputationGrouper.addOutput at hrun
  split at hrun
  · obtain rfl := ok.inj hrun
    exact ⟨rfl, le_refl _, fun _ _ _ hb => hb⟩
  · obtain ⟨matching, -, hrun⟩ := bind_eq_ok.mp hrun
    obtain rfl := ok.inj hrun
    refine ⟨rfl, Nat.le_succ _, ?_⟩
    intro id hlt b hb
    dsimp only
    rw [Function.update_of_ne hlt.ne]
    by_cases heq : id = root.1.1
    · rw [heq] at hb
      rw [heq, Function.update_self, hb, Option.getD_some]
    · rw [Function.update_of_ne heq]
      exact hb

theorem foldlM_addOutput_module {call : ℕ} {d : BuildContext} {roots : List ((ℕ × ℕ) × ℕ)}
    (hrun : roots.foldlM (ComputationGrouper.addOutput d call) st = ok st') :
    st'.module.called = st.module.called ∧ st.module.Extends st'.module := by
  apply foldlM_invariant (fun s => s.module.called = st.module.called ∧
    st.module.Extends s.module) hrun ⟨rfl, le_refl _, fun _ _ _ hb => hb⟩
  rintro root - s s' ⟨hcalled, hextends⟩ hstep
  obtain ⟨hcalled', hextends'⟩ := addOutput_module hstep
  exact ⟨hcalled'.trans hcalled, hextends.trans hextends'⟩

theorem Emitting.addOutput {roots : List ℕ} {call : ℕ} {d : BuildContext} {root : (ℕ × ℕ) × ℕ}
    (h : Emitting config c order first I ctx result val rank count roots call st)
    (hroots : ∀ r ∈ roots, TaskRoot config c order (first count) r)
    (hroot : roots[root.2]? = some root.1.1)
    (hrun : ComputationGrouper.addOutput d call st root = ok st') :
    ∃ val' rank', Agree c.ids val val' rank rank' ∧
      Emitting config c order first I ctx result val' rank' count roots call st' := by
  unfold ComputationGrouper.addOutput at hrun
  split at hrun
  · obtain rfl := ok.inj hrun
    exact ⟨val, rank, fun _ _ => ⟨rfl, rfl⟩, h⟩
  · obtain ⟨matching, -, hrun⟩ := bind_eq_ok.mp hrun
    obtain rfl := ok.inj hrun
    have hmem := List.mem_of_getElem? hroot
    obtain ⟨i, hi, hid, -⟩ := (hroots _ hmem).instruction
    have hin : root.1.1 ∈ st.computation.ids := h.subset (hid ▸ List.mem_map_of_mem hi)
    have hnew : st.module.nextId ∉ st.computation.ids := fun hin => (h.fresh _ hin).false
    have hother : ∀ {id : ℕ}, id ∈ st.computation.ids → id ≠ st.module.nextId := by
      rintro id hid rfl
      exact hnew hid
    have hadded := h.toEmitted.add
      (j := { id := 0, opcode := .getTupleElement root.2, operands := [call]
              shape := matching.shape, color := some d.color, sharding := matching.sharding })
      (w := val root.1.1) (r := callRank (first count) + 1)
      (by
        intro o ho
        rw [List.mem_singleton.mp ho, h.call_rank]
        exact ⟨h.call_mem, Nat.lt_succ_self _⟩)
      (by simp [Interpretation.apply, h.call_val, List.getElem?_map, hroot])
      (by
        intro i hi hread
        rw [List.mem_singleton] at hread
        exact absurd (hread ▸ List.mem_map_of_mem hi) h.call_new)
    have hids : (addToComputation st { id := 0, opcode := .getTupleElement root.2
                                       operands := [call], shape := matching.shape
                                       color := some d.color, sharding := matching.sharding }
        ).computation.ids = st.computation.ids ++ [st.module.nextId] := by
      simp [addToComputation, ComputationFusion.append, ids]
    refine ⟨_, _, ?_, ⟨⟨hadded.evaluates, hadded.fresh, hadded.original, hadded.added, ?_⟩, ?_,
      h.call_new, ?_, ?_⟩⟩
    · intro id hid
      exact ⟨Function.update_of_ne (hother (h.subset hid)) _ _,
        Function.update_of_ne (hother (h.subset hid)) _ _⟩
    · intro x y hy
      dsimp only at hy
      by_cases heq : x = root.1.1
      · rw [heq, Function.update_self] at hy
        obtain rfl := Option.some.inj hy
        refine .output (Nat.lt_succ_self count) (heq ▸ hroots _ hmem) (fun hc => hnew (h.subset hc))
          ?_ ?_ (Function.update_self ..)
        · rw [hids]
          exact List.mem_append_right _ (List.mem_singleton_self _)
        · rw [Function.update_self, heq, Function.update_of_ne (hother hin)]
      · rw [Function.update_of_ne heq] at hy
        exact hadded.clones x y hy
    · rw [hids]
      exact List.mem_append_left _ h.call_mem
    · rw [Function.update_of_ne (hother h.call_mem), h.call_val]
      congr 1
      apply List.map_congr_left
      intro r hr
      obtain ⟨i, hi, hid, -⟩ := (hroots r hr).instruction
      exact (Function.update_of_ne (hother (h.subset (hid ▸ List.mem_map_of_mem hi))) _ _).symm
    · rw [Function.update_of_ne (hother h.call_mem)]
      exact h.call_rank

/-- A task that has roots is called, and its outputs are taken out. -/
theorem replaceWithCall_eq_ok {d : BuildContext}
    (h : ComputationGrouper.replaceWithCall st d = ok st') :
    st' = st ∨ d.callInstruction = none ∧ ∃ clones task parameters,
      List.Forall₂ (fun r y => d.builder.cloneMap r = some y) d.roots clones ∧
      taskComputation { d.builder with nextId := st.module.nextId } clones = task ∧
      List.Forall₂ (fun p q => ComputationGrouper.callOperand st p = ok q) d.parameters parameters ∧
      (d.roots.zip clones).zipIdx.foldlM (ComputationGrouper.addOutput d (st.module.nextId + 1))
        (addToComputation (addEmbeddedComputation st task.1)
          (taskCall d st.module.called.length parameters task.2)) = ok st' := by
  unfold ComputationGrouper.replaceWithCall at h
  split at h
  · obtain rfl := ok.inj h
    exact .inl rfl
  · rename_i hneither
    rw [Bool.or_eq_true, not_or, Bool.not_eq_true, Option.isSome_eq_false_iff,
      Option.isNone_iff_eq_none] at hneither
    obtain ⟨clones, hclones, h⟩ := bind_eq_ok.mp h
    obtain ⟨parameters, hparameters, h⟩ := bind_eq_ok.mp h
    refine .inr ⟨hneither.1, clones, _, parameters, ?_, rfl, mapM_eq_ok.mp hparameters, h⟩
    apply (mapM_eq_ok.mp hclones).imp
    intro r y hy
    unfold rootClone at hy
    split at hy
    · rename_i clone hclone
      exact hclone.trans (congrArg some (ok.inj hy))
    · cases hy

theorem Emitted.replaceWithCall (hc : Groupable config properties c) (hdag : Dag c height)
    (horder : TaskOrder c order)
    (h : Emitted config c order first I ctx result val rank count st)
    (hsame : ∀ id ∈ c.ids, rank id = groupedRank config c order height id)
    (hincreasing : ∀ k < count, first k < first count) {d : BuildContext}
    (hbuilt : TaskBuilt config c d) (hbound : d.builder.nextId ≤ st.module.nextId)
    (hdfs : d.callInstruction = none →
      ∀ w ∈ d.instructionDfs, InTask config properties c order (first count) w)
    (hroots : d.callInstruction = none → ∀ r ∈ d.roots, TaskRoot config c order (first count) r)
    {number : ℕ} (hnumber : number ≤ st.module.called.length)
    (hmodeled : Modeled I number st'.module.called)
    (hrun : ComputationGrouper.replaceWithCall st d = ok st') :
    ∃ val' rank', Agree c.ids val val' rank rank' ∧
      Emitted config c order first I ctx result val' rank' (count + 1) st' := by
  rcases replaceWithCall_eq_ok hrun with rfl | ⟨hnone, clones, task, parameters, hclones, htask,
    hparameters, hfold⟩
  · exact ⟨val, rank, fun _ _ => ⟨rfl, rfl⟩, h.mono (Nat.le_succ count)⟩
  obtain ⟨⟨origin, hclonesOf⟩, hread⟩ := hbuilt
  have hcalled : st'.module.called = st.module.called ++ [task.1] :=
    (foldlM_addOutput_module hfold).1
  -- the operands of the call have the values of the parameters
  have hoperands : List.Forall₂ (fun p q => (q ∈ st.computation.ids ∧
      rank q < callRank (first count)) ∧ val q = val p ∧
        ∀ i ∈ c.instructions, i.id = q → isAlwaysTaskOperand config c i = ok true)
      d.parameters parameters := by
    apply (mem_of_forall₂ hparameters).imp
    rintro p q ⟨hp, hq⟩
    obtain ⟨w, hw, i, hi, hpi⟩ := hread p hp
    exact h.callOperand hc hdag horder hsame hincreasing (hdfs hnone w hw) hi hpi hq
  have hargs : parameters.map val = d.parameters.map val := by
    rw [← List.forall₂_eq_eq_eq, List.forall₂_map_left_iff, List.forall₂_map_right_iff]
    exact hoperands.flip.imp fun _ _ hq => hq.2.1
  have hvalued : Valued I ctx val c := fun j hj => h.evaluates.valued j (h.original.subset hj)
  have hcall : I.operation (.call st.module.called.length) task.2 (parameters.map val) =
      some (.tuple (d.roots.map val)) := by
    rw [hargs]
    apply hmodeled _ task.1 hnumber
    · rw [hcalled, List.getElem?_concat_length]
    · rw [← htask]
      exact (hclonesOf.setNextId hbound).runs hvalued hclones
  have hembedded : Emitted config c order first I ctx result val rank count
      (addEmbeddedComputation st task.1) :=
    ⟨h.evaluates, fun id hid => (h.fresh id hid).trans (Nat.lt_succ_self _), h.original, h.added,
      h.clones⟩
  have hadded := hembedded.add (j := taskCall d st.module.called.length parameters task.2)
    (w := .tuple (d.roots.map val)) (r := callRank (first count))
    (by
      intro o ho
      obtain ⟨p, -, hq, -⟩ := exists_of_mem_forall₂ hoperands.flip ho
      exact hq)
    hcall
    (by
      intro i hi hin
      obtain ⟨p, -, -, -, halways⟩ := exists_of_mem_forall₂ hoperands.flip hin
      exact halways i hi rfl)
  have hids : (addToComputation (addEmbeddedComputation st task.1)
      (taskCall d st.module.called.length parameters task.2)).computation.ids =
        st.computation.ids ++ [st.module.nextId + 1] := by
    simp [addToComputation, addEmbeddedComputation, ComputationFusion.append, ids]
  have hnew : ∀ id ∈ c.ids, id ≠ st.module.nextId + 1 := by
    intro id hid
    have hlt := h.fresh id (h.subset hid)
    omega
  have hrootIds : ∀ r ∈ d.roots, r ∈ c.ids := by
    intro r hr
    obtain ⟨i, hi, hid, -⟩ := (hroots hnone r hr).instruction
    exact hid ▸ List.mem_map_of_mem hi
  have hstart : ∃ val' rank', Agree c.ids val val' rank rank' ∧
      Emitting config c order first I ctx result val' rank' count d.roots (st.module.nextId + 1)
        (addToComputation (addEmbeddedComputation st task.1)
          (taskCall d st.module.called.length parameters task.2)) := by
    refine ⟨_, _, ?_, ⟨hadded.mono (Nat.le_succ count), ?_, ?_, ?_, ?_⟩⟩
    · intro id hid
      exact ⟨Function.update_of_ne (hnew id hid) _ _, Function.update_of_ne (hnew id hid) _ _⟩
    · rw [hids]
      exact List.mem_append_right _ (List.mem_singleton_self _)
    · exact fun hin => hnew _ hin rfl
    · have hmap : d.roots.map (Function.update val (st.module.nextId + 1)
          (.tuple (d.roots.map val))) = d.roots.map val :=
        List.map_congr_left fun r hr => Function.update_of_ne (hnew r (hrootIds r hr)) _ _
      exact (Function.update_self ..).trans (congrArg Value.tuple hmap.symm)
    · exact Function.update_self ..
  obtain ⟨val', rank', hagree, hemitting⟩ : ∃ val' rank', Agree c.ids val val' rank rank' ∧
      Emitting config c order first I ctx result val' rank' count d.roots (st.module.nextId + 1) st' := by
    apply foldlM_invariant (fun s => ∃ val' rank', Agree c.ids val val' rank rank' ∧
      Emitting config c order first I ctx result val' rank' count d.roots (st.module.nextId + 1) s)
      hfold hstart
    rintro root hroot s s' ⟨val₁, rank₁, hagree₁, hs⟩ hstep
    have hpair := List.mem_zipIdx_iff_getElem?.mp hroot
    obtain ⟨hget, -⟩ := List.getElem?_zip_eq_some.mp hpair
    obtain ⟨val₂, rank₂, hagree₂, hs'⟩ := hs.addOutput (hroots hnone) hget hstep
    refine ⟨val₂, rank₂, ?_, hs'⟩
    intro id hid
    exact ⟨(hagree₂ id hid).1.trans (hagree₁ id hid).1, (hagree₂ id hid).2.trans (hagree₁ id hid).2⟩
  exact ⟨val', rank', hagree, hemitting.toEmitted⟩

/-- All calls in a computation are of computations from this number on. -/
def CallsFrom (number : ℕ) (c : HloComputation) : Prop :=
  ∀ j ∈ c.instructions, ∀ n, j.opcode = .call n → number ≤ n

theorem CallsFrom.addToComputation {number : ℕ} (h : CallsFrom number st.computation)
    {j : HloInstruction} (hj : ∀ n, j.opcode = .call n → number ≤ n) :
    CallsFrom number (addToComputation st j).computation := by
  intro k hk n hop
  rcases List.mem_append.mp hk with hk | hk
  · exact h k hk n hop
  · rw [List.mem_singleton.mp hk] at hop
    exact hj n hop

theorem CallsFrom.addOutput {number call : ℕ} {d : BuildContext} {root : (ℕ × ℕ) × ℕ}
    (h : CallsFrom number st.computation)
    (hrun : ComputationGrouper.addOutput d call st root = ok st') :
    CallsFrom number st'.computation := by
  unfold ComputationGrouper.addOutput at hrun
  split at hrun
  · obtain rfl := ok.inj hrun
    exact h
  · obtain ⟨matching, -, hrun⟩ := bind_eq_ok.mp hrun
    obtain rfl := ok.inj hrun
    apply h.addToComputation
    intro n hop
    cases hop

/-- What a step does to the module: tasks are added, and nothing is forgotten. -/
structure AddsTasks (number : ℕ) (st st' : Replacing) : Prop where
  module : st.module.Extends st'.module
  called : ∃ tasks, st'.module.called = st.module.called ++ tasks ∧ ∀ task ∈ tasks, task.ids.Nodup
  calls : CallsFrom number st.computation → CallsFrom number st'.computation

theorem AddsTasks.refl (number : ℕ) (st : Replacing) : AddsTasks number st st where
  module := ⟨le_refl _, fun _ _ _ hb => hb⟩
  called := ⟨[], (List.append_nil _).symm, by simp⟩
  calls h := h

theorem AddsTasks.trans {number : ℕ} {st'' : Replacing} (h : AddsTasks number st st')
    (h' : AddsTasks number st' st'') : AddsTasks number st st'' where
  module := h.module.trans h'.module
  called := by
    obtain ⟨tasks, hcalled, hnodup⟩ := h.called
    obtain ⟨tasks', hcalled', hnodup'⟩ := h'.called
    refine ⟨tasks ++ tasks', by rw [hcalled', hcalled, List.append_assoc], ?_⟩
    intro task htask
    exact (List.mem_append.mp htask).elim (hnodup task) (hnodup' task)
  calls hcalls := h'.calls (h.calls hcalls)

theorem addsTasks_replaceWithCall {number : ℕ} {d : BuildContext} (hbuilt : TaskBuilt config c d)
    (hbound : d.builder.nextId ≤ st.module.nextId) (hnumber : number ≤ st.module.called.length)
    (hrun : ComputationGrouper.replaceWithCall st d = ok st') : AddsTasks number st st' := by
  rcases replaceWithCall_eq_ok hrun with rfl | ⟨-, clones, task, parameters, -, htask, -, hfold⟩
  · exact .refl number _
  · obtain ⟨⟨origin, hclones⟩, -⟩ := hbuilt
    obtain ⟨hcalled, hextends⟩ := foldlM_addOutput_module hfold
    refine ⟨⟨?_, ?_⟩, ⟨[task.1], hcalled, ?_⟩, ?_⟩
    · exact (Nat.le_add_right _ 2).trans hextends.nextId
    · intro id hlt b hb
      exact hextends.properties id (hlt.trans (by simp [addToComputation, addEmbeddedComputation])) b hb
    · intro t ht
      rw [List.mem_singleton.mp ht, ← htask]
      exact (hclones.setNextId hbound).nodup_taskComputation clones
    · intro hcalls
      apply foldlM_invariant (fun s : Replacing => CallsFrom number s.computation) hfold
      · have hembedded : CallsFrom number (addEmbeddedComputation st task.1).computation := hcalls
        apply hembedded.addToComputation
        intro n hop
        obtain rfl := HloOpcode.call.inj hop
        exact hnumber
      · intro root _ s s' hs hstep
        exact hs.addOutput hstep

variable {assignments : ℕ → Option ℕ} {calls : List (Option ℕ)} {builders : List BuildContext}

/-- All tasks are added, after those that the module has. -/
theorem addsTasks_foldlM {number nextId : ℕ}
    (hbuilt : Built config properties c order first assignments calls nextId builders)
    (hnextId : nextId ≤ st.module.nextId) (hnumber : number ≤ st.module.called.length)
    (hrun : builders.foldlM ComputationGrouper.replaceWithCall st = ok st') :
    AddsTasks number st st' := by
  apply foldlM_invariant (AddsTasks number st) hrun (.refl number st)
  intro d hd s s' hs hstep
  have hbound := (hbuilt.bound d hd).trans (hnextId.trans hs.module.nextId)
  apply hs.trans (addsTasks_replaceWithCall (hbuilt.built d hd) hbound _ hstep)
  obtain ⟨tasks, hcalled, -⟩ := hs.called
  rw [hcalled, List.length_append]
  omega

/-- All calls are emitted. -/
theorem Emitted.foldlM (hc : Groupable config properties c) (hdag : Dag c height)
    (horder : TaskOrder c order) {number nextId : ℕ}
    (hbuilt : Built config properties c order first assignments calls nextId builders)
    (hincreasing : ∀ k k', k < k' → k' < builders.length → first k < first k')
    (hnextId : nextId ≤ st.module.nextId) (hnumber : number ≤ st.module.called.length)
    (h : Emitted config c order first I ctx result val rank 0 st)
    (hsame : ∀ id ∈ c.ids, rank id = groupedRank config c order height id)
    (hrun : builders.foldlM ComputationGrouper.replaceWithCall st = ok st')
    (hmodeled : Modeled I number st'.module.called) :
    ∃ val' rank', Agree c.ids val val' rank rank' ∧
      Emitted config c order first I ctx result val' rank' builders.length st' := by
  obtain ⟨-, hall⟩ : AddsTasks number st st' ∧ (Modeled I number st'.module.called →
      ∃ val' rank', Agree c.ids val val' rank rank' ∧
        Emitted config c order first I ctx result val' rank' builders.length st') := by
    apply foldlM_prefix (fun done s => AddsTasks number st s ∧ (Modeled I number s.module.called →
      ∃ val' rank', Agree c.ids val val' rank rank' ∧
        Emitted config c order first I ctx result val' rank' done.length s)) hrun
    · exact ⟨.refl number st, fun _ => ⟨val, rank, fun _ _ => ⟨rfl, rfl⟩, h⟩⟩
    · rintro done d ⟨rest, hsplit⟩ s s' ⟨hs, hemitted⟩ hstep
      have hd : builders[done.length]? = some d := by
        rw [← hsplit, List.append_assoc, List.getElem?_append_right (le_refl _), Nat.sub_self]
        rfl
      have hmem := List.mem_of_getElem? hd
      have hbound := (hbuilt.bound d hmem).trans (hnextId.trans hs.module.nextId)
      have hnumber' : number ≤ s.module.called.length := by
        obtain ⟨tasks, hcalled, -⟩ := hs.called
        rw [hcalled, List.length_append]
        omega
      have hadds : AddsTasks number s s' :=
        addsTasks_replaceWithCall (hbuilt.built d hmem) hbound hnumber' hstep
      refine ⟨hs.trans hadds, ?_⟩
      intro hmodeled'
      obtain ⟨tasks, hcalled, -⟩ := hadds.called
      obtain ⟨val₁, rank₁, hagree₁, h₁⟩ :=
        hemitted (hmodeled'.of_prefix (hcalled ▸ List.prefix_append _ _))
      have hless : ∀ k < done.length, first k < first done.length := fun k hk =>
        hincreasing k done.length hk (List.getElem?_eq_some_iff.mp hd).1
      obtain ⟨val₂, rank₂, hagree₂, h₂⟩ := h₁.replaceWithCall hc hdag horder
        (fun id hid => (hagree₁ id hid).2.trans (hsame id hid)) hless (hbuilt.built d hmem) hbound
        (hbuilt.tasks.dfs _ d hd) (hbuilt.tasks.roots _ d hd) hnumber' hmodeled' hstep
      refine ⟨val₂, rank₂, ?_, ?_⟩
      · intro id hid
        exact ⟨(hagree₂ id hid).1.trans (hagree₁ id hid).1,
          (hagree₂ id hid).2.trans (hagree₁ id hid).2⟩
      · rw [List.length_append, List.length_singleton]
        exact h₂
  exact hall hmodeled

end calls

end ComputationGrouper
end MultiMeshJax
