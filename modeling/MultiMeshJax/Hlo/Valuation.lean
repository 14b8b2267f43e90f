import MultiMeshJax.Foundation.Related
import MultiMeshJax.Hlo.Removal
import MultiMeshJax.Hlo.Semantics

/-! Computations that run, which is to say that all of their instructions have values: the values
are those that agree with each other, and edits are checked against them. -/
namespace MultiMeshJax
namespace HloComputation

/-- Each instruction and the root is there once. -/
structure Closed (c : HloComputation) : Prop where
  nodup : c.ids.Nodup
  root : c.root ∈ c.ids
  closed : ∀ j ∈ c.instructions, ∀ o ∈ j.operands, o ∈ c.ids

/-- Operands are below their users. -/
def Ranked (rank : ℕ → ℕ) (c : HloComputation) : Prop :=
  ∀ j ∈ c.instructions, ∀ o ∈ j.operands, rank o < rank j.id

/-- The operands are there, and nothing is computed from itself. -/
structure WellFormed (c : HloComputation) : Prop extends Closed c where
  acyclic : ∃ rank : ℕ → ℕ, Ranked rank c

section

variable {V : Type} {I I' : Interpretation V} {ctx : Context V} {c c' : HloComputation}

/-- The result of a computation all of whose instructions have values. -/
def run (I : Interpretation V) (ctx : Context V) (c : HloComputation) (depth : ℕ) :
    Option (Value V) :=
  if c.instructions.all fun i => (c.eval I ctx depth i.id).isSome then c.eval I ctx depth c.root
  else none

def Runs (I : Interpretation V) (ctx : Context V) (c : HloComputation) (v : Value V) : Prop :=
  ∃ depth, c.run I ctx depth = some v

theorem run_eq_some {depth : ℕ} {v : Value V} : c.run I ctx depth = some v ↔
    (∀ i ∈ c.instructions, ∃ w, c.eval I ctx depth i.id = some w) ∧
      c.eval I ctx depth c.root = some v := by
  unfold run
  split
  · rename_i hall
    rw [List.all_eq_true] at hall
    constructor
    · intro h
      exact ⟨fun i hi => Option.isSome_iff_exists.mp (hall i hi), h⟩
    · exact And.right
  · rename_i hnot
    constructor
    · intro h
      cases h
    · intro h
      apply absurd _ hnot
      rw [List.all_eq_true]
      intro i hi
      exact Option.isSome_iff_exists.mpr (h.1 i hi)

theorem run_mono {depth depth' : ℕ} {v : Value V} (hle : depth ≤ depth')
    (h : c.run I ctx depth = some v) : c.run I ctx depth' = some v := by
  rw [run_eq_some] at h ⊢
  exact ⟨fun i hi => (h.1 i hi).imp fun w hw => eval_mono hle hw, eval_mono hle h.2⟩

theorem runs_iff {v : Value V} : c.Runs I ctx v ↔
    (∀ i ∈ c.instructions, ∃ w, c.Computes I ctx i.id w) ∧ c.Computes I ctx c.root v := by
  constructor
  · rintro ⟨depth, h⟩
    obtain ⟨hall, hroot⟩ := run_eq_some.mp h
    exact ⟨fun i hi => (hall i hi).imp fun w hw => ⟨depth, hw⟩, depth, hroot⟩
  · rintro ⟨hall, d, hroot⟩
    obtain ⟨depth, hdepth⟩ : ∃ depth, ∀ i ∈ c.instructions, ∃ w,
        c.eval I ctx depth i.id = some w := by
      generalize c.instructions = is at hall
      induction is with
      | nil => exact ⟨0, fun i hi => by cases hi⟩
      | cons i is ih =>
        obtain ⟨w, d, hw⟩ := hall i (List.mem_cons_self ..)
        obtain ⟨d', hd'⟩ := ih fun j hj => hall j (List.mem_cons_of_mem i hj)
        refine ⟨max d d', ?_⟩
        intro j hj
        rcases List.mem_cons.mp hj with rfl | hj
        · exact ⟨w, eval_mono (le_max_left d d') hw⟩
        · exact (hd' j hj).imp fun w hw => eval_mono (le_max_right d d') hw
    refine ⟨max d depth, run_eq_some.mpr ⟨?_, eval_mono (le_max_left d depth) hroot⟩⟩
    intro i hi
    exact (hdepth i hi).imp fun w hw => eval_mono (le_max_right d depth) hw

/-- Every instruction has the value that it makes of those of its operands. -/
def Valued (I : Interpretation V) (ctx : Context V) (val : ℕ → Value V) (c : HloComputation) :
    Prop :=
  ∀ j ∈ c.instructions, I.apply ctx j (j.operands.map val) = some (val j.id)

theorem forall₂_map_of {R : ℕ → Value V → Prop} {val : ℕ → Value V} {ids : List ℕ}
    (h : ∀ id ∈ ids, R id (val id)) : List.Forall₂ R ids (ids.map val) := by
  rw [List.forall₂_map_right_iff]
  exact List.forall₂_same.mpr h

/-- The values of a computation that runs. -/
theorem Closed.exists_valued (hc : Closed c) {v : Value V} (h : c.Runs I ctx v) :
    ∃ val : ℕ → Value V, Valued I ctx val c ∧ val c.root = v := by
  classical
  obtain ⟨hall, hroot⟩ := runs_iff.mp h
  have hex : ∀ id ∈ c.ids, ∃ w, c.Computes I ctx id w := by
    intro id hid
    obtain ⟨i, hi, rfl⟩ := List.mem_map.mp hid
    exact hall i hi
  let val : ℕ → Value V := fun id =>
    if h : ∃ w, c.Computes I ctx id w then h.choose else .tuple []
  have hval : ∀ id ∈ c.ids, c.Computes I ctx id (val id) := by
    intro id hid
    have h := hex id hid
    change c.Computes I ctx id (if h : ∃ w, c.Computes I ctx id w then h.choose else .tuple [])
    rw [dif_pos h]
    exact h.choose_spec
  refine ⟨val, ?_, (hval c.root hc.root).unique hroot⟩
  intro j hj
  obtain ⟨i, args, hi, hargs, happly⟩ := (hval j.id (List.mem_map_of_mem hj)).cases
  rw [instruction_of_mem hc.nodup hj] at hi
  obtain rfl := Option.some.inj hi
  have hsame : args = j.operands.map val := by
    have hcomputes : List.Forall₂ (c.Computes I ctx) j.operands (j.operands.map val) :=
      forall₂_map_of fun o ho => hval o (hc.closed j hj o ho)
    clear happly hi
    generalize j.operands = operands at hargs hcomputes ⊢
    generalize operands.map val = values at hcomputes ⊢
    induction hargs generalizing values with
    | nil =>
      cases hcomputes
      rfl
    | cons ho _ ih =>
      cases hcomputes with
      | cons ho' hrest => rw [ho.unique ho', ih _ hrest]
  rwa [hsame] at happly

/-- Values that agree with each other are those of a computation without cycles. -/
theorem WellFormed.computes (hc : WellFormed c) {val : ℕ → Value V} (h : Valued I ctx val c)
    {id : ℕ} (hid : id ∈ c.ids) : c.Computes I ctx id (val id) := by
  obtain ⟨rank, hrank⟩ := hc.acyclic
  induction hn : rank id using Nat.strong_induction_on generalizing id with
  | _ n ih =>
    obtain ⟨j, hj, rfl⟩ := List.mem_map.mp hid
    refine .of_operands (instruction_of_mem hc.nodup hj) (forall₂_map_of ?_) (h j hj)
    intro o ho
    exact ih (rank o) (hn ▸ hrank j hj o ho) (hc.closed j hj o ho) rfl

theorem WellFormed.runs (hc : WellFormed c) {val : ℕ → Value V} (h : Valued I ctx val c) :
    c.Runs I ctx (val c.root) :=
  runs_iff.mpr ⟨fun _ hi => ⟨_, hc.computes h (List.mem_map_of_mem hi)⟩, hc.computes h hc.root⟩

/-- A computation that is being edited, with its result: the values agree, and the ranks fall. -/
structure Evaluates (I : Interpretation V) (ctx : Context V) (val : ℕ → Value V) (rank : ℕ → ℕ)
    (result : Value V) (c : HloComputation) : Prop extends Closed c where
  valued : Valued I ctx val c
  ranked : Ranked rank c
  result : val c.root = result

variable {val val' : ℕ → Value V} {rank rank' : ℕ → ℕ} {result : Value V}

theorem Evaluates.runs (h : Evaluates I ctx val rank result c) : c.Runs I ctx result := by
  have hwf : WellFormed c := ⟨h.toClosed, rank, h.ranked⟩
  rw [← h.result]
  exact hwf.runs h.valued

/-- What has a value has one to a least depth, which is above those of its operands. -/
theorem Evaluates.of_runs {v : Value V} (hnodup : c.ids.Nodup) (h : c.Runs I ctx v) :
    ∃ val rank, Evaluates I ctx val rank v c := by
  classical
  obtain ⟨hall, hroot⟩ := runs_iff.mp h
  have hids : ∀ {id : ℕ} {w : Value V}, c.Computes I ctx id w → id ∈ c.ids := by
    intro id w hw
    obtain ⟨i, args, hi, -, -⟩ := hw.cases
    exact mem_ids_of_instruction hi
  have hoperands : ∀ j ∈ c.instructions, ∀ depth w, c.eval I ctx (depth + 1) j.id = some w →
      ∀ o ∈ j.operands, ∃ w, c.eval I ctx depth o = some w := by
    intro j hj depth w hw o ho
    obtain ⟨i, args, hi, hargs, -⟩ := eval_succ.mp hw
    rw [instruction_of_mem hnodup hj] at hi
    obtain rfl := Option.some.inj hi
    obtain ⟨a, -, ha⟩ := exists_of_mem_forall₂ hargs ho
    exact ⟨a, ha⟩
  have hclosed : Closed c := by
    refine ⟨hnodup, hids hroot, ?_⟩
    intro j hj o ho
    obtain ⟨w, depth, hw⟩ := hall j hj
    obtain ⟨a, ha⟩ := hoperands j hj depth w (eval_mono (Nat.le_succ depth) hw) o ho
    exact hids ⟨depth, ha⟩
  obtain ⟨val, hvalued, hresult⟩ := hclosed.exists_valued h
  let rank : ℕ → ℕ := fun id =>
    if h : ∃ depth, ∃ w, c.eval I ctx depth id = some w then Nat.find h else 0
  have hrank : ∀ {id depth : ℕ} {w : Value V}, c.eval I ctx depth id = some w →
      rank id ≤ depth := by
    intro id depth w hw
    have hex : ∃ depth, ∃ w, c.eval I ctx depth id = some w := ⟨depth, w, hw⟩
    change (if h : ∃ depth, ∃ w, c.eval I ctx depth id = some w then Nat.find h else 0) ≤ depth
    rw [dif_pos hex]
    exact Nat.find_min' hex ⟨w, hw⟩
  refine ⟨val, rank, hclosed, hvalued, ?_, hresult⟩
  intro j hj o ho
  obtain ⟨w, depth, hw⟩ := hall j hj
  have hex : ∃ depth, ∃ w, c.eval I ctx depth j.id = some w := ⟨depth, w, hw⟩
  change rank o < if h : ∃ depth, ∃ w, c.eval I ctx depth j.id = some w then Nat.find h else 0
  rw [dif_pos hex]
  obtain ⟨w, hfirst⟩ := Nat.find_spec hex
  cases hn : Nat.find hex with
  | zero =>
    rw [hn] at hfirst
    cases hfirst
  | succ n =>
    rw [hn] at hfirst
    obtain ⟨a, ha⟩ := hoperands j hj n w hfirst o ho
    exact Nat.lt_succ_of_le (hrank ha)

/-- Only the values and ranks of what is there matter. -/
theorem Evaluates.congr (h : Evaluates I ctx val rank result c)
    (hval : ∀ id ∈ c.ids, val' id = val id) (hrank : ∀ id ∈ c.ids, rank' id = rank id) :
    Evaluates I ctx val' rank' result c := by
  refine ⟨h.toClosed, ?_, ?_, ?_⟩
  · intro j hj
    have hmap : j.operands.map val' = j.operands.map val :=
      List.map_congr_left fun o ho => hval o (h.closed j hj o ho)
    rw [hmap, hval j.id (List.mem_map_of_mem hj)]
    exact h.valued j hj
  · intro j hj o ho
    rw [hrank o (h.closed j hj o ho), hrank j.id (List.mem_map_of_mem hj)]
    exact h.ranked j hj o ho
  · rw [hval c.root h.root]
    exact h.result

/-- An instruction is added at the end, with its value and a rank above its operands. -/
theorem Evaluates.append (h : Evaluates I ctx val rank result c) {j : HloInstruction} {w : Value V}
    {r : ℕ} (hnew : j.id ∉ c.ids) (hoperands : ∀ o ∈ j.operands, o ∈ c.ids ∧ rank o < r)
    (happly : I.apply ctx j (j.operands.map val) = some w) :
    Evaluates I ctx (Function.update val j.id w) (Function.update rank j.id r) result
      { c with instructions := c.instructions ++ [j] } := by
  have hids : ids { c with instructions := c.instructions ++ [j] } = c.ids ++ [j.id] := by
    simp [ids]
  have hother : ∀ id ∈ c.ids, id ≠ j.id := fun id hid heq => hnew (heq ▸ hid)
  have hold : Evaluates I ctx (Function.update val j.id w) (Function.update rank j.id r) result c :=
    h.congr (fun id hid => Function.update_of_ne (hother id hid) _ _)
      fun id hid => Function.update_of_ne (hother id hid) _ _
  refine ⟨⟨?_, ?_, ?_⟩, ?_, ?_, hold.result⟩
  · rw [hids, List.nodup_append]
    refine ⟨h.nodup, by simp, ?_⟩
    intro a ha b hb heq
    rw [List.mem_singleton.mp hb] at heq
    exact hother a ha heq
  · rw [hids]
    exact List.mem_append_left _ h.root
  · intro k hk o ho
    rw [hids]
    apply List.mem_append_left
    rcases List.mem_append.mp hk with hk | hk
    · exact h.closed k hk o ho
    · rw [List.mem_singleton.mp hk] at ho
      exact (hoperands o ho).1
  · intro k hk
    rcases List.mem_append.mp hk with hk | hk
    · exact hold.valued k hk
    · have hmap : j.operands.map (Function.update val j.id w) = j.operands.map val :=
        List.map_congr_left fun o ho => Function.update_of_ne (hother o (hoperands o ho).1) _ _
      rw [List.mem_singleton.mp hk, hmap, Function.update_self]
      exact happly
  · intro k hk o ho
    rcases List.mem_append.mp hk with hk | hk
    · exact hold.ranked k hk o ho
    · rw [List.mem_singleton.mp hk] at ho ⊢
      obtain ⟨hin, hlt⟩ := hoperands o ho
      rw [Function.update_self, Function.update_of_ne (hother o hin)]
      exact hlt

theorem ids_replaceUses (old new : ℕ) : (c.replaceUses old new).ids = c.ids :=
  ids_replaceAllUsesWith old new

/-- An instruction is replaced by one that has its value and is below its users. -/
theorem Evaluates.replaceUses (h : Evaluates I ctx val rank result c) {old new : ℕ}
    (hnew : new ∈ c.ids) (hval : val new = val old)
    (hrank : ∀ j ∈ c.instructions, old ∈ j.operands → rank new < rank j.id) :
    Evaluates I ctx val rank result (c.replaceUses old new) := by
  have hone : ∀ o, val (if o = old then new else o) = val o := by
    intro o
    split
    · rename_i heq
      rw [heq, hval]
    · rfl
  have hmap : ∀ os : List ℕ, (os.map fun o => if o = old then new else o).map val = os.map val := by
    intro os
    rw [List.map_map]
    exact List.map_congr_left fun o _ => hone o
  refine ⟨⟨?_, ?_, ?_⟩, ?_, ?_, ?_⟩
  · rw [ids_replaceUses]
    exact h.nodup
  · rw [ids_replaceUses]
    change (if c.root = old then new else c.root) ∈ c.ids
    split
    · exact hnew
    · exact h.root
  · intro k hk o ho
    rw [ids_replaceUses]
    obtain ⟨j, hj, rfl⟩ := List.mem_map.mp hk
    split at ho
    · exact h.closed j hj o ho
    · obtain ⟨o', ho', rfl⟩ := List.mem_map.mp ho
      split
      · exact hnew
      · exact h.closed j hj o' ho'
  · intro k hk
    obtain ⟨j, hj, rfl⟩ := List.mem_map.mp hk
    split
    · exact h.valued j hj
    · dsimp only
      rw [hmap]
      exact h.valued j hj
  · intro k hk o ho
    obtain ⟨j, hj, rfl⟩ := List.mem_map.mp hk
    split at ho
    · rename_i hid
      rw [if_pos hid]
      exact h.ranked j hj o ho
    · rename_i hid
      rw [if_neg hid]
      obtain ⟨o', ho', rfl⟩ := List.mem_map.mp ho
      split
      · rename_i heq
        exact hrank j hj (heq ▸ ho')
      · exact h.ranked j hj o' ho'
  · change val (if c.root = old then new else c.root) = result
    rw [hone]
    exact h.result

theorem Evaluates.removedFrom (h : Evaluates I ctx val rank result c) {Q : ℕ → Prop}
    (hremoved : RemovedFrom Q c c') : Evaluates I ctx val rank result c' where
  nodup := h.nodup.sublist (hremoved.sublist.map _)
  root := hremoved.root ▸ hremoved.root_kept h.root
  closed j hj o ho :=
    hremoved.closed j hj o ho (h.closed j (hremoved.sublist.subset hj) o ho)
  valued j hj := h.valued j (hremoved.sublist.subset hj)
  ranked j hj := h.ranked j (hremoved.sublist.subset hj)
  result := hremoved.root ▸ h.result

theorem Evaluates.removeInstruction (h : Evaluates I ctx val rank result c) {id : ℕ}
    (hunused : c.users id = []) (hroot : id ≠ c.root) :
    Evaluates I ctx val rank result (c.removeInstruction id) := by
  have hmem : ∀ o ∈ c.ids, o ≠ id → o ∈ (c.removeInstruction id).ids := by
    intro o ho hne
    obtain ⟨j, hj, rfl⟩ := List.mem_map.mp ho
    exact List.mem_map_of_mem (mem_removeInstruction.mpr ⟨hj, hne⟩)
  have hsub : ∀ j ∈ (c.removeInstruction id).instructions, j ∈ c.instructions :=
    fun j hj => (mem_removeInstruction.mp hj).1
  refine ⟨⟨h.nodup.sublist (List.filter_sublist.map _), hmem c.root h.root hroot.symm, ?_⟩,
    fun j hj => h.valued j (hsub j hj), fun j hj => h.ranked j (hsub j hj), h.result⟩
  intro j hj o ho
  apply hmem o (h.closed j (hsub j hj) o ho)
  rintro rfl
  have huser : j ∈ c.users o := mem_users.mpr ⟨hsub j hj, ho⟩
  rw [hunused] at huser
  cases huser

theorem Evaluates.tryRemoveInstruction (h : Evaluates I ctx val rank result c) {i : HloInstruction}
    (hrun : c.tryRemoveInstruction i = .ok c') : Evaluates I ctx val rank result c' := by
  obtain ⟨⟨hunused, hroot, -⟩, rfl⟩ := tryRemoveInstruction_eq_ok.mp hrun
  exact h.removeInstruction hunused hroot

/-- What an instruction does not compute with may change. -/
theorem Evaluates.mapInstructions (h : Evaluates I ctx val rank result c)
    {f : HloInstruction → HloInstruction} (hf : ∀ j, (f j).id = j.id ∧ (f j).opcode = j.opcode ∧
      (f j).operands = j.operands ∧ (f j).shape = j.shape ∧ (f j).offset = j.offset) :
    Evaluates I ctx val rank result (c.mapInstructions f) := by
  have hids : (c.mapInstructions f).ids = c.ids := ids_mapInstructions fun j => (hf j).1
  refine ⟨⟨?_, ?_, ?_⟩, ?_, ?_, h.result⟩
  · rw [hids]
    exact h.nodup
  · rw [hids]
    exact h.root
  · intro k hk o ho
    obtain ⟨j, hj, rfl⟩ := List.mem_map.mp hk
    rw [hids]
    rw [(hf j).2.2.1] at ho
    exact h.closed j hj o ho
  · intro k hk
    obtain ⟨j, hj, rfl⟩ := List.mem_map.mp hk
    obtain ⟨hid, hopcode, hoperands, hshape, hoffset⟩ := hf j
    have happly := h.valued j hj
    unfold Interpretation.apply at happly ⊢
    rw [hid, hopcode, hoperands, hshape, hoffset]
    exact happly
  · intro k hk o ho
    obtain ⟨j, hj, rfl⟩ := List.mem_map.mp hk
    rw [(hf j).2.2.1] at ho
    rw [(hf j).1]
    exact h.ranked j hj o ho

end

end HloComputation
end MultiMeshJax
