import MultiMeshJax.ColorDfs.Topological
import MultiMeshJax.ComputationGrouper.Pass

/-! Which instructions are put into a task, and where they are in the order of the traversal. -/
namespace MultiMeshJax
namespace ComputationGrouper

open StatusOr PostorderSearch HloComputation
open ColorDfs (Dag OnlyElements colorSortedPostorder)

/-- What the computations are like: the loops that are taken out, and the custom calls that have
elements, are only read by elements, nothing is a call yet, and a part of the root that is computed
more than once is not read by anything else. -/
structure Groupable (config : Config) (properties : Properties) (c : HloComputation) : Prop where
  acyclic : ∃ rank, Dag c rank
  elements : OnlyElements c
  loopUsers : ∀ l ∈ c.instructions, isMicrobatchLoop config l = true →
    ∀ u ∈ c.users l.id, u.isGetTupleElement = true
  leaves : ∀ i ∈ c.instructions, isAlwaysTaskOperand config c i = ok true →
    i.isGetTupleElement = false → i.operands = []
  noCalls : ∀ i ∈ c.instructions, i.isCall = false
  rootUsers : c.users c.root = []
  rootElements : ∀ i ∈ c.instructions, isRoot c i = ok true →
    includeIndirectlyInBuilder config properties c i = ok false ∨ ∀ u ∈ c.users i.id, u.id = c.root

/-- The place of an instruction in the order. -/
def position (order : List HloInstruction) (id : ℕ) : ℕ := (order.map HloInstruction.id).idxOf id

/-- Each instruction is there once, after its operands. -/
structure TaskOrder (c : HloComputation) (order : List HloInstruction) : Prop where
  nodup : (order.map HloInstruction.id).Nodup
  mem : ∀ i ∈ order, c.instruction i.id = some i
  before : ∀ i ∈ order, ∀ o ∈ i.operands,
    ∃ j ∈ order, j.id = o ∧ position order o < position order i.id

section order

variable {c : HloComputation} {order before after : List HloInstruction} {i : HloInstruction}

theorem position_of_split (hnodup : (order.map HloInstruction.id).Nodup)
    (hsplit : order = before ++ i :: after) : position order i.id = before.length := by
  rw [hsplit, List.map_append, List.map_cons] at hnodup
  have hnew : i.id ∉ before.map HloInstruction.id := by
    intro hin
    exact (List.disjoint_of_nodup_append hnodup) hin (List.mem_cons_self ..)
  rw [position, hsplit, List.map_append, List.map_cons, List.idxOf_append_of_notMem hnew,
    List.idxOf_cons_self, List.length_map, Nat.add_zero]

theorem position_lt (hi : i ∈ order) : position order i.id < order.length := by
  have hlt := List.idxOf_lt_length_of_mem (List.mem_map_of_mem (f := HloInstruction.id) hi)
  rwa [List.length_map] at hlt

/-- The order of the traversal. -/
theorem taskOrder_of_run {rank : ℕ → ℕ} (hdag : Dag c rank) (helements : OnlyElements c)
    (hrun : colorSortedPostorder c = some (ok order)) : TaskOrder c order := by
  obtain ⟨hnodup, hmem⟩ := helements.nodup hdag hrun
  obtain ⟨order', hrun', htopological⟩ := helements.isTopological hdag
  rw [hrun] at hrun'
  obtain rfl := ok.inj (Option.some.inj hrun')
  have hids : (order.map HloInstruction.id).Nodup :=
    hnodup.map_on fun i hi j hj heq => List.inj_on_of_nodup_map hdag.nodup (hmem i hi) (hmem j hj) heq
  refine ⟨hids, fun i hi => instruction_of_mem hdag.nodup (hmem i hi), ?_⟩
  intro i hi o ho
  obtain ⟨before, after, hsplit⟩ := List.append_of_mem hi
  obtain ⟨j, hj, rfl⟩ := List.mem_map.mp (htopological.ordered before i after hsplit o ho)
  obtain ⟨first, second, rfl⟩ := List.append_of_mem hj
  have hsplit' : order = first ++ j :: (second ++ i :: after) := by simp [hsplit]
  refine ⟨j, hsplit' ▸ List.mem_append_right _ (List.mem_cons_self ..), rfl, ?_⟩
  rw [position_of_split hids hsplit, position_of_split hids hsplit']
  simp

end order

/-- An instruction that is computed in a task whose first one is at this place: it is put there
itself or computed once more, and no loop that is after the first one comes before it. -/
structure InTask (config : Config) (properties : Properties) (c : HloComputation)
    (order : List HloInstruction) (first id : ℕ) : Prop where
  instruction : ∃ i ∈ order, i.id = id ∧ isAlwaysTaskOperand config c i = ok false ∧
    (first ≤ position order id ∨ includeIndirectlyInBuilder config properties c i = ok true)
  loops : ∀ l ∈ order, isMicrobatchLoop config l = true →
    position order l.id < position order id → position order l.id < first

/-- What may be taken out of a task: only the root reads a result that is computed once more. -/
structure TaskRoot (config : Config) (c : HloComputation) (order : List HloInstruction)
    (first id : ℕ) : Prop where
  instruction : ∃ i ∈ c.instructions, i.id = id ∧ isAlwaysTaskOperand config c i = ok false
  position : first ≤ position order id ∨ ∀ u ∈ c.users id, u.id = c.root

section included

variable {config : Config} {properties : Properties} {c : HloComputation} {i : HloInstruction}

theorem includeDirectlyInBuilder_eq (h : includeDirectlyInBuilder config properties c i = ok true) :
    isAlwaysTaskOperand config c i = ok false := by
  obtain ⟨replicate, -, h⟩ := bind_eq_ok.mp h
  split at h
  · cases h
  · obtain ⟨always, halways, h⟩ := bind_eq_ok.mp h
    cases always with
    | true => cases h
    | false => exact halways

theorem includeIndirectlyInBuilder_eq
    (h : includeIndirectlyInBuilder config properties c i = ok true) :
    isAlwaysTaskOperand config c i = ok false := by
  obtain ⟨replicate, -, h⟩ := bind_eq_ok.mp h
  split at h
  · obtain ⟨always, halways, h⟩ := bind_eq_ok.mp h
    cases always with
    | true => cases h
    | false => exact halways
  · cases h

/-- An element of a loop is always an operand. -/
theorem isAlwaysTaskOperand_loopUser (hc : Groupable config properties c)
    (hi : c.instruction i.id = some i) (hloop : isMicrobatchLoop config i = true)
    {u : HloInstruction} (hu : u ∈ c.users i.id) : isAlwaysTaskOperand config c u = ok true := by
  obtain ⟨rank, hdag⟩ := hc.acyclic
  obtain ⟨hmem, hread⟩ := mem_users.mp hu
  have helement := hc.loopUsers i (mem_of_instruction hi) hloop u hu
  obtain ⟨o, ho⟩ := hdag.elements u hmem helement
  rw [ho, List.mem_singleton] at hread
  have hoperand : operandInstruction c u 0 = ok i := by
    rw [operandInstruction, ho, ← hread]
    exact bind_eq_ok.mpr ⟨i.id, rfl, deref_eq_ok.mpr hi⟩
  unfold HloInstruction.isGetTupleElement at helement
  unfold isAlwaysTaskOperand
  split at helement
  · rename_i k hop
    rw [hop]
    exact bind_eq_ok.mpr ⟨i, hoperand, by rw [hloop]; rfl⟩
  · cases helement

theorem mem_of_replicatedOperands {added operands items : List ℕ}
    (h : replicatedOperands config properties c added operands = ok items) {x : ℕ}
    (hx : x ∈ items) : x ∈ operands ∧
      ∃ i, c.instruction x = some i ∧ includeIndirectlyInBuilder config properties c i = ok true := by
  have hall : ∀ x ∈ items, x ∈ operands ∧ ∃ i, c.instruction x = some i ∧
      includeIndirectlyInBuilder config properties c i = ok true := by
    apply foldlM_invariant (fun items => ∀ x ∈ items, x ∈ operands ∧ ∃ i, c.instruction x = some i ∧
      includeIndirectlyInBuilder config properties c i = ok true) h
    · intro x hx
      cases hx
    · intro operand hoperand toVisit toVisit' ih hstep
      split at hstep
      · obtain rfl := ok.inj hstep
        exact ih
      · obtain ⟨i, hi, hstep⟩ := bind_eq_ok.mp hstep
        obtain ⟨included, hincluded, hstep⟩ := bind_eq_ok.mp hstep
        cases included with
        | false =>
          obtain rfl := ok.inj hstep
          exact ih
        | true =>
          obtain rfl := ok.inj hstep
          intro x hx
          rcases List.mem_append.mp hx with hx | hx
          · exact ih x hx
          · rw [List.mem_singleton.mp hx]
            exact ⟨hoperand, i, deref_eq_ok.mp hi, hincluded⟩
  exact hall x hx

end included

section add

variable {config : Config} {properties : Properties} {c : HloComputation}
  {order : List HloInstruction} {first : ℕ} {ctx ctx' : BuildContext} {i : HloInstruction}

/-- Operands that are computed once more come earlier. -/
theorem mem_order_of_replicatedOperands (horder : TaskOrder c order) (hi : i ∈ order)
    {added items : List ℕ}
    (h : replicatedOperands config properties c added i.operands = ok items) {x : ℕ}
    (hx : x ∈ items) : ∃ j ∈ order, j.id = x ∧ position order x < position order i.id ∧
      includeIndirectlyInBuilder config properties c j = ok true := by
  obtain ⟨hread, k, hk, hincluded⟩ := mem_of_replicatedOperands h hx
  obtain ⟨j, hj, rfl, hlt⟩ := horder.before i hi x hread
  rw [horder.mem j hj] at hk
  obtain rfl := Option.some.inj hk
  exact ⟨j, hj, rfl, hlt, hincluded⟩

/-- What is below the instruction is computed once more in its task. -/
theorem addReplicatedOperandDfs_inTask (horder : TaskOrder c order) (hi : i ∈ order)
    (hloops : ∀ l ∈ order, isMicrobatchLoop config l = true →
      position order l.id < position order i.id → position order l.id < first)
    (hctx : ∀ w ∈ ctx.instructionDfs, InTask config properties c order first w)
    (hrun : addReplicatedOperandDfs config properties c ctx i = ok ctx') :
    (∀ w ∈ ctx'.instructionDfs, InTask config properties c order first w) ∧
      ∃ dfs, ctx' = { ctx with instructionDfs := dfs } := by
  obtain ⟨toVisit, htoVisit, hrun⟩ := bind_eq_ok.mp hrun
  obtain ⟨tree, htree, hrun⟩ := bind_eq_ok.mp hrun
  cases tree with
  | none =>
    obtain rfl := ok.inj hrun
    exact ⟨hctx, _, rfl⟩
  | some tree =>
    obtain rfl := ok.inj hrun
    refine ⟨?_, _, rfl⟩
    have hbelow : ∀ w ∈ tree, ∃ j ∈ order, j.id = w ∧ position order w < position order i.id ∧
        includeIndirectlyInBuilder config properties c j = ok true := by
      apply forall_mem_of_search (P := fun w => ∃ j ∈ order, j.id = w ∧
        position order w < position order i.id ∧
          includeIndirectlyInBuilder config properties c j = ok true) _ _ _ htree
      · rintro a items ⟨j, hj, rfl, hlt, -⟩ ⟨_, _, hpush⟩ x hx
        obtain ⟨j', hj', hpush⟩ := bind_eq_ok.mp hpush
        obtain ⟨operands, hoperands, hpush⟩ := bind_eq_ok.mp hpush
        obtain ⟨-, rfl⟩ := Expansion.push.inj (ok.inj hpush)
        obtain rfl := Option.some.inj ((horder.mem j hj).symm.trans (deref_eq_ok.mp hj'))
        obtain ⟨k, hk, hid, hlt', hincluded⟩ := mem_order_of_replicatedOperands horder hj hoperands hx
        exact ⟨k, hk, hid, hlt'.trans hlt, hincluded⟩
      · intro a ha
        exact mem_order_of_replicatedOperands horder hi htoVisit (List.mem_reverse.mp ha)
      · intro a ha
        cases ha
    intro w hw
    rcases List.mem_append.mp hw with hw | hw
    · exact hctx w hw
    · obtain ⟨j, hj, rfl, hlt, hincluded⟩ := hbelow w hw
      refine ⟨⟨j, hj, rfl, includeIndirectlyInBuilder_eq hincluded, .inr hincluded⟩, ?_⟩
      intro l hl hloop hltj
      exact hloops l hl hloop (hltj.trans hlt)

theorem addInstruction_inTask (horder : TaskOrder c order) (hi : i ∈ order)
    (hdirect : includeDirectlyInBuilder config properties c i = ok true)
    (hfirst : first ≤ position order i.id)
    (hloops : ∀ l ∈ order, isMicrobatchLoop config l = true →
      position order l.id < position order i.id → position order l.id < first)
    (hctx : ∀ w ∈ ctx.instructionDfs, InTask config properties c order first w)
    (hrun : addInstruction config properties c ctx i = ok ctx') :
    (∀ w ∈ ctx'.instructionDfs, InTask config properties c order first w) ∧
      ∃ dfs, ctx' = { ctx with instructionDfs := dfs } := by
  unfold addInstruction at hrun
  split at hrun
  · obtain rfl := ok.inj hrun
    exact ⟨hctx, _, rfl⟩
  · obtain ⟨mid, hmid, hrun⟩ := bind_eq_ok.mp hrun
    obtain rfl := ok.inj hrun
    obtain ⟨hall, dfs, rfl⟩ := addReplicatedOperandDfs_inTask horder hi hloops hctx hmid
    refine ⟨?_, _, rfl⟩
    intro w hw
    rcases List.mem_append.mp hw with hw | hw
    · exact hall w hw
    · rw [List.mem_singleton.mp hw]
      exact ⟨⟨i, hi, rfl, includeDirectlyInBuilder_eq hdirect, .inl hfirst⟩, hloops⟩

end add

/-- The tasks, the first instruction of each being at the place `first`. -/
structure Tasks (config : Config) (properties : Properties) (c : HloComputation)
    (order : List HloInstruction) (first : ℕ → ℕ) (assignments : ℕ → Option ℕ)
    (builders : List BuildContext) : Prop where
  dfs : ∀ (k : ℕ) (ctx : BuildContext), builders[k]? = some ctx → ctx.callInstruction = none →
    ∀ w ∈ ctx.instructionDfs, InTask config properties c order (first k) w
  roots : ∀ (k : ℕ) (ctx : BuildContext), builders[k]? = some ctx → ctx.callInstruction = none →
    ∀ r ∈ ctx.roots, TaskRoot config c order (first k) r
  assigned : ∀ (id k : ℕ) (ctx : BuildContext), assignments id = some k →
    builders[k]? = some ctx → ctx.callInstruction = none → TaskRoot config c order (first k) id

section tasks

variable {config : Config} {properties : Properties} {c : HloComputation}
  {order : List HloInstruction} {first : ℕ → ℕ} {assignments : ℕ → Option ℕ}
  {builders builders' : List BuildContext} {k : ℕ} {ctx ctx' : BuildContext}

theorem Tasks.set (h : Tasks config properties c order first assignments builders)
    (hk : builders[k]? = some ctx) (hcall : ctx'.callInstruction = ctx.callInstruction)
    (hdfs : ctx.callInstruction = none →
      ∀ w ∈ ctx'.instructionDfs, InTask config properties c order (first k) w)
    (hroots : ctx.callInstruction = none → ∀ r ∈ ctx'.roots, TaskRoot config c order (first k) r) :
    Tasks config properties c order first assignments (builders.set k ctx') := by
  have hcases : ∀ (n : ℕ) (d : BuildContext), (builders.set k ctx')[n]? = some d →
      (n = k ∧ d = ctx') ∨ builders[n]? = some d := by
    intro n d hd
    by_cases hn : n = k
    · subst hn
      rw [List.getElem?_set_self (List.getElem?_eq_some_iff.mp hk).1] at hd
      exact .inl ⟨rfl, (Option.some.inj hd).symm⟩
    · rw [List.getElem?_set_ne (Ne.symm hn)] at hd
      exact .inr hd
  constructor
  · intro n d hd hnone
    rcases hcases n d hd with ⟨rfl, rfl⟩ | hd
    · exact hdfs (hcall ▸ hnone)
    · exact h.dfs n d hd hnone
  · intro n d hd hnone
    rcases hcases n d hd with ⟨rfl, rfl⟩ | hd
    · exact hroots (hcall ▸ hnone)
    · exact h.roots n d hd hnone
  · intro id n d hid hd hnone
    rcases hcases n d hd with ⟨rfl, rfl⟩ | hd
    · exact h.assigned id n ctx hid hk (hcall ▸ hnone)
    · exact h.assigned id n d hid hd hnone

/-- A root is added if it is not there. -/
theorem addRoot_eq_ok {root : ℕ} (h : addRoot c builders k root = ok builders') :
    ∃ ctx roots, builders[k]? = some ctx ∧ builders' = builders.set k { ctx with roots := roots } ∧
      ∀ r ∈ roots, r ∈ ctx.roots ∨ r = root := by
  obtain ⟨ctx, hctx, h⟩ := bind_eq_ok.mp h
  obtain ⟨i, -, h⟩ := bind_eq_ok.mp h
  rw [elementAt_eq_ok] at hctx
  split at h
  · cases h
  · split at h
    · obtain rfl := ok.inj h
      obtain ⟨hlt, hget⟩ := List.getElem?_eq_some_iff.mp hctx
      refine ⟨ctx, ctx.roots, hctx, ?_, fun r hr => .inl hr⟩
      rw [← hget]
      exact (List.set_getElem_self hlt).symm
    · obtain rfl := ok.inj h
      refine ⟨ctx, _, hctx, rfl, ?_⟩
      intro r hr
      rcases List.mem_append.mp hr with hr | hr
      · exact .inl hr
      · exact .inr (List.mem_singleton.mp hr)

theorem Tasks.addRoot (h : Tasks config properties c order first assignments builders) {root : ℕ}
    (hroot : ∀ ctx, builders[k]? = some ctx → ctx.callInstruction = none →
      TaskRoot config c order (first k) root)
    (hrun : ComputationGrouper.addRoot c builders k root = ok builders') :
    Tasks config properties c order first assignments builders' := by
  obtain ⟨ctx, roots, hctx, rfl, hroots⟩ := addRoot_eq_ok hrun
  refine h.set hctx rfl ?_ ?_
  · exact h.dfs k ctx hctx
  · intro hnone r hr
    rcases hroots r hr with hr | rfl
    · exact h.roots k ctx hctx hnone r hr
    · exact hroot ctx hctx hnone

end tasks

/-- The state once this many instructions of the order have been visited. -/
structure Assigning (config : Config) (properties : Properties) (c : HloComputation)
    (order : List HloInstruction) (visited : ℕ) (first : ℕ → ℕ) (st : Grouping) : Prop where
  tasks : Tasks config properties c order first st.builderAssignments st.builders
  assigned_lt : ∀ id k, st.builderAssignments id = some k → k < st.builders.length
  increasing : ∀ k k', k < k' → k' < st.builders.length → first k < first k'
  first_lt : ∀ k < st.builders.length, first k < visited
  clones : ∀ id clone, st.gteRootClones id = some clone → clone = id ∧
    ∃ i ∈ c.instructions, i.id = id ∧ isAlwaysTaskOperand config c i = ok true
  unbuilt : ∀ ctx ∈ st.builders, ctx.builder = { nextId := 0 } ∧ ctx.parameters = []
  loops : ∀ (k : ℕ) (ctx : BuildContext) (l : ℕ), st.builders[k]? = some ctx →
    ctx.callInstruction = some l →
      ∃ i ∈ order, i.id = l ∧ isMicrobatchLoop config i = true ∧ position order l = first k

/-- The task that is being put together has no loop after its first instruction. -/
def Current (config : Config) (order : List HloInstruction) (visited : ℕ) (first : ℕ → ℕ)
    (st : Grouping) : Prop :=
  ∃ k ctx, st.currentBuilder = some k ∧ st.builders[k]? = some ctx ∧ ctx.callInstruction = none ∧
    ∀ l ∈ order, isMicrobatchLoop config l = true → position order l.id < visited →
      position order l.id < first k

section visit

variable {config : Config} {properties : Properties} {c : HloComputation}
  {order : List HloInstruction} {visited : ℕ} {first : ℕ → ℕ} {st st' : Grouping}
  {i : HloInstruction}

/-- A task is begun. -/
theorem Assigning.push (h : Assigning config properties c order visited first st)
    {ctx : BuildContext} (hdfs : ctx.instructionDfs = []) (hroots : ctx.roots = [])
    (hunbuilt : ctx.builder = { nextId := 0 } ∧ ctx.parameters = [])
    (hloop : ∀ l, ctx.callInstruction = some l →
      ∃ i ∈ order, i.id = l ∧ isMicrobatchLoop config i = true ∧ position order l = visited)
    {current : Option ℕ} :
    Assigning config properties c order (visited + 1)
      (Function.update first st.builders.length visited)
      { st with builders := st.builders ++ [ctx], currentBuilder := current } := by
  have hold : ∀ k < st.builders.length,
      Function.update first st.builders.length visited k = first k := by
    intro k hk
    exact Function.update_of_ne (Nat.ne_of_lt hk) _ _
  have hcases : ∀ (k : ℕ) (d : BuildContext), (st.builders ++ [ctx])[k]? = some d →
      (k < st.builders.length ∧ st.builders[k]? = some d) ∨ (k = st.builders.length ∧ d = ctx) := by
    intro k d hd
    rcases Nat.lt_or_ge k st.builders.length with hk | hk
    · rw [List.getElem?_append_left hk] at hd
      exact .inl ⟨hk, hd⟩
    · have hlt := (List.getElem?_eq_some_iff.mp hd).1
      rw [List.length_append, List.length_singleton] at hlt
      obtain rfl : k = st.builders.length := by omega
      rw [List.getElem?_concat_length] at hd
      exact .inr ⟨rfl, (Option.some.inj hd).symm⟩
  refine ⟨⟨?_, ?_, ?_⟩, ?_, ?_, ?_, h.clones, ?_, ?_⟩
  · intro k d hd hnone w hw
    rcases hcases k d hd with ⟨hk, hd⟩ | ⟨rfl, rfl⟩
    · rw [hold k hk]
      exact h.tasks.dfs k d hd hnone w hw
    · rw [hdfs] at hw
      cases hw
  · intro k d hd hnone r hr
    rcases hcases k d hd with ⟨hk, hd⟩ | ⟨rfl, rfl⟩
    · rw [hold k hk]
      exact h.tasks.roots k d hd hnone r hr
    · rw [hroots] at hr
      cases hr
  · intro id k d hid hd hnone
    have hk := h.assigned_lt id k hid
    rw [hold k hk]
    dsimp only at hd
    rw [List.getElem?_append_left hk] at hd
    exact h.tasks.assigned id k d hid hd hnone
  · intro id k hid
    have hk := h.assigned_lt id k hid
    dsimp only
    rw [List.length_append]
    omega
  · intro k k' hlt hk'
    dsimp only at hk'
    rw [List.length_append, List.length_singleton] at hk'
    rw [hold k (by omega)]
    by_cases hlast : k' = st.builders.length
    · rw [hlast, Function.update_self]
      exact h.first_lt k (hlast ▸ hlt)
    · rw [Function.update_of_ne hlast]
      exact h.increasing k k' hlt (by omega)
  · intro k hk
    dsimp only at hk
    rw [List.length_append, List.length_singleton] at hk
    by_cases hlast : k = st.builders.length
    · rw [hlast, Function.update_self]
      exact Nat.lt_succ_self visited
    · rw [Function.update_of_ne hlast]
      exact Nat.lt_succ_of_lt (h.first_lt k (by omega))
  · intro d hd
    rcases List.mem_append.mp hd with hd | hd
    · exact h.unbuilt d hd
    · rw [List.mem_singleton.mp hd]
      exact hunbuilt
  · intro k d l hd hcall
    rcases hcases k d hd with ⟨hk, hd⟩ | ⟨rfl, rfl⟩
    · rw [hold k hk]
      exact h.loops k d l hd hcall
    · rw [Function.update_self]
      exact hloop l hcall

/-- Nothing is put into a task. -/
theorem Assigning.skip (h : Assigning config properties c order visited first st) :
    Assigning config properties c order (visited + 1) first st :=
  ⟨h.tasks, h.assigned_lt, h.increasing, fun k hk => Nat.lt_succ_of_lt (h.first_lt k hk), h.clones,
    h.unbuilt, h.loops⟩

/-- The builder of a task stays as it is, and a loop stays one. -/
theorem Assigning.set (h : Assigning config properties c order visited first st) {k : ℕ}
    {ctx ctx' : BuildContext} (htasks : Tasks config properties c order first st.builderAssignments
      (st.builders.set k ctx')) (hctx : st.builders[k]? = some ctx)
    (hcall : ctx'.callInstruction = ctx.callInstruction) (hbuilder : ctx'.builder = ctx.builder)
    (hparameters : ctx'.parameters = ctx.parameters) :
    Assigning config properties c order visited first
      { st with builders := st.builders.set k ctx' } := by
  refine ⟨htasks, ?_, ?_, ?_, h.clones, ?_, ?_⟩
  · intro id n hid
    rw [List.length_set]
    exact h.assigned_lt id n hid
  · intro n n' hlt hn'
    exact h.increasing n n' hlt (by rwa [List.length_set] at hn')
  · intro n hn
    exact h.first_lt n (by rwa [List.length_set] at hn)
  · intro d hd
    rcases List.mem_or_eq_of_mem_set hd with hd | rfl
    · exact h.unbuilt d hd
    · rw [hbuilder, hparameters]
      exact h.unbuilt ctx (List.mem_of_getElem? hctx)
  · intro n d l hd hl
    dsimp only at hd
    by_cases hn : k = n
    · subst hn
      rw [List.getElem?_set_self (List.getElem?_eq_some_iff.mp hctx).1] at hd
      obtain rfl := Option.some.inj hd
      exact h.loops k ctx l hctx (hcall ▸ hl)
    · rw [List.getElem?_set_ne hn] at hd
      exact h.loops n d l hd hl

theorem Assigning.addRoot (h : Assigning config properties c order visited first st) {k root : ℕ}
    {builders : List BuildContext} (hassigned : st.builderAssignments root = some k)
    (hrun : ComputationGrouper.addRoot c st.builders k root = ok builders) :
    Assigning config properties c order visited first { st with builders := builders } := by
  have htasks := h.tasks.addRoot (fun ctx => h.tasks.assigned root k ctx hassigned) hrun
  obtain ⟨ctx, roots, hctx, rfl, -⟩ := addRoot_eq_ok hrun
  exact h.set htasks hctx rfl rfl rfl

theorem Current.skip (h : Current config order visited first st)
    (hnot : ∀ l ∈ order, isMicrobatchLoop config l = true → position order l.id ≠ visited) :
    Current config order (visited + 1) first st := by
  obtain ⟨k, ctx, hk, hctx, hnone, hloops⟩ := h
  refine ⟨k, ctx, hk, hctx, hnone, ?_⟩
  intro l hl hloop hlt
  have hne := hnot l hl hloop
  exact hloops l hl hloop (by omega)

theorem Current.set (h : Current config order visited first st) {k : ℕ} {ctx ctx' : BuildContext}
    (hctx : st.builders[k]? = some ctx) (hcall : ctx'.callInstruction = ctx.callInstruction) :
    Current config order visited first { st with builders := st.builders.set k ctx' } := by
  obtain ⟨n, d, hn, hd, hnone, hloops⟩ := h
  by_cases heq : n = k
  · subst heq
    rw [hctx] at hd
    obtain rfl := Option.some.inj hd
    exact ⟨n, ctx', hn, List.getElem?_set_self (List.getElem?_eq_some_iff.mp hctx).1,
      hcall.trans hnone, hloops⟩
  · exact ⟨n, d, hn, (List.getElem?_set_ne (Ne.symm heq)).trans hd, hnone, hloops⟩

/-- What each visit keeps. -/
def Visited (config : Config) (properties : Properties) (c : HloComputation)
    (order : List HloInstruction) (visited : ℕ) (st : Grouping) : Prop :=
  ∃ first, Assigning config properties c order visited first st ∧
    (st.lastColor ≠ none → Current config order visited first st)

theorem Visited.skip (h : Visited config properties c order visited st)
    (hnot : ∀ l ∈ order, isMicrobatchLoop config l = true → position order l.id ≠ visited) :
    Visited config properties c order (visited + 1) st := by
  obtain ⟨first, hassigning, hcurrent⟩ := h
  exact ⟨first, hassigning.skip, fun hcolor => (hcurrent hcolor).skip hnot⟩

theorem Visited.rootTupleRecolor (h : Visited config properties c order visited st)
    (hrun : visitRootTupleRecolor c st i = ok st') :
    Visited config properties c order visited st' := by
  obtain ⟨operand, -, hrun⟩ := bind_eq_ok.mp hrun
  obtain ⟨first, hassigning, hcurrent⟩ := h
  split at hrun
  · cases hrun
  · rename_i k hk
    obtain ⟨builders, hbuilders, hrun⟩ := bind_eq_ok.mp hrun
    obtain rfl := ok.inj hrun
    refine ⟨first, hassigning.addRoot hk hbuilders, ?_⟩
    intro hcolor
    obtain ⟨ctx, roots, hctx, rfl, -⟩ := addRoot_eq_ok hbuilders
    exact (hcurrent hcolor).set hctx rfl

/-- The tasks of a loop come before it, or after it. -/
theorem Visited.microbatchLoop (hc : Groupable config properties c) (horder : TaskOrder c order)
    (hi : i ∈ order) (hposition : position order i.id = visited)
    (hloop : isMicrobatchLoop config i = true)
    (h : Visited config properties c order visited st)
    (hrun : visitMicrobatchLoop c st i = ok st') :
    Visited config properties c order (visited + 1) st' := by
  obtain ⟨input, -, hrun⟩ := bind_eq_ok.mp hrun
  obtain ⟨mid, hmid, hrun⟩ := bind_eq_ok.mp hrun
  obtain rfl := ok.inj hrun
  obtain ⟨first, hassigning, -⟩ := h
  refine ⟨Function.update first st.builders.length visited, ?_, fun hnone => absurd rfl hnone⟩
  obtain ⟨hadded, hlength, hcontext⟩ : Assigning config properties c order (visited + 1)
      (Function.update first st.builders.length visited) mid ∧
        st.builders.length < mid.builders.length ∧ ∀ ctx, mid.builders[st.builders.length]? = some ctx →
          ctx.callInstruction ≠ none := by
    apply foldlM_invariant (fun mid => Assigning config properties c order (visited + 1)
      (Function.update first st.builders.length visited) mid ∧
        st.builders.length < mid.builders.length ∧ ∀ ctx,
          mid.builders[st.builders.length]? = some ctx → ctx.callInstruction ≠ none) hmid
    · refine ⟨hassigning.push rfl rfl ⟨rfl, rfl⟩ ?_, by simp, ?_⟩
      · intro l hl
        obtain rfl := Option.some.inj hl
        exact ⟨i, hi, rfl, hloop, hposition⟩
      intro ctx hctx
      rw [List.getElem?_append_right (le_refl _), Nat.sub_self] at hctx
      obtain rfl := Option.some.inj hctx
      simp
    · rintro operand - mid mid' ⟨hadded, hlength, hcontext⟩ hstep
      unfold addLoopInput at hstep
      split at hstep
      · obtain rfl := ok.inj hstep
        exact ⟨hadded, hlength, hcontext⟩
      · rename_i k hk
        obtain ⟨builders, hbuilders, hstep⟩ := bind_eq_ok.mp hstep
        obtain rfl := ok.inj hstep
        refine ⟨hadded.addRoot hk hbuilders, ?_, ?_⟩
        · obtain ⟨ctx, roots, -, rfl, -⟩ := addRoot_eq_ok hbuilders
          dsimp only
          rwa [List.length_set]
        · intro d hd
          obtain ⟨ctx, roots, hctx, rfl, -⟩ := addRoot_eq_ok hbuilders
          by_cases heq : st.builders.length = k
          · rw [← heq] at hctx hd
            dsimp only at hd
            rw [List.getElem?_set_self hlength] at hd
            obtain rfl := Option.some.inj hd
            exact hcontext ctx hctx
          · dsimp only at hd
            rw [List.getElem?_set_ne (Ne.symm heq)] at hd
            exact hcontext d hd
  refine ⟨⟨hadded.tasks.dfs, hadded.tasks.roots, ?_⟩, ?_, hadded.increasing, hadded.first_lt, ?_,
    hadded.unbuilt, hadded.loops⟩
  · intro id k ctx hid hctx hnone
    dsimp only at hid
    split at hid
    · obtain rfl := Option.some.inj hid
      exact absurd hnone (hcontext ctx hctx)
    · exact hadded.tasks.assigned id k ctx hid hctx hnone
  · intro id k hid
    dsimp only at hid
    split at hid
    · obtain rfl := Option.some.inj hid
      exact hlength
    · exact hadded.assigned_lt id k hid
  · intro id clone hclone
    dsimp only at hclone
    split at hclone
    · rename_i huser
      obtain rfl := Option.some.inj hclone
      obtain ⟨u, hu, rfl⟩ := List.mem_map.mp huser
      exact ⟨rfl, u, (mem_users.mp hu).1, rfl,
        isAlwaysTaskOperand_loopUser hc (horder.mem i hi) hloop hu⟩
    · exact hadded.clones id clone hclone

theorem Visited.startTask (h : Visited config properties c order visited st)
    (hnot : ∀ l ∈ order, isMicrobatchLoop config l = true → position order l.id ≠ visited)
    (isLoop : Bool) (color : String) :
    ∃ first, Assigning config properties c order (visited + 1) first (startTask isLoop st color) ∧
      Current config order (visited + 1) first (startTask isLoop st color) := by
  obtain ⟨first, hassigning, hcurrent⟩ := h
  unfold ComputationGrouper.startTask
  split
  · rename_i hcolor
    exact ⟨first, hassigning.skip, (hcurrent (by simp [hcolor])).skip hnot⟩
  · refine ⟨_, hassigning.push rfl rfl ⟨rfl, rfl⟩ (fun l hl => by cases hl),
      st.builders.length, _, rfl,
      List.getElem?_concat_length, rfl, ?_⟩
    intro l hl hloop hlt
    have hne := hnot l hl hloop
    rw [Function.update_self]
    omega

theorem Visited.directly {isLoop : Bool} (horder : TaskOrder c order) (hi : i ∈ order)
    (hposition : position order i.id = visited)
    (hnot : ∀ l ∈ order, isMicrobatchLoop config l = true → position order l.id ≠ visited)
    (hdirect : includeDirectlyInBuilder config properties c i = ok true)
    (h : Visited config properties c order visited st)
    (hrun : visitDirectly config properties c isLoop st i = ok st') :
    Visited config properties c order (visited + 1) st' := by
  unfold visitDirectly at hrun
  split at hrun
  · cases hrun
  · rename_i color hcolor
    obtain ⟨first, hassigning, hcurrent⟩ := h.startTask hnot isLoop color
    dsimp only at hrun
    generalize ComputationGrouper.startTask isLoop st color = mid at hassigning hcurrent hrun
    obtain ⟨k, hk, hrun⟩ := bind_eq_ok.mp hrun
    obtain ⟨ctx, hctx, hrun⟩ := bind_eq_ok.mp hrun
    obtain ⟨ctx', hadd, hrun⟩ := bind_eq_ok.mp hrun
    obtain rfl := ok.inj hrun
    rw [deref_eq_ok] at hk
    rw [elementAt_eq_ok] at hctx
    have hlt : k < mid.builders.length := (List.getElem?_eq_some_iff.mp hctx).1
    have hfirst : first k ≤ position order i.id := by
      have := hassigning.first_lt k hlt
      omega
    obtain ⟨n, d, hn, hd, hnone, hloops⟩ := hcurrent
    rw [hk] at hn
    obtain rfl := Option.some.inj hn
    rw [hctx] at hd
    obtain rfl := Option.some.inj hd
    obtain ⟨hdfs, dfs, rfl⟩ := addInstruction_inTask horder hi hdirect hfirst
      (fun l hl hloop hbefore => hloops l hl hloop (by omega))
      (hassigning.tasks.dfs k ctx hctx hnone) hadd
    have htasks : Tasks config properties c order first mid.builderAssignments
        (mid.builders.set k { ctx with instructionDfs := dfs }) := by
      refine hassigning.tasks.set hctx rfl ?_ ?_
      · exact fun _ => hdfs
      · exact hassigning.tasks.roots k ctx hctx
    have hadded := hassigning.set htasks hctx rfl rfl rfl
    refine ⟨first, ⟨⟨htasks.dfs, htasks.roots, ?_⟩, ?_, hadded.increasing, hadded.first_lt,
      hadded.clones, hadded.unbuilt, hadded.loops⟩, fun _ => ?_⟩
    · intro id n d hid hd hcall
      dsimp only at hid
      by_cases heq : id = i.id
      · rw [heq, Function.update_self] at hid
        obtain rfl := Option.some.inj hid
        rw [heq]
        exact ⟨⟨i, mem_of_instruction (horder.mem i hi), rfl, includeDirectlyInBuilder_eq hdirect⟩,
          .inl hfirst⟩
      · rw [Function.update_of_ne heq] at hid
        exact htasks.assigned id n d hid hd hcall
    · intro id n hid
      dsimp only at hid ⊢
      by_cases heq : id = i.id
      · rw [heq, Function.update_self] at hid
        obtain rfl := Option.some.inj hid
        rwa [List.length_set]
      · rw [Function.update_of_ne heq] at hid
        exact hadded.assigned_lt id n hid
    · have hset : Current config order (visited + 1) first
          { mid with builders := mid.builders.set k { ctx with instructionDfs := dfs } } :=
        Current.set ⟨k, ctx, hk, hctx, hnone, hloops⟩ hctx rfl
      exact hset

theorem Visited.visit {isLoop : Bool} (hc : Groupable config properties c)
    (horder : TaskOrder c order) (hi : i ∈ order) (hposition : position order i.id = visited)
    (h : Visited config properties c order visited st)
    (hrun : visitInstruction config properties c isLoop st i = ok st') :
    Visited config properties c order (visited + 1) st' := by
  -- another instruction at this place is this one
  have hnot : isMicrobatchLoop config i = false →
      ∀ l ∈ order, isMicrobatchLoop config l = true → position order l.id ≠ visited := by
    intro hfalse l hl hloop heq
    have hid : l.id = i.id := by
      rw [← hposition] at heq
      exact (List.idxOf_inj (List.mem_map_of_mem hl)).mp heq
    rw [List.inj_on_of_nodup_map horder.nodup hl hi hid, hfalse] at hloop
    cases hloop
  unfold visitInstruction at hrun
  split at hrun
  · rename_i hrecolor
    apply (h.rootTupleRecolor hrun).skip (hnot _)
    simp only [HloInstruction.isCustomCall, decide_eq_true_eq] at hrecolor
    simp [isMicrobatchLoop, hrecolor]
  · split at hrun
    · rename_i hloop
      exact h.microbatchLoop hc horder hi hposition hloop hrun
    · rename_i hloop
      have hfalse := hnot (Bool.eq_false_iff.mpr hloop)
      obtain ⟨direct, hdirect, hrun⟩ := bind_eq_ok.mp hrun
      cases direct with
      | false =>
        obtain rfl := ok.inj hrun
        exact h.skip hfalse
      | true => exact h.directly horder hi hposition hfalse hdirect hrun

end visit

section assign

variable {config : Config} {properties : Properties} {c : HloComputation} {isLoop : Bool}

/-- What the assignment of the instructions to tasks gives. -/
theorem assigning_of_assignTasks (hc : Groupable config properties c) {st : Grouping}
    (hrun : assignTasks config properties c isLoop = ok st) :
    ∃ order first, colorSortedPostorder c = some (ok order) ∧ TaskOrder c order ∧
      Assigning config properties c order order.length first st := by
  obtain ⟨st₀, hst₀, hrun⟩ := bind_eq_ok.mp hrun
  obtain ⟨order, horder, hrun⟩ := bind_eq_ok.mp hrun
  have horder : colorSortedPostorder c = some (ok order) := by
    cases h : colorSortedPostorder c with
    | none => simp [h] at horder
    | some result => rw [h, Option.getD_some] at horder; rw [horder]
  obtain ⟨rank, hdag⟩ := hc.acyclic
  have htaskOrder := taskOrder_of_run hdag hc.elements horder
  have hstart : Visited config properties c order 0 st₀ := by
    have hempty : Assigning config properties c order 0 (fun _ => 0) {} :=
      ⟨⟨by simp, by simp, by simp⟩, by simp, by simp, by simp, by simp, by simp, by simp⟩
    have hadded : Assigning config properties c order 0 (fun _ => 0) st₀ ∧ st₀.lastColor = none := by
      apply foldlM_invariant (fun st => Assigning config properties c order 0 (fun _ => 0) st ∧
        st.lastColor = none) hst₀ ⟨hempty, rfl⟩
      rintro i hi st₁ st₂ ⟨h₁, hcolor⟩ hstep
      obtain ⟨always, halways, hstep⟩ := bind_eq_ok.mp hstep
      obtain rfl := ok.inj hstep
      cases always with
      | false => exact ⟨h₁, hcolor⟩
      | true =>
        refine ⟨⟨h₁.tasks, h₁.assigned_lt, h₁.increasing, h₁.first_lt, ?_, h₁.unbuilt,
          h₁.loops⟩, hcolor⟩
        intro id clone hclone
        simp only [if_true] at hclone
        by_cases heq : id = i.id
        · rw [heq, Function.update_self] at hclone
          exact ⟨(Option.some.inj hclone).symm.trans heq.symm, i, hi, heq.symm, halways⟩
        · rw [Function.update_of_ne heq] at hclone
          exact h₁.clones id clone hclone
    exact ⟨_, hadded.1, fun hcolor => absurd hadded.2 hcolor⟩
  have hall : Visited config properties c order order.length st := by
    apply foldlM_prefix (fun done st => Visited config properties c order done.length st) hrun hstart
    rintro done i ⟨rest, hsplit⟩ st₁ st₂ hvisited hstep
    rw [List.append_assoc, List.singleton_append] at hsplit
    rw [List.length_append, List.length_singleton]
    exact hvisited.visit hc htaskOrder (hsplit ▸ List.mem_append_right _ (List.mem_cons_self ..))
      (position_of_split htaskOrder.nodup hsplit.symm) hstep
  obtain ⟨first, hassigning, -⟩ := hall
  exact ⟨order, first, horder, htaskOrder, hassigning⟩

end assign

end ComputationGrouper
end MultiMeshJax
