import MultiMeshJax.ComputationGrouper.Replaced

/-! The pass keeps what the module computes. -/
namespace MultiMeshJax
namespace ComputationGrouper

open StatusOr HloComputation Machine
open ColorDfs (Dag colorSortedPostorder)

/-- What marks are taken for. -/
def MarksAreIdentities {V : Type} (I : Interpretation V) : Prop := RecolorIsIdentity I.operation

section reshards

variable {V : Type} {I : Interpretation V} {ctx : Context V} {result : Value V}
  {val : ℕ → Value V} {rank : ℕ → ℕ} {config : Config} {comp comp' : HloComputation}

/-- A mark is bypassed. -/
theorem evaluates_bypass (hidentity : RecolorIsIdentity I.operation)
    (h : Evaluates I ctx val rank result comp) {i : HloInstruction} (hi : i ∈ comp.instructions)
    (hmark : i.isCustomCall kCustomCallArgumentRecolor = true) {operand : ℕ}
    (hoperand : i.operands[0]? = some operand) :
    Evaluates I ctx val rank result (comp.replaceUses i.id operand) := by
  have hmem : operand ∈ i.operands := List.mem_of_getElem? hoperand
  have hval : val operand = val i.id := by
    have happly := h.valued i hi
    obtain ⟨rest, hrest⟩ : ∃ rest, i.operands = operand :: rest := by
      cases hoperands : i.operands with
      | nil => simp [hoperands] at hoperand
      | cons o rest =>
        rw [hoperands] at hoperand
        exact ⟨rest, by rw [Option.some.inj hoperand]⟩
    simp only [HloInstruction.isCustomCall, decide_eq_true_eq] at hmark
    have hne : kCustomCallArgumentRecolor ≠ kCustomCallSliceOffset := by decide
    simp only [Interpretation.apply, hmark, hrest, List.map_cons, if_neg hne,
      hidentity _ (val operand)] at happly
    exact Option.some.inj happly
  apply h.replaceUses (h.closed i hi operand hmem) hval
  intro j hj hread
  exact (h.ranked i hi operand hmem).trans (h.ranked j hj i.id hread)

theorem evaluates_applyReshard (hidentity : RecolorIsIdentity I.operation)
    (h : Evaluates I ctx val rank result comp) {id : ℕ} (hrun : applyReshard comp id = ok comp') :
    Evaluates I ctx val rank result comp' := by
  obtain ⟨i, hi, hrun⟩ := bind_eq_ok.mp hrun
  rw [getInstruction, deref_eq_ok] at hi
  obtain rfl := id_of_instruction hi
  split at hrun
  · rename_i hmark
    obtain ⟨operand, hoperand, hrun⟩ := bind_eq_ok.mp hrun
    rw [elementAt_eq_ok] at hoperand
    have hsharding := h.mapInstructions
      (f := fun j => if j.id = operand then { j with sharding := i.sharding } else j)
      (by intro j; split <;> simp)
    have hmem := List.mem_map_of_mem
      (f := fun j : HloInstruction => if j.id = operand then { j with sharding := i.sharding } else j)
      (mem_of_instruction hi)
    have hself : (if i.id = operand then { i with sharding := i.sharding } else i) = i := by
      split <;> rfl
    rw [hself] at hmem
    exact (evaluates_bypass hidentity hsharding hmem hmark hoperand).tryRemoveInstruction hrun
  · obtain rfl := ok.inj hrun
    exact h

theorem nodup_applyReshard (h : comp.ids.Nodup) {id : ℕ} (hrun : applyReshard comp id = ok comp') :
    comp'.ids.Nodup := by
  obtain ⟨i, -, hrun⟩ := bind_eq_ok.mp hrun
  split at hrun
  · obtain ⟨operand, -, hrun⟩ := bind_eq_ok.mp hrun
    obtain ⟨-, rfl⟩ := tryRemoveInstruction_eq_ok.mp hrun
    apply List.Nodup.sublist (List.filter_sublist.map HloInstruction.id)
    change (replaceUses _ _ _).ids.Nodup
    rw [ids_replaceUses, ids_mapInstructions (by intro j; split <;> rfl)]
    exact h
  · obtain rfl := ok.inj hrun
    exact h

/-- The operand of a mark is a parameter of the entry computation. -/
theorem evaluates_dropReshard (hidentity : RecolorIsIdentity I.operation)
    (h : Evaluates I ctx val rank result comp) {id : ℕ} (hrun : dropReshard comp id = ok comp') :
    Evaluates I ctx val rank result comp' := by
  obtain ⟨i, hi, hrun⟩ := bind_eq_ok.mp hrun
  rw [getInstruction, deref_eq_ok] at hi
  obtain rfl := id_of_instruction hi
  split at hrun
  · rename_i hmark
    obtain ⟨operand, hoperand, hrun⟩ := bind_eq_ok.mp hrun
    obtain ⟨o, ho, hoperand⟩ := bind_eq_ok.mp hoperand
    rw [elementAt_eq_ok] at ho
    rw [getInstruction, deref_eq_ok] at hoperand
    obtain rfl := id_of_instruction hoperand
    split at hrun
    · exact (evaluates_bypass hidentity h (mem_of_instruction hi) hmark ho).tryRemoveInstruction hrun
    · cases hrun
  · obtain rfl := ok.inj hrun
    exact h

end reshards

section modules

variable {V : Type} {P : Interpretation V → Prop} {called called' called'' : List HloComputation}

/-- Each computation gives what it gave, where the operations have a property. -/
def Refines (P : Interpretation V → Prop) (called called' : List HloComputation) : Prop :=
  ∀ (n : ℕ) (comp : HloComputation), called[n]? = some comp → ∃ comp', called'[n]? = some comp' ∧
    ∀ I, P I → ∀ ctx v, comp.Runs I ctx v → comp'.Runs I ctx v

theorem Refines.refl (P : Interpretation V → Prop) (called : List HloComputation) :
    Refines P called called :=
  fun _ comp hcomp => ⟨comp, hcomp, fun _ _ _ _ hv => hv⟩

theorem Refines.of_prefix (h : called <+: called') : Refines P called called' := by
  obtain ⟨rest, rfl⟩ := h
  intro n comp hcomp
  refine ⟨comp, ?_, fun _ _ _ _ hv => hv⟩
  rwa [List.getElem?_append_left (List.getElem?_eq_some_iff.mp hcomp).1]

theorem Refines.trans (h : Refines P called called') (h' : Refines P called' called'') :
    Refines P called called'' := by
  intro n comp hcomp
  obtain ⟨comp', hcomp', hruns⟩ := h n comp hcomp
  obtain ⟨comp'', hcomp'', hruns'⟩ := h' n comp' hcomp'
  exact ⟨comp'', hcomp'', fun I hP ctx v hv => hruns' I hP ctx v (hruns I hP ctx v hv)⟩

theorem Refines.set {n : ℕ} {comp comp' : HloComputation} (hcomp : called[n]? = some comp)
    (hruns : ∀ I, P I → ∀ ctx v, comp.Runs I ctx v → comp'.Runs I ctx v) :
    Refines P called (called.set n comp') := by
  intro k old hold
  by_cases hk : n = k
  · subst hk
    rw [hcomp] at hold
    obtain rfl := Option.some.inj hold
    exact ⟨comp', List.getElem?_set_self (List.getElem?_eq_some_iff.mp hcomp).1, hruns⟩
  · exact ⟨old, (List.getElem?_set_ne hk).trans hold, fun _ _ _ _ hv => hv⟩

theorem Refines.keepsResults (h : Refines P called called') : KeepsResults P called called' := by
  intro n comp hcomp
  obtain ⟨comp', hcomp', hruns⟩ := h n comp hcomp
  exact ⟨comp', hcomp', fun I I' _ hP' hkept _ ctx v hv => hruns I' hP' ctx v (hkept.runs hv)⟩

theorem Refines.modeled {I : Interpretation V} (hP : P I) (h : Refines P called called')
    {number number' : ℕ} (hle : number ≤ number') (hmodeled : Modeled I number called') :
    Modeled I number' called := by
  intro n comp hn hcomp shape args v hv
  obtain ⟨comp', hcomp', hruns⟩ := h n comp hcomp
  exact hmodeled n comp' (hle.trans hn) hcomp' shape args v (hruns I hP _ v hv)

/-- What is done to a module: these computations are grouped, and tasks are added. -/
structure Grouped (P : Interpretation V → Prop) (touched : ℕ → Prop) (m m' : Module) : Prop where
  module : m.Extends m'
  length : m.called.length ≤ m'.called.length
  called : ∀ n < m.called.length, ¬touched n → m'.called[n]? = m.called[n]?
  keeps : KeepsResults P m.called m'.called

variable {touched touched' : ℕ → Prop} {m m' m'' : Module}

theorem Grouped.refl (P : Interpretation V → Prop) (touched : ℕ → Prop) (m : Module) :
    Grouped P touched m m :=
  ⟨⟨le_refl _, fun _ _ _ hb => hb⟩, le_refl _, fun _ _ _ => rfl, .refl P _⟩

theorem Grouped.mono (h : Grouped P touched m m') (hsub : ∀ n, touched n → touched' n) :
    Grouped P touched' m m' :=
  ⟨h.module, h.length, fun n hn hnot => h.called n hn fun ht => hnot (hsub n ht), h.keeps⟩

theorem Grouped.trans (h : Grouped P touched m m') (h' : Grouped P touched m' m'') :
    Grouped P touched m m'' where
  module := h.module.trans h'.module
  length := h.length.trans h'.length
  called n hn hnot := (h'.called n (hn.trans_le h.length) hnot).trans (h.called n hn hnot)
  keeps := h.keeps.trans h'.keeps

/-- The marks in the tasks, which have these numbers and those after, are being removed. -/
structure Resharded (V : Type) (number : ℕ) (called called' : List HloComputation) : Prop where
  length : called'.length = called.length
  kept : ∀ n < number, called'[n]? = called[n]?
  nodup : ∀ (n : ℕ) (comp : HloComputation), number ≤ n → called'[n]? = some comp → comp.ids.Nodup
  refines : Refines (V := V) MarksAreIdentities called called'

theorem Resharded.set {number n : ℕ} {comp comp' : HloComputation}
    (h : Resharded V number called called') (hn : number ≤ n) (hcomp : called'[n]? = some comp)
    (hnodup : comp'.ids.Nodup) (hruns : ∀ I : Interpretation V, MarksAreIdentities I →
      ∀ ctx v, comp.Runs I ctx v → comp'.Runs I ctx v) :
    Resharded V number called (called'.set n comp') where
  length := List.length_set.trans h.length
  kept k hk := (List.getElem?_set_ne (by omega)).trans (h.kept k hk)
  nodup k d hk hd := by
    by_cases heq : n = k
    · subst heq
      rw [List.getElem?_set_self (List.getElem?_eq_some_iff.mp hcomp).1] at hd
      obtain rfl := Option.some.inj hd
      exact hnodup
    · rw [List.getElem?_set_ne heq] at hd
      exact h.nodup k d hk hd
  refines := h.refines.trans (.set hcomp hruns)

theorem resharded_of_foldlM {config : Config} {c : HloComputation} {number : ℕ}
    (hcalls : CallsFrom number c) (hnodup : ∀ (n : ℕ) (comp : HloComputation), number ≤ n →
      called[n]? = some comp → comp.ids.Nodup)
    (hrun : c.instructions.foldlM (applyInterTaskReshards config) called = ok called') :
    Resharded V number called called' := by
  apply foldlM_invariant (Resharded V number called) hrun
    ⟨rfl, fun _ _ => rfl, hnodup, .refl _ called⟩
  intro i hi called₁ called₂ h₁ hstep
  unfold applyInterTaskReshards at hstep
  split at hstep
  · rename_i n hop
    obtain ⟨comp, hcomp, hstep⟩ := bind_eq_ok.mp hstep
    rw [elementAt_eq_ok] at hcomp
    split at hstep
    · cases hstep
    · obtain ⟨comp', hcomp', hstep⟩ := bind_eq_ok.mp hstep
      obtain rfl := ok.inj hstep
      have hn := hcalls i hi n hop
      apply h₁.set hn hcomp
      · apply foldlM_invariant (fun comp : HloComputation => comp.ids.Nodup) hcomp'
          (h₁.nodup n comp hn hcomp)
        exact fun id _ _ _ h hreshard => nodup_applyReshard h hreshard
      · intro I hidentity ctx v hv
        obtain ⟨val, rank, hevaluates⟩ := Evaluates.of_runs (h₁.nodup n comp hn hcomp) hv
        have hevaluates' : Evaluates I ctx val rank v comp' := by
          apply foldlM_invariant (Evaluates I ctx val rank v) hcomp' hevaluates
          exact fun id _ _ _ h hreshard => evaluates_applyReshard hidentity h hreshard
        exact hevaluates'.runs
  · obtain rfl := ok.inj hstep
    exact h₁

end modules

section group

variable {V : Type} {config : Config} {c c' : HloComputation} {m m' : Module} {isLoop : Bool}
  {groupBody : Module → ℕ → StatusOr Module} {below : ℕ → List ℕ}

/-- The bodies of the loops of a computation are grouped by `groupBody`, which changes the
computations `below` each; no two loops have one below them. -/
structure BodiesGrouped (V : Type) (config : Config) (c : HloComputation) (m : Module)
    (groupBody : Module → ℕ → StatusOr Module) (below : ℕ → List ℕ) : Prop where
  group : ∀ l ∈ c.instructions, isMicrobatchLoop config l = true → ∀ n, l.opcode = .whileLoop n →
    ∀ m₁ m₂, Grouped (MarksAreIdentities (V := V)) (· ∉ below n) m m₁ → groupBody m₁ n = ok m₂ →
      Grouped (MarksAreIdentities (V := V)) (· ∈ below n) m₁ m₂
  disjoint : ∀ l ∈ c.instructions, ∀ l' ∈ c.instructions, l.id ≠ l'.id → ∀ n n',
    isMicrobatchLoop config l = true → isMicrobatchLoop config l' = true →
      l.opcode = .whileLoop n → l'.opcode = .whileLoop n' → ∀ j ∈ below n, j ∉ below n'

/-- The computations below the loops that are before this place. -/
def BelowLoops (config : Config) (c : HloComputation) (order : List HloInstruction)
    (below : ℕ → List ℕ) (place j : ℕ) : Prop :=
  ∃ l ∈ c.instructions, isMicrobatchLoop config l = true ∧ position order l.id < place ∧
    ∃ n, l.opcode = .whileLoop n ∧ j ∈ below n

variable {order : List HloInstruction} {first : ℕ → ℕ} {g : Grouping} {building : Building}

/-- All tasks are built, and all bodies are grouped. -/
structure AllBuilt (V : Type) (config : Config) (c : HloComputation) (order : List HloInstruction)
    (first : ℕ → ℕ) (g : Grouping) (m : Module) (below : ℕ → List ℕ) (place : ℕ)
    (st : Building) : Prop where
  built : Built config m.properties c order first g.builderAssignments
    (g.builders.map BuildContext.callInstruction) st.module.nextId st.builders
  clones : ∀ x y, st.gteRootClones x = some y → y = x ∧
    ∃ i ∈ c.instructions, i.id = x ∧ isAlwaysTaskOperand config c i = ok true
  grouped : Grouped (MarksAreIdentities (V := V)) (BelowLoops config c order below place) m st.module

theorem allBuilt_start (h : Assigning config m.properties c order order.length first g) :
    AllBuilt V config c order first g m below 0 ⟨m, g.builders, g.gteRootClones⟩ where
  built := by
    refine ⟨h.tasks, rfl, ?_, ?_⟩
    · intro ctx hctx
      obtain ⟨hbuilder, hparameters⟩ := h.unbuilt ctx hctx
      refine ⟨⟨id, ?_⟩, ?_⟩
      · rw [hbuilder, hparameters]
        exact ⟨List.nodup_nil, by simp, by simp, by simp, by simp⟩
      · rw [hparameters]
        simp
    · intro ctx hctx
      rw [(h.unbuilt ctx hctx).1]
      exact Nat.zero_le _
  clones := h.clones
  grouped := .refl _ _ m

theorem AllBuilt.buildContext (hc : Groupable config m.properties c) (horder : TaskOrder c order)
    (hassigned : Assigning config m.properties c order order.length first g)
    (hbodies : BodiesGrouped V config c m groupBody below) {k : ℕ} {st st' : Building}
    (h : AllBuilt V config c order first g m below (first k) st)
    (hrun : ComputationGrouper.buildContext c g.builderAssignments groupBody st k = ok st') :
    AllBuilt V config c order first g m below (first k + 1) st' := by
  have hstep : ∀ j, BelowLoops config c order below (first k) j →
      BelowLoops config c order below (first k + 1) j := by
    rintro j ⟨l, hl, hloop, hlt, hbody⟩
    exact ⟨l, hl, hloop, hlt.trans (Nat.lt_succ_self _), hbody⟩
  obtain ⟨ctx, hctx, hrun⟩ := bind_eq_ok.mp hrun
  rw [elementAt_eq_ok] at hctx
  split at hrun
  · rename_i loop hloop
    obtain ⟨i, hi, hrun⟩ := bind_eq_ok.mp hrun
    rw [getInstruction, deref_eq_ok] at hi
    split at hrun
    · rename_i body hop
      obtain ⟨m', hm', hrun⟩ := bind_eq_ok.mp hrun
      obtain rfl := ok.inj hrun
      obtain ⟨ctx₀, hctx₀, hloop₀⟩ : ∃ ctx₀, g.builders[k]? = some ctx₀ ∧
          ctx₀.callInstruction = some loop := by
        have hget := congrArg (fun calls : List (Option ℕ) => calls[k]?) h.built.calls
        simp only [List.getElem?_map, hctx, Option.map_some, hloop] at hget
        exact Option.map_eq_some_iff.mp hget.symm
      obtain ⟨l, hl, rfl, hmicrobatch, hplace⟩ := hassigned.loops k ctx₀ loop hctx₀ hloop₀
      rw [horder.mem l hl] at hi
      obtain rfl := Option.some.inj hi
      have hmem := mem_of_instruction (horder.mem l hl)
      have hbefore : Grouped (MarksAreIdentities (V := V)) (· ∉ below body) m st.module := by
        apply h.grouped.mono
        rintro j ⟨l', hl', hmicrobatch', hlt, n, hop', hj⟩
        apply hbodies.disjoint l' hl' l hmem _ n body hmicrobatch' hmicrobatch hop' hop j hj
        intro heq
        rw [heq, hplace] at hlt
        exact hlt.false
      have hgroup := hbodies.group l hmem hmicrobatch body hop st.module m' hbefore hm'
      refine ⟨⟨h.built.tasks, h.built.calls, h.built.built, ?_⟩, ?_, ?_⟩
      · exact fun d hd => (h.built.bound d hd).trans hgroup.module.nextId
      · intro x y hy
        dsimp only at hy
        split at hy
        · rename_i huser
          obtain rfl := Option.some.inj hy
          obtain ⟨u, hu, rfl⟩ := List.mem_map.mp huser
          exact ⟨rfl, u, (mem_users.mp hu).1, rfl,
            isAlwaysTaskOperand_loopUser hc (horder.mem l hl) hmicrobatch hu⟩
        · exact h.clones x y hy
      · apply (h.grouped.mono hstep).trans (hgroup.mono _)
        intro j hj
        exact ⟨l, hmem, hmicrobatch, hplace ▸ Nat.lt_succ_self _, body, hop, hj⟩
    · cases hrun
  · rename_i hnone
    obtain ⟨pair, hpair, hrun⟩ := bind_eq_ok.mp hrun
    obtain rfl := ok.inj hrun
    obtain ⟨hbuilt, hle⟩ := h.built.build hc horder hctx hnone hpair
    refine ⟨hbuilt, h.clones, (h.grouped.mono hstep).trans ?_⟩
    exact ⟨⟨hle, fun _ _ _ hb => hb⟩, le_refl _, fun _ _ _ => rfl, .refl _ _⟩

theorem AllBuilt.mono {place place' : ℕ} {st : Building}
    (h : AllBuilt V config c order first g m below place st) (hle : place ≤ place') :
    AllBuilt V config c order first g m below place' st := by
  refine ⟨h.built, h.clones, h.grouped.mono ?_⟩
  rintro j ⟨l, hl, hloop, hlt, hbody⟩
  exact ⟨l, hl, hloop, hlt.trans_le hle, hbody⟩

theorem exists_allBuilt (hc : Groupable config m.properties c) (horder : TaskOrder c order)
    (hassigned : Assigning config m.properties c order order.length first g)
    (hbodies : BodiesGrouped V config c m groupBody below)
    (hrun : (List.range g.builders.length).foldlM
      (ComputationGrouper.buildContext c g.builderAssignments groupBody)
      ⟨m, g.builders, g.gteRootClones⟩ = ok building) :
    ∃ place, AllBuilt V config c order first g m below place building := by
  have hall : ∃ place, (∀ k, g.builders.length ≤ k → k < g.builders.length → place ≤ first k) ∧
      AllBuilt V config c order first g m below place building := by
    apply foldlM_range (fun done st => ∃ place, (∀ k, done ≤ k → k < g.builders.length →
      place ≤ first k) ∧ AllBuilt V config c order first g m below place st) hrun
    · exact ⟨0, fun _ _ _ => Nat.zero_le _, allBuilt_start hassigned⟩
    · rintro k hk st st' ⟨place, hplace, hst⟩ hstep
      have hat := hst.mono (hplace k (le_refl k) hk)
      refine ⟨_, ?_, hat.buildContext hc horder hassigned hbodies hstep⟩
      intro k' hle hk'
      exact hassigned.increasing k k' hle hk'
  obtain ⟨place, -, hbuilt⟩ := hall
  exact ⟨place, hbuilt⟩

/-- The calls are there when nothing is emitted yet. -/
theorem emitted_start {rank : ℕ → ℕ} {I : Interpretation V} {ctx : Context V} {v : Value V}
    (hc : Groupable config m.properties c) (hdag : Dag c rank) (horder : TaskOrder c order)
    (hfresh : ∀ id ∈ c.ids, id < building.module.nextId)
    (hclones : ∀ x y, building.gteRootClones x = some y → y = x ∧
      ∃ i ∈ c.instructions, i.id = x ∧ isAlwaysTaskOperand config c i = ok true)
    (h : c.Runs I ctx v) : ∃ val, Emitted config c order first I ctx v val
      (groupedRank config c order rank) 0 ⟨c, building.module, building.gteRootClones⟩ := by
  have hclosed : Closed c := ⟨hdag.nodup, hdag.root, hdag.closed⟩
  obtain ⟨val, hvalued, hresult⟩ := hclosed.exists_valued h
  refine ⟨val, ⟨hclosed, hvalued, ranked_groupedRank hc hdag horder, hresult⟩, hfresh,
    List.prefix_rfl, fun j hj => .inl hj, ?_⟩
  intro x y hy
  obtain ⟨heq, i, hi, hid, halways⟩ := hclones x y hy
  exact .itself heq hi hid halways

/-- The computations that are below the loops of a computation. -/
def BelowAnyLoop (config : Config) (c : HloComputation) (below : ℕ → List ℕ) (j : ℕ) : Prop :=
  ∃ l ∈ c.instructions, isMicrobatchLoop config l = true ∧ ∃ n, l.opcode = .whileLoop n ∧ j ∈ below n

/-- One computation is grouped. -/
theorem groupComputation_grouped (hc : Groupable config m.properties c)
    (hbound : ∀ id ∈ c.ids, id < m.nextId) (hbodies : BodiesGrouped V config c m groupBody below)
    (hrun : groupComputation config groupBody isLoop m c = ok (m', c')) :
    Grouped (MarksAreIdentities (V := V)) (BelowAnyLoop config c below) m m' ∧
      ∀ I : Interpretation V, MarksAreIdentities I → Modeled I m.called.length m'.called →
        ∀ ctx v, c.Runs I ctx v → ∃ val rank, Evaluates I ctx val rank v c' := by
  obtain ⟨g, hg, hrun⟩ := bind_eq_ok.mp hrun
  obtain ⟨building, hbuilding, hrun⟩ := bind_eq_ok.mp hrun
  obtain ⟨replacing, hreplacing, hrun⟩ := bind_eq_ok.mp hrun
  obtain ⟨c₁, hc₁, hrun⟩ := bind_eq_ok.mp hrun
  obtain ⟨c₂, hc₂, hrun⟩ := bind_eq_ok.mp hrun
  obtain ⟨called, hcalled, hrun⟩ := bind_eq_ok.mp hrun
  obtain ⟨rfl, rfl⟩ := Prod.mk.inj (ok.inj hrun)
  obtain ⟨order, first, -, horder, hassigned⟩ := assigning_of_assignTasks hc hg
  obtain ⟨place, hbuilt⟩ := exists_allBuilt hc horder hassigned hbodies hbuilding
  have hadds := addsTasks_foldlM hbuilt.built (le_refl _) (le_refl _) hreplacing
  obtain ⟨tasks, htasks, hnodup⟩ : ∃ tasks,
      replacing.module.called = building.module.called ++ tasks ∧ ∀ task ∈ tasks, task.ids.Nodup :=
    hadds.called
  have hcallsFrom : CallsFrom building.module.called.length c := by
    intro j hj n hop
    have hnot := hc.noCalls j hj
    simp [HloInstruction.isCall, hop] at hnot
  have htasksNodup : ∀ (n : ℕ) (comp : HloComputation), building.module.called.length ≤ n →
      replacing.module.called[n]? = some comp → comp.ids.Nodup := by
    intro n comp hn hcomp
    rw [htasks, List.getElem?_append_right hn] at hcomp
    exact hnodup comp (List.mem_of_getElem? hcomp)
  have hresharded : Resharded V building.module.called.length replacing.module.called called :=
    resharded_of_foldlM (((hadds.calls hcallsFrom).replaceRoots hc₁).removeUnusedInstructions hc₂)
      htasksNodup hcalled
  have hlength := hbuilt.grouped.length
  constructor
  · have hrefines := (Refines.of_prefix (htasks ▸ List.prefix_append _ _)).trans hresharded.refines
    refine ⟨⟨hbuilt.grouped.module.nextId.trans hadds.module.nextId,
      (hbuilt.grouped.module.trans hadds.module).properties⟩, ?_, ?_,
        hbuilt.grouped.keeps.trans hrefines.keepsResults⟩
    · dsimp only
      rw [hresharded.length, htasks, List.length_append]
      omega
    · intro n hn hnot
      dsimp only
      rw [hresharded.kept n (hn.trans_le hlength), htasks,
        List.getElem?_append_left (hn.trans_le hlength)]
      apply hbuilt.grouped.called n hn
      rintro ⟨l, hl, hloop, -, hbody⟩
      exact hnot ⟨l, hl, hloop, hbody⟩
  · intro I hI hmodeled ctx v hruns
    obtain ⟨rank, hdag⟩ := hc.acyclic
    have hcount : building.builders.length = g.builders.length := by
      simpa using congrArg List.length hbuilt.built.calls
    obtain ⟨val, hemitted⟩ := emitted_start hc hdag horder
      (fun id hid => (hbound id hid).trans_le hbuilt.grouped.module.nextId) hbuilt.clones hruns
    obtain ⟨val', rank', hagree, hall⟩ := hemitted.foldlM hc hdag horder hbuilt.built
      (fun k k' hlt hk' => hassigned.increasing k k' hlt (hcount ▸ hk')) (le_refl _) (le_refl _)
      (fun _ _ => rfl) hreplacing (hresharded.refines.modeled hI hlength hmodeled)
    have hroots : ∀ d ∈ building.builders, d.callInstruction = none → ∀ r ∈ d.roots, r ∈ c.ids := by
      intro d hd hnone r hr
      obtain ⟨k, hk⟩ := List.mem_iff_getElem?.mp hd
      obtain ⟨i, hi, rfl, -⟩ := (hbuilt.built.tasks.roots k d hk hnone r hr).instruction
      exact List.mem_map_of_mem hi
    have hrewired := hall.rewiring.replaceRoots hdag
      (fun k hk => hassigned.first_lt k (hcount ▸ hk)) (fun id hid => (hagree id hid).2) hall.clones
      hroots hc₁
    exact ⟨val', rank', evaluates_removeUnusedInstructions hrewired.evaluates hc₂⟩

end group

section nesting

variable {V : Type} {config : Config} {c : HloComputation} {m m' : Module}

/-- The computation that a loop is taken out with. -/
def microbatchBody (config : Config) (l : HloInstruction) : Option ℕ :=
  match l.opcode with
  | .whileLoop body => if config.hasBackendConfig l.id then some body else none
  | _ => none

/-- A computation and the bodies of the loops in it, and so on. -/
def belowBody (config : Config) (called : List HloComputation) : ℕ → ℕ → List ℕ
  | 0, _ => []
  | nesting + 1, n => n :: (called[n]?).elim [] fun body => body.instructions.flatMap fun l =>
      (microbatchBody config l).elim [] (belowBody config called nesting)

def bodiesBelow (config : Config) (called : List HloComputation) (nesting : ℕ)
    (c : HloComputation) : List ℕ :=
  c.instructions.flatMap fun l => (microbatchBody config l).elim [] (belowBody config called nesting)

theorem microbatchBody_eq_some {l : HloInstruction} {n : ℕ} : microbatchBody config l = some n ↔
    isMicrobatchLoop config l = true ∧ l.opcode = .whileLoop n := by
  unfold microbatchBody isMicrobatchLoop
  split
  · rename_i body hop
    split <;> simp_all
  · simp_all

/-- Each of these computations can be grouped, and is the body of one loop. -/
structure Bodies (config : Config) (m : Module) (ns : List ℕ) : Prop where
  body : ∀ n ∈ ns, ∃ body, m.called[n]? = some body ∧ Groupable config m.properties body ∧
    ∀ id ∈ body.ids, id < m.nextId
  nodup : ns.Nodup

theorem Bodies.sublist {ns ns' : List ℕ} (h : Bodies config m ns) (hsub : ns'.Sublist ns) :
    Bodies config m ns' :=
  ⟨fun n hn => h.body n (hsub.subset hn), h.nodup.sublist hsub⟩

theorem includeIndirectlyInBuilder_of_extends {properties properties' : Properties}
    {i : HloInstruction}
    (hextends : ∀ b, properties i.id = some b → properties' i.id = some b) {b : Bool}
    (h : includeIndirectlyInBuilder config properties c i = ok b) :
    includeIndirectlyInBuilder config properties' c i = ok b := by
  obtain ⟨replicate, hreplicate, h⟩ := bind_eq_ok.mp h
  apply bind_eq_ok.mpr ⟨replicate, _, h⟩
  obtain ⟨derivedInput, hderived, hreplicate⟩ := bind_eq_ok.mp hreplicate
  exact bind_eq_ok.mpr ⟨derivedInput,
    deref_eq_ok.mpr (hextends derivedInput (deref_eq_ok.mp hderived)), hreplicate⟩

theorem Groupable.of_extends (h : Groupable config m.properties c)
    (hbound : ∀ id ∈ c.ids, id < m.nextId) (hextends : m.Extends m') :
    Groupable config m'.properties c := by
  refine ⟨h.acyclic, h.elements, h.loopUsers, h.leaves, h.noCalls, h.rootUsers, ?_⟩
  intro i hi hroot
  apply (h.rootElements i hi hroot).imp_left
  apply includeIndirectlyInBuilder_of_extends
  exact hextends.properties i.id (hbound i.id (List.mem_map_of_mem hi))

theorem belowBody_congr {called called' : List HloComputation} {nesting n : ℕ}
    (h : ∀ k ∈ belowBody config called nesting n, called'[k]? = called[k]?) :
    belowBody config called' nesting n = belowBody config called nesting n := by
  induction nesting generalizing n with
  | zero => rfl
  | succ nesting ih =>
    rw [belowBody] at h
    rw [belowBody, belowBody, h n (List.mem_cons_self ..)]
    cases hbody : called[n]? with
    | none => rfl
    | some body =>
      congr 1
      apply List.flatMap_congr
      intro l hl
      cases hl' : microbatchBody config l with
      | none => rfl
      | some k =>
        apply ih
        intro x hx
        apply h x (List.mem_cons_of_mem _ _)
        rw [hbody]
        exact List.mem_flatMap.mpr ⟨l, hl, by rw [hl']; exact hx⟩

/-- A module in which other computations are grouped. -/
theorem Bodies.of_grouped {P : Interpretation V → Prop} {ns : List ℕ} (h : Bodies config m ns)
    (hgrouped : Grouped P (· ∉ ns) m m') : Bodies config m' ns := by
  refine ⟨?_, h.nodup⟩
  intro n hn
  obtain ⟨body, hbody, hgroupable, hbound⟩ := h.body n hn
  have hlt := (List.getElem?_eq_some_iff.mp hbody).1
  refine ⟨body, (hgrouped.called n hlt (not_not.mpr hn)).trans hbody,
    hgroupable.of_extends hbound hgrouped.module, ?_⟩
  exact fun id hid => (hbound id hid).trans_le hgrouped.module.nextId

/-- The bodies below one loop. -/
theorem belowBody_sublist {called : List HloComputation} {nesting n : ℕ} {l : HloInstruction}
    (hl : l ∈ c.instructions) (hn : microbatchBody config l = some n) :
    (belowBody config called nesting n).Sublist (bodiesBelow config called nesting c) := by
  rw [bodiesBelow, List.flatMap_def]
  apply List.sublist_flatten_of_mem
  exact List.mem_map.mpr ⟨l, hl, by rw [hn]; rfl⟩

theorem bodiesGrouped {nesting : ℕ}
    (hbodies : Bodies config m (bodiesBelow config m.called nesting c))
    (hgroup : ∀ {m m' : Module} {n : ℕ}, Bodies config m (belowBody config m.called nesting n) →
      groupBody config nesting m n = ok m' →
        Grouped (MarksAreIdentities (V := V)) (· ∈ belowBody config m.called nesting n) m m') :
    BodiesGrouped V config c m (groupBody config nesting) (belowBody config m.called nesting) := by
  constructor
  · intro l hl hloop n hop m₁ m₂ hgrouped hrun
    have hbelow := hbodies.sublist (belowBody_sublist hl (microbatchBody_eq_some.mpr ⟨hloop, hop⟩))
    have hsame : belowBody config m₁.called nesting n = belowBody config m.called nesting n := by
      apply belowBody_congr
      intro k hk
      obtain ⟨body, hbody, -⟩ := hbelow.body k hk
      exact hgrouped.called k (List.getElem?_eq_some_iff.mp hbody).1 (not_not.mpr hk)
    have hstep := hgroup (hsame.symm ▸ hbelow.of_grouped hgrouped) hrun
    rwa [hsame] at hstep
  · intro l hl l' hl' hne n n' hloop hloop' hop hop' j hj hj'
    have hpairwise := (List.nodup_flatMap.mp hbodies.nodup).2
    have : Std.Symm (Function.onFun List.Disjoint fun l =>
        (microbatchBody config l).elim [] (belowBody config m.called nesting)) :=
      ⟨fun _ _ h => List.Disjoint.symm h⟩
    have hdisjoint := hpairwise.forall hl hl' (fun heq => hne (heq ▸ rfl))
    have hn := microbatchBody_eq_some.mpr ⟨hloop, hop⟩
    have hn' := microbatchBody_eq_some.mpr ⟨hloop', hop'⟩
    simp only [Function.onFun, hn, hn', Option.elim_some] at hdisjoint
    exact hdisjoint hj hj'

/-- A body is replaced by what it is grouped into. -/
theorem keepsResults_set {P : Interpretation V → Prop} {called : List HloComputation} {n number : ℕ}
    {comp comp' : HloComputation} (hcomp : called[n]? = some comp) (hn : n < number)
    (hruns : ∀ I : Interpretation V, P I → Modeled I number called → ∀ ctx v,
      comp.Runs I ctx v → comp'.Runs I ctx v) : KeepsResults P called (called.set n comp') := by
  intro k old hold
  by_cases hk : n = k
  · subst hk
    rw [hcomp] at hold
    obtain rfl := Option.some.inj hold
    refine ⟨comp', List.getElem?_set_self (List.getElem?_eq_some_iff.mp hcomp).1, ?_⟩
    intro I I' _ hP' hkept hmodels ctx v hv
    apply hruns I' hP' _ ctx v (hkept.runs hv)
    intro j task hj htask
    exact hmodels j task ((List.getElem?_set_ne (by omega)).trans htask)
  · exact ⟨old, (List.getElem?_set_ne hk).trans hold, fun _ _ _ _ hkept _ _ _ hv => hkept.runs hv⟩

theorem groupBody_grouped {nesting : ℕ} {m m' : Module} {n : ℕ}
    (hbodies : Bodies config m (belowBody config m.called nesting n))
    (hrun : groupBody config nesting m n = ok m') :
    Grouped (MarksAreIdentities (V := V)) (· ∈ belowBody config m.called nesting n) m m' := by
  induction nesting generalizing m m' n with
  | zero => cases hrun
  | succ nesting ih =>
    obtain ⟨body, hbody, hrun⟩ := bind_eq_ok.mp hrun
    rw [elementAt_eq_ok] at hbody
    obtain ⟨⟨m₁, body'⟩, hpair, hrun⟩ := bind_eq_ok.mp hrun
    obtain rfl := ok.inj hrun
    have hbelow : belowBody config m.called (nesting + 1) n =
        n :: bodiesBelow config m.called nesting body := by
      rw [belowBody, hbody]
      rfl
    rw [hbelow] at hbodies ⊢
    obtain ⟨body₀, hbody₀, hgroupable, hbound⟩ := hbodies.body n (List.mem_cons_self ..)
    rw [hbody] at hbody₀
    obtain rfl := Option.some.inj hbody₀
    have hlt := (List.getElem?_eq_some_iff.mp hbody).1
    obtain ⟨hnew, -⟩ := List.nodup_cons.mp hbodies.nodup
    obtain ⟨hgrouped, hruns⟩ := groupComputation_grouped hgroupable hbound
      (bodiesGrouped (hbodies.sublist (List.sublist_cons_self ..)) ih) hpair
    have hbelow' : ∀ j, BelowAnyLoop config body (belowBody config m.called nesting) j →
        j ∈ bodiesBelow config m.called nesting body := by
      rintro j ⟨l, hl, hloop, k, hop, hj⟩
      exact (belowBody_sublist hl (microbatchBody_eq_some.mpr ⟨hloop, hop⟩)).subset hj
    have hkept : m₁.called[n]? = some body :=
      (hgrouped.called n hlt fun hin => hnew (hbelow' n hin)).trans hbody
    refine ⟨⟨hgrouped.module.nextId, hgrouped.module.properties⟩, ?_, ?_, ?_⟩
    · dsimp only
      rw [List.length_set]
      exact hgrouped.length
    · intro k hk hnot
      rw [List.mem_cons, not_or] at hnot
      dsimp only
      rw [List.getElem?_set_ne (Ne.symm hnot.1)]
      exact hgrouped.called k hk fun hin => hnot.2 (hbelow' k hin)
    · apply hgrouped.keeps.trans (keepsResults_set hkept hlt _)
      intro I hI hmodeled ctx v hv
      obtain ⟨val, rank, hevaluates⟩ := hruns I hI hmodeled ctx v hv
      exact hevaluates.runs

end nesting

/-- A loop between two tasks of one colour, and a task that reads through a mark. -/
def loopConfig : Config where
  postOrder c := c.ids
  hasBackendConfig id := id == 4

def loopEntry : HloComputation where
  instructions := [
    { id := 0, opcode := .parameter 0 },
    { id := 1, opcode := .other "negate", operands := [0] },
    { id := 2, opcode := .other "add", operands := [1, 1], color := some "a" },
    { id := 3, opcode := .tuple, operands := [2], shape := .tuple [(.f32, [])] },
    { id := 4, opcode := .whileLoop 0, operands := [3], shape := .tuple [(.f32, [])] },
    { id := 5, opcode := .getTupleElement 0, operands := [4], color := some "a" },
    { id := 6, opcode := .other "add", operands := [5, 2], color := some "a" },
    { id := 7, opcode := .customCall kCustomCallArgumentRecolor, operands := [6], color := some "b" },
    { id := 8, opcode := .other "negate", operands := [7], color := some "b" },
    { id := 9, opcode := .tuple, operands := [8, 6], shape := .tuple [(.f32, []), (.f32, [])] }]
  root := 9

def loopBody : HloComputation where
  instructions := [
    { id := 10, opcode := .parameter 0, shape := .tuple [(.f32, [])] },
    { id := 11, opcode := .getTupleElement 0, operands := [10] },
    { id := 12, opcode := .other "add", operands := [11, 11], color := some "a" },
    { id := 13, opcode := .other "add", operands := [12, 11], color := some "b" },
    { id := 14, opcode := .tuple, operands := [13], shape := .tuple [(.f32, [])] }]
  root := 14

def loopModule : Module where
  called := [loopBody]
  nextId := 15
  properties _ := some false

/-- Integers, each loop running twice. -/
def integers : Machine ℤ where
  offset k := k
  operation
    | .customCall _, _, v :: _ => some v
    | .other "negate", _, [.data x] => some (.data (-x))
    | .other "add", _, [.data x, .data y] => some (.data (x + y))
    | _, _, _ => none
  trips _ := 2
  iterationOffset _ t := t

theorem dag_of_ids {c : HloComputation} (hnodup : c.ids.Nodup)
    (hclosed : ∀ i ∈ c.instructions, ∀ o ∈ i.operands, o ∈ c.ids)
    (hbelow : ∀ i ∈ c.instructions, ∀ o ∈ i.operands, o < i.id) (hroot : c.root ∈ c.ids)
    (helements : ∀ i ∈ c.instructions, i.isGetTupleElement = true → i.operands.length = 1) :
    ∃ rank, Dag c rank := by
  refine ⟨id, hnodup, hclosed, hbelow, hroot, ?_⟩
  intro i hi helement
  exact List.length_eq_one_iff.mp (helements i hi helement)

theorem groupable_loopEntry : Groupable loopConfig loopModule.properties loopEntry where
  acyclic := dag_of_ids (by decide) (by decide) (by decide) (by decide) (by decide)
  elements := by
    unfold ColorDfs.OnlyElements
    decide
  loopUsers := by decide
  leaves := by decide
  noCalls := by decide
  rootUsers := by decide
  rootElements := by decide

theorem groupable_loopBody : Groupable loopConfig loopModule.properties loopBody where
  acyclic := dag_of_ids (by decide) (by decide) (by decide) (by decide) (by decide)
  elements := by
    unfold ColorDfs.OnlyElements
    decide
  loopUsers := by decide
  leaves := by decide
  noCalls := by decide
  rootUsers := by decide
  rootElements := by decide

end ComputationGrouper
end MultiMeshJax
