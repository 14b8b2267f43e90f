import MultiMeshJax.Hlo.Machine
import MultiMeshJax.LoopUnroll.Clones

/-! The values of the clones: those of the instructions of the body in the same iteration. -/
namespace MultiMeshJax
namespace LoopUnroll

open StatusOr HloComputation

variable {V : Type} {I : Interpretation V} {ctx : Context V} {rank : ℕ → ℕ} {result : Value V}
  {val : ℕ → Value V} {first iter : ℕ} {loop : Loop} {before : HloComputation} {st st' : CloneState}
  {initial values : List (Value V)} {bval : ℕ → Value V} {b : HloInstruction}

theorem evaluates_of_extends {c c' : HloComputation} (h : Evaluates I ctx val rank result c)
    (hids : c'.ids = c.ids) (hroot : c'.root = c.root) (hextends : Extends c c') :
    Evaluates I ctx val rank result c' := by
  have hsame : ∀ j ∈ c'.instructions, ∃ i ∈ c.instructions, SameData i j := by
    intro j hj
    have hid : j.id ∈ c.ids := hids ▸ List.mem_map_of_mem hj
    obtain ⟨i, hi, hij⟩ := List.mem_map.mp hid
    obtain ⟨k, hk, hsame⟩ := hextends i.id i (instruction_of_mem h.nodup hi)
    have hnodup : c'.ids.Nodup := hids ▸ h.nodup
    have heq : k = j := by
      apply List.inj_on_of_nodup_map hnodup (mem_of_instruction hk) hj
      rw [hsame.id, hij]
    exact ⟨i, hi, heq ▸ hsame⟩
  refine ⟨⟨hids ▸ h.nodup, ?_, ?_⟩, ?_, ?_, hroot ▸ h.result⟩
  · rw [hids, hroot]
    exact h.root
  · intro j hj o ho
    obtain ⟨i, hi, hsame⟩ := hsame j hj
    rw [hids]
    exact h.closed i hi o (hsame.operands ▸ ho)
  · intro j hj
    obtain ⟨i, hi, hsame⟩ := hsame j hj
    have happly := h.valued i hi
    unfold Interpretation.apply at happly ⊢
    rw [hsame.opcode, hsame.operands, hsame.shape, hsame.offset, hsame.id]
    exact happly
  · intro j hj o ho
    obtain ⟨i, hi, hsame⟩ := hsame j hj
    rw [hsame.id]
    exact h.ranked i hi o (hsame.operands ▸ ho)

/-- The next clone may read this value under this id. -/
structure Available (rank : ℕ → ℕ) (val : ℕ → Value V) (st : CloneState) (id : ℕ) (v : Value V) :
    Prop where
  mem : id ∈ st.parent.ids
  rank : rank id < rank st.nextId
  value : val id = v

theorem Available.renamed {id : ℕ} {v : Value V} (h : Available rank val st id v)
    (hrenamed : Renamed st st') : Available rank val st' id v where
  mem := hrenamed.ids ▸ h.mem
  rank := hrenamed.nextId ▸ h.rank
  value := h.value

/-- The parent between two clones: its values, those that the loop starts from, and those of
the tuple that the last iteration has left. -/
structure Cloning (I : Interpretation V) (ctx : Context V) (rank : ℕ → ℕ) (result : Value V)
    (first : ℕ) (loop : Loop) (before : HloComputation) (initial values : List (Value V))
    (val : ℕ → Value V) (st : CloneState) : Prop where
  evaluates : Evaluates I ctx val rank result st.parent
  extended : Extends before st.parent
  unmoved : st.parent.root = before.root
  fresh : st.Fresh
  first : first ≤ st.nextId
  inputs : List.Forall₂ (Available rank val st) loop.inputs initial
  previous : ∃ prev, st.parent.instruction st.prevLoopOutputTuple = some prev ∧
    List.Forall₂ (Available rank val st) prev.operands values
  tuple : Available rank val st st.prevLoopOutputTuple (.tuple values)

/-- The clones have the values of the body. -/
def Cloned (rank : ℕ → ℕ) (val bval : ℕ → Value V) (st : CloneState) : Prop :=
  ∀ id v, st.cloneMap id = some v → Available rank val st v (bval id)

theorem Cloning.renamed (h : Cloning I ctx rank result first loop before initial values val st)
    (hrenamed : Renamed st st') :
    Cloning I ctx rank result first loop before initial values val st' where
  evaluates := evaluates_of_extends h.evaluates hrenamed.ids hrenamed.root hrenamed.parent
  extended := h.extended.trans hrenamed.parent
  unmoved := hrenamed.root.trans h.unmoved
  fresh := hrenamed.fresh h.fresh
  first := hrenamed.nextId ▸ h.first
  inputs := h.inputs.imp fun _ _ hv => hv.renamed hrenamed
  previous := by
    obtain ⟨prev, hprev, hvalues⟩ := h.previous
    obtain ⟨prev', hprev', hsame⟩ := hrenamed.parent _ _ hprev
    refine ⟨prev', hrenamed.prevLoopOutputTuple ▸ hprev', ?_⟩
    rw [hsame.operands]
    exact hvalues.imp fun _ _ hv => hv.renamed hrenamed
  tuple := hrenamed.prevLoopOutputTuple ▸ h.tuple.renamed hrenamed

theorem Cloned.renamed (h : Cloned rank val bval st) (hrenamed : Renamed st st') :
    Cloned rank val bval st' := by
  intro id v hv
  rw [hrenamed.cloneMap] at hv
  exact (h id v hv).renamed hrenamed

theorem Available.congr {id : ℕ} {v : Value V} (h : Available rank val st id v)
    (hparent : st'.parent = st.parent) (hnext : st'.nextId = st.nextId) :
    Available rank val st' id v where
  mem := hparent ▸ h.mem
  rank := hnext ▸ h.rank
  value := h.value

theorem Cloning.congr (h : Cloning I ctx rank result first loop before initial values val st)
    (hparent : st'.parent = st.parent) (hnext : st'.nextId = st.nextId)
    (hprev : st'.prevLoopOutputTuple = st.prevLoopOutputTuple) :
    Cloning I ctx rank result first loop before initial values val st' where
  evaluates := hparent ▸ h.evaluates
  extended := hparent ▸ h.extended
  unmoved := hparent ▸ h.unmoved
  fresh := by
    unfold CloneState.Fresh
    rw [hparent, hnext]
    exact h.fresh
  first := hnext ▸ h.first
  inputs := h.inputs.imp fun _ _ hv => hv.congr hparent hnext
  previous := by
    rw [hparent, hprev]
    obtain ⟨prev, hfound, hvalues⟩ := h.previous
    exact ⟨prev, hfound, hvalues.imp fun _ _ hv => hv.congr hparent hnext⟩
  tuple := hprev ▸ h.tuple.congr hparent hnext

theorem Cloned.congr (h : Cloned rank val bval st) (hparent : st'.parent = st.parent)
    (hnext : st'.nextId = st.nextId) (hmap : st'.cloneMap = st.cloneMap) :
    Cloned rank val bval st' := by
  intro id v hv
  rw [hmap] at hv
  exact (h id v hv).congr hparent hnext

theorem Cloning.setClone (h : Cloning I ctx rank result first loop before initial values val st)
    (id v : ℕ) : Cloning I ctx rank result first loop before initial values val
      (st.setClone id v) :=
  h.congr rfl rfl rfl

theorem Cloned.setClone (h : Cloned rank val bval st) {id v : ℕ}
    (hv : Available rank val st v (bval id)) : Cloned rank val bval (st.setClone id v) := by
  intro id' v' hv'
  change Function.update st.cloneMap id (some v) id' = some v' at hv'
  by_cases heq : id' = id
  · subst heq
    rw [Function.update_self] at hv'
    obtain rfl := Option.some.inj hv'
    exact hv.congr rfl rfl
  · rw [Function.update_of_ne heq] at hv'
    exact (h id' v' hv').congr rfl rfl

section add

variable {clone : HloInstruction} {w : Value V}

theorem Available.add (hfresh : st.Fresh) (hmono : rank st.nextId < rank (st.nextId + 1)) {id : ℕ}
    {v : Value V} (h : Available rank val st id v) :
    Available rank (Function.update val st.nextId w) (st.add clone) id v where
  mem := by
    rw [ids_add]
    exact List.mem_append_left _ h.mem
  rank := h.rank.trans hmono
  value := by
    rw [Function.update_of_ne (hfresh id h.mem).ne]
    exact h.value

/-- A clone whose operands are available is added with its value. -/
theorem Cloning.add (h : Cloning I ctx rank result first loop before initial values val st)
    (hrank : ∀ a a', first ≤ a → a < a' → rank a < rank a') (clone : HloInstruction)
    {args : List (Value V)}
    (hoperands : List.Forall₂ (Available rank val st) clone.operands args)
    (happly : I.apply ctx { clone with id := st.nextId } args = some w) :
    Cloning I ctx rank result first loop before initial values (Function.update val st.nextId w)
        (st.add clone) ∧
      Available rank (Function.update val st.nextId w) (st.add clone) st.nextId w := by
  have hmono : rank st.nextId < rank (st.nextId + 1) :=
    hrank _ _ h.first (Nat.lt_succ_self _)
  have hargs : clone.operands.map val = args := by
    rw [← List.forall₂_eq_eq_eq, List.forall₂_map_left_iff]
    exact hoperands.imp fun _ _ hv => hv.value
  have happend := h.evaluates.append (j := { clone with id := st.nextId }) (w := w)
    (r := rank st.nextId) (fun hmem => (h.fresh _ hmem).false)
    (fun o ho => by
      obtain ⟨v, -, hv⟩ := exists_of_mem_forall₂ hoperands ho
      exact ⟨hv.mem, hv.rank⟩)
    (by rw [hargs]; exact happly)
  rw [Function.update_eq_self] at happend
  refine ⟨⟨happend, h.extended.trans (extends_add st clone), h.unmoved, fresh_add h.fresh clone,
    h.first.trans (Nat.le_succ _), ?_, ?_, h.tuple.add h.fresh hmono⟩, ?_, hmono,
    Function.update_self _ _ _⟩
  · exact h.inputs.imp fun _ _ hv => hv.add h.fresh hmono
  · obtain ⟨prev, hprev, hvalues⟩ := h.previous
    obtain ⟨prev', hprev', hsame⟩ := extends_add st clone _ _ hprev
    refine ⟨prev', hprev', ?_⟩
    rw [hsame.operands]
    exact hvalues.imp fun _ _ hv => hv.add h.fresh hmono
  · rw [ids_add]
    simp

theorem Cloned.add (h : Cloned rank val bval st) (hfresh : st.Fresh)
    (hmono : rank st.nextId < rank (st.nextId + 1)) :
    Cloned rank (Function.update val st.nextId w) bval (st.add clone) :=
  fun id v hv => (h id v hv).add hfresh hmono

end add

/-- The outputs of the body that `properties` take for unchanged are handed through it. -/
def HandedThrough (properties : LoopProperties) (body : HloComputation) (parameterTuple : ℕ)
    (inputs rootOperands : List ℕ) : Prop :=
  ∀ b ∈ body.instructions, ∀ k input, b.opcode = .getTupleElement k →
    b.operands[0]? = some parameterTuple → inputs[k]? = some input →
    properties input = some none → rootOperands[k]? = some b.id

/-- The body of a loop that can be unrolled. Slice offsets are not unrolled yet, and dummy
operations have no operands. -/
structure UnrollableBody (body : HloComputation) (cloned : List HloInstruction)
    (tuple : HloInstruction) : Prop extends CanonicalBody body cloned tuple where
  rootId : tuple.id = body.root
  custom : ∀ b ∈ cloned, ∀ target, b.opcode = .customCall target →
    b.operands = [] ∧ b.offset = none

/-- What is handed through has still the value that the loop started with. -/
def Unchanged (loop : Loop) (initial values : List (Value V)) : Prop :=
  ∀ b ∈ loop.body.instructions, ∀ k input, b.opcode = .getTupleElement k →
    b.operands[0]? = some loop.parameterTuple → loop.inputs[k]? = some input →
    loop.properties input = some none → initial[k]? = values[k]?

/-- The body in one iteration, with the values of its instructions. -/
structure BodyValues (I : Interpretation V) (loop : Loop) (iter : ℕ)
    (initial values : List (Value V)) (bval : ℕ → Value V) : Prop where
  valued : Valued I ⟨fun _ => some (.tuple values), iter * loop.config.microbatchSize⟩ bval loop.body
  parameter : ∃ p ∈ loop.body.instructions, p.id = loop.parameterTuple ∧ p.opcode = .parameter 0
  unchanged : Unchanged loop initial values

section step

theorem BodyValues.parameterTuple (h : BodyValues I loop iter initial values bval) :
    bval loop.parameterTuple = .tuple values := by
  obtain ⟨p, hp, hid, hop⟩ := h.parameter
  have happly := h.valued p hp
  unfold Interpretation.apply at happly
  rw [hop] at happly
  rw [← hid]
  exact (Option.some.inj happly).symm

/-- An element of the loop's tuple is taken from one operand. -/
theorem BodyValues.element (h : BodyValues I loop iter initial values bval)
    (hb : b ∈ loop.body.instructions) {k : ℕ} (hop : b.opcode = .getTupleElement k) :
    ∃ o vs, b.operands = [o] ∧ bval o = .tuple vs ∧ vs[k]? = some (bval b.id) := by
  have happly := h.valued b hb
  unfold Interpretation.apply at happly
  simp only [hop] at happly
  split at happly
  · rename_i vs hargs
    obtain ⟨o, os, hoperands⟩ : ∃ o os, b.operands = o :: os := by
      cases hoperands : b.operands with
      | nil => simp [hoperands] at hargs
      | cons o os => exact ⟨o, os, rfl⟩
    rw [hoperands, List.map_cons, List.cons.injEq, List.map_eq_nil_iff] at hargs
    exact ⟨o, vs, by rw [hoperands, hargs.2], hargs.1, happly⟩
  · cases happly

theorem BodyValues.element_of_parameter (h : BodyValues I loop iter initial values bval)
    (hb : b ∈ loop.body.instructions) {k : ℕ} (hop : b.opcode = .getTupleElement k)
    (hsource : b.operands[0]? = some loop.parameterTuple) : values[k]? = some (bval b.id) := by
  obtain ⟨o, vs, hoperands, htuple, helement⟩ := h.element hb hop
  obtain rfl : o = loop.parameterTuple := by simpa [hoperands] using hsource
  rw [h.parameterTuple] at htuple
  obtain rfl : values = vs := by simpa using htuple
  exact helement

theorem cloneElement_values (hbody : BodyValues I loop iter initial values bval)
    (hrank : ∀ a a', first ≤ a → a < a' → rank a < rank a')
    (h : Cloning I ctx rank result first loop before initial values val st)
    (hcloned : Cloned rank val bval st) (hb : b ∈ loop.body.instructions) {flag : Bool}
    (hrun : cloneElement loop st b = ok (st', flag)) : ∃ val',
      Cloning I ctx rank result first loop before initial values val' st' ∧
        Cloned rank val' bval st' := by
  unfold cloneElement at hrun
  obtain ⟨index, hindex, hrun⟩ := bind_eq_ok.mp hrun
  obtain ⟨input, hinput, hrun⟩ := bind_eq_ok.mp hrun
  obtain ⟨carried, hcarried, hrun⟩ := bind_eq_ok.mp hrun
  obtain ⟨source, hsource, hrun⟩ := bind_eq_ok.mp hrun
  have hop : b.opcode = .getTupleElement index := HloInstruction.tupleIndex_eq_ok.mp hindex
  have hinput := elementAt_eq_ok.mp hinput
  have hcarried : loop.properties input = some carried := deref_eq_ok.mp hcarried
  have hsource := elementAt_eq_ok.mp hsource
  split at hrun
  · rename_i hparameter
    rw [hparameter] at hsource
    have helement := hbody.element_of_parameter hb hop hsource
    split at hrun
    · obtain ⟨prev, hprev, hrun⟩ := bind_eq_ok.mp hrun
      obtain ⟨alias_, halias, hrun⟩ := bind_eq_ok.mp hrun
      obtain ⟨st₁, hshare, hrun⟩ := bind_eq_ok.mp hrun
      have hrenamed := renamed_shareName hshare
      obtain ⟨rfl, -⟩ := Prod.mk.inj (ok.inj hrun)
      obtain ⟨prev', hprev', hvalues⟩ := h.previous
      obtain rfl : prev' = prev := by simpa [hprev'] using deref_eq_ok.mp hprev
      obtain ⟨v, hv, havailable⟩ := forall₂_getElem? hvalues (elementAt_eq_ok.mp halias)
      obtain rfl : v = bval b.id := by simpa [hv] using helement
      exact ⟨val, (h.renamed hrenamed).setClone _ _,
        (hcloned.renamed hrenamed).setClone (havailable.renamed hrenamed)⟩
    · rename_i hnone
      -- the value that the loop started with has not changed
      obtain ⟨rfl, -⟩ := Prod.mk.inj (ok.inj hrun)
      obtain rfl : carried = none := by simpa using hnone
      have hsame := hbody.unchanged b hb index input hop hsource hinput hcarried
      obtain ⟨v, hv, havailable⟩ := forall₂_getElem? h.inputs hinput
      obtain rfl : v = bval b.id := by
        rw [← hsame, hv] at helement
        exact Option.some.inj helement
      exact ⟨val, h.setClone _ _, hcloned.setClone havailable⟩
  · obtain ⟨o, vs, hoperands, htuple, helement⟩ := hbody.element hb hop
    obtain rfl : o = source := by simpa [hoperands] using hsource
    obtain ⟨newOperand, hnew, hrun⟩ := bind_eq_ok.mp hrun
    obtain ⟨rfl, -⟩ := Prod.mk.inj (ok.inj hrun)
    have havailable := hcloned _ _ (getClone_eq_ok.mp hnew)
    have hadd := h.add hrank { b with
        operands := [newOperand], controlPredecessors := [], schedulingName := none }
      (.cons havailable .nil) (w := bval b.id) (by
        unfold Interpretation.apply
        simp only [hop, htuple]
        exact helement)
    have hmono : rank st.nextId < rank (st.nextId + 1) := hrank _ _ h.first (Nat.lt_succ_self _)
    exact ⟨_, hadd.1.setClone _ _, (hcloned.add h.fresh hmono).setClone hadd.2⟩

/-- Clones of operands that are available have the values of the operands. -/
theorem Cloned.operands (hcloned : Cloned rank val bval st) {operands newOperands : List ℕ}
    (hrun : operands.mapM st.getClone = ok newOperands) :
    List.Forall₂ (Available rank val st) newOperands (operands.map bval) := by
  rw [List.forall₂_map_right_iff]
  exact (mapM_eq_ok.mp hrun).flip.imp fun v o ho => hcloned o v (getClone_eq_ok.mp ho)

theorem cloneCall_values (hbody : BodyValues I loop iter initial values bval)
    (hrank : ∀ a a', first ≤ a → a < a' → rank a < rank a')
    (h : Cloning I ctx rank result first loop before initial values val st)
    (hcloned : Cloned rank val bval st) (hb : b ∈ loop.body.instructions) {n : ℕ}
    (hop : b.opcode = .call n) (hrun : cloneCall loop st b = ok st') : ∃ val',
      Cloning I ctx rank result first loop before initial values val' st' ∧
        Cloned rank val' bval st' := by
  unfold cloneCall at hrun
  split at hrun
  · cases hrun
  obtain ⟨newOperands, hoperands, hrun⟩ := bind_eq_ok.mp hrun
  obtain rfl := ok.inj hrun
  have happly := hbody.valued b hb
  have hadd := h.add hrank { b with
      operands := newOperands, controlPredecessors := [], schedulingName := none, sharding := none }
    (hcloned.operands hoperands) (w := bval b.id) (by
      unfold Interpretation.apply at happly ⊢
      simp only [hop] at happly ⊢
      exact happly)
  have hmono : rank st.nextId < rank (st.nextId + 1) := hrank _ _ h.first (Nat.lt_succ_self _)
  exact ⟨_, hadd.1.congr rfl rfl rfl,
    ((hcloned.add h.fresh hmono).setClone hadd.2).congr rfl rfl rfl⟩

theorem cloneCustomCall_values (hbody : BodyValues I loop iter initial values bval)
    (hrank : ∀ a a', first ≤ a → a < a' → rank a < rank a')
    (h : Cloning I ctx rank result first loop before initial values val st)
    (hcloned : Cloned rank val bval st) (hb : b ∈ loop.body.instructions) {target : String}
    (hop : b.opcode = .customCall target) (hoperands : b.operands = []) (hoffset : b.offset = none)
    (hrun : cloneCustomCall loop st iter b = ok st') : ∃ val',
      Cloning I ctx rank result first loop before initial values val' st' ∧
        Cloned rank val' bval st' := by
  have happly := hbody.valued b hb
  have hmono : rank st.nextId < rank (st.nextId + 1) := hrank _ _ h.first (Nat.lt_succ_self _)
  have hnone : List.Forall₂ (Available rank val st) b.operands [] := by
    rw [hoperands]
    exact .nil
  unfold cloneCustomCall at hrun
  split at hrun
  · rename_i hslice
    obtain ⟨offset, hint, hrun⟩ := bind_eq_ok.mp hrun
    obtain rfl := ok.inj hrun
    obtain rfl := (int_eq_ok.mp hint).2
    obtain rfl : target = kCustomCallSliceOffset := by
      simpa [HloInstruction.isCustomCall, hop] using hslice
    have hadd := h.add hrank { b with
        offset := some (iter * loop.config.microbatchSize), controlPredecessors := [] }
      hnone (w := bval b.id) (by
        unfold Interpretation.apply at happly ⊢
        simp only [hop, if_true, hoffset, Option.getD_none, Option.getD_some] at happly ⊢
        exact happly)
    exact ⟨_, hadd.1.setClone _ _, (hcloned.add h.fresh hmono).setClone hadd.2⟩
  · rename_i hslice
    split at hrun
    · obtain rfl := ok.inj hrun
      have htarget : target ≠ kCustomCallSliceOffset := by
        simpa [HloInstruction.isCustomCall, hop] using hslice
      have hadd := h.add hrank { b with controlPredecessors := [] } hnone
        (w := bval b.id) (by
          unfold Interpretation.apply at happly ⊢
          simp only [hop, if_neg htarget, hoperands, List.map_nil] at happly ⊢
          exact happly)
      exact ⟨_, hadd.1.setClone _ _, (hcloned.add h.fresh hmono).setClone hadd.2⟩
    · cases hrun

/-- The clone of an instruction has the value of the instruction in the iteration. -/
theorem cloneInstruction_values (hbody : BodyValues I loop iter initial values bval)
    (hrank : ∀ a a', first ≤ a → a < a' → rank a < rank a')
    (h : Cloning I ctx rank result first loop before initial values val st)
    (hcloned : Cloned rank val bval st) (hb : b ∈ loop.body.instructions)
    (htuple : b.opcode ≠ .tuple)
    (hcustom : ∀ target, b.opcode = .customCall target → b.operands = [] ∧ b.offset = none)
    (hrun : cloneInstruction loop iter st b = ok st') : ∃ val',
      Cloning I ctx rank result first loop before initial values val' st' ∧
        Cloned rank val' bval st' := by
  unfold cloneInstruction at hrun
  obtain ⟨⟨st₁, flag⟩, hclone, hrun⟩ := bind_eq_ok.mp hrun
  have hrenamed := renamed_colorClone hrun
  suffices hstep : ∃ val', Cloning I ctx rank result first loop before initial values val' st₁ ∧
      Cloned rank val' bval st₁ by
    obtain ⟨val', hval', hcloned'⟩ := hstep
    exact ⟨val', hval'.renamed hrenamed, hcloned'.renamed hrenamed⟩
  unfold cloneOpcode at hclone
  split at hclone
  · obtain ⟨rfl, -⟩ := Prod.mk.inj (ok.inj hclone)
    exact ⟨val, h, hcloned⟩
  · exact cloneElement_values hbody hrank h hcloned hb hclone
  · rename_i n hop
    obtain ⟨st₂, hst₂, hclone⟩ := bind_eq_ok.mp hclone
    obtain ⟨rfl, -⟩ := Prod.mk.inj (ok.inj hclone)
    exact cloneCall_values hbody hrank h hcloned hb hop hst₂
  · rename_i hop
    exact absurd hop htuple
  · rename_i target hop
    obtain ⟨st₂, hst₂, hclone⟩ := bind_eq_ok.mp hclone
    obtain ⟨rfl, -⟩ := Prod.mk.inj (ok.inj hclone)
    obtain ⟨hoperands, hoffset⟩ := hcustom target hop
    exact cloneCustomCall_values hbody hrank h hcloned hb hop hoperands hoffset hst₂
  · cases hclone

/-- The tuple of the outputs has the value of the root. -/
theorem cloneInstruction_root_values (hrank : ∀ a a', first ≤ a → a < a' → rank a < rank a')
    (h : Cloning I ctx rank result first loop before initial values val st)
    (hcloned : Cloned rank val bval st) (hop : b.opcode = .tuple)
    (hrun : cloneInstruction loop iter st b = ok st') : ∃ val',
      Cloning I ctx rank result first loop before initial (b.operands.map bval) val' st' := by
  unfold cloneInstruction at hrun
  obtain ⟨⟨st₁, flag⟩, hclone, hrun⟩ := bind_eq_ok.mp hrun
  have hlast := renamed_colorClone hrun
  suffices hstep : ∃ val',
      Cloning I ctx rank result first loop before initial (b.operands.map bval) val' st₁ by
    obtain ⟨val', hval'⟩ := hstep
    exact ⟨val', hval'.renamed hlast⟩
  unfold cloneOpcode at hclone
  simp only [hop] at hclone
  obtain ⟨st₂, hroot, hclone⟩ := bind_eq_ok.mp hclone
  obtain ⟨rfl, -⟩ := Prod.mk.inj (ok.inj hclone)
  unfold cloneRoot at hroot
  split at hroot
  · cases hroot
  obtain ⟨⟨st₃, newOperands⟩, hoperands, hroot⟩ := bind_eq_ok.mp hroot
  obtain rfl := ok.inj hroot
  obtain ⟨hrenamed, hvalues⟩ := cloneRootOperands_spec hoperands
  have h₃ := h.renamed hrenamed
  have hnews : List.Forall₂ (Available rank val st₃) newOperands (b.operands.map bval) := by
    rw [List.forall₂_map_right_iff]
    exact hvalues.flip.imp fun v o ho => (hcloned o v ho).renamed hrenamed
  have hmono : rank st₃.nextId < rank (st₃.nextId + 1) := hrank _ _ h₃.first (Nat.lt_succ_self _)
  have hadd := h₃.add hrank { b with
      operands := newOperands, controlPredecessors := [], schedulingName := none, color := none }
    hnews (w := .tuple (b.operands.map bval)) (by
      unfold Interpretation.apply
      simp only [hop])
  refine ⟨_, hadd.1.evaluates, hadd.1.extended, hadd.1.unmoved, hadd.1.fresh, hadd.1.first, ?_,
    ⟨_, instruction_add_self h₃.fresh _, ?_⟩, hadd.2.congr rfl rfl⟩
  · exact hadd.1.inputs.imp fun _ _ hv => hv.congr rfl rfl
  · exact hnews.imp fun _ _ hv => (hv.add h₃.fresh hmono).congr rfl rfl

end step

section iteration

variable {cloned : List HloInstruction} {tuple : HloInstruction} {values' : List (Value V)}

/-- The outputs of an iteration, of which those that are handed through are the same. -/
theorem BodyValues.outputs (h : BodyValues I loop iter initial values bval)
    (hshape : UnrollableBody loop.body cloned tuple)
    (hhanded : HandedThrough loop.properties loop.body loop.parameterTuple loop.inputs tuple.operands)
    (hresult : bval loop.body.root = .tuple values') :
    values' = tuple.operands.map bval ∧ Unchanged loop initial values' := by
  have hmem : tuple ∈ loop.body.instructions := by
    rw [hshape.instructions]
    simp
  have houtputs : values' = tuple.operands.map bval := by
    have happly := h.valued tuple hmem
    unfold Interpretation.apply at happly
    simp only [hshape.root] at happly
    rw [hshape.rootId, hresult] at happly
    simpa using happly.symm
  refine ⟨houtputs, ?_⟩
  intro b hb k input hop hsource hinput hnone
  rw [h.unchanged b hb k input hop hsource hinput hnone, h.element_of_parameter hb hop hsource,
    houtputs, List.getElem?_map, hhanded b hb k input hop hsource hinput hnone, Option.map_some]

/-- What an iteration of the loop computes, its clones do. -/
theorem cloneIteration_values (hshape : UnrollableBody loop.body cloned tuple)
    (hparameter : ∃ p ∈ loop.body.instructions, p.id = loop.parameterTuple ∧ p.opcode = .parameter 0)
    (hhanded : HandedThrough loop.properties loop.body loop.parameterTuple loop.inputs tuple.operands)
    (hrank : ∀ a a', first ≤ a → a < a' → rank a < rank a')
    (h : Cloning I ctx rank result first loop before initial values val st)
    (hunchanged : Unchanged loop initial values)
    (hruns : loop.body.Runs I
      ⟨fun _ => some (.tuple values), iter * loop.config.microbatchSize⟩ (.tuple values'))
    {rows rows' : List (List ℕ)} (hrun : cloneIteration loop (st, rows) iter = ok (st', rows')) :
    ∃ val', Cloning I ctx rank result first loop before initial values' val' st' ∧
      Unchanged loop initial values' := by
  obtain ⟨bval, brank, hbval⟩ := Evaluates.of_runs hshape.nodup hruns
  have hbody : BodyValues I loop iter initial values bval := ⟨hbval.valued, hparameter, hunchanged⟩
  obtain ⟨rfl, hunchanged'⟩ := hbody.outputs hshape hhanded hbval.result
  unfold cloneIteration at hrun
  obtain ⟨st₂, hfold, hrun⟩ := bind_eq_ok.mp hrun
  obtain ⟨rfl, -⟩ := Prod.mk.inj (ok.inj hrun)
  rw [hshape.instructions, List.foldlM_append] at hfold
  obtain ⟨st₁, hfront, hroot⟩ := bind_eq_ok.mp hfold
  obtain ⟨st₂', hlast, hdone⟩ := bind_eq_ok.mp hroot
  obtain rfl := ok.inj hdone
  have hclones : ∃ val', Cloning I ctx rank result first loop before initial values val' st₁ ∧
      Cloned rank val' bval st₁ := by
    apply foldlM_invariant (fun st => ∃ val',
      Cloning I ctx rank result first loop before initial values val' st ∧
        Cloned rank val' bval st) hfront
    · refine ⟨val, h.congr rfl rfl rfl, ?_⟩
      intro id v hv
      cases hv
    · rintro b hb acc acc' ⟨val', hval', hcloned⟩ hstep
      have hmem : b ∈ loop.body.instructions := by
        rw [hshape.instructions]
        exact List.mem_append_left _ hb
      exact cloneInstruction_values hbody hrank hval' hcloned hmem (hshape.front b hb)
        (hshape.custom b hb) hstep
  obtain ⟨val', hval', hcloned⟩ := hclones
  obtain ⟨val'', hval''⟩ := cloneInstruction_root_values hrank hval' hcloned hshape.root hlast
  exact ⟨val'', hval'', hunchanged'⟩

/-- What all iterations compute, the clones do. -/
theorem cloneIterations_values (hshape : UnrollableBody loop.body cloned tuple)
    (hparameter : ∃ p ∈ loop.body.instructions, p.id = loop.parameterTuple ∧ p.opcode = .parameter 0)
    (hhanded : HandedThrough loop.properties loop.body loop.parameterTuple loop.inputs tuple.operands)
    (hrank : ∀ a a', first ≤ a → a < a' → rank a < rank a')
    {states : ℕ → List (Value V)} (hstates : ∀ t < loop.config.numIterations, loop.body.Runs I
      ⟨fun _ => some (.tuple (states t)), t * loop.config.microbatchSize⟩ (.tuple (states (t + 1))))
    (h : Cloning I ctx rank result first loop before (states 0) (states 0) val st)
    {rows : List (List ℕ)} (hrun : cloneIterations loop st = ok (st', rows)) : ∃ val',
      Cloning I ctx rank result first loop before (states 0) (states loop.config.numIterations)
        val' st' := by
  have hall := foldlM_range (fun t acc => ∃ val',
    Cloning I ctx rank result first loop before (states 0) (states t) val' acc.1 ∧
      Unchanged loop (states 0) (states t)) hrun ⟨val, h, fun _ _ _ _ _ _ _ _ => rfl⟩ (by
    rintro t ht acc acc' ⟨val', hval', hunchanged⟩ hstep
    exact cloneIteration_values hshape hparameter hhanded hrank hval' hunchanged (hstates t ht) hstep)
  obtain ⟨val', hval', -⟩ := hall
  exact ⟨val', hval'⟩

end iteration

end LoopUnroll
end MultiMeshJax
