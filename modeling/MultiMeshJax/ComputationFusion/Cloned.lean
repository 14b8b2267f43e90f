import MultiMeshJax.ComputationFusion.Collected
import MultiMeshJax.Foundation.Related

/-! The clones in the fused computation have the values that the instructions have in the
computations that the calls name. -/
namespace MultiMeshJax
namespace ComputationFusion

open StatusOr

variable {V : Type} {I : Interpretation V} {ctx : Context V}

/-- The parameters of a called computation are the operands of the call. -/
def callContext (ctx : Context V) (args : List (Value V)) : Context V where
  parameter k := args[k]?
  offset := ctx.offset

def Builder.computation (b : Builder) : HloComputation := ⟨b.instructions, 0⟩

section builder

variable {b : Builder}

/-- The ids of a builder are older than its next id. -/
def Builder.Fresh (b : Builder) : Prop := ∀ i ∈ b.instructions, i.id < b.nextId

theorem Builder.Fresh.add (h : b.Fresh) (i : HloInstruction) : (b.add i).Fresh := by
  intro j hj
  have hnext : (b.add i).nextId = b.nextId + 1 := rfl
  rw [hnext]
  rcases List.mem_append.mp hj with hj | hj
  · exact (h j hj).trans (Nat.lt_succ_self _)
  · rw [List.mem_singleton.mp hj]
    exact Nat.lt_succ_self _

theorem instruction_add (i : HloInstruction) (id : ℕ) (j : HloInstruction)
    (hj : b.computation.instruction id = some j) :
    (b.add i).computation.instruction id = some j := by
  unfold HloComputation.instruction at hj ⊢
  show (b.instructions ++ [{ i with id := b.nextId }]).find? _ = some j
  rw [List.find?_append]
  have hj' : b.instructions.find? (fun k => k.id == id) = some j := hj
  rw [hj']
  rfl

theorem instruction_add_self (h : b.Fresh) (i : HloInstruction) :
    (b.add i).computation.instruction b.nextId = some { i with id := b.nextId } := by
  unfold HloComputation.instruction
  show (b.instructions ++ [{ i with id := b.nextId }]).find? _ = some _
  rw [List.find?_append]
  have hnone : b.instructions.find? (fun k => k.id == b.nextId) = none := by
    rw [List.find?_eq_none]
    intro j hj heq
    have hlt := h j hj
    have hid : j.id = b.nextId := by simpa using heq
    omega
  rw [hnone]
  simp

theorem computes_add {id : ℕ} {v : Value V} (i : HloInstruction)
    (h : b.computation.Computes I ctx id v) : (b.add i).computation.Computes I ctx id v :=
  h.mono (instruction_add i)

end builder

section clones

variable {p : TaskProgram} {calls outputs : List ℕ} {st : Collected} {args : ℕ → List (Value V)}
  {newArgs : List (Value V)} {b b' : Builder} {call : ℕ} {i : HloInstruction}
  {comp : HloComputation}

/-- The operands of the calls have these values. -/
def CallArguments (I : Interpretation V) (ctx : Context V) (p : TaskProgram) (calls : List ℕ)
    (args : ℕ → List (Value V)) : Prop :=
  ∀ call i comp, Calls p calls call i comp →
    List.Forall₂ (p.Computes I ctx) i.operands (args call)

/-- The clones that have been built compute what they were cloned from. -/
structure Cloned (I : Interpretation V) (ctx : Context V) (p : TaskProgram) (calls : List ℕ)
    (args : ℕ → List (Value V)) (newArgs : List (Value V)) (b : Builder) : Prop where
  fresh : b.Fresh
  clones : ∀ call i comp, Calls p calls call i comp → ∀ id ∈ comp.ids, ∀ clone,
    b.cloneMap id = some clone → ∀ v, comp.Computes I (callContext ctx (args call)) id v →
      b.computation.Computes I (callContext ctx newArgs) clone v
  operands : ∀ operand clone, b.clonedOperandParams operand = some clone → ∀ v,
    p.Computes I ctx operand v → b.computation.Computes I (callContext ctx newArgs) clone v

theorem Calls.instruction_of_mem (hfusable : Fusable p calls) (hcalls : Calls p calls call i comp)
    {j : HloInstruction} (hj : j ∈ comp.instructions) : comp.instruction j.id = some j := by
  apply HloComputation.instruction_of_mem ?_ hj
  obtain ⟨n, -, hn⟩ := calledComputation_eq_ok.mp hcalls.2.2
  have hcalled := (List.nodup_append.mp hfusable.distinct).2.1
  rw [List.nodup_flatMap] at hcalled
  exact hcalled.1 comp (List.mem_of_getElem? hn)

/-- A parameter of a called computation has the value of the operand. -/
theorem computes_parameter (hfusable : Fusable p calls) (hargs : CallArguments I ctx p calls args)
    (hcalls : Calls p calls call i comp) {param : HloInstruction}
    (hparam : param ∈ comp.instructions) {number operand : ℕ}
    (hop : param.opcode = .parameter number) (hoperand : i.operands[number]? = some operand)
    {v : Value V} (hv : comp.Computes I (callContext ctx (args call)) param.id v) :
    p.Computes I ctx operand v := by
  obtain ⟨j, vs, hj, -, happly⟩ := hv.cases
  rw [hcalls.instruction_of_mem hfusable hparam] at hj
  cases hj
  obtain ⟨w, hw, hcomputes⟩ := forall₂_getElem? (hargs call i comp hcalls) hoperand
  have hparameter : (args call)[number]? = some v := by
    simpa [Interpretation.apply, hop, callContext] using happly
  rw [hw] at hparameter
  cases hparameter
  exact hcomputes

theorem Cloned.add (h : Cloned I ctx p calls args newArgs b) (j : HloInstruction) :
    Cloned I ctx p calls args newArgs (b.add j) where
  fresh := h.fresh.add j
  clones call i comp hcalls id hid clone hclone v hv :=
    computes_add j (h.clones call i comp hcalls id hid clone hclone v hv)
  operands operand clone hclone v hv := computes_add j (h.operands operand clone hclone v hv)

theorem addParameter_cloned (hfusable : Fusable p calls)
    (hargs : CallArguments I ctx p calls args) (hst : CollectedFrom p calls outputs st)
    (hnew : List.Forall₂ (p.Computes I ctx) st.parametersNeeded newArgs)
    (h : Cloned I ctx p calls args newArgs b) {operand : ℕ × ℕ}
    (hoperand : st.parametersNeeded[operand.2]? = some operand.1)
    (hrun : addParameter st b operand = ok b') : Cloned I ctx p calls args newArgs b' := by
  unfold addParameter at hrun
  obtain ⟨param, hparam, hrun⟩ := bind_eq_ok.mp hrun
  obtain rfl := ok.inj hrun
  obtain ⟨w, hw, hcomputes⟩ := forall₂_getElem? hnew hoperand
  have hadded := h.add { param with
    opcode := .parameter operand.2, operands := [], controlPredecessors := [] }
  have hself : ∀ v, p.Computes I ctx operand.1 v →
      (b.add { param with opcode := .parameter operand.2, operands := []
                          controlPredecessors := [] }).computation.Computes I
        (callContext ctx newArgs) b.nextId v := by
    intro v hv
    obtain rfl := hcomputes.unique hv
    apply HloComputation.Computes.of_operands (instruction_add_self h.fresh _) .nil
    simpa [Interpretation.apply, callContext] using hw
  constructor
  · exact hadded.fresh
  · intro call i comp hcalls id hid clone hclone v hv
    dsimp only at hclone
    split at hclone
    · rename_i hmem
      obtain rfl := Option.some.inj hclone
      obtain ⟨other, hother, rfl⟩ := List.mem_map.mp hmem
      obtain ⟨call', i', comp', number, hcalls', hmem', hop, hnumber⟩ :=
        hst.added operand.1 other hother
      obtain ⟨rfl, rfl, rfl⟩ := Calls.unique hfusable hcalls hcalls' hid
        (List.mem_map_of_mem hmem')
      exact hself v (computes_parameter hfusable hargs hcalls hmem' hop hnumber hv)
    · exact hadded.clones call i comp hcalls id hid clone hclone v hv
  · intro other clone hclone v hv
    dsimp only at hclone
    by_cases heq : other = operand.1
    · subst heq
      rw [Function.update_self] at hclone
      obtain rfl := Option.some.inj hclone
      exact hself v hv
    · rw [Function.update_of_ne heq] at hclone
      exact hadded.operands other clone hclone v hv

/-- Where the map gets a new entry that has the value of what it stands for, the clones are
still right. -/
theorem Cloned.update (hfusable : Fusable p calls) (hcalls : Calls p calls call i comp)
    (h : Cloned I ctx p calls args newArgs b) {j : HloInstruction} (hj : j ∈ comp.instructions)
    {entry : Option ℕ} (hentry : ∀ clone, entry = some clone → ∀ v,
      comp.Computes I (callContext ctx (args call)) j.id v →
        b.computation.Computes I (callContext ctx newArgs) clone v) :
    Cloned I ctx p calls args newArgs { b with cloneMap := Function.update b.cloneMap j.id entry } := by
  refine { h with clones := ?_ }
  intro call' i' comp' hcalls' id hid clone hclone v hv
  dsimp only at hclone
  by_cases heq : id = j.id
  · subst heq
    rw [Function.update_self] at hclone
    obtain ⟨rfl, rfl, rfl⟩ := Calls.unique hfusable hcalls' hcalls hid (List.mem_map_of_mem hj)
    exact hentry clone hclone v hv
  · rw [Function.update_of_ne heq] at hclone
    exact h.clones call' i' comp' hcalls' id hid clone hclone v hv

theorem cloneMap_of_clonedOperand {operand clone : ℕ} (h : clonedOperand b operand = ok clone) :
    b.cloneMap operand = some clone := by
  unfold clonedOperand at h
  split at h
  · rename_i id hid
    rw [hid, ok.inj h]
  · cases h

theorem forall₂_trans {A B C : Type} {R : A → B → Prop} {S : A → C → Prop} {T : B → C → Prop}
    {xs : List A} {ys : List B} {zs : List C} (hR : List.Forall₂ R xs ys)
    (hS : List.Forall₂ S xs zs) (hT : ∀ x y z, x ∈ xs → R x y → S x z → T y z) :
    List.Forall₂ T ys zs := by
  induction hR generalizing zs with
  | nil =>
    cases hS
    exact .nil
  | cons hxy _ ih =>
    cases hS with
    | cons hxz hrest =>
      exact .cons (hT _ _ _ (by simp) hxy hxz) (ih hrest fun x y z hx =>
        hT x y z (List.mem_cons_of_mem _ hx))

theorem outputRoot_eq_ok {output : HloInstruction} {root : ℕ} :
    outputRoot comp output = ok root ↔ ∃ index r, output.opcode = .getTupleElement index ∧
      comp.instruction comp.root = some r ∧ r.operands[index]? = some root := by
  unfold outputRoot
  rw [bind_eq_ok]
  constructor
  · rintro ⟨index, hindex, h⟩
    obtain ⟨r, hr, h⟩ := bind_eq_ok.mp h
    exact ⟨index, r, HloInstruction.tupleIndex_eq_ok.mp hindex, deref_eq_ok.mp hr,
      elementAt_eq_ok.mp h⟩
  · rintro ⟨index, r, hopcode, hr, h⟩
    exact ⟨index, HloInstruction.tupleIndex_eq_ok.mpr hopcode,
      bind_eq_ok.mpr ⟨r, deref_eq_ok.mpr hr, elementAt_eq_ok.mpr h⟩⟩

/-- A call has the tuple of the values of the operands of the called root. -/
theorem tuple_of_call (hfusable : Fusable p calls) (hcalls : Calls p calls call i comp)
    {vs : List (Value V)} (hvs : List.Forall₂ (p.Computes I ctx) i.operands vs) {w : Value V}
    (hw : p.Computes I ctx call w) : ∃ r elements, comp.instruction comp.root = some r ∧
      w = .tuple elements ∧
      List.Forall₂ (comp.Computes I (callContext ctx vs)) r.operands elements := by
  obtain ⟨k, tuple, hk, hvalues, hcalled⟩ := hw.cases
  rw [hcalls.2.1] at hk
  cases hk
  obtain ⟨n, hop, hn⟩ := calledComputation_eq_ok.mp hcalls.2.2
  obtain rfl : tuple = vs :=
    TaskProgram.forall₂_unique (fun id x y hx hy => hx.unique hy) hvalues hvs
  have hroots : comp.Computes I (callContext ctx tuple) comp.root w := by
    unfold TaskProgram.Applies at hcalled
    simp only [hop] at hcalled
    obtain ⟨comp', hcomp', hcalled⟩ := hcalled
    rw [hn] at hcomp'
    cases hcomp'
    exact hcalled
  obtain ⟨r, elements, hr, helements, happly⟩ := hroots.cases
  obtain ⟨r', hr', htuple⟩ := hfusable.roots comp (List.mem_of_getElem? hn)
  rw [hr] at hr'
  cases hr'
  refine ⟨r, elements, hr, ?_, helements⟩
  simpa [Interpretation.apply, htuple] using happly.symm

/-- The value of an output is that of the operand of the root which it takes out. -/
theorem computes_output (hfusable : Fusable p calls) (hargs : CallArguments I ctx p calls args)
    (hcalls : Calls p calls call i comp) {user : HloInstruction}
    (huser : user ∈ p.computation.users call) {root : ℕ} (hroot : outputRoot comp user = ok root)
    {v : Value V} (hv : p.Computes I ctx user.id v) :
    comp.Computes I (callContext ctx (args call)) root v := by
  obtain ⟨hgte, hoperands⟩ := hfusable.outputs call hcalls.1 user huser
  obtain ⟨j, ws, hj, hws, happly⟩ := hv.cases
  rw [hfusable.instruction_of_mem (mem_users.mp huser).1] at hj
  cases hj
  rw [hoperands] at hws
  obtain ⟨w, hw, rfl⟩ : ∃ w, p.Computes I ctx call w ∧ ws = [w] := by
    cases hws with
    | cons hw hrest =>
      cases hrest
      exact ⟨_, hw, rfl⟩
  obtain ⟨r, elements, hr, rfl, helements⟩ :=
    tuple_of_call hfusable hcalls (hargs call i comp hcalls) hw
  obtain ⟨index, r', hopcode, hr', hroot⟩ := outputRoot_eq_ok.mp hroot
  rw [hr] at hr'
  cases hr'
  obtain ⟨x, hx, hcomputes⟩ := forall₂_getElem? helements hroot
  have hv' : elements[index]? = some v := by
    unfold TaskProgram.Applies at happly
    simpa [hopcode, Interpretation.apply] using happly
  rw [hx] at hv'
  cases hv'
  exact hcomputes

/-- An output of a call that has a value has one. -/
theorem exists_output (hfusable : Fusable p calls) (hcalls : Calls p calls call i comp)
    {user : HloInstruction} (huser : user ∈ p.computation.users call) {root : ℕ}
    (hroot : outputRoot comp user = ok root) {w : Value V} (hw : p.Computes I ctx call w) :
    ∃ v, p.Computes I ctx user.id v := by
  obtain ⟨j, vs, hj, hvs, -⟩ := hw.cases
  rw [hcalls.2.1] at hj
  cases hj
  obtain ⟨r, elements, hr, rfl, helements⟩ := tuple_of_call hfusable hcalls hvs hw
  obtain ⟨index, r', hopcode, hr', hroot⟩ := outputRoot_eq_ok.mp hroot
  rw [hr] at hr'
  cases hr'
  obtain ⟨x, hx, -⟩ := forall₂_getElem? helements hroot
  have hoperands : List.Forall₂ (p.Computes I ctx) user.operands [.tuple elements] := by
    rw [(hfusable.outputs call hcalls.1 user huser).2]
    exact .cons hw .nil
  refine ⟨x, .of_operands (hfusable.instruction_of_mem (mem_users.mp huser).1) hoperands ?_⟩
  simpa [TaskProgram.Applies, hopcode, Interpretation.apply] using hx

/-- An operation gives the same whatever the arguments of its computation are. -/
theorem apply_congr {ctx ctx' : Context V} {j k : HloInstruction} {vs : List (Value V)}
    (hop : k.opcode = j.opcode) (hshape : k.shape = j.shape) (hoffset : k.offset = j.offset)
    (hctx : ctx'.offset = ctx.offset) (hparameter : ∀ number, j.opcode ≠ .parameter number) :
    I.apply ctx' k vs = I.apply ctx j vs := by
  unfold Interpretation.apply
  rw [hop, hshape, hoffset, hctx]
  cases hj : j.opcode with
  | parameter number => exact absurd hj (hparameter number)
  | _ => rfl

theorem cloneInstruction_cloned (hfusable : Fusable p calls)
    (hargs : CallArguments I ctx p calls args) (hcalls : Calls p calls call i comp)
    (h : Cloned I ctx p calls args newArgs b) {j : HloInstruction} (hj : j ∈ comp.instructions)
    (hrun : cloneInstruction i comp b j = ok b') : Cloned I ctx p calls args newArgs b' := by
  unfold cloneInstruction at hrun
  split at hrun
  · rename_i number hop
    obtain ⟨operand, hoperand, hrun⟩ := bind_eq_ok.mp hrun
    obtain rfl := ok.inj hrun
    apply h.update hfusable hcalls hj
    intro clone hclone v hv
    exact h.operands operand clone hclone v (computes_parameter hfusable hargs hcalls hj hop
      (elementAt_eq_ok.mp hoperand) hv)
  · rename_i hop
    split at hrun
    · obtain rfl := ok.inj hrun
      exact h
    · obtain ⟨operands, hoperands, hrun⟩ := bind_eq_ok.mp hrun
      obtain rfl := ok.inj hrun
      apply (h.add _).update hfusable hcalls hj
      intro clone hclone v hv
      obtain rfl := Option.some.inj hclone
      obtain ⟨k, vs, hk, hvs, happly⟩ := hv.cases
      rw [hcalls.instruction_of_mem hfusable hj] at hk
      cases hk
      have hvs' : List.Forall₂ ((b.add { j with
          operands := operands, controlPredecessors := [] }).computation.Computes I
            (callContext ctx newArgs)) operands vs := by
        apply forall₂_trans (mapM_eq_ok.mp hoperands) hvs
        intro o o' w _ ho hw
        obtain ⟨k, -, hk, -, -⟩ := hw.cases
        exact computes_add _ (h.clones call i comp hcalls o
          (HloComputation.mem_ids_of_instruction hk) o' (cloneMap_of_clonedOperand ho) w hw)
      apply HloComputation.Computes.of_operands (instruction_add_self h.fresh _) hvs'
      rw [← happly]
      exact apply_congr rfl rfl rfl rfl hop

theorem cloneOutput_cloned (hfusable : Fusable p calls) (hargs : CallArguments I ctx p calls args)
    (hcalls : Calls p calls call i comp) (h : Cloned I ctx p calls args newArgs b)
    {user : HloInstruction} (huser : user ∈ p.computation.users call)
    (hrun : cloneOutput comp b user = ok b') : Cloned I ctx p calls args newArgs b' := by
  unfold cloneOutput at hrun
  obtain ⟨root, hroot, hrun⟩ := bind_eq_ok.mp hrun
  obtain rfl := ok.inj hrun
  refine { h with operands := ?_ }
  intro operand clone hclone v hv
  dsimp only at hclone
  by_cases heq : operand = user.id
  · subst heq
    rw [Function.update_self] at hclone
    have hcomputes := computes_output hfusable hargs hcalls huser hroot hv
    obtain ⟨k, -, hk, -, -⟩ := hcomputes.cases
    exact h.clones call i comp hcalls root (HloComputation.mem_ids_of_instruction hk) clone hclone
      v hcomputes
  · rw [Function.update_of_ne heq] at hclone
    exact h.operands operand clone hclone v hv

theorem cloneCall_cloned (hfusable : Fusable p calls) (hargs : CallArguments I ctx p calls args)
    (hcall : call ∈ calls) (h : Cloned I ctx p calls args newArgs b)
    (hrun : cloneCall p b call = ok b') : Cloned I ctx p calls args newArgs b' := by
  unfold cloneCall at hrun
  obtain ⟨i, hi, hrun⟩ := bind_eq_ok.mp hrun
  obtain ⟨comp, hcomp, hrun⟩ := bind_eq_ok.mp hrun
  obtain ⟨b₁, hinstructions, houtputs⟩ := bind_eq_ok.mp hrun
  have hcalls : Calls p calls call i comp := ⟨hcall, deref_eq_ok.mp hi, hcomp⟩
  have h₁ := foldlM_invariant _ hinstructions h fun j hj b b' hb hstep =>
    cloneInstruction_cloned hfusable hargs hcalls hb hj hstep
  exact foldlM_invariant _ houtputs h₁ fun user huser b b' hb hstep =>
    cloneOutput_cloned hfusable hargs hcalls hb huser hstep

/-- The fused computation gives the values of the outputs that are needed. -/
theorem buildFused_computes (hfusable : Fusable p calls) (hargs : CallArguments I ctx p calls args)
    (hst : CollectedFrom p calls outputs st)
    (hnew : List.Forall₂ (p.Computes I ctx) st.parametersNeeded newArgs) {fused : HloComputation}
    {shape : Shape} {newCall : ℕ} (hrun : buildFused p calls st = ok (fused, shape, newCall))
    {vs : List (Value V)}
    (hvs : List.Forall₂ (fun root v => p.Computes I ctx root.1 v) st.rootsNeeded vs) :
    fused.Computes I (callContext ctx newArgs) fused.root (.tuple vs) := by
  unfold buildFused at hrun
  obtain ⟨b₁, hparameters, hrun⟩ := bind_eq_ok.mp hrun
  obtain ⟨b₂, hclones, hrun⟩ := bind_eq_ok.mp hrun
  obtain ⟨operands, hoperands, hrun⟩ := bind_eq_ok.mp hrun
  have hstart : Cloned I ctx p calls args newArgs { nextId := p.freshId } := by
    constructor
    · intro i hi
      cases hi
    · intro call i comp _ id _ clone hclone
      cases hclone
    · intro operand clone hclone
      cases hclone
  have h₁ := foldlM_invariant _ hparameters hstart fun operand hoperand b b' hb hstep =>
    addParameter_cloned hfusable hargs hst hnew hb (List.mem_zipIdx_iff_getElem?.mp hoperand) hstep
  have h₂ := foldlM_invariant _ hclones h₁ fun call hcall b b' hb hstep =>
    cloneCall_cloned hfusable hargs hcall hb hstep
  have hroots : List.Forall₂ (b₂.computation.Computes I (callContext ctx newArgs)) operands vs := by
    apply forall₂_trans (mapM_eq_ok.mp hoperands) hvs
    intro root clone v hmem hclone hv
    obtain ⟨call, i, comp, hcalls, user, huser, hid, hroot⟩ := hst.roots root hmem
    rw [← hid] at hv
    have hcomputes := computes_output hfusable hargs hcalls huser hroot hv
    obtain ⟨k, -, hk, -, -⟩ := hcomputes.cases
    have hclone' : b₂.cloneMap root.2 = some clone := by
      unfold fusedRootOperand at hclone
      split at hclone
      · rename_i id hid
        rw [hid, ok.inj hclone]
      · cases hclone
    exact h₂.clones call i comp hcalls root.2 (HloComputation.mem_ids_of_instruction hk) clone
      hclone' v hcomputes
  obtain ⟨rfl, rfl, rfl⟩ : _ ∧ _ ∧ _ := by simpa using ok.inj hrun
  have htuple := HloComputation.Computes.of_operands (instruction_add_self h₂.fresh
    { id := 0, opcode := .tuple, operands := operands
      shape := tupleShape (operands.map b₂.shapeOf) }) (hroots.imp fun _ _ h => computes_add _ h)
    (show I.apply (callContext ctx newArgs) _ vs = some (.tuple vs) from rfl)
  apply htuple.mono
  intro id i hi
  exact hi

end clones

end ComputationFusion
end MultiMeshJax
