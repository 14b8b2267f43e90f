import MultiMeshJax.ComputationGrouper.Assigned
import MultiMeshJax.Foundation.Related
import MultiMeshJax.Hlo.Machine

/-! The computations of the tasks are made of clones, and of parameters for what comes from
outside. -/
namespace MultiMeshJax
namespace ComputationGrouper

open StatusOr HloComputation
open ComputationFusion (Builder)

/-- What an instruction of a task stands for, `origin` giving the instruction of the computation
that is grouped. -/
inductive CloneOf (config : Config) (c : HloComputation) (parameters : List ℕ) (origin : ℕ → ℕ)
    (j : HloInstruction) : Prop
  | parameter {n : ℕ} (hopcode : j.opcode = .parameter n) (hoperands : j.operands = [])
      (horigin : parameters[n]? = some (origin j.id))
  | instruction {i : HloInstruction} (hi : c.instruction (origin j.id) = some i)
      (halways : isAlwaysTaskOperand config c i = ok false) (hopcode : j.opcode = i.opcode)
      (hshape : j.shape = i.shape) (hoffset : j.offset = i.offset)
      (hoperands : j.operands.map origin = i.operands)

structure Clones (config : Config) (c : HloComputation) (b : Builder) (parameters : List ℕ)
    (origin : ℕ → ℕ) : Prop where
  nodup : (b.instructions.map HloInstruction.id).Nodup
  below : ∀ j ∈ b.instructions, j.id < b.nextId
  operands : ∀ j ∈ b.instructions, ∀ o ∈ j.operands,
    o ∈ b.instructions.map HloInstruction.id ∧ o < j.id
  cloned : ∀ x y, b.cloneMap x = some y → y ∈ b.instructions.map HloInstruction.id ∧ origin y = x
  copy : ∀ j ∈ b.instructions, CloneOf config c parameters origin j

section clones

variable {config : Config} {c : HloComputation} {b : Builder} {parameters parameters' : List ℕ}
  {origin origin' : ℕ → ℕ} {j : HloInstruction}

theorem CloneOf.congr (h : CloneOf config c parameters origin j)
    (hparameters : parameters <+: parameters') (hid : origin' j.id = origin j.id)
    (hoperands : ∀ o ∈ j.operands, origin' o = origin o) :
    CloneOf config c parameters' origin' j := by
  cases h with
  | parameter hopcode hnil horigin =>
    refine .parameter hopcode hnil ?_
    obtain ⟨rest, rfl⟩ := hparameters
    rw [List.getElem?_append_left (List.getElem?_eq_some_iff.mp horigin).1, hid]
    exact horigin
  | instruction hi halways hopcode hshape hoffset hmap =>
    refine .instruction (hid ▸ hi) halways hopcode hshape hoffset ?_
    rw [← hmap]
    exact List.map_congr_left hoperands

/-- An instruction is added, as the clone of `x`. -/
theorem Clones.add (h : Clones config c b parameters origin) {x : ℕ}
    (hparameters : parameters <+: parameters')
    (hoperands : ∀ o ∈ j.operands, o ∈ b.instructions.map HloInstruction.id)
    (hcopy : CloneOf config c parameters' (Function.update origin b.nextId x)
      { j with id := b.nextId }) :
    Clones config c
      { b.add j with cloneMap := Function.update b.cloneMap x (some b.nextId) } parameters'
      (Function.update origin b.nextId x) := by
  have hlt : ∀ o ∈ b.instructions.map HloInstruction.id, o < b.nextId := by
    intro o ho
    obtain ⟨k, hk, rfl⟩ := List.mem_map.mp ho
    exact h.below k hk
  have hkeep : ∀ o ∈ b.instructions.map HloInstruction.id,
      Function.update origin b.nextId x o = origin o :=
    fun o ho => Function.update_of_ne (hlt o ho).ne _ _
  have hids : (b.add j).instructions.map HloInstruction.id =
      b.instructions.map HloInstruction.id ++ [b.nextId] := by
    simp [Builder.add]
  constructor
  · dsimp only
    rw [hids, List.nodup_append]
    refine ⟨h.nodup, by simp, ?_⟩
    intro o ho o' ho' heq
    rw [List.mem_singleton.mp ho'] at heq
    exact (hlt o ho).ne heq
  · intro k hk
    rcases List.mem_append.mp hk with hk | hk
    · exact (h.below k hk).trans (Nat.lt_succ_self _)
    · rw [List.mem_singleton.mp hk]
      exact Nat.lt_succ_self _
  · intro k hk o ho
    dsimp only
    rw [hids]
    rcases List.mem_append.mp hk with hk | hk
    · obtain ⟨hin, hless⟩ := h.operands k hk o ho
      exact ⟨List.mem_append_left _ hin, hless⟩
    · rw [List.mem_singleton.mp hk] at ho ⊢
      exact ⟨List.mem_append_left _ (hoperands o ho), hlt o (hoperands o ho)⟩
  · intro y clone hclone
    dsimp only at hclone ⊢
    rw [hids]
    by_cases heq : y = x
    · rw [heq, Function.update_self] at hclone
      obtain rfl := Option.some.inj hclone
      rw [Function.update_self]
      exact ⟨List.mem_append_right _ (List.mem_singleton_self _), heq.symm⟩
    · rw [Function.update_of_ne heq] at hclone
      obtain ⟨hin, horigin⟩ := h.cloned y clone hclone
      rw [hkeep clone hin]
      exact ⟨List.mem_append_left _ hin, horigin⟩
  · intro k hk
    rcases List.mem_append.mp hk with hk | hk
    · exact (h.copy k hk).congr hparameters (hkeep k.id (List.mem_map_of_mem hk))
        fun o ho => hkeep o (h.operands k hk o ho).1
    · rw [List.mem_singleton.mp hk]
      exact hcopy

theorem Clones.setNextId (h : Clones config c b parameters origin) {nextId : ℕ}
    (hle : b.nextId ≤ nextId) : Clones config c { b with nextId := nextId } parameters origin :=
  ⟨h.nodup, fun j hj => (h.below j hj).trans_le hle, h.operands, h.cloned, h.copy⟩

section values

variable {V : Type} {I : Interpretation V} {context context' : Context V} {val : ℕ → Value V}

/-- What is not always an operand does not depend on where it is computed. -/
theorem apply_of_not_always {i : HloInstruction} (h : isAlwaysTaskOperand config c i = ok false)
    (args : List (Value V)) : I.apply context' i args = I.apply context i args := by
  unfold Interpretation.apply
  unfold isAlwaysTaskOperand at h
  cases hop : i.opcode with
  | parameter n =>
    rw [hop] at h
    cases h
  | customCall target =>
    simp only [hop] at h ⊢
    split
    · rename_i htarget
      rw [htarget] at h
      cases ok.inj h
    · rfl
  | _ => rfl

theorem ids_taskComputation (roots : List ℕ) : (taskComputation b roots).1.ids =
    b.instructions.map HloInstruction.id ++ [b.nextId] := by
  simp [taskComputation, ids, Builder.add]

theorem Clones.nodup_taskComputation (h : Clones config c b parameters origin) (roots : List ℕ) :
    (taskComputation b roots).1.ids.Nodup := by
  rw [ids_taskComputation, List.nodup_append]
  refine ⟨h.nodup, by simp, ?_⟩
  intro o ho o' ho' heq
  obtain ⟨j, hj, rfl⟩ := List.mem_map.mp ho
  rw [List.mem_singleton.mp ho'] at heq
  exact (h.below j hj).ne heq

/-- The task gives the values of its roots from those of what it reads. -/
theorem Clones.runs (h : Clones config c b parameters origin) (hvalued : Valued I context val c)
    {roots clones : List ℕ} (hroots : List.Forall₂ (fun r y => b.cloneMap r = some y) roots clones) :
    (taskComputation b clones).1.Runs I (argumentContext (parameters.map val))
      (.tuple (roots.map val)) := by
  let value : ℕ → Value V :=
    Function.update (val ∘ origin) b.nextId (.tuple (roots.map val))
  have hvalue : ∀ o ∈ b.instructions.map HloInstruction.id, value o = val (origin o) := by
    intro o ho
    obtain ⟨j, hj, rfl⟩ := List.mem_map.mp ho
    exact Function.update_of_ne (h.below j hj).ne _ _
  have hclones : ∀ y ∈ clones, y ∈ b.instructions.map HloInstruction.id := by
    intro y hy
    obtain ⟨r, -, hr⟩ := exists_of_mem_forall₂ hroots.flip hy
    exact (h.cloned r y hr).1
  have hmem : ∀ j ∈ (taskComputation b clones).1.instructions, j ∈ b.instructions ∨
      (j.id = b.nextId ∧ j.opcode = .tuple ∧ j.operands = clones) := by
    intro j hj
    rcases List.mem_append.mp hj with hj | hj
    · exact .inl hj
    · rw [List.mem_singleton.mp hj]
      exact .inr ⟨rfl, rfl, rfl⟩
  have hids := @ids_taskComputation b clones
  have hwf : WellFormed (taskComputation b clones).1 := by
    refine ⟨⟨h.nodup_taskComputation clones, ?_, ?_⟩, id, ?_⟩
    · rw [hids]
      exact List.mem_append_right _ (List.mem_singleton_self _)
    · intro j hj o ho
      rw [hids]
      rcases hmem j hj with hj | ⟨-, -, hoperands⟩
      · exact List.mem_append_left _ (h.operands j hj o ho).1
      · exact List.mem_append_left _ (hclones o (hoperands ▸ ho))
    · intro j hj o ho
      rcases hmem j hj with hj | ⟨hid, -, hoperands⟩
      · exact (h.operands j hj o ho).2
      · obtain ⟨k, hk, rfl⟩ := List.mem_map.mp (hclones o (hoperands ▸ ho))
        rw [hid]
        exact h.below k hk
  have hruns : Valued I (argumentContext (parameters.map val)) value (taskComputation b clones).1 := by
    intro j hj
    rcases hmem j hj with hj | ⟨hid, hopcode, hoperands⟩
    · have hargs : j.operands.map value = (j.operands.map origin).map val := by
        rw [List.map_map]
        exact List.map_congr_left fun o ho => hvalue o (h.operands j hj o ho).1
      rw [hargs, hvalue j.id (List.mem_map_of_mem hj)]
      cases h.copy j hj with
      | parameter hopcode _ horigin =>
        simp [Interpretation.apply, hopcode, argumentContext, List.getElem?_map, horigin]
      | instruction hi halways hopcode hshape hoffset hoperands =>
        have happly := hvalued _ (mem_of_instruction hi)
        rw [id_of_instruction hi, ← apply_of_not_always halways, ← hoperands] at happly
        exact (Interpretation.Kept.refl I).apply hopcode hshape hoffset happly
    · have hargs : j.operands.map value = roots.map val := by
        rw [hoperands, ← List.forall₂_eq_eq_eq, List.forall₂_map_left_iff, List.forall₂_map_right_iff]
        apply hroots.flip.imp
        intro y r hr
        obtain ⟨hin, horigin⟩ := h.cloned r y hr
        rw [hvalue y hin, horigin]
      have hself : value b.nextId = .tuple (roots.map val) := Function.update_self ..
      rw [hargs, hid, hself]
      simp [Interpretation.apply, hopcode]
  have hresult := hwf.runs hruns
  have hroot : value (taskComputation b clones).1.root = .tuple (roots.map val) :=
    Function.update_self ..
  rwa [hroot] at hresult

end values

end clones

/-- A task that is built, from parameters that its instructions read. -/
structure TaskBuilt (config : Config) (c : HloComputation) (ctx : BuildContext) : Prop where
  clones : ∃ origin, Clones config c ctx.builder ctx.parameters origin
  parameters : ∀ p ∈ ctx.parameters, ∃ w ∈ ctx.instructionDfs, ∃ i, c.instruction w = some i ∧
    p ∈ i.operands

structure Built (config : Config) (properties : Properties) (c : HloComputation)
    (order : List HloInstruction) (first : ℕ → ℕ) (assignments : ℕ → Option ℕ)
    (calls : List (Option ℕ)) (nextId : ℕ) (builders : List BuildContext) : Prop where
  tasks : Tasks config properties c order first assignments builders
  calls : builders.map BuildContext.callInstruction = calls
  built : ∀ ctx ∈ builders, TaskBuilt config c ctx
  bound : ∀ ctx ∈ builders, ctx.builder.nextId ≤ nextId

/-- A task that is being built. -/
def BuildingTask (config : Config) (properties : Properties) (c : HloComputation)
    (order : List HloInstruction) (first : ℕ → ℕ) (assignments : ℕ → Option ℕ)
    (calls : List (Option ℕ)) (k : ℕ) (dfs : List ℕ) (nextId : ℕ) (builders : List BuildContext) :
    Prop :=
  ∃ ctx, builders[k]? = some ctx ∧ ctx.callInstruction = none ∧ ctx.instructionDfs = dfs ∧
    nextId ≤ ctx.builder.nextId ∧
    Built config properties c order first assignments calls ctx.builder.nextId builders

theorem map_callInstruction_set {builders : List BuildContext} {k : ℕ} {ctx ctx' : BuildContext}
    (hctx : builders[k]? = some ctx) (hcall : ctx'.callInstruction = ctx.callInstruction) :
    (builders.set k ctx').map BuildContext.callInstruction =
      builders.map BuildContext.callInstruction := by
  obtain ⟨hlt, hget⟩ := List.getElem?_eq_some_iff.mp hctx
  rw [List.map_set, hcall, ← hget, ← List.getElem_map BuildContext.callInstruction]
  exact List.set_getElem_self (by rwa [List.length_map])

section build

variable {config : Config} {properties : Properties} {c : HloComputation}
  {order : List HloInstruction} {first : ℕ → ℕ} {assignments : ℕ → Option ℕ}
  {calls : List (Option ℕ)} {k nextId : ℕ} {dfs : List ℕ} {builders builders' : List BuildContext}

theorem BuildingTask.addRoot
    (h : BuildingTask config properties c order first assignments calls k dfs nextId builders) {n root : ℕ}
    (hroot : ∀ ctx, builders[n]? = some ctx → ctx.callInstruction = none →
      TaskRoot config c order (first n) root)
    (hrun : ComputationGrouper.addRoot c builders n root = ok builders') :
    BuildingTask config properties c order first assignments calls k dfs nextId builders' := by
  obtain ⟨ctx, hctx, hnone, hdfs, hle, hbuilt⟩ := h
  have htasks := hbuilt.tasks.addRoot hroot hrun
  obtain ⟨d, roots, hd, rfl, -⟩ := addRoot_eq_ok hrun
  have hbuilt' : Built config properties c order first assignments calls ctx.builder.nextId
      (builders.set n { d with roots := roots }) := by
    refine ⟨htasks, ?_, ?_, ?_⟩
    · refine (map_callInstruction_set hd ?_).trans hbuilt.calls
      rfl
    · intro e he
      rcases List.mem_or_eq_of_mem_set he with he | rfl
      · exact hbuilt.built e he
      · have hold := hbuilt.built d (List.mem_of_getElem? hd)
        exact ⟨hold.clones, hold.parameters⟩
    · intro e he
      rcases List.mem_or_eq_of_mem_set he with he | rfl
      · exact hbuilt.bound e he
      · exact hbuilt.bound d (List.mem_of_getElem? hd)
  by_cases heq : n = k
  · subst heq
    rw [hctx] at hd
    obtain rfl := Option.some.inj hd
    exact ⟨_, List.getElem?_set_self (List.getElem?_eq_some_iff.mp hctx).1, hnone, hdfs, hle, hbuilt'⟩
  · exact ⟨ctx, (List.getElem?_set_ne heq).trans hctx, hnone, hdfs, hle, hbuilt'⟩

/-- The task that is being built changes. -/
theorem BuildingTask.set {bound : ℕ} {ctx ctx' : BuildContext} (hctx : builders[k]? = some ctx)
    (hnone : ctx.callInstruction = none)
    (hbuilt : Built config properties c order first assignments calls bound builders)
    (hcall : ctx'.callInstruction = ctx.callInstruction)
    (hdfs : ctx'.instructionDfs = ctx.instructionDfs) (hroots : ctx'.roots = ctx.roots)
    (hbound : bound ≤ ctx'.builder.nextId) (hle : nextId ≤ ctx'.builder.nextId)
    (hbuilt' : TaskBuilt config c ctx') :
    BuildingTask config properties c order first assignments calls k ctx.instructionDfs nextId
      (builders.set k ctx') := by
  refine ⟨ctx', List.getElem?_set_self (List.getElem?_eq_some_iff.mp hctx).1, hcall.trans hnone, hdfs,
    hle, ?_, ?_, ?_, ?_⟩
  · refine hbuilt.tasks.set hctx hcall ?_ ?_
    · rw [hdfs]
      exact hbuilt.tasks.dfs k ctx hctx
    · rw [hroots]
      exact hbuilt.tasks.roots k ctx hctx
  · rw [map_callInstruction_set hctx hcall]
    exact hbuilt.calls
  · intro e he
    rcases List.mem_or_eq_of_mem_set he with he | rfl
    · exact hbuilt.built e he
    · exact hbuilt'
  · intro e he
    rcases List.mem_or_eq_of_mem_set he with he | rfl
    · exact (hbuilt.bound e he).trans hbound
    · exact le_refl _

/-- An operand that is not in the task becomes a parameter. -/
theorem BuildingTask.cloneOperand
    (h : BuildingTask config properties c order first assignments calls k dfs nextId builders)
    {operand w : ℕ} {i : HloInstruction} (hw : w ∈ dfs) (hi : c.instruction w = some i)
    (hoperand : operand ∈ i.operands)
    (hrun : ComputationGrouper.cloneOperand c assignments k builders operand = ok builders') :
    BuildingTask config properties c order first assignments calls k dfs nextId builders' := by
  obtain ⟨d, hd, hrun⟩ := bind_eq_ok.mp hrun
  rw [elementAt_eq_ok] at hd
  split at hrun
  · obtain rfl := ok.inj hrun
    exact h
  · obtain ⟨p, hp, hrun⟩ := bind_eq_ok.mp hrun
    obtain ⟨ctx, hctx, hnone, rfl, hle, hbuilt⟩ := h
    rw [hctx] at hd
    obtain rfl := Option.some.inj hd
    obtain ⟨⟨origin, hclones⟩, hparameters⟩ := hbuilt.built ctx (List.mem_of_getElem? hctx)
    have hadded : BuildingTask config properties c order first assignments calls k ctx.instructionDfs
        nextId (builders.set k { ctx with
          builder := { ctx.builder.add (parameterClone ctx p) with
            cloneMap := Function.update ctx.builder.cloneMap operand (some ctx.builder.nextId) }
          parameters := ctx.parameters ++ [operand] }) := by
      refine BuildingTask.set hctx hnone hbuilt rfl rfl rfl (Nat.le_succ _)
        (hle.trans (Nat.le_succ _))
        ⟨⟨Function.update origin ctx.builder.nextId operand, ?_⟩, ?_⟩
      · apply hclones.add (List.prefix_append _ _)
        · intro o ho
          cases ho
        · refine .parameter rfl rfl ?_
          dsimp only
          rw [Function.update_self]
          exact List.getElem?_concat_length
      · intro q hq
        rcases List.mem_append.mp hq with hq | hq
        · exact hparameters q hq
        · rw [List.mem_singleton.mp hq]
          exact ⟨w, hw, i, hi, hoperand⟩
    split at hrun
    · rename_i producer hproducer
      apply hadded.addRoot _ hrun
      intro e he hcall
      obtain ⟨f, hf, -, -, -, hbuilt'⟩ := hadded
      exact hbuilt'.tasks.assigned operand producer e hproducer he hcall
    · obtain rfl := ok.inj hrun
      exact hadded

theorem BuildingTask.cloneWithNewOperands
    (h : BuildingTask config properties c order first assignments calls k dfs nextId builders)
    {i : HloInstruction} (hid : i.id ∈ dfs) (hi : c.instruction i.id = some i)
    (halways : isAlwaysTaskOperand config c i = ok false)
    (hrun : ComputationGrouper.cloneWithNewOperands c assignments k builders i = ok builders') :
    BuildingTask config properties c order first assignments calls k dfs nextId builders' := by
  obtain ⟨builders₁, hbuilders₁, hrun⟩ := bind_eq_ok.mp hrun
  obtain ⟨d, hd, hrun⟩ := bind_eq_ok.mp hrun
  obtain ⟨newOperands, hnewOperands, hrun⟩ := bind_eq_ok.mp hrun
  obtain rfl := ok.inj hrun
  rw [elementAt_eq_ok] at hd
  have h₁ : BuildingTask config properties c order first assignments calls k dfs nextId builders₁ := by
    apply foldlM_invariant (BuildingTask config properties c order first assignments calls k dfs nextId)
      hbuilders₁ h
    intro operand hoperand b b' hb hstep
    exact hb.cloneOperand hid hi hoperand hstep
  obtain ⟨ctx, hctx, hnone, rfl, hle, hbuilt⟩ := h₁
  rw [hctx] at hd
  obtain rfl := Option.some.inj hd
  obtain ⟨⟨origin, hclones⟩, hparameters⟩ := hbuilt.built ctx (List.mem_of_getElem? hctx)
  have hcloned : List.Forall₂ (fun y o => y ∈ ctx.builder.instructions.map HloInstruction.id ∧
      origin y = o) newOperands i.operands := by
    apply List.Forall₂.flip
    exact (mapM_eq_ok.mp hnewOperands).imp fun o y ho => hclones.cloned o y (deref_eq_ok.mp ho)
  have hoperands : ∀ y ∈ newOperands, y ∈ ctx.builder.instructions.map HloInstruction.id := by
    intro y hy
    obtain ⟨-, -, hin, -⟩ := exists_of_mem_forall₂ hcloned hy
    exact hin
  refine BuildingTask.set hctx hnone hbuilt rfl rfl rfl (Nat.le_succ _)
        (hle.trans (Nat.le_succ _))
    ⟨⟨Function.update origin ctx.builder.nextId i.id, ?_⟩, hparameters⟩
  apply hclones.add List.prefix_rfl hoperands
  refine .instruction ?_ halways rfl rfl rfl ?_
  · dsimp only
    rw [Function.update_self]
    exact hi
  · have hkeep : ∀ y ∈ newOperands,
        Function.update origin ctx.builder.nextId i.id y = origin y := by
      intro y hy
      obtain ⟨j, hj, rfl⟩ := List.mem_map.mp (hoperands y hy)
      exact Function.update_of_ne (hclones.below j hj).ne _ _
    rw [List.map_congr_left hkeep, ← List.forall₂_eq_eq_eq, List.forall₂_map_left_iff]
    exact hcloned.imp fun _ _ ho => ho.2

theorem BuildingTask.cloneInstruction (hc : Groupable config properties c)
    (horder : TaskOrder c order)
    (h : BuildingTask config properties c order first assignments calls k dfs nextId builders) {id : ℕ}
    (hid : id ∈ dfs)
    (hrun : ComputationGrouper.cloneInstruction c assignments k builders id = ok builders') :
    BuildingTask config properties c order first assignments calls k dfs nextId builders' := by
  obtain ⟨i, hi, hrun⟩ := bind_eq_ok.mp hrun
  rw [getInstruction, deref_eq_ok] at hi
  obtain ⟨root, hroot, hrun⟩ := bind_eq_ok.mp hrun
  have hin : InTask config properties c order (first k) id := by
    obtain ⟨ctx, hctx, hnone, rfl, -, hbuilt⟩ := h
    exact hbuilt.tasks.dfs k ctx hctx hnone id hid
  obtain ⟨i', hi', rfl, halways, hplace⟩ := hin.instruction
  have hi' := horder.mem i' hi'
  rw [hi'] at hi
  obtain rfl := Option.some.inj hi
  cases root with
  | false => exact h.cloneWithNewOperands hid hi' halways hrun
  | true =>
    obtain ⟨builders₁, hbuilders₁, hrun⟩ := bind_eq_ok.mp hrun
    refine BuildingTask.cloneWithNewOperands (h.addRoot ?_ hbuilders₁) hid hi' halways hrun
    intro ctx _ _
    exact ⟨⟨i', mem_of_instruction hi', rfl, halways⟩,
      hplace.imp_right fun hindirect => by
        rcases hc.rootElements i' (mem_of_instruction hi') hroot with hnot | honly
        · rw [hnot] at hindirect
          cases hindirect
        · exact honly⟩

/-- A task is built, with ids that are not used yet. -/
theorem Built.build (hc : Groupable config properties c) (horder : TaskOrder c order)
    (h : Built config properties c order first assignments calls nextId builders) {nextId' : ℕ}
    {ctx : BuildContext} (hctx : builders[k]? = some ctx) (hnone : ctx.callInstruction = none)
    (hrun : ComputationGrouper.build c assignments k builders nextId = ok (builders', nextId')) :
    Built config properties c order first assignments calls nextId' builders' ∧
      nextId ≤ nextId' := by
  obtain ⟨d, hd, hrun⟩ := bind_eq_ok.mp hrun
  rw [elementAt_eq_ok, hctx] at hd
  obtain rfl := Option.some.inj hd
  obtain ⟨builders₁, hbuilders₁, hrun⟩ := bind_eq_ok.mp hrun
  obtain ⟨last, hlast, hrun⟩ := bind_eq_ok.mp hrun
  obtain ⟨rfl, rfl⟩ := Prod.mk.inj (ok.inj hrun)
  rw [elementAt_eq_ok] at hlast
  obtain ⟨⟨origin, hclones⟩, hparameters⟩ := h.built ctx (List.mem_of_getElem? hctx)
  have hstart : BuildingTask config properties c order first assignments calls k ctx.instructionDfs
      nextId (builders.set k (setNextId nextId ctx)) :=
    BuildingTask.set hctx hnone h rfl rfl rfl (le_refl _) (le_refl _)
      ⟨⟨origin, hclones.setNextId (h.bound ctx (List.mem_of_getElem? hctx))⟩, hparameters⟩
  have hend : BuildingTask config properties c order first assignments calls k ctx.instructionDfs
      nextId builders₁ := by
    apply foldlM_invariant (BuildingTask config properties c order first assignments calls k
      ctx.instructionDfs nextId) hbuilders₁ hstart
    intro id hid b b' hb hstep
    exact hb.cloneInstruction hc horder hid hstep
  obtain ⟨ctx', hctx', -, -, hle, hbuilt⟩ := hend
  rw [hctx'] at hlast
  obtain rfl := Option.some.inj hlast
  exact ⟨hbuilt, hle⟩

end build

end ComputationGrouper
end MultiMeshJax
