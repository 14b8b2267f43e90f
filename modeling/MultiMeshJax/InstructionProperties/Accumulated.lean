import MultiMeshJax.InstructionProperties.Additive

/-! The lists of loop inputs are right exactly where every addition that is taken for an
accumulation is one. -/
namespace MultiMeshJax
namespace InstructionProperties

open StatusOr

section condition

variable (p : HloProgram) (reducer : ℕ → Option ℕ) (c : HloComputation)

/-- What is listed is a loop-carried sum, and only no-op custom calls are seen through. -/
structure Faithful (props : BackwardProperties) : Prop where
  listed : ∀ id ∈ c.ids, ∀ g ∈ (props id).additiveToWhileInput, IsAdditive p reducer c g id
  input : ∀ sum a b g, CountsAsInput c sum a b g → UpToNoOps c g a

/-- Every addition of which an operand counts as a loop input adds to this input, and is carried
into the next iteration or is a term of a sum that is. -/
def OnlyAccumulates : Prop :=
  ∀ sum a b g, CountsAsInput c sum a b g → UpToNoOps c g a ∧ IsAccumulated p reducer c g sum

/-- The operands of an instruction are listed before it. -/
def InPostOrder : Prop :=
  ∀ before i after, c.instructions = before ++ i :: after →
    ∀ o ∈ i.operands, o ∈ before.map HloInstruction.id

def CallsTo (i : HloInstruction) (comp : HloComputation) : Prop :=
  ∃ n, (i.opcode = .call n ∨ i.opcode = .whileLoop n) ∧ p.calledComputation n = ok comp

/-- The computation is reached through calls and loops. -/
def Visited (comp : HloComputation) : Prop :=
  Relation.ReflTransGen (fun c d => ∃ i ∈ c.instructions, CallsTo p i d) p.entry comp

end condition

variable {p : HloProgram} {reducer : ℕ → Option ℕ} {c : HloComputation}

theorem IsAccumulated.isAdditive {g id : ℕ} (h : IsAccumulated p reducer c g id) :
    IsAdditive p reducer c g id := by
  obtain ⟨element, sum, a, b, haccumulates, h⟩ := h
  exact ⟨element, sum, a, b, haccumulates, h.imp_right Or.inl⟩

/-- An element of the argument is found through the no-op custom calls. -/
theorem dealiasFrom_of_upToNoOps {instruction : HloInstruction} {g index id : ℕ}
    (hg : IsLoopElement c g index) (h : UpToNoOps c g id) {length : ℕ} {i : HloInstruction}
    {input : Option ℕ} (hi : c.instruction id = some i)
    (hnoOp : id = g ∨ isNoOpCustomCall instruction = true)
    (hrun : dealiasFrom c instruction length i = ok input) : input = some g := by
  obtain ⟨gte, t, tuple, hgte, hop, ht, htuple, hparam⟩ := hg
  induction h generalizing length i with
  | refl =>
    obtain rfl := Option.some.inj (hgte.symm.trans hi)
    cases length with
    | zero => cases hrun
    | succ length =>
      rw [dealiasFrom, hop] at hrun
      have htuple' : c.getInstruction t = ok tuple := by
        rw [HloComputation.getInstruction, htuple]
        rfl
      simp only [elementAt_eq_ok.mpr ht, ok_bind, htuple', hparam, if_true] at hrun
      rw [← ok.inj hrun, HloComputation.id_of_instruction hgte]
  | step hj hcall hoperand hrest ih =>
    rename_i j id operand
    obtain rfl := Option.some.inj (hj.symm.trans hi)
    have hcustom : ∃ target, j.opcode = .customCall target := by
      unfold isNoOpCustomCall at hcall
      split at hcall
      · exact ⟨_, ‹_›⟩
      · cases hcall
    obtain ⟨target, htarget⟩ := hcustom
    rcases hnoOp with rfl | hnoOp
    · obtain rfl := Option.some.inj (hgte.symm.trans hj)
      rw [hop] at htarget
      cases htarget
    · cases length with
      | zero => cases hrun
      | succ length =>
        rw [dealiasFrom, htarget] at hrun
        simp only [hnoOp, if_true, elementAt_eq_ok.mpr hoperand, ok_bind] at hrun
        obtain ⟨next, hnext, hrun⟩ := bind_eq_ok.mp hrun
        exact ih (deref_eq_ok.mp hnext) (Or.inr hnoOp) hrun

theorem dealiased_of_upToNoOps {g index id : ℕ} (hg : IsLoopElement c g index)
    (h : UpToNoOps c g id) {input : Option ℕ} (hrun : dealiased c id = ok input) :
    input = some g := by
  obtain ⟨i, hi, hrun⟩ := bind_eq_ok.mp hrun
  have hi : c.instruction id = some i := deref_eq_ok.mp hi
  refine dealiasFrom_of_upToNoOps hg h hi ?_ hrun
  cases h with
  | refl => exact Or.inl rfl
  | step hj hcall _ _ =>
    obtain rfl := Option.some.inj (hj.symm.trans hi)
    exact Or.inr hcall

/-- The operand of an accumulation counts as a loop input. -/
theorem Accumulates.countsAsInput {g element sum a b : ℕ} (h : Accumulates c g element sum a b)
    (hlooked : ∀ a b, AddsTo c sum a b → ∃ input, dealiased c a = ok input) :
    ∃ a' b' g', CountsAsInput c sum a' b' g' := by
  obtain ⟨index, hindex, -⟩ := h.carried
  obtain ⟨input, hinput⟩ := hlooked a b h.adds
  obtain rfl := dealiased_of_upToNoOps hindex h.input hinput
  obtain ⟨other, hother⟩ := hlooked b a h.adds.symm
  obtain ⟨i, hi, hadd, hoperands⟩ := h.adds
  rcases hoperands with ⟨ha, hb⟩ | ⟨hb, ha⟩
  · exact ⟨a, b, g, i, hi, hadd, Or.inl ⟨ha, hb, hinput⟩⟩
  · cases other with
    | none => exact ⟨a, b, g, i, hi, hadd, Or.inr ⟨hb, ha, hinput, hother⟩⟩
    | some g' => exact ⟨b, a, g', i, hi, hadd, Or.inl ⟨hb, ha, hother⟩⟩

/-- The lists of a computation hold what is accumulated. -/
def ListsAccumulated (p : HloProgram) (reducer : ℕ → Option ℕ) (c : HloComputation)
    (props : BackwardProperties) : Prop :=
  ∀ id ∈ c.ids, ∀ g ∈ (props id).additiveToWhileInput, IsAccumulated p reducer c g id

theorem ListsAccumulated.of_same {props props' : BackwardProperties}
    (h : ListsAccumulated p reducer c props) (hsame : SameAdditive props props') :
    ListsAccumulated p reducer c props' :=
  fun id hid g hg => h id hid g (hsame id ▸ hg)

/-- The other operand of an addition that only accumulates is above an accumulation. -/
theorem OnlyAccumulates.other (h : OnlyAccumulates p reducer c) {sum a b g : ℕ}
    (hcounts : CountsAsInput c sum a b g) : IsAccumulated p reducer c g b := by
  obtain ⟨hinput, element, sum', a', b', haccumulates, hsum⟩ := h sum a b g hcounts
  rcases hsum with rfl | htree
  · exact ⟨element, sum, a, b, ⟨hcounts.addsTo, hinput, haccumulates.carried,
      haccumulates.connected⟩, Or.inr .refl⟩
  · exact ⟨element, sum', a', b', haccumulates,
      Or.inr (htree.tail (Or.inl hcounts.addsTo.linear))⟩

/-- One instruction keeps the lists of its computation. -/
theorem ListsAccumulated.localStep (hcondition : OnlyAccumulates p reducer c)
    {i : HloInstruction} (hi : i ∈ c.instructions) {props props' : BackwardProperties}
    (h : ListsAccumulated p reducer c props) (hstep : LocalStep p reducer c i props props') :
    ListsAccumulated p reducer c props' := by
  intro id hid g hg
  rcases hstep.origin id g hg with hold | ⟨a, b, hcounts, hplace⟩ | ⟨hlist, hoperand, hnone⟩
  · exact h id hid g hold
  · rcases hplace with rfl | rfl
    · exact (hcondition i.id a b g hcounts).2
    · exact hcondition.other hcounts
  · obtain ⟨element, sum, a, b, haccumulates, hplace⟩ :=
      h i.id (List.mem_map_of_mem hi) g hlist
    rcases hplace with heq | htree
    · -- the accumulation itself has an operand that counts
      rw [← heq] at haccumulates
      obtain ⟨a', b', g', hcounts⟩ := haccumulates.countsAsInput hstep.looked
      exact absurd hcounts (hnone a' b' g')
    · exact ⟨element, sum, a, b, haccumulates, Or.inr (htree.tail hoperand)⟩

section run

variable {b : HloComputation}

theorem mem_ids_of_postOrder (hpost : InPostOrder c) {i : HloInstruction}
    (hi : i ∈ c.instructions) {o : ℕ} (ho : o ∈ i.operands) : o ∈ c.ids := by
  obtain ⟨before, after, hsplit⟩ := List.append_of_mem hi
  obtain ⟨j, hj, rfl⟩ := List.mem_map.mp (hpost before i after hsplit o ho)
  apply List.mem_map_of_mem
  rw [hsplit]
  exact List.mem_append_left _ hj

theorem SumOperand.mem_operands {i : HloInstruction} {id operand : ℕ}
    (hi : c.instruction id = some i) (h : SumOperand p reducer c id operand) :
    operand ∈ i.operands := by
  rcases h with (⟨other, j, hj, -, h⟩ | ⟨j, hj, -, h⟩) | ⟨j, hj, -, h⟩
  · obtain rfl := Option.some.inj (hj.symm.trans hi)
    rcases h with ⟨h, -⟩ | ⟨-, h⟩
    · exact List.mem_of_getElem? h
    · exact List.mem_of_getElem? h
  · obtain rfl := Option.some.inj (hj.symm.trans hi)
    exact List.mem_of_getElem? h
  · obtain rfl := Option.some.inj (hj.symm.trans hi)
    exact List.mem_of_getElem? h

/-- Two computations share no instruction. -/
theorem eq_of_mem_ids (hc : c ∈ p.computations) (hb : b ∈ p.computations) {id : ℕ}
    (hidc : id ∈ c.ids) (hidb : id ∈ b.ids) : c = b := by
  by_contra hne
  have hsymm : Std.Symm (Function.onFun List.Disjoint HloComputation.ids) :=
    ⟨fun _ _ h => List.Disjoint.symm h⟩
  exact (List.nodup_flatMap.mp p.distinct).2.forall hc hb hne hidc hidb

theorem instruction_of_mem (hc : c ∈ p.computations) {i : HloInstruction}
    (hi : i ∈ c.instructions) : c.instruction i.id = some i :=
  HloComputation.instruction_of_mem ((List.nodup_flatMap.mp p.distinct).1 c hc) hi

theorem self_notMem_operands (hc : c ∈ p.computations) (hpost : InPostOrder c)
    {i : HloInstruction} (hi : i ∈ c.instructions) : i.id ∉ i.operands := by
  intro hself
  obtain ⟨before, after, hsplit⟩ := List.append_of_mem hi
  have hmem := hpost before i after hsplit i.id hself
  have hnodup := (List.nodup_flatMap.mp p.distinct).1 c hc
  rw [HloComputation.ids, hsplit, List.map_append, List.nodup_append] at hnodup
  exact hnodup.2.2 _ hmem _ (List.mem_map_of_mem List.mem_cons_self) rfl

theorem notMem_operands_of_before (hc : c ∈ p.computations) (hpost : InPostOrder c)
    {before after : List HloInstruction} {i j : HloInstruction}
    (hsplit : c.instructions = before ++ i :: after) (hj : j ∈ before) : i.id ∉ j.operands := by
  intro hoperand
  obtain ⟨l₁, l₂, rfl⟩ := List.append_of_mem hj
  have hmem := hpost l₁ j (l₂ ++ i :: after) (by rw [hsplit, List.append_assoc]; rfl) i.id hoperand
  have hnodup := (List.nodup_flatMap.mp p.distinct).1 c hc
  rw [HloComputation.ids, hsplit, List.map_append, List.nodup_append] at hnodup
  refine hnodup.2.2 i.id ?_ i.id (List.mem_map_of_mem List.mem_cons_self) rfl
  rw [List.map_append]
  exact List.mem_append_left _ hmem

theorem CallsTo.eq {i : HloInstruction} {d e : HloComputation} (hd : CallsTo p i d)
    (he : CallsTo p i e) : d = e := by
  obtain ⟨n, hop, hd⟩ := hd
  obtain ⟨m, hop', he⟩ := he
  have hsame : n = m := by
    rcases hop with hop | hop <;> rcases hop' with hop' | hop' <;> rw [hop] at hop' <;>
      cases hop' <;> rfl
  subst hsame
  exact ok.inj (hd.symm.trans he)

/-- A step of the traversal is a local one, or the visit of a called computation. -/
theorem step_cases (hc : c ∈ p.computations) (hpost : InPostOrder c) {i : HloInstruction}
    (hi : i ∈ c.instructions) {props props' : BackwardProperties}
    {visit : HloComputation → BackwardProperties → StatusOr BackwardProperties}
    (hrun : addBackwardInstruction p reducer c visit props i = ok props') :
    ((∀ comp, ¬ CallsTo p i comp) ∧ LocalStep p reducer c i props props') ∨
      ∃ comp props₁ props₂, CallsTo p i comp ∧ SameAdditive props props₁ ∧
        visit comp props₁ = ok props₂ ∧ SameAdditive props₂ props' := by
  by_cases hcall : ∃ n, i.opcode = .call n
  · obtain ⟨n, hop⟩ := hcall
    right
    unfold addBackwardInstruction at hrun
    rw [hop] at hrun
    obtain ⟨comp, hcomp, hrun⟩ := bind_eq_ok.mp hrun
    obtain ⟨root, -, hrun⟩ := bind_eq_ok.mp hrun
    have hbefore : ∃ props₁, SameAdditive props props₁ ∧ (visit comp props₁ >>= fun props =>
        propagateParameters comp i.operands props) = ok props' := by
      split at hrun
      · obtain ⟨props₁, hprops₁, hrun⟩ := bind_eq_ok.mp hrun
        exact ⟨props₁, sameAdditive_propagateUsers hprops₁, hrun⟩
      · exact ⟨props, fun _ => rfl, hrun⟩
    obtain ⟨props₁, hsame, hrun⟩ := hbefore
    obtain ⟨props₂, hprops₂, hrun⟩ := bind_eq_ok.mp hrun
    exact ⟨comp, props₁, props₂, ⟨n, Or.inl hop, hcomp⟩, hsame, hprops₂,
      sameAdditive_propagateParameters hrun⟩
  · by_cases hloop : ∃ n, i.opcode = .whileLoop n
    · obtain ⟨n, hop⟩ := hloop
      right
      unfold addBackwardInstruction at hrun
      rw [hop] at hrun
      obtain ⟨comp, hcomp, hrun⟩ := bind_eq_ok.mp hrun
      obtain ⟨root, -, hrun⟩ := bind_eq_ok.mp hrun
      obtain ⟨props₁, hprops₁, hrun⟩ := bind_eq_ok.mp hrun
      obtain ⟨props₂, hprops₂, hrun⟩ := bind_eq_ok.mp hrun
      obtain ⟨input, -, hrun⟩ := bind_eq_ok.mp hrun
      obtain ⟨inputTuple, -, hrun⟩ := bind_eq_ok.mp hrun
      obtain ⟨param, -, hrun⟩ := bind_eq_ok.mp hrun
      refine ⟨comp, props₁, props₂, ⟨n, Or.inr hop, hcomp⟩, ?_, hprops₂,
        sameAdditive_propagateUsers hrun⟩
      intro id
      rw [sameAdditive_propagateUsers hprops₁ id, sameAdditive_setWhileOutputs comp root id]
    · left
      push Not at hcall hloop
      refine ⟨?_, localStep_addBackwardInstruction (instruction_of_mem hc hi)
        (self_notMem_operands hc hpost hi) hcall hloop hrun⟩
      rintro comp ⟨n, hop | hop, -⟩
      · exact hcall n hop
      · exact hloop n hop

/-- What local steps and equal lists keep, the traversal keeps. -/
theorem traversal_keeps (Inv : BackwardProperties → Prop)
    (hpost : ∀ c ∈ p.computations, InPostOrder c)
    (hsame : ∀ props props', SameAdditive props props' → Inv props → Inv props')
    (hlocal : ∀ c ∈ p.computations, ∀ i ∈ c.instructions, ∀ props props',
      LocalStep p reducer c i props props' → Inv props → Inv props')
    {nesting : ℕ} {props props' : BackwardProperties} (hc : c ∈ p.computations)
    (hrun : addBackwardProperties p reducer nesting c props = ok props') (h : Inv props) :
    Inv props' := by
  induction nesting generalizing c props props' with
  | zero => cases hrun
  | succ nesting ih =>
    apply foldlM_invariant Inv hrun h
    intro i hi s s' hs hstep
    have hi : i ∈ c.instructions := List.mem_reverse.mp hi
    rcases step_cases hc (hpost c hc) hi hstep with
      ⟨-, hlocalStep⟩ | ⟨comp, s₁, s₂, ⟨n, -, hcomp⟩, hbefore, hvisit, hafter⟩
    · exact hlocal c hc i hi s s' hlocalStep hs
    · have hmem := HloProgram.mem_computations_of_called hcomp
      exact hsame s₂ s' hafter (ih hmem hvisit (hsame s s₁ hbefore hs))

/-- The traversal lists what is accumulated in a computation that only accumulates. -/
theorem listsAccumulated_of_run (hpost : ∀ c ∈ p.computations, InPostOrder c)
    (hb : b ∈ p.computations) (hcondition : OnlyAccumulates p reducer b) {nesting : ℕ}
    {props props' : BackwardProperties} (hc : c ∈ p.computations)
    (hrun : addBackwardProperties p reducer nesting c props = ok props')
    (h : ListsAccumulated p reducer b props) : ListsAccumulated p reducer b props' := by
  refine traversal_keeps (ListsAccumulated p reducer b) hpost (fun _ _ hsame h => h.of_same hsame)
    ?_ hc hrun h
  intro c' hc' i hi s s' hstep hs
  by_cases heq : c' = b
  · subst heq
    exact hs.localStep hcondition hi hstep
  · -- the lists of another computation are not touched
    intro id hid g hg
    have hother : ∀ o, o ∈ c'.ids → o ≠ id := fun o ho heq' =>
      heq (eq_of_mem_ids hc' hb ho (heq' ▸ hid))
    rcases hstep.origin id g hg with hold | ⟨a, b', hcounts, hplace⟩ | ⟨-, hoperand, -⟩
    · exact hs id hid g hold
    · rcases hplace with rfl | rfl
      · exact absurd rfl (hother i.id (List.mem_map_of_mem hi))
      · have hmem := SumOperand.mem_operands (instruction_of_mem hc' hi)
          (Or.inl hcounts.addsTo.linear : SumOperand p reducer c' i.id id)
        exact absurd rfl (hother id (mem_ids_of_postOrder (hpost c' hc') hi hmem))
    · have hmem := hoperand.mem_operands (instruction_of_mem hc' hi)
      exact absurd rfl (hother id (mem_ids_of_postOrder (hpost c' hc') hi hmem))

/-- A loop input that counts is listed once its addition has been visited, and stays listed. -/
theorem counted_of_run (hpost : ∀ c ∈ p.computations, InPostOrder c) (hb : b ∈ p.computations)
    {sum a other g : ℕ} (hcounts : CountsAsInput b sum a other g) {nesting : ℕ}
    {props props' : BackwardProperties} (hc : c ∈ p.computations)
    (hrun : addBackwardProperties p reducer nesting c props = ok props') :
    (g ∈ (props sum).additiveToWhileInput → g ∈ (props' sum).additiveToWhileInput) ∧
      (Relation.ReflTransGen (fun c d => ∃ i ∈ c.instructions, CallsTo p i d) c b →
        g ∈ (props' sum).additiveToWhileInput) := by
  induction nesting generalizing c props props' with
  | zero => cases hrun
  | succ nesting ih =>
    -- instructions that do not have the sum as an operand keep its list
    have hkeep : ∀ (l : List HloInstruction) (s s' : BackwardProperties),
        (∀ i ∈ l, i ∈ c.instructions ∧ sum ∉ i.operands) →
        l.foldlM (addBackwardInstruction p reducer c (addBackwardProperties p reducer nesting)) s =
          ok s' →
        g ∈ (s sum).additiveToWhileInput → g ∈ (s' sum).additiveToWhileInput := by
      intro l s s' hl hfold hs
      apply foldlM_invariant (fun s => g ∈ (s sum).additiveToWhileInput) hfold hs
      intro i hi s s' hs hstep
      obtain ⟨hi, hnot⟩ := hl i hi
      rcases step_cases hc (hpost c hc) hi hstep with
        ⟨-, hlocal⟩ | ⟨comp, s₁, s₂, ⟨n, -, hcomp⟩, hbefore, hvisit, hafter⟩
      · exact hlocal.kept sum hnot g hs
      · rw [hafter sum]
        exact (ih (HloProgram.mem_computations_of_called hcomp) hvisit).1 (by rwa [hbefore sum])
    have hsum : ∃ i, b.instruction sum = some i ∧ i.opcode = .other "add" := by
      obtain ⟨i, hi, hadd, -⟩ := hcounts
      exact ⟨i, hi, hadd⟩
    obtain ⟨i, hi, hadd⟩ := hsum
    have hmem := HloComputation.mem_of_instruction hi
    have hid := HloComputation.id_of_instruction hi
    by_cases heq : c = b
    · subst heq
      have hlisted : g ∈ (props' sum).additiveToWhileInput := by
        obtain ⟨before, after, hsplit⟩ := List.append_of_mem hmem
        rw [addBackwardProperties, hsplit, List.reverse_append, List.reverse_cons,
          List.append_assoc, List.foldlM_append] at hrun
        obtain ⟨s, -, hrun⟩ := bind_eq_ok.mp hrun
        rw [List.singleton_append, List.foldlM_cons] at hrun
        obtain ⟨s', hstep, hrun⟩ := bind_eq_ok.mp hrun
        have hlisted : g ∈ (s' sum).additiveToWhileInput := by
          rcases step_cases hc (hpost c hc) hmem hstep with
            ⟨-, hlocal⟩ | ⟨comp, s₁, s₂, ⟨n, hcall, -⟩, -⟩
          · have := hlocal.counted a other g (hid.symm ▸ hcounts)
            rwa [hid] at this
          · rw [hadd] at hcall
            rcases hcall with hcall | hcall <;> cases hcall
        apply hkeep before.reverse s' props' _ hrun hlisted
        intro j hj
        have hj : j ∈ before := List.mem_reverse.mp hj
        refine ⟨by rw [hsplit]; exact List.mem_append_left _ hj, fun hoperand => ?_⟩
        exact notMem_operands_of_before hc (hpost c hc) hsplit hj (hid ▸ hoperand)
      exact ⟨fun _ => hlisted, fun _ => hlisted⟩
    · have hother : ∀ j ∈ c.instructions, sum ∉ j.operands := by
        intro j hj hoperand
        have hsum : sum ∈ b.ids := hid ▸ List.mem_map_of_mem hmem
        exact heq (eq_of_mem_ids hc hb (mem_ids_of_postOrder (hpost c hc) hj hoperand) hsum)
      refine ⟨hkeep _ props props' (fun j hj => ?_) hrun, fun hpath => ?_⟩
      · exact ⟨List.mem_reverse.mp hj, hother j (List.mem_reverse.mp hj)⟩
      · rcases Relation.ReflTransGen.cases_head hpath with rfl | ⟨d, ⟨j, hj, hcalls⟩, hpath⟩
        · exact absurd rfl heq
        · obtain ⟨l₁, l₂, hsplit⟩ := List.append_of_mem (List.mem_reverse.mpr hj)
          rw [addBackwardProperties, hsplit, List.foldlM_append] at hrun
          obtain ⟨s, -, hrun⟩ := bind_eq_ok.mp hrun
          rw [List.foldlM_cons] at hrun
          obtain ⟨s', hstep, hrun⟩ := bind_eq_ok.mp hrun
          have hl₂ : ∀ k ∈ l₂, k ∈ c.instructions := by
            intro k hk
            apply List.mem_reverse.mp
            rw [hsplit]
            exact List.mem_append_right _ (List.mem_cons_of_mem _ hk)
          apply hkeep l₂ s' props' (fun k hk => ⟨hl₂ k hk, hother k (hl₂ k hk)⟩) hrun
          rcases step_cases hc (hpost c hc) hj hstep with
            ⟨hnone, -⟩ | ⟨comp, s₁, s₂, hcomp, -, hvisit, hafter⟩
          · exact absurd hcalls (hnone d)
          · obtain rfl := hcalls.eq hcomp
            obtain ⟨n, -, hd⟩ := hcalls
            rw [hafter sum]
            exact (ih (HloProgram.mem_computations_of_called hd) hvisit).2 hpath

theorem mem_computations_of_visited (h : Visited p b) : b ∈ p.computations := by
  induction h with
  | refl => exact List.mem_cons_self
  | tail _ hcalls _ =>
    obtain ⟨i, -, n, -, hcomp⟩ := hcalls
    exact HloProgram.mem_computations_of_called hcomp

end run

theorem inPostOrder_of_getElem (h : ∀ k : Fin c.instructions.length,
    ∀ o ∈ c.instructions[k].operands, o ∈ (c.instructions.take k).map HloInstruction.id) :
    InPostOrder c := by
  intro before i after hsplit o ho
  have hlt : before.length < c.instructions.length := by
    rw [hsplit]
    simp
  have hget : c.instructions[before.length] = i := by simp [hsplit]
  have htake : c.instructions.take before.length = before := by simp [hsplit]
  have hbefore := h ⟨before.length, hlt⟩ o (by simpa [hget] using ho)
  rwa [htake] at hbefore

/-- The body adds its second element to `Reshard(target(element))`. -/
def accumulationBody (target : String) : HloComputation where
  instructions := [{ id := 10, opcode := .parameter 0, shape := .tuple [] },
    { id := 11, opcode := .getTupleElement 0, operands := [10] },
    { id := 12, opcode := .getTupleElement 1, operands := [10] },
    { id := 13, opcode := .customCall target, operands := [11] },
    { id := 14, opcode := .customCall "Reshard", operands := [13] },
    { id := 15, opcode := .other "add", operands := [14, 12] },
    { id := 16, opcode := .tuple, operands := [15, 12], shape := .tuple [] }]
  root := 16

def accumulationLoop (target : String) : HloProgram where
  entry := {
    instructions := [{ id := 1, opcode := .parameter 0 }, { id := 2, opcode := .parameter 1 },
      { id := 3, opcode := .tuple, operands := [1, 2], shape := .tuple [] },
      { id := 4, opcode := .whileLoop 0, operands := [3], shape := .tuple [] }]
    root := 4 }
  called := [accumulationBody target]
  distinct := by
    change ([1, 2, 3, 4, 10, 11, 12, 13, 14, 15, 16] : List ℕ).Nodup
    decide

theorem visited_accumulationBody (target : String) :
    Visited (accumulationLoop target) (accumulationBody target) :=
  .single ⟨{ id := 4, opcode := .whileLoop 0, operands := [3], shape := .tuple [] },
    by simp [accumulationLoop], 0, Or.inr rfl, rfl⟩

theorem inPostOrder_accumulationLoop (target : String) :
    ∀ c ∈ (accumulationLoop target).computations, InPostOrder c := by
  intro c hc
  apply inPostOrder_of_getElem
  rcases List.mem_cons.mp hc with rfl | hc
  · clear hc
    intro k o ho
    fin_cases k <;> simp [accumulationLoop] at ho ⊢ <;> omega
  · obtain rfl := List.mem_singleton.mp hc
    clear hc
    intro k o ho
    fin_cases k <;> simp [accumulationBody] at ho ⊢ <;> omega

/-- The one addition of the body, where the first operand counts if it is found. -/
theorem countsAsInput_accumulationBody {target : String} {sum a b g : ℕ}
    (h : CountsAsInput (accumulationBody target) sum a b g) :
    sum = 15 ∧ (a = 14 ∧ b = 12 ∧ dealiased (accumulationBody target) 14 = ok (some g) ∨
      dealiased (accumulationBody target) 14 = ok none) := by
  obtain ⟨i, hi, hadd, h⟩ := h
  have hid := HloComputation.id_of_instruction hi
  have hmem := HloComputation.mem_of_instruction hi
  simp only [accumulationBody, List.mem_cons, List.not_mem_nil, or_false] at hmem
  rcases hmem with rfl | rfl | rfl | rfl | rfl | rfl | rfl
  case inr.inr.inr.inr.inr.inl =>
    refine ⟨hid.symm, ?_⟩
    rcases h with ⟨ha, hb, hg⟩ | ⟨hb, -, -, hnone⟩
    · obtain rfl := Option.some.inj ha
      exact Or.inl ⟨rfl, (Option.some.inj hb).symm, hg⟩
    · obtain rfl := Option.some.inj hb
      exact Or.inr hnone
  all_goals cases hadd

/-- Only the target of the first custom call of a chain is looked up. -/
example : dealiased (accumulationBody "Work") 14 = ok (some 11) := by decide +kernel

end InstructionProperties
end MultiMeshJax
