import MultiMeshJax.CrossTaskBarrierRemover.Visited

/-! When the visit of a computation goes through, and that it keeps the values. -/
namespace MultiMeshJax
namespace CrossTaskBarrierRemover

open StatusOr HloComputation
open HloGraph (Rewired)

/-- The operands come before their users, and the barriers of tuples read tuples. -/
structure Wf (c : HloComputation) (n : ℕ) (rank : ℕ → ℕ) : Prop extends Ranked c n rank where
  sites : ∀ i ∈ c.instructions, isTupleBarrier i = true → ∃ inputTuple, Site c i inputTuple
  unary : UnaryElements c

/-- Nothing that is used is gone, and what is left has the value that it had, as has the root. -/
structure Faithful (g g' : HloGraph) : Prop where
  closed : ∀ j ∈ g'.computation.instructions, ∀ o ∈ j.operands, o ∈ g'.computation.ids
  nextId : g.nextId ≤ g'.nextId
  old : ∀ id ∈ g'.computation.ids, id < g.nextId → id ∈ g.computation.ids
  value : ∀ {V : Type} (I : Interpretation V) (ctx : Context V), Transparent I →
    ∀ id ∈ g'.computation.ids, id < g.nextId → ∀ v, g.computation.Computes I ctx id v →
      g'.computation.Computes I ctx id v
  root : ∀ {V : Type} (I : Interpretation V) (ctx : Context V), Transparent I → ∀ v,
    g.computation.Computes I ctx g.computation.root v →
      g'.computation.Computes I ctx g'.computation.root v

variable {removeParameters : Bool} {properties : Properties} {c₀ : HloComputation} {n₀ : ℕ}
  {rank : ℕ → ℕ} {barrier inputTuple : HloInstruction} {g g' g'' : HloGraph} {σ : ℕ → ℕ}
  {gone : List ℕ} {news : List HloInstruction}

theorem Faithful.trans (h : Faithful g g') (h' : Faithful g' g'') : Faithful g g'' where
  closed := h'.closed
  nextId := h.nextId.trans h'.nextId
  old id hid hlt := h.old id (h'.old id hid (hlt.trans_le h.nextId)) hlt
  value I ctx hI id hid hlt v hv :=
    h'.value I ctx hI id hid (hlt.trans_le h.nextId) v
      (h.value I ctx hI id (h'.old id hid (hlt.trans_le h.nextId)) hlt v hv)
  root I ctx hI v hv := h'.root I ctx hI v (h.root I ctx hI v hv)

section outcome

variable (h : Outcome removeParameters properties c₀ n₀ barrier inputTuple σ gone news g)
  (hwf : Wf c₀ n₀ rank) (hsite : Site c₀ barrier inputTuple)

include h in
/-- What is not gone has its own id. -/
theorem Outcome.kept_self {id : ℕ} (hgone : id ∉ gone) : σ id = id := by
  by_cases hin : id ∈ (c₀.users barrier.id).map HloInstruction.id
  · obtain ⟨w, hw, rfl⟩ := List.mem_map.mp hin
    rcases h.user w hw with ⟨-, hσ⟩ | ⟨hin, -⟩
    · exact hσ
    · exact absurd hin hgone
  · exact h.outside id hin

include h hwf

/-- A tuple that is read is there, and no user of the barrier. -/
theorem Outcome.tuple_kept {j t : HloInstruction} (hj : j ∈ c₀.instructions) (hgone : j.id ∉ gone)
    (hread : t.id ∈ j.operands) (ht : t ∈ c₀.instructions) (hopcode : t.opcode = .tuple) :
    t.id ∉ gone := by
  intro hin
  obtain ⟨w, hw, heq, -⟩ := h.closed j hj hgone t.id hread hin
  obtain rfl := List.inj_on_of_nodup_map hwf.nodup (mem_users.mp hw).1 ht heq
  obtain ⟨index, helement, -⟩ := (h.takes w hw).element
  rw [hopcode] at helement
  cases helement

theorem Outcome.sites : ∀ i ∈ g.computation.instructions, isTupleBarrier i = true →
    ∃ inputTuple, Site g.computation i inputTuple := by
  intro i hi htupleBarrier
  rcases (h.rewired.mem i).mp hi with ⟨j, hj, hgone, rfl⟩ | hnew
  · obtain ⟨t, ht⟩ := hwf.sites j hj htupleBarrier
    have hread : t.id ∈ j.operands := by
      rw [ht.operands]
      exact List.mem_singleton_self _
    have hthere := h.tuple_kept hwf hj hgone hread ht.tuple_mem ht.tuple_opcode
    refine ⟨t.mapOperands σ, hi, ht.opcode, ?_, ?_, ht.tuple_opcode⟩
    · change j.operands.map σ = [t.id]
      rw [ht.operands, List.map_singleton, h.kept_self hthere]
    · exact (h.rewired.mem _).mpr (.inl ⟨t, ht.tuple_mem, hthere, rfl⟩)
  · have hopcode : i.opcode = .optimizationBarrier := by
      have hboth := Bool.and_eq_true_iff.mp htupleBarrier
      exact of_decide_eq_true hboth.1
    rcases h.news with rfl | ⟨newTuple, newBarrier, hnewBarrier, heq⟩
    · cases hnew
    · have htuple := (h.rewired.mem newTuple).mpr (.inr (heq ▸ List.mem_cons_self ..))
      rw [heq] at hnew
      rcases List.mem_cons.mp hnew with rfl | hnew
      · rw [hnewBarrier.tuple_opcode] at hopcode
        cases hopcode
      · rcases List.mem_cons.mp hnew with rfl | hnew
        · refine ⟨newTuple, hi, hopcode, ?_, htuple, hnewBarrier.tuple_opcode⟩
          rw [hnewBarrier.operands_eq, hnewBarrier.tuple_id]
        · obtain ⟨w, -, rfl⟩ := List.mem_map.mp hnew
          rw [gteOf_opcode] at hopcode
          cases hopcode

theorem Outcome.unary : UnaryElements g.computation := by
  intro i hi index hopcode
  rcases (h.rewired.mem i).mp hi with ⟨j, hj, -, rfl⟩ | hnew
  · obtain ⟨o, ho⟩ := hwf.unary j hj index hopcode
    refine ⟨σ o, ?_⟩
    change j.operands.map σ = _
    rw [ho, List.map_singleton]
  · rcases h.news with rfl | ⟨newTuple, newBarrier, hnewBarrier, rfl⟩
    · cases hnew
    · rcases List.mem_cons.mp hnew with rfl | hnew
      · rw [hnewBarrier.tuple_opcode] at hopcode
        cases hopcode
      · rcases List.mem_cons.mp hnew with rfl | hnew
        · rw [hnewBarrier.opcode] at hopcode
          cases hopcode
        · obtain ⟨w, -, rfl⟩ := List.mem_map.mp hnew
          exact ⟨_, gteOf_operands n₀ w⟩

include hsite

theorem Outcome.wf : Wf g.computation g.nextId (newRank n₀ rank barrier inputTuple
    (kept removeParameters properties inputTuple (c₀.users barrier.id))) where
  toRanked := h.ranked hwf.toRanked hsite
  sites := h.sites hwf
  unary := h.unary hwf

theorem Outcome.faithful : Faithful ⟨c₀, n₀⟩ g where
  closed := (h.ranked hwf.toRanked hsite).closed
  nextId := h.rewired.le
  old id hid hlt := by
    obtain ⟨j, hj, rfl⟩ := List.mem_map.mp hid
    rcases (h.rewired.mem j).mp hj with ⟨j₀, hj₀, -, rfl⟩ | hnew
    · exact List.mem_map.mpr ⟨j₀, hj₀, rfl⟩
    · exact absurd hlt (h.rewired.fresh j hnew).1.not_gt
  value I ctx hI id hid hlt v hv := by
    obtain ⟨depth, hv⟩ := hv
    obtain ⟨j, hj, rfl⟩ := List.mem_map.mp hid
    rcases (h.rewired.mem j).mp hj with ⟨j₀, hj₀, hgone, rfl⟩ | hnew
    · have hcomputes := h.computes hwf.toRanked hsite hwf.unary hI
        (fun hin => absurd hin hgone) hv
      rw [h.kept_self hgone] at hcomputes
      exact hcomputes
    · exact absurd hlt (h.rewired.fresh j hnew).1.not_gt
  root I ctx hI v hv := by
    obtain ⟨depth, hv⟩ := hv
    rw [h.rewired.root]
    exact h.computes hwf.toRanked hsite hwf.unary hI h.root hv

end outcome

section run

/-- The condition of a step, on the computation before it. -/
def StepMet (removeParameters : Bool) (properties : Properties) (g : HloGraph) (id : ℕ) : Prop :=
  ∀ barrier inputTuple, g.computation.instruction id = some barrier →
    isTupleBarrier barrier = true → Site g.computation barrier inputTuple →
      Met removeParameters properties g.computation barrier inputTuple

theorem faithful_self (hranked : Ranked g.computation g.nextId rank) : Faithful g g where
  closed := hranked.closed
  nextId := le_rfl
  old _ hid _ := hid
  value _ _ _ _ _ _ _ hv := hv
  root _ _ _ _ hv := hv

theorem settles_visitInstruction (removeParameters : Bool) (properties : Properties)
    (hwf : Wf g.computation g.nextId rank) (id : ℕ) :
    Settles (StepMet removeParameters properties g id)
      (visitInstruction removeParameters properties g id) fun g' =>
        (∃ rank, Wf g'.computation g'.nextId rank) ∧ Faithful g g' := by
  have hsame := settles_ok (P := fun g' : HloGraph =>
    (∃ rank, Wf g'.computation g'.nextId rank) ∧ Faithful g g')
    ⟨⟨rank, hwf⟩, faithful_self hwf.toRanked⟩
  unfold visitInstruction
  cases hi : g.computation.instruction id with
  | none =>
    apply hsame.congr
    apply iff_of_true trivial
    intro barrier inputTuple hbarrier
    rw [hi] at hbarrier
    cases hbarrier
  | some i =>
    dsimp only
    by_cases htupleBarrier : isTupleBarrier i = true
    · rw [if_pos htupleBarrier]
      obtain ⟨t, hsite⟩ := hwf.sites i (mem_of_instruction hi) htupleBarrier
      have hvisit := settles_visitBarrier removeParameters properties hwf.toRanked hsite hwf.unary
      apply (hvisit.congr _).imp
      · rintro g' ⟨σ, gone, news, houtcome⟩
        exact ⟨⟨_, houtcome.wf hwf hsite⟩, houtcome.faithful hwf hsite⟩
      · constructor
        · intro hmet barrier inputTuple hbarrier _ hsite'
          rw [hi] at hbarrier
          obtain rfl := Option.some.inj hbarrier
          have hid : t.id = inputTuple.id := by
            have hoperands := hsite.operands
            rw [hsite'.operands] at hoperands
            exact (List.singleton_inj.mp hoperands).symm
          rw [← List.inj_on_of_nodup_map hwf.nodup hsite.tuple_mem hsite'.tuple_mem hid]
          exact hmet
        · intro hstep
          exact hstep i t hi htupleBarrier hsite
    · rw [if_neg htupleBarrier]
      apply hsame.congr
      apply iff_of_true trivial
      intro barrier inputTuple hbarrier hyes
      rw [hi] at hbarrier
      obtain rfl := Option.some.inj hbarrier
      exact absurd hyes htupleBarrier

/-- The condition of each step of the visit, on the computation that the steps before it leave. -/
def EachStepMet (removeParameters : Bool) (properties : Properties) (g : HloGraph) : Prop :=
  ∀ done id after, g.computation.ids = done ++ id :: after → ∀ g',
    done.foldlM (visitInstruction removeParameters properties) g = ok g' →
      StepMet removeParameters properties g' id

theorem settles_visit (removeParameters : Bool) (properties : Properties)
    (hwf : Wf g.computation g.nextId rank) :
    Settles (EachStepMet removeParameters properties g) (visit removeParameters properties g)
      (Faithful g) := by
  have hstep : ∀ done id after, g.computation.ids = done ++ id :: after → ∀ g',
      (done.foldlM (visitInstruction removeParameters properties) g = ok g' ∧
        (∃ rank, Wf g'.computation g'.nextId rank) ∧ Faithful g g') →
      Settles (∀ g', done.foldlM (visitInstruction removeParameters properties) g = ok g' →
          StepMet removeParameters properties g' id)
        (visitInstruction removeParameters properties g' id) fun g'' =>
          (done ++ [id]).foldlM (visitInstruction removeParameters properties) g = ok g'' ∧
            (∃ rank, Wf g''.computation g''.nextId rank) ∧ Faithful g g'' := by
    rintro done id after - g' ⟨hrun, ⟨rank', hwf'⟩, hfaithful⟩
    have hvisit := settles_visitInstruction removeParameters properties hwf' id
    rcases hvisit with ⟨hmet, g'', hg'', hwf'', hfaithful'⟩ | ⟨hnot, hno⟩
    · left
      refine ⟨?_, g'', hg'', ?_, hwf'', hfaithful.trans hfaithful'⟩
      · intro h hh
        rw [hrun] at hh
        obtain rfl := ok.inj hh
        exact hmet
      · rw [List.foldlM_append, hrun, ok_bind, List.foldlM_cons, hg'']
        rfl
    · exact .inr ⟨fun hall => hnot (hall g' hrun), hno⟩
  exact (settles_foldlM _ ⟨rfl, ⟨rank, hwf⟩, faithful_self hwf.toRanked⟩ g.computation.ids
    hstep).imp fun _ h => h.2.2

/-- The visit goes through and keeps the values exactly when the condition of each step is met. -/
theorem visit_faithful_iff (hwf : Wf g.computation g.nextId rank) :
    (∃ g', visit removeParameters properties g = ok g' ∧ Faithful g g') ↔
      EachStepMet removeParameters properties g := by
  have hvisit := settles_visit removeParameters properties hwf
  constructor
  · rintro ⟨g', hg', -⟩
    exact (hvisit.of_ok hg').1
  · intro hmet
    obtain ⟨g', hg'⟩ := hvisit.exists_iff.mpr hmet
    exact ⟨g', hg', (hvisit.of_ok hg').2⟩

/-- One of two outputs is used, and the other operand goes. -/
def halfUsed : HloGraph where
  computation := {
    instructions := [
      { id := 0, opcode := .parameter 0 },
      { id := 1, opcode := .other "negate", operands := [0] },
      { id := 2, opcode := .other "exponential", operands := [0] },
      { id := 3, opcode := .tuple, operands := [1, 2], shape := .tuple [] },
      { id := 4, opcode := .optimizationBarrier, operands := [3], shape := .tuple [] },
      { id := 5, opcode := .getTupleElement 0, operands := [4] },
      { id := 6, opcode := .other "negate", operands := [5] }]
    root := 6 }
  nextId := 7

/-- Only the second of the operands is used, and the other one is there twice. -/
def deadTwice : HloGraph where
  computation := {
    instructions := [
      { id := 0, opcode := .parameter 0 },
      { id := 1, opcode := .other "negate", operands := [0] },
      { id := 2, opcode := .other "exponential", operands := [0] },
      { id := 3, opcode := .tuple, operands := [1, 1, 2], shape := .tuple [] },
      { id := 4, opcode := .optimizationBarrier, operands := [3], shape := .tuple [] },
      { id := 5, opcode := .getTupleElement 2, operands := [4] },
      { id := 6, opcode := .other "negate", operands := [5] }]
    root := 6 }
  nextId := 7

theorem wf_halfUsed : Wf halfUsed.computation halfUsed.nextId id := by
  refine ⟨⟨by decide, by decide, by decide, by decide, by decide⟩, ?_, ?_⟩
  · intro i hi hbarrier
    have hall : ∀ i ∈ halfUsed.computation.instructions, isTupleBarrier i = true →
        i.opcode = .optimizationBarrier ∧ i.operands = [3] := by decide
    obtain ⟨hopcode, hoperands⟩ := hall i hi hbarrier
    exact ⟨{ id := 3, opcode := .tuple, operands := [1, 2], shape := .tuple [] }, hi, hopcode,
      hoperands, by decide, rfl⟩
  · intro i hi index hopcode
    have hall : ∀ i ∈ halfUsed.computation.instructions, i.isGetTupleElement = true →
        i.operands = [4] := by decide
    exact ⟨4, hall i hi (by rw [HloInstruction.isGetTupleElement, hopcode])⟩

theorem wf_deadTwice : Wf deadTwice.computation deadTwice.nextId id := by
  refine ⟨⟨by decide, by decide, by decide, by decide, by decide⟩, ?_, ?_⟩
  · intro i hi hbarrier
    have hall : ∀ i ∈ deadTwice.computation.instructions, isTupleBarrier i = true →
        i.opcode = .optimizationBarrier ∧ i.operands = [3] := by decide
    obtain ⟨hopcode, hoperands⟩ := hall i hi hbarrier
    exact ⟨{ id := 3, opcode := .tuple, operands := [1, 1, 2], shape := .tuple [] }, hi, hopcode,
      hoperands, by decide, rfl⟩
  · intro i hi index hopcode
    have hall : ∀ i ∈ deadTwice.computation.instructions, i.isGetTupleElement = true →
        i.operands = [4] := by decide
    exact ⟨4, hall i hi (by rw [HloInstruction.isGetTupleElement, hopcode])⟩

/-- The visit hands the used operand through, and removes the other one. -/
theorem visit_faithful_iff_halfUsed : Wf halfUsed.computation halfUsed.nextId id ∧
    ∃ g', visit false (fun _ => none) halfUsed = ok g' ∧ Faithful halfUsed g' := by
  have hrun : ∃ g', visit false (fun _ => none) halfUsed = ok g' :=
    isOk_iff.mp (by decide +kernel)
  exact ⟨wf_halfUsed, (visit_faithful_iff wf_halfUsed).mpr
    ((settles_visit false (fun _ => none) wf_halfUsed).exists_iff.mp hrun)⟩

/-- The operand that is there twice is removed twice. -/
theorem deadTwice_fails : Wf deadTwice.computation deadTwice.nextId id ∧
    ¬∃ g', visit false (fun _ => none) deadTwice = ok g' ∧ Faithful deadTwice g' := by
  refine ⟨wf_deadTwice, ?_⟩
  rintro ⟨g', hg', -⟩
  have hfails : visit false (fun _ => none) deadTwice =
      error "the instruction has been removed before" := by decide +kernel
  rw [hfails] at hg'
  cases hg'

end run

end CrossTaskBarrierRemover
end MultiMeshJax
