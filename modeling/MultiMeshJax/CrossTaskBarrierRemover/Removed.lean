import MultiMeshJax.CrossTaskBarrierRemover.Outcome

/-! What it takes to remove a barrier that nothing uses any more, and its tuple. -/
namespace MultiMeshJax
namespace CrossTaskBarrierRemover

open StatusOr
open HloGraph (Rewired)

variable {removeParameters : Bool} {properties : Properties} {c₀ : HloComputation} {n₀ : ℕ}
  {rank : ℕ → ℕ} {barrier inputTuple user i : HloInstruction} {g g' : HloGraph} {σ : ℕ → ℕ}
  {more : List ℕ} {news : List HloInstruction} {x : ℕ}

section removal

variable (h : Rebuilt removeParameters properties c₀ n₀ barrier inputTuple more σ news g)

include h

/-- What no user takes out, and is no user, is what only it is redirected to. -/
theorem Rebuilt.eq_iff (hlt : x < n₀) (hnot : x ∉ (c₀.users barrier.id).map HloInstruction.id)
    (hoperand : ∀ user ∈ c₀.users barrier.id, operandOf inputTuple user ≠ x) (id : ℕ) :
    σ id = x ↔ id = x := by
  by_cases hin : id ∈ (c₀.users barrier.id).map HloInstruction.id
  · have hne : id ≠ x := fun heq => hnot (heq ▸ hin)
    obtain ⟨w, hw, rfl⟩ := List.mem_map.mp hin
    apply iff_of_false _ hne
    by_cases hpassed : Passed removeParameters properties c₀ barrier inputTuple w
    · rw [h.passed w hw hpassed]
      exact hoperand w hw
    · obtain ⟨index, -, hσ⟩ := h.regrouped w hw hpassed
      rw [hσ]
      omega
  · rw [h.outside id hin]

/-- What reads a user that is passed reads what it takes out. -/
theorem Rebuilt.eq_operand_iff (hlt : x < n₀)
    (hnot : x ∉ (c₀.users barrier.id).map HloInstruction.id) (id : ℕ) :
    σ id = x ↔ id = x ∨ ∃ user ∈ c₀.users barrier.id, user.id = id ∧
      Passed removeParameters properties c₀ barrier inputTuple user ∧
        operandOf inputTuple user = x := by
  constructor
  · intro hσ
    by_cases hin : id ∈ (c₀.users barrier.id).map HloInstruction.id
    · obtain ⟨w, hw, rfl⟩ := List.mem_map.mp hin
      by_cases hpassed : Passed removeParameters properties c₀ barrier inputTuple w
      · rw [h.passed w hw hpassed] at hσ
        exact .inr ⟨w, hw, rfl, hpassed, hσ⟩
      · obtain ⟨index, -, hindex⟩ := h.regrouped w hw hpassed
        omega
    · rw [h.outside id hin] at hσ
      exact .inl hσ
  · rintro (rfl | ⟨w, hw, rfl, hpassed, hoperand⟩)
    · exact h.outside id hnot
    · rw [h.passed w hw hpassed]
      exact hoperand

/-- The new instructions read what is taken out, and each other. -/
theorem Rebuilt.news_operands {j : HloInstruction} (hj : j ∈ news) {o : ℕ} (ho : o ∈ j.operands) :
    n₀ ≤ o ∨ ∃ user ∈ c₀.users barrier.id,
      ¬Passed removeParameters properties c₀ barrier inputTuple user ∧
        operandOf inputTuple user = o := by
  rcases h.news with ⟨-, rfl⟩ | ⟨hmany, newTuple, newBarrier, hnew, rfl⟩
  · cases hj
  · rcases List.mem_cons.mp hj with rfl | hj
    · rw [hnew.tuple_operands] at ho
      obtain ⟨w, hw, rfl⟩ := List.mem_map.mp ho
      obtain ⟨huser, hstays⟩ := List.mem_filter.mp hw
      refine .inr ⟨w, huser, ?_, rfl⟩
      rintro (hpeeled | hone)
      · rw [hpeeled] at hstays
        cases hstays
      · exact hmany hone
    · left
      rcases List.mem_cons.mp hj with rfl | hj
      · rw [hnew.operands_eq, List.mem_singleton] at ho
        exact ho.ge
      · obtain ⟨w, -, rfl⟩ := List.mem_map.mp hj
        rw [gteOf_operands, List.mem_singleton] at ho
        omega

/-- What a user takes out that is not passed is read by the new tuple. -/
theorem Rebuilt.exists_reader (huser : user ∈ c₀.users barrier.id)
    (hnot : ¬Passed removeParameters properties c₀ barrier inputTuple user) :
    ∃ j ∈ news, operandOf inputTuple user ∈ j.operands := by
  obtain ⟨index, hindex, -⟩ := h.regrouped user huser hnot
  rcases h.news with ⟨hone, -⟩ | ⟨-, newTuple, newBarrier, hnew, rfl⟩
  · exact absurd (.inr hone) hnot
  · refine ⟨newTuple, List.mem_cons_self .., ?_⟩
    rw [hnew.tuple_operands]
    exact List.mem_map_of_mem (List.mem_of_getElem? hindex)

/-- Such an instruction can be removed when all that reads it is gone. -/
theorem Rebuilt.settles_removeInstruction (hranked : Ranked c₀ n₀ rank) (hi : i ∈ c₀.instructions)
    (hparameter : i.isParameter = false)
    (hnot : i.id ∉ (c₀.users barrier.id).map HloInstruction.id)
    (hoperand : ∀ user ∈ c₀.users barrier.id, operandOf inputTuple user ≠ i.id) :
    Settles ((∀ j ∈ c₀.users i.id, j.id ∈ more ∨ j.id ∈ (c₀.users barrier.id).map HloInstruction.id) ∧
        i.id ≠ c₀.root ∧ c₀.hasControlDependencies i = false)
      (g.removeInstruction i)
      (Rebuilt removeParameters properties c₀ n₀ barrier inputTuple (i.id :: more) σ news) := by
  obtain ⟨gone, hrewired, hgone⟩ := h.rewired
  have hlt : i.id < n₀ := hranked.lt _ (List.mem_map_of_mem hi)
  have hσ := h.eq_iff hlt hnot hoperand
  have hread : (∀ j ∈ g.computation.instructions, i.id ∉ j.operands) ↔
      ∀ j ∈ c₀.users i.id, j.id ∈ more ∨ j.id ∈ (c₀.users barrier.id).map HloInstruction.id := by
    constructor
    · intro hunread j hj
      obtain ⟨hmem, hread⟩ := HloComputation.mem_users.mp hj
      by_contra hthere
      rw [← hgone] at hthere
      apply hunread _ ((hrewired.mem _).mpr (.inl ⟨j, hmem, hthere, rfl⟩))
      exact List.mem_map.mpr ⟨i.id, hread, (hσ i.id).mpr rfl⟩
    · intro hall j hj hread
      rcases (hrewired.mem j).mp hj with ⟨j₀, hj₀, hthere, rfl⟩ | hnew
      · obtain ⟨o, ho, hσo⟩ := List.mem_map.mp hread
        obtain rfl := (hσ o).mp hσo
        exact hthere ((hgone _).mpr (hall j₀ (HloComputation.mem_users.mpr ⟨hj₀, ho⟩)))
      · rcases h.news_operands hnew hread with hle | ⟨w, hw, -, heq⟩
        · omega
        · exact hoperand w hw heq
  have hroot : i.id ≠ σ c₀.root ↔ i.id ≠ c₀.root := by
    rw [ne_comm, Ne, hσ, ← Ne, ne_comm]
  have hiff : ∀ g', g.removeInstruction i = ok g' ↔
      ((∀ j ∈ c₀.users i.id, j.id ∈ more ∨
        j.id ∈ (c₀.users barrier.id).map HloInstruction.id) ∧
          i.id ≠ c₀.root ∧ c₀.hasControlDependencies i = false) ∧
        g' = ⟨g.computation.removeInstruction i.id, g.nextId⟩ := by
    intro g'
    rw [hrewired.removeInstruction_eq_ok, hread, hroot, and_iff_right hparameter]
  apply settles_of_iff
  · constructor
    · rintro ⟨g', hg'⟩
      exact ((hiff g').mp hg').1
    · intro hcan
      exact ⟨_, (hiff _).mpr ⟨hcan, rfl⟩⟩
  · intro g' hg'
    obtain ⟨⟨-, -, hquiet⟩, rfl⟩ := (hiff g').mp hg'
    refine ⟨⟨_, hrewired.removeInstruction hranked.lt hi ?_, ?_⟩, h.outside, h.passed, h.regrouped,
      h.news⟩
    · intro j hj hid
      obtain rfl := List.inj_on_of_nodup_map hranked.nodup hj hi hid
      exact hquiet
    · intro id
      rw [List.mem_cons, List.mem_cons, hgone, or_assoc]

end removal

/-- What it takes to remove the barrier and its tuple. -/
structure Unused (c₀ : HloComputation) (barrier inputTuple : HloInstruction) : Prop where
  barrier_root : barrier.id ≠ c₀.root
  barrier_quiet : c₀.hasControlDependencies barrier = false
  tuple_users : ∀ j ∈ c₀.users inputTuple.id, j.id = barrier.id
  tuple_root : inputTuple.id ≠ c₀.root
  tuple_quiet : c₀.hasControlDependencies inputTuple = false

theorem settles_removeBarrier (hranked : Ranked c₀ n₀ rank) (hsite : Site c₀ barrier inputTuple)
    (hunary : UnaryElements c₀)
    (htakes : ∀ w ∈ c₀.users barrier.id, Takes removeParameters properties inputTuple w)
    (h : Rebuilt removeParameters properties c₀ n₀ barrier inputTuple [] σ news g) :
    Settles (Unused c₀ barrier inputTuple)
      (g.removeInstruction barrier >>= fun g => g.removeInstruction inputTuple)
      (Rebuilt removeParameters properties c₀ n₀ barrier inputTuple [inputTuple.id, barrier.id] σ
        news) := by
  have htuple := rank_tuple_lt hranked hsite
  have hbarrier : Settles (barrier.id ≠ c₀.root ∧ c₀.hasControlDependencies barrier = false)
      (g.removeInstruction barrier)
      (Rebuilt removeParameters properties c₀ n₀ barrier inputTuple [barrier.id] σ news) := by
    apply (h.settles_removeInstruction hranked hsite.barrier_mem _ _ _).congr
    · apply and_iff_right
      exact fun j hj => .inr (List.mem_map_of_mem hj)
    · rw [HloInstruction.isParameter, hsite.opcode]
    · intro hin
      obtain ⟨w, hw, heq⟩ := List.mem_map.mp hin
      exact (heq ▸ rank_user_lt hranked hw).false
    · intro w hw heq
      have hlt := rank_operand_lt hranked hsite (htakes w hw).mem
      rw [heq] at hlt
      omega
  have hremove : ∀ g, Rebuilt removeParameters properties c₀ n₀ barrier inputTuple [barrier.id] σ
      news g → Settles ((∀ j ∈ c₀.users inputTuple.id, j.id = barrier.id) ∧
        inputTuple.id ≠ c₀.root ∧ c₀.hasControlDependencies inputTuple = false)
      (g.removeInstruction inputTuple)
      (Rebuilt removeParameters properties c₀ n₀ barrier inputTuple [inputTuple.id, barrier.id] σ
        news) := by
    intro g hg
    apply (hg.settles_removeInstruction hranked hsite.tuple_mem _ _ _).congr
    · apply and_congr_left
      intro _
      apply forall₂_congr
      intro j hj
      constructor
      · rintro (hin | hin)
        · exact List.mem_singleton.mp hin
        · obtain ⟨w, hw, heq⟩ := List.mem_map.mp hin
          obtain ⟨hmem, hread⟩ := HloComputation.mem_users.mp hj
          obtain rfl := List.inj_on_of_nodup_map hranked.nodup
            (HloComputation.mem_users.mp hw).1 hmem heq
          rw [operands_of_user hunary (htakes w hw) hw, List.mem_singleton] at hread
          rw [hread] at htuple
          exact absurd htuple (lt_irrefl _)
      · exact fun heq => .inl (List.mem_singleton.mpr heq)
    · rw [HloInstruction.isParameter, hsite.tuple_opcode]
    · intro hin
      obtain ⟨w, hw, heq⟩ := List.mem_map.mp hin
      have hlt := rank_user_lt hranked hw
      rw [heq] at hlt
      omega
    · intro w hw heq
      have hlt := rank_operand_lt hranked hsite (htakes w hw).mem
      rw [heq] at hlt
      exact hlt.false
  apply (hbarrier.bind hremove).congr
  constructor
  · rintro ⟨⟨hroot, hquiet⟩, husers, htupleRoot, htupleQuiet⟩
    exact ⟨hroot, hquiet, husers, htupleRoot, htupleQuiet⟩
  · intro hunused
    exact ⟨⟨hunused.barrier_root, hunused.barrier_quiet⟩, hunused.tuple_users, hunused.tuple_root,
      hunused.tuple_quiet⟩

section cleared

variable (h : Rebuilt removeParameters properties c₀ n₀ barrier inputTuple
    [inputTuple.id, barrier.id] σ news g)
  (hranked : Ranked c₀ n₀ rank) (hsite : Site c₀ barrier inputTuple) (hunary : UnaryElements c₀)
  (htakes : ∀ w ∈ c₀.users barrier.id, Takes removeParameters properties inputTuple w)
  (hunused : Unused c₀ barrier inputTuple)

/-- The tuple, the barrier and its users. -/
def Replaced (c₀ : HloComputation) (barrier inputTuple : HloInstruction) (id : ℕ) : Prop :=
  id ∈ [inputTuple.id, barrier.id] ∨ id ∈ (c₀.users barrier.id).map HloInstruction.id

omit h in
include hranked hsite in
theorem Replaced.rank_le (hx : Replaced c₀ barrier inputTuple x) : rank inputTuple.id ≤ rank x := by
  have htuple := rank_tuple_lt hranked hsite
  rcases hx with hx | hx
  · rcases List.mem_cons.mp hx with rfl | hx
    · exact le_rfl
    · rw [List.mem_singleton.mp hx]
      exact htuple.le
  · obtain ⟨w, hw, rfl⟩ := List.mem_map.mp hx
    exact (htuple.trans (rank_user_lt hranked hw)).le

omit h in
include hranked hsite hunary htakes in
/-- What is replaced reads what is replaced, the tuple apart. -/
theorem Replaced.operands {j : HloInstruction} (hj : j ∈ c₀.instructions)
    (hreplaced : Replaced c₀ barrier inputTuple j.id) {o : ℕ} (ho : o ∈ j.operands) :
    j.id = inputTuple.id ∨ o = inputTuple.id ∨ o = barrier.id := by
  rcases hreplaced with hin | hin
  · rcases List.mem_cons.mp hin with heq | hin
    · exact .inl heq
    · obtain rfl := List.inj_on_of_nodup_map hranked.nodup hj hsite.barrier_mem
        (List.mem_singleton.mp hin)
      rw [hsite.operands, List.mem_singleton] at ho
      exact .inr (.inl ho)
  · obtain ⟨w, hw, heq⟩ := List.mem_map.mp hin
    obtain rfl := List.inj_on_of_nodup_map hranked.nodup (HloComputation.mem_users.mp hw).1 hj heq
    rw [operands_of_user hunary (htakes w hw) hw, List.mem_singleton] at ho
    exact .inr (.inr ho)

include h hranked hsite htakes hunused

omit hunary in
/-- Without the barrier the computation is as before, the users being handed through. -/
theorem Rebuilt.outcome : ∃ gone, (∀ id, id ∈ gone ↔ Replaced c₀ barrier inputTuple id) ∧
    Outcome removeParameters properties c₀ n₀ barrier inputTuple σ gone news g := by
  obtain ⟨gone, hrewired, hgone⟩ := h.rewired
  refine ⟨gone, hgone, ?_⟩
  have hoperand : ∀ w ∈ c₀.users barrier.id, operandOf inputTuple w ∉ gone := by
    intro w hw hin
    have hlt := rank_operand_lt hranked hsite (htakes w hw).mem
    have hle := Replaced.rank_le hranked hsite ((hgone _).mp hin)
    omega
  have hlives : ∀ o, (o ∈ gone → o ∈ (c₀.users barrier.id).map HloInstruction.id) →
      Lives inputTuple (c₀.users barrier.id) gone o := by
    intro o ho hin
    obtain ⟨w, hw, rfl⟩ := List.mem_map.mp (ho hin)
    exact ⟨w, hw, rfl, hoperand w hw⟩
  constructor
  · exact hrewired
  · exact htakes
  · exact h.outside
  · intro w hw
    right
    refine ⟨(hgone _).mpr (.inr (List.mem_map_of_mem hw)), ?_⟩
    by_cases hpassed : Passed removeParameters properties c₀ barrier inputTuple w
    · exact .inl (h.passed w hw hpassed)
    · right
      refine ⟨?_, h.regrouped w hw hpassed⟩
      rcases h.news with ⟨hone, -⟩ | ⟨-, newTuple, newBarrier, -, rfl⟩
      · exact absurd (.inr hone) hpassed
      · exact List.cons_ne_nil _ _
  · intro _ w hw
    exact hoperand w (List.mem_of_mem_filter hw)
  · intro j hj hthere o ho
    apply hlives
    intro hin
    rcases (hgone o).mp hin with hin | hin
    · exfalso
      rcases List.mem_cons.mp hin with rfl | hin
      · have hid := hunused.tuple_users j (HloComputation.mem_users.mpr ⟨hj, ho⟩)
        exact hthere ((hgone _).mpr (.inl (by simp [hid])))
      · obtain rfl := List.mem_singleton.mp hin
        exact hthere ((hgone _).mpr (.inr (List.mem_map_of_mem
          (HloComputation.mem_users.mpr ⟨hj, ho⟩))))
    · exact hin
  · apply hlives
    intro hin
    rcases (hgone _).mp hin with hin | hin
    · exfalso
      rcases List.mem_cons.mp hin with heq | hin
      · exact hunused.tuple_root heq.symm
      · exact hunused.barrier_root (List.mem_singleton.mp hin).symm
    · exact hin
  · rcases h.news with ⟨-, hnil⟩ | ⟨-, newTuple, newBarrier, hnew, heq⟩
    · exact .inl hnil
    · exact .inr ⟨newTuple, newBarrier, hnew, heq⟩

end cleared

end CrossTaskBarrierRemover
end MultiMeshJax
