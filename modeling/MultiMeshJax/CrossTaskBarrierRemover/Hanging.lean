import MultiMeshJax.CrossTaskBarrierRemover.Removed

/-! The operands that no user takes out, and what goes with them. -/
namespace MultiMeshJax
namespace CrossTaskBarrierRemover

open StatusOr
open HloGraph (Rewired)

variable {removeParameters : Bool} {properties : Properties} {c₀ : HloComputation} {n₀ : ℕ}
  {rank : ℕ → ℕ} {barrier inputTuple user : HloInstruction} {g g' : HloGraph} {σ : ℕ → ℕ}
  {gone roots : List ℕ} {news : List HloInstruction} {x : ℕ}

/-- What is left hanging when the tuple goes: all else that reads it hangs, and what takes it out of
the barrier is handed through to nothing. -/
inductive Hangs (removeParameters : Bool) (properties : Properties) (c₀ : HloComputation)
    (barrier inputTuple : HloInstruction) (roots : List ℕ) : ℕ → Prop
  | intro {i : HloInstruction} (hi : c₀.instruction i.id = some i) (hparameter : i.isParameter = false)
      (hread : i.id ∈ roots ∨ ∃ j ∈ c₀.users i.id, j.id ≠ inputTuple.id)
      (husers : ∀ j ∈ c₀.users i.id, j.id ≠ inputTuple.id →
        Hangs removeParameters properties c₀ barrier inputTuple roots j.id)
      (hpassed : ∀ user ∈ c₀.users barrier.id, operandOf inputTuple user = i.id →
        Passed removeParameters properties c₀ barrier inputTuple user ∧ c₀.users user.id = []) :
      Hangs removeParameters properties c₀ barrier inputTuple roots i.id

section hangs

theorem Hangs.rank_lt (hranked : Ranked c₀ n₀ rank) (hsite : Site c₀ barrier inputTuple)
    (hroots : ∀ id ∈ roots, id ∈ inputTuple.operands)
    (hx : Hangs removeParameters properties c₀ barrier inputTuple roots x) :
    rank x < rank inputTuple.id := by
  induction hx with
  | @intro i hi _ hread _ _ ih =>
    rcases hread with hin | ⟨j, hj, hne⟩
    · exact rank_operand_lt hranked hsite (hroots _ hin)
    · obtain ⟨hmem, hread⟩ := HloComputation.mem_users.mp hj
      exact (hranked.descends j hmem _ hread).trans (ih j hj hne)

theorem Hangs.cases (hx : Hangs removeParameters properties c₀ barrier inputTuple roots x) :
    ∃ i, c₀.instruction x = some i ∧ i.isParameter = false ∧
      (∀ j ∈ c₀.users x, j.id ≠ inputTuple.id →
        Hangs removeParameters properties c₀ barrier inputTuple roots j.id) ∧
      ∀ user ∈ c₀.users barrier.id, operandOf inputTuple user = x →
        Passed removeParameters properties c₀ barrier inputTuple user ∧ c₀.users user.id = [] := by
  cases hx with
  | intro hi hparameter hread husers hpassed => exact ⟨_, hi, hparameter, husers, hpassed⟩

variable (h : Rebuilt removeParameters properties c₀ n₀ barrier inputTuple
    [inputTuple.id, barrier.id] σ news g)
  (hranked : Ranked c₀ n₀ rank) (hsite : Site c₀ barrier inputTuple) (hunary : UnaryElements c₀)
  (htakes : ∀ w ∈ c₀.users barrier.id, Takes removeParameters properties inputTuple w)
  (houtcome : Outcome removeParameters properties c₀ n₀ barrier inputTuple σ gone news g)
  (hgone : ∀ id, id ∈ gone ↔ Replaced c₀ barrier inputTuple id)
  (hroots : ∀ id ∈ roots, id ∈ inputTuple.operands)

include hranked hsite houtcome hroots

/-- What goes with the operands comes before the tuple. -/
theorem freed_rank_lt (hx : g.computation.Freed roots x) :
    newRank n₀ rank barrier inputTuple
      (kept removeParameters properties inputTuple (c₀.users barrier.id)) x < rank inputTuple.id := by
  induction hx with
  | @intro i hi _ hread _ ih =>
    rcases hread with hin | hread
    · have hmem := hroots _ hin
      rw [newRank_of_lt (hranked.lt _ (hranked.closed inputTuple hsite.tuple_mem _ hmem))]
      exact rank_operand_lt hranked hsite hmem
    · obtain ⟨j, hj⟩ := List.exists_mem_of_ne_nil _ hread
      obtain ⟨hmem, hread⟩ := HloComputation.mem_users.mp hj
      exact ((houtcome.ranked hranked hsite).descends j hmem _ hread).trans (ih j hj)

/-- It was there before, and keeps its place. -/
theorem freed_old (hx : g.computation.Freed roots x) : x ∈ c₀.ids ∧ x ∉ gone ∧
    rank x < rank inputTuple.id := by
  have hlt := freed_rank_lt hranked hsite houtcome hroots hx
  obtain ⟨i, hi, -, -⟩ := hx.cases
  obtain rfl := HloComputation.id_of_instruction hi
  rcases (houtcome.rewired.mem i).mp (HloComputation.mem_of_instruction hi) with
    ⟨j, hj, hthere, rfl⟩ | hnew
  · have hid : j.id ∈ c₀.ids := List.mem_map_of_mem hj
    have hlt' : newRank n₀ rank barrier inputTuple
        (kept removeParameters properties inputTuple (c₀.users barrier.id)) j.id <
          rank inputTuple.id := hlt
    rw [newRank_of_lt (hranked.lt _ hid)] at hlt'
    exact ⟨hid, hthere, hlt'⟩
  · exfalso
    have htuple := rank_tuple_lt hranked hsite
    rcases houtcome.news with rfl | ⟨newTuple, newBarrier, hnewBarrier, rfl⟩
    · cases hnew
    · rcases List.mem_cons.mp hnew with rfl | hnew
      · rw [hnewBarrier.tuple_id, newRank_tuple] at hlt
        exact hlt.false
      · rcases List.mem_cons.mp hnew with rfl | hnew
        · rw [hnewBarrier.id_eq, newRank_barrier] at hlt
          omega
        · obtain ⟨⟨w, index⟩, hw, rfl⟩ := List.mem_map.mp hnew
          have hindex := List.mk_mem_zipIdx_iff_getElem?.mp hw
          have hlt' : newRank n₀ rank barrier inputTuple
              (kept removeParameters properties inputTuple (c₀.users barrier.id))
                (n₀ + 2 + index) < rank inputTuple.id := hlt
          rw [newRank_gte hindex] at hlt'
          have huser := rank_user_lt hranked
            (List.mem_of_mem_filter (List.mem_of_getElem? hindex))
          omega

include h hunary htakes hgone

omit hroots in
/-- What comes before the tuple is still read by what read it, and by what read the users that were
passed. -/
theorem mem_users_iff_of_lt {j : HloInstruction} (hx : rank x < rank inputTuple.id)
    (hxmem : x ∈ c₀.ids) :
    j ∈ g.computation.users x ↔
      (∃ j₀ ∈ c₀.users x, j₀.id ≠ inputTuple.id ∧ j = j₀.mapOperands σ) ∨
      (∃ j₀, ∃ user ∈ c₀.users barrier.id, operandOf inputTuple user = x ∧
        Passed removeParameters properties c₀ barrier inputTuple user ∧ j₀ ∈ c₀.users user.id ∧
          j = j₀.mapOperands σ) ∨
      (j ∈ news ∧ x ∈ j.operands) := by
  have htuple := rank_tuple_lt hranked hsite
  have hnot : x ∉ (c₀.users barrier.id).map HloInstruction.id := by
    intro hin
    have hle := Replaced.rank_le hranked hsite (.inr hin)
    omega
  have hσ := h.eq_operand_iff (hranked.lt x hxmem) hnot
  -- what is replaced reads neither the instruction nor a user
  have hthere : ∀ j₀ ∈ c₀.instructions, ∀ o ∈ j₀.operands, j₀.id ≠ inputTuple.id →
      o ≠ inputTuple.id → o ≠ barrier.id → j₀.id ∉ gone := by
    intro j₀ hj₀ o ho htuple hne hne' hin
    rcases Replaced.operands hranked hsite hunary htakes hj₀ ((hgone _).mp hin) ho with heq | heq | heq
    · exact htuple heq
    · exact hne heq
    · exact hne' heq
  rw [HloComputation.mem_users, houtcome.rewired.mem, or_and_right]
  constructor
  · rintro (⟨⟨j₀, hj₀, hgone₀, rfl⟩, hread⟩ | hnew)
    · obtain ⟨o, ho, hσo⟩ := List.mem_map.mp hread
      rcases (hσ o).mp hσo with rfl | ⟨w, hw, rfl, hpassed, hoperand⟩
      · refine .inl ⟨j₀, HloComputation.mem_users.mpr ⟨hj₀, ho⟩, ?_, rfl⟩
        intro heq
        exact hgone₀ ((hgone _).mpr (.inl (by simp [heq])))
      · exact .inr (.inl ⟨j₀, w, hw, hoperand, hpassed, HloComputation.mem_users.mpr ⟨hj₀, ho⟩, rfl⟩)
    · exact .inr (.inr hnew)
  · rintro (⟨j₀, hj₀, hne, rfl⟩ | ⟨j₀, w, hw, hoperand, hpassed, hj₀, rfl⟩ | hnew)
    · obtain ⟨hmem, hread⟩ := HloComputation.mem_users.mp hj₀
      left
      refine ⟨⟨j₀, hmem, hthere j₀ hmem x hread hne ?_ ?_, rfl⟩, ?_⟩
      · rintro rfl
        exact hx.false
      · rintro rfl
        omega
      · exact List.mem_map.mpr ⟨x, hread, (hσ x).mpr (.inl rfl)⟩
    · obtain ⟨hmem, hread⟩ := HloComputation.mem_users.mp hj₀
      have huser := rank_user_lt hranked hw
      have hlt := hranked.descends j₀ hmem _ hread
      left
      refine ⟨⟨j₀, hmem, hthere j₀ hmem _ hread ?_ ?_ ?_, rfl⟩, ?_⟩
      · intro heq
        rw [heq] at hlt
        omega
      · intro heq
        rw [heq] at huser
        omega
      · intro heq
        rw [heq] at huser
        exact huser.false
      · exact List.mem_map.mpr ⟨w.id, hread, (hσ w.id).mpr (.inr ⟨w, hw, rfl, hpassed, hoperand⟩)⟩
    · exact .inr hnew

/-- What goes is what hangs. -/
theorem freed_iff_hangs : g.computation.Freed roots x ↔
    Hangs removeParameters properties c₀ barrier inputTuple roots x := by
  have htuple := rank_tuple_lt hranked hsite
  constructor
  · intro hx
    have hold := freed_old hranked hsite houtcome hroots hx
    induction hx with
    | @intro i hi hparameter hread husers ih =>
      obtain ⟨hids, hthere, hlt⟩ := hold
      obtain ⟨j, hj, hid⟩ := List.mem_map.mp hids
      have hij : i = j.mapOperands σ := by
        rcases (houtcome.rewired.mem i).mp (HloComputation.mem_of_instruction hi) with
          ⟨j', hj', -, rfl⟩ | hnew
        · rw [List.inj_on_of_nodup_map hranked.nodup hj' hj hid.symm]
        · have hge := (houtcome.rewired.fresh i hnew).1
          have hlt := hranked.lt _ hids
          omega
      subst hij
      have hiff := fun k : HloInstruction => mem_users_iff_of_lt (j := k) h hranked hsite hunary
        htakes houtcome hgone hlt hids
      have holds := fun k hk => freed_old hranked hsite houtcome hroots (husers k hk)
      -- what reads a user of the barrier comes after the tuple
      have hlate : ∀ w ∈ c₀.users barrier.id, ∀ k₀ ∈ c₀.users w.id,
          ¬rank k₀.id < rank inputTuple.id := by
        intro w hw k₀ hk₀
        obtain ⟨hmem, hread⟩ := HloComputation.mem_users.mp hk₀
        have h₁ := rank_user_lt hranked hw
        have h₂ := hranked.descends k₀ hmem _ hread
        omega
      have hnew : ∀ k ∈ news, k.id ∉ c₀.ids := by
        intro k hk hin
        have hge := (houtcome.rewired.fresh k hk).1
        have hbound := hranked.lt _ hin
        omega
      refine Hangs.intro (i := j) (HloComputation.instruction_of_mem hranked.nodup hj) hparameter
        ?_ ?_ ?_
      · apply hread.imp_right
        intro hread
        obtain ⟨k, hk⟩ := List.exists_mem_of_ne_nil _ hread
        obtain ⟨hkids, -, hklt⟩ := holds k hk
        rcases (hiff k).mp hk with ⟨k₀, hk₀, hne, -⟩ | ⟨k₀, w, hw, -, -, hk₀, rfl⟩ | ⟨hknew, -⟩
        · exact ⟨k₀, hk₀, hne⟩
        · exact absurd hklt (hlate w hw k₀ hk₀)
        · exact absurd hkids (hnew k hknew)
      · intro k₀ hk₀ hne
        have hk := (hiff _).mpr (.inl ⟨k₀, hk₀, hne, rfl⟩)
        exact ih (k₀.mapOperands σ) hk (holds _ hk)
      · intro w hw hoperand
        have hpassed : Passed removeParameters properties c₀ barrier inputTuple w := by
          by_contra hnot
          obtain ⟨k, hknew, hkread⟩ := h.exists_reader hw hnot
          rw [hoperand] at hkread
          have hk := (hiff k).mpr (.inr (.inr ⟨hknew, hkread⟩))
          exact hnew k hknew (holds k hk).1
        refine ⟨hpassed, ?_⟩
        by_contra hread
        obtain ⟨k₀, hk₀⟩ := List.exists_mem_of_ne_nil _ hread
        have hk := (hiff _).mpr (.inr (.inl ⟨k₀, w, hw, hoperand, hpassed, hk₀, rfl⟩))
        exact hlate w hw k₀ hk₀ (holds _ hk).2.2
  · intro hx
    induction hx with
    | @intro i hi hparameter hread husers hpassed ih =>
      have hlt := (Hangs.intro hi hparameter hread husers hpassed).rank_lt hranked hsite hroots
      have hmem := HloComputation.mem_of_instruction hi
      have hids : i.id ∈ c₀.ids := List.mem_map_of_mem hmem
      have hthere : i.id ∉ gone := by
        intro hin
        have hle := Replaced.rank_le hranked hsite ((hgone _).mp hin)
        omega
      have hiff := fun k : HloInstruction => mem_users_iff_of_lt (j := k) h hranked hsite hunary
        htakes houtcome hgone hlt hids
      have hnow := HloComputation.instruction_of_mem houtcome.rewired.nodup
        ((houtcome.rewired.mem _).mpr (.inl ⟨i, hmem, hthere, rfl⟩))
      refine HloComputation.Freed.intro (i := i.mapOperands σ) hnow hparameter ?_ ?_
      · apply hread.imp_right
        rintro ⟨k₀, hk₀, hne⟩
        exact List.ne_nil_of_mem ((hiff _).mpr (.inl ⟨k₀, hk₀, hne, rfl⟩))
      · intro k hk
        rcases (hiff k).mp hk with ⟨k₀, hk₀, hne, rfl⟩ | ⟨k₀, w, hw, hoperand, -, hk₀, -⟩ |
          ⟨hknew, hkread⟩
        · exact ih k₀ hk₀ hne
        · rw [(hpassed w hw hoperand).2] at hk₀
          cases hk₀
        · rcases h.news_operands hknew hkread with hle | ⟨w, hw, hnot, hoperand⟩
          · have hbound := hranked.lt _ hids
            omega
          · exact absurd (hpassed w hw hoperand).1 hnot

end hangs

end CrossTaskBarrierRemover
end MultiMeshJax
