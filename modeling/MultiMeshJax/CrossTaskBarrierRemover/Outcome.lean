import MultiMeshJax.CrossTaskBarrierRemover.Rebuilt
import MultiMeshJax.Foundation.Related
import MultiMeshJax.Hlo.Semantics

/-! A computation in which a barrier has been replaced is well formed and has the values that it
had. -/
namespace MultiMeshJax
namespace CrossTaskBarrierRemover

open HloGraph (Rewired)

/-- What is gone has only handed on an operand of the tuple, which is there. -/
def Lives (inputTuple : HloInstruction) (users : List HloInstruction) (gone : List ℕ) (id : ℕ) :
    Prop :=
  id ∈ gone → ∃ user ∈ users, user.id = id ∧ operandOf inputTuple user ∉ gone

/-- What a visit of a barrier leaves. -/
structure Outcome (removeParameters : Bool) (properties : Properties) (c₀ : HloComputation) (n₀ : ℕ)
    (barrier inputTuple : HloInstruction) (σ : ℕ → ℕ) (gone : List ℕ) (news : List HloInstruction)
    (g : HloGraph) : Prop where
  rewired : Rewired c₀ n₀ σ gone news g
  takes : ∀ user ∈ c₀.users barrier.id, Takes removeParameters properties inputTuple user
  outside : ∀ id, id ∉ (c₀.users barrier.id).map HloInstruction.id → σ id = id
  user : ∀ user ∈ c₀.users barrier.id, user.id ∉ gone ∧ σ user.id = user.id ∨
    user.id ∈ gone ∧ (σ user.id = operandOf inputTuple user ∨ news ≠ [] ∧ ∃ index : ℕ,
      (kept removeParameters properties inputTuple (c₀.users barrier.id))[index]? = some user ∧
        σ user.id = n₀ + 2 + index)
  needed : news ≠ [] → ∀ user ∈ kept removeParameters properties inputTuple (c₀.users barrier.id),
    operandOf inputTuple user ∉ gone
  closed : ∀ j ∈ c₀.instructions, j.id ∉ gone → ∀ o ∈ j.operands,
    Lives inputTuple (c₀.users barrier.id) gone o
  root : Lives inputTuple (c₀.users barrier.id) gone c₀.root
  news : news = [] ∨ ∃ newTuple newBarrier, NewBarrier n₀ ((kept removeParameters properties inputTuple
    (c₀.users barrier.id)).map (operandOf inputTuple)) newTuple newBarrier ∧
      news = newTuple :: newBarrier ::
        (kept removeParameters properties inputTuple (c₀.users barrier.id)).zipIdx.map (gteOf n₀)

/-- The new instructions take the ranks of those that they replace. -/
def newRank (n₀ : ℕ) (rank : ℕ → ℕ) (barrier inputTuple : HloInstruction)
    (users : List HloInstruction) (id : ℕ) : ℕ :=
  if id < n₀ then rank id
  else if id = n₀ then rank inputTuple.id
  else if id = n₀ + 1 then rank barrier.id
  else rank ((users.map HloInstruction.id).getD (id - (n₀ + 2)) 0)

variable {removeParameters : Bool} {properties : Properties} {c₀ : HloComputation} {n₀ : ℕ}
  {rank : ℕ → ℕ} {barrier inputTuple user : HloInstruction} {g : HloGraph} {σ : ℕ → ℕ}
  {gone : List ℕ} {news users : List HloInstruction} {id : ℕ}

section newRank

theorem newRank_of_lt (h : id < n₀) : newRank n₀ rank barrier inputTuple users id = rank id := if_pos h

theorem newRank_tuple : newRank n₀ rank barrier inputTuple users n₀ = rank inputTuple.id := by
  rw [newRank, if_neg (lt_irrefl n₀), if_pos rfl]

theorem newRank_barrier : newRank n₀ rank barrier inputTuple users (n₀ + 1) = rank barrier.id := by
  rw [newRank, if_neg (by omega), if_neg (by omega), if_pos rfl]

theorem newRank_gte {index : ℕ} (h : users[index]? = some user) :
    newRank n₀ rank barrier inputTuple users (n₀ + 2 + index) = rank user.id := by
  rw [newRank, if_neg (by omega), if_neg (by omega), if_neg (by omega), Nat.add_sub_cancel_left,
    List.getD_eq_getElem?_getD, List.getElem?_map, h]
  rfl

end newRank

/-- An operand that is handed on is there. -/
theorem Lives.operand (hranked : Ranked c₀ n₀ rank)
    (h : Lives inputTuple (c₀.users barrier.id) gone user.id) (huser : user ∈ c₀.users barrier.id)
    (hgone : user.id ∈ gone) : operandOf inputTuple user ∉ gone := by
  obtain ⟨w, hw, heq, hthere⟩ := h hgone
  obtain rfl : w = user := List.inj_on_of_nodup_map hranked.nodup
    (HloComputation.mem_users.mp hw).1 (HloComputation.mem_users.mp huser).1 heq
  exact hthere

section outcome

variable (h : Outcome removeParameters properties c₀ n₀ barrier inputTuple σ gone news g)
  (hranked : Ranked c₀ n₀ rank) (hsite : Site c₀ barrier inputTuple)

include h

theorem Outcome.mem_ids (hid : id ∈ c₀.ids) (hgone : id ∉ gone) : id ∈ g.computation.ids := by
  obtain ⟨j, hj, rfl⟩ := List.mem_map.mp hid
  exact List.mem_map.mpr ⟨_, (h.rewired.mem _).mpr (.inl ⟨j, hj, hgone, rfl⟩), rfl⟩

include hranked hsite

/-- The operands that are taken out stay where they are. -/
theorem Outcome.operand (huser : user ∈ c₀.users barrier.id)
    (hgone : operandOf inputTuple user ∉ gone) :
    operandOf inputTuple user ∈ g.computation.ids ∧
      σ (operandOf inputTuple user) = operandOf inputTuple user ∧
        operandOf inputTuple user < n₀ ∧ rank (operandOf inputTuple user) < rank inputTuple.id := by
  have hmem := (h.takes user huser).mem
  have hid := hranked.closed inputTuple hsite.tuple_mem _ hmem
  refine ⟨h.mem_ids hid hgone, ?_, hranked.lt _ hid,
    rank_operand_lt hranked hsite hmem⟩
  apply h.outside
  intro hin
  obtain ⟨w, hw, heq⟩ := List.mem_map.mp hin
  exact operand_ne_user hranked hsite hmem hw heq.symm

/-- What an id is redirected to is there, and comes no later in the order. -/
theorem Outcome.target (hid : id ∈ c₀.ids)
    (hlives : Lives inputTuple (c₀.users barrier.id) gone id) :
    σ id ∈ g.computation.ids ∧ newRank n₀ rank barrier inputTuple
      (kept removeParameters properties inputTuple (c₀.users barrier.id)) (σ id) ≤ rank id := by
  have hlt := hranked.lt id hid
  have hself : id ∉ gone → σ id = id → σ id ∈ g.computation.ids ∧
      newRank n₀ rank barrier inputTuple
        (kept removeParameters properties inputTuple (c₀.users barrier.id)) (σ id) ≤ rank id := by
    intro hgone hσ
    rw [hσ, newRank_of_lt hlt]
    exact ⟨h.mem_ids hid hgone, le_rfl⟩
  by_cases husers : id ∈ (c₀.users barrier.id).map HloInstruction.id
  · obtain ⟨w, hw, rfl⟩ := List.mem_map.mp husers
    rcases h.user w hw with ⟨hgone, hσ⟩ | ⟨hgone, hσ | ⟨hnews, index, hindex, hσ⟩⟩
    · exact hself hgone hσ
    · obtain ⟨hin, -, hlt', hrank⟩ := h.operand hranked hsite hw (hlives.operand hranked hw hgone)
      have h₁ := rank_tuple_lt hranked hsite
      have h₂ := rank_user_lt hranked hw
      rw [hσ, newRank_of_lt hlt']
      exact ⟨hin, by omega⟩
    · rw [hσ, newRank_gte hindex]
      refine ⟨?_, le_rfl⟩
      rcases h.news with hnil | ⟨newTuple, newBarrier, -, heq⟩
      · exact absurd hnil hnews
      · have hgte : gteOf n₀ (w, index) ∈ news := by
          rw [heq]
          apply List.mem_cons_of_mem _ (List.mem_cons_of_mem _ (List.mem_map_of_mem _))
          rwa [List.mk_mem_zipIdx_iff_getElem?]
        exact List.mem_map.mpr ⟨_, (h.rewired.mem _).mpr (.inr hgte), rfl⟩
  · apply hself _ (h.outside id husers)
    intro hgone
    obtain ⟨w, hw, heq, -⟩ := hlives hgone
    exact husers (List.mem_map.mpr ⟨w, hw, heq⟩)

/-- The new instructions read what is there and comes before them. -/
theorem Outcome.news_operands {j : HloInstruction} (hj : j ∈ news) {o : ℕ} (ho : o ∈ j.operands) :
    o ∈ g.computation.ids ∧
      newRank n₀ rank barrier inputTuple
        (kept removeParameters properties inputTuple (c₀.users barrier.id)) o <
      newRank n₀ rank barrier inputTuple
        (kept removeParameters properties inputTuple (c₀.users barrier.id)) j.id := by
  rcases h.news with rfl | ⟨newTuple, newBarrier, hnew, heq⟩
  · cases hj
  · have hin : ∀ k ∈ news, k.id ∈ g.computation.ids := fun k hk =>
      List.mem_map_of_mem ((h.rewired.mem k).mpr (.inr hk))
    have htuple := hin newTuple (heq ▸ List.mem_cons_self ..)
    have hbarrier := hin newBarrier (heq ▸ List.mem_cons_of_mem _ (List.mem_cons_self ..))
    rw [heq] at hj
    rcases List.mem_cons.mp hj with rfl | hj
    · rw [hnew.tuple_operands] at ho
      obtain ⟨w, hw, rfl⟩ := List.mem_map.mp ho
      obtain ⟨hids, -, hlt, hrank⟩ := h.operand hranked hsite (List.mem_of_mem_filter hw)
        (h.needed (by simp [heq]) w hw)
      rw [hnew.tuple_id, newRank_tuple, newRank_of_lt hlt]
      exact ⟨hids, hrank⟩
    · rcases List.mem_cons.mp hj with rfl | hj
      · rw [hnew.operands_eq, List.mem_singleton] at ho
        subst ho
        rw [hnew.id_eq, newRank_barrier, newRank_tuple]
        exact ⟨hnew.tuple_id ▸ htuple, rank_tuple_lt hranked hsite⟩
      · obtain ⟨⟨w, index⟩, hw, rfl⟩ := List.mem_map.mp hj
        have hindex := List.mk_mem_zipIdx_iff_getElem?.mp hw
        have ho' : o = n₀ + 1 := by simpa [gteOf] using ho
        subst ho'
        change _ ∧ _ < newRank n₀ rank barrier inputTuple _ (n₀ + 2 + index)
        rw [newRank_barrier, newRank_gte hindex]
        refine ⟨hnew.id_eq ▸ hbarrier, rank_user_lt hranked ?_⟩
        exact List.mem_of_mem_filter (List.mem_of_getElem? hindex)

theorem Outcome.ranked : Ranked g.computation g.nextId (newRank n₀ rank barrier inputTuple
    (kept removeParameters properties inputTuple (c₀.users barrier.id))) := by
  have hold : ∀ j₀ ∈ c₀.instructions, j₀.id ∉ gone → ∀ o ∈ j₀.operands,
      σ o ∈ g.computation.ids ∧ newRank n₀ rank barrier inputTuple
        (kept removeParameters properties inputTuple (c₀.users barrier.id)) (σ o) < rank j₀.id := by
    intro j₀ hj₀ hgone o ho
    obtain ⟨hin, hle⟩ := h.target hranked hsite (hranked.closed j₀ hj₀ o ho)
      (h.closed j₀ hj₀ hgone o ho)
    exact ⟨hin, hle.trans_lt (hranked.descends j₀ hj₀ o ho)⟩
  constructor
  · exact h.rewired.nodup
  · exact fun id hid => h.rewired.lt_nextId hranked.lt hid
  · intro j hj o ho
    rcases (h.rewired.mem j).mp hj with ⟨j₀, hj₀, hgone, rfl⟩ | hnew
    · obtain ⟨o₀, ho₀, rfl⟩ := List.mem_map.mp ho
      exact (hold j₀ hj₀ hgone o₀ ho₀).1
    · exact (h.news_operands hranked hsite hnew ho).1
  · intro j hj o ho
    rcases (h.rewired.mem j).mp hj with ⟨j₀, hj₀, hgone, rfl⟩ | hnew
    · obtain ⟨o₀, ho₀, rfl⟩ := List.mem_map.mp ho
      change _ < newRank n₀ rank barrier inputTuple _ j₀.id
      rw [newRank_of_lt (hranked.lt _ (List.mem_map_of_mem hj₀))]
      exact (hold j₀ hj₀ hgone o₀ ho₀).2
    · exact (h.news_operands hranked hsite hnew ho).2
  · rw [h.rewired.root]
    exact (h.target hranked hsite hranked.root h.root).1

end outcome

section values

/-- A barrier hands its operand through. -/
def Transparent {V : Type} (I : Interpretation V) : Prop :=
  ∀ shape v, I.operation .optimizationBarrier shape [v] = some v

/-- A get-tuple-element reads one instruction. -/
def UnaryElements (c : HloComputation) : Prop :=
  ∀ j ∈ c.instructions, ∀ index, j.opcode = .getTupleElement index → ∃ o, j.operands = [o]

variable {V : Type} {I : Interpretation V} {ctx : Context V} {v : Value V} {depth : ℕ}

theorem forall₂_singleton {R : ℕ → Value V → Prop} {o : ℕ} {args : List (Value V)}
    (h : List.Forall₂ R [o] args) : ∃ a, args = [a] ∧ R o a := by
  cases h with
  | cons ha hrest =>
    cases hrest
    exact ⟨_, rfl, ha⟩

theorem operands_of_user (hunary : UnaryElements c₀)
    (htakes : Takes removeParameters properties inputTuple user)
    (huser : user ∈ c₀.users barrier.id) : user.operands = [barrier.id] := by
  obtain ⟨hmem, hread⟩ := HloComputation.mem_users.mp huser
  obtain ⟨index, hopcode, -⟩ := htakes.element
  obtain ⟨o, ho⟩ := hunary user hmem index hopcode
  rw [ho, List.mem_singleton] at hread
  rw [ho, hread]

/-- A user of the barrier has the value of the operand that it takes out. -/
theorem user_value (hids : c₀.ids.Nodup) (hI : Transparent I) (hsite : Site c₀ barrier inputTuple)
    (hunary : UnaryElements c₀) (htakes : Takes removeParameters properties inputTuple user)
    (huser : user ∈ c₀.users barrier.id) (hv : c₀.eval I ctx depth user.id = some v) :
    ∃ depth' < depth, (∃ vs, List.Forall₂ (fun o a => c₀.eval I ctx depth' o = some a)
      inputTuple.operands vs) ∧ c₀.eval I ctx depth' (operandOf inputTuple user) = some v := by
  obtain ⟨hmem, -⟩ := HloComputation.mem_users.mp huser
  have hoperands := operands_of_user hunary htakes huser
  obtain ⟨index, hopcode, -⟩ := htakes.element
  have hstep : ∀ {depth : ℕ} {i : HloInstruction} {v : Value V}, i ∈ c₀.instructions →
      c₀.eval I ctx depth i.id = some v → ∃ d args, depth = d + 1 ∧
        List.Forall₂ (fun o a => c₀.eval I ctx d o = some a) i.operands args ∧
          I.apply ctx i args = some v := by
    intro depth i v hi hv
    cases depth with
    | zero => cases hv
    | succ d =>
      obtain ⟨i', args, hi', hargs, happly⟩ := HloComputation.eval_succ.mp hv
      rw [HloComputation.instruction_of_mem hids hi] at hi'
      obtain rfl := Option.some.inj hi'
      exact ⟨d, args, rfl, hargs, happly⟩
  obtain ⟨d₁, args₁, rfl, hargs₁, happly₁⟩ := hstep hmem hv
  rw [hoperands] at hargs₁
  obtain ⟨a₁, rfl, ha₁⟩ := forall₂_singleton hargs₁
  obtain ⟨d₂, args₂, rfl, hargs₂, happly₂⟩ := hstep hsite.barrier_mem ha₁
  rw [hsite.operands] at hargs₂
  obtain ⟨a₂, rfl, ha₂⟩ := forall₂_singleton hargs₂
  obtain ⟨d₃, vs, rfl, hvs, happly₃⟩ := hstep hsite.tuple_mem ha₂
  rw [Interpretation.apply, hsite.opcode] at happly₂
  dsimp only at happly₂
  rw [hI] at happly₂
  obtain rfl := Option.some.inj happly₂
  rw [Interpretation.apply, hsite.tuple_opcode] at happly₃
  obtain rfl := Option.some.inj happly₃
  rw [Interpretation.apply, hopcode] at happly₁
  refine ⟨d₃, by omega, ⟨vs, hvs⟩, ?_⟩
  have hoperand := StatusOr.elementAt_eq_ok.mp htakes.elementAt
  rw [indexOf, hopcode] at hoperand
  obtain ⟨w, hw, heval⟩ := forall₂_getElem? hvs hoperand
  dsimp only at happly₁ hw
  rw [hw] at happly₁
  obtain rfl := Option.some.inj happly₁
  exact heval

/-- An instruction that is still there, with what it reads. -/
theorem Outcome.computes_old {j : HloInstruction} {args : List (Value V)}
    (h : Outcome removeParameters properties c₀ n₀ barrier inputTuple σ gone news g)
    (hj : j ∈ c₀.instructions) (hgone : j.id ∉ gone)
    (hargs : List.Forall₂ (fun o a => g.computation.Computes I ctx (σ o) a) j.operands args)
    (hv : I.apply ctx j args = some v) : g.computation.Computes I ctx j.id v := by
  have hmem := (h.rewired.mem _).mpr (.inl ⟨j, hj, hgone, rfl⟩)
  have hi := HloComputation.instruction_of_mem h.rewired.nodup hmem
  apply HloComputation.Computes.of_operands hi
  · exact List.forall₂_map_left_iff.mpr hargs
  · exact hv

/-- The elements of the new barrier are the operands that are left. -/
theorem Outcome.computes_gte {vs : List (Value V)} {index : ℕ}
    (h : Outcome removeParameters properties c₀ n₀ barrier inputTuple σ gone news g)
    (hI : Transparent I) (hnews : news ≠ [])
    (hvs : List.Forall₂ (g.computation.Computes I ctx)
      ((kept removeParameters properties inputTuple (c₀.users barrier.id)).map
        (operandOf inputTuple)) vs)
    (hindex : (kept removeParameters properties inputTuple (c₀.users barrier.id))[index]? =
      some user) (hv : vs[index]? = some v) :
    g.computation.Computes I ctx (n₀ + 2 + index) v := by
  rcases h.news with hnil | ⟨newTuple, newBarrier, hnew, heq⟩
  · exact absurd hnil hnews
  · have hinstruction : ∀ j ∈ news, g.computation.instruction j.id = some j := fun j hj =>
      HloComputation.instruction_of_mem h.rewired.nodup ((h.rewired.mem j).mpr (.inr hj))
    have htuple : g.computation.Computes I ctx n₀ (.tuple vs) := by
      have hi := hinstruction newTuple (heq ▸ List.mem_cons_self ..)
      rw [hnew.tuple_id] at hi
      apply HloComputation.Computes.of_operands hi (hnew.tuple_operands ▸ hvs)
      rw [Interpretation.apply, hnew.tuple_opcode]
    have hbarrier : g.computation.Computes I ctx (n₀ + 1) (.tuple vs) := by
      have hi := hinstruction newBarrier (heq ▸ List.mem_cons_of_mem _ (List.mem_cons_self ..))
      rw [hnew.id_eq] at hi
      apply HloComputation.Computes.of_operands hi
      · rw [hnew.operands_eq]
        exact .cons htuple .nil
      · rw [Interpretation.apply, hnew.opcode]
        exact hI newBarrier.shape (.tuple vs)
    have hgte : gteOf n₀ (user, index) ∈ news := by
      rw [heq]
      apply List.mem_cons_of_mem _ (List.mem_cons_of_mem _ (List.mem_map_of_mem _))
      rwa [List.mk_mem_zipIdx_iff_getElem?]
    have hi := hinstruction _ hgte
    apply HloComputation.Computes.of_operands hi
    · rw [gteOf_operands]
      exact .cons hbarrier .nil
    · rw [Interpretation.apply, gteOf_opcode]
      exact hv

/-- What is there, or has handed on what is there, has the value that it had. -/
theorem Outcome.computes
    (h : Outcome removeParameters properties c₀ n₀ barrier inputTuple σ gone news g)
    (hranked : Ranked c₀ n₀ rank) (hsite : Site c₀ barrier inputTuple) (hunary : UnaryElements c₀)
    (hI : Transparent I) (hlives : Lives inputTuple (c₀.users barrier.id) gone id)
    (hv : c₀.eval I ctx depth id = some v) : g.computation.Computes I ctx (σ id) v := by
  induction depth using Nat.strong_induction_on generalizing id v with
  | _ depth ih =>
    have hself : id ∉ gone → g.computation.Computes I ctx id v := by
      intro hgone
      cases depth with
      | zero => cases hv
      | succ depth =>
        obtain ⟨i, args, hi, hargs, happly⟩ := HloComputation.eval_succ.mp hv
        obtain rfl := HloComputation.id_of_instruction hi
        have hmem := HloComputation.mem_of_instruction hi
        apply h.computes_old hmem hgone _ happly
        apply (mem_of_forall₂ hargs).imp
        rintro o a ⟨ho, ha⟩
        exact ih depth (Nat.lt_succ_self _) (h.closed i hmem hgone o ho) ha
    by_cases husers : id ∈ (c₀.users barrier.id).map HloInstruction.id
    · obtain ⟨w, hw, rfl⟩ := List.mem_map.mp husers
      obtain ⟨d, hd, ⟨vs, hvs⟩, hoperand⟩ := user_value hranked.nodup hI hsite hunary
        (h.takes w hw) hw hv
      -- the operands that are taken out have their values in the new computation
      have hvalue : ∀ u ∈ c₀.users barrier.id, operandOf inputTuple u ∉ gone → ∀ a,
          c₀.eval I ctx d (operandOf inputTuple u) = some a →
            g.computation.Computes I ctx (operandOf inputTuple u) a := by
        intro u hu hthere a ha
        have hcomputes := ih d hd (fun hin => absurd hin hthere) ha
        rwa [(h.operand hranked hsite hu hthere).2.1] at hcomputes
      rcases h.user w hw with ⟨hgone, hσ⟩ | ⟨hgone, hσ | ⟨hnews, index, hindex, hσ⟩⟩
      · rw [hσ]
        exact hself hgone
      · rw [hσ]
        exact hvalue w hw (hlives.operand hranked hw hgone) v hoperand
      · rw [hσ]
        have hall : ∀ u ∈ kept removeParameters properties inputTuple (c₀.users barrier.id), ∃ a,
            c₀.eval I ctx d (operandOf inputTuple u) = some a ∧
              g.computation.Computes I ctx (operandOf inputTuple u) a := by
          intro u hu
          have hu' := List.mem_of_mem_filter hu
          obtain ⟨a, -, ha⟩ := exists_of_mem_forall₂ hvs (h.takes u hu').mem
          exact ⟨a, ha, hvalue u hu' (h.needed hnews u hu) a ha⟩
        obtain ⟨as, has⟩ := StatusOr.exists_forall₂ hall
        apply h.computes_gte hI hnews (List.forall₂_map_left_iff.mpr (has.imp fun _ _ h => h.2)) hindex
        obtain ⟨a, ha, heval, -⟩ := forall₂_getElem? has hindex
        rw [hoperand] at heval
        rw [ha, heval]
    · have hgone : id ∉ gone := by
        intro hgone
        obtain ⟨w, hw, heq, -⟩ := hlives hgone
        exact husers (List.mem_map.mpr ⟨w, hw, heq⟩)
      rw [h.outside id husers]
      exact hself hgone

end values

end CrossTaskBarrierRemover
end MultiMeshJax
