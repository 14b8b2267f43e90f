import MultiMeshJax.CrossTaskBarrierRemover.Peeled

/-! The barrier that takes the place of the old one. -/
namespace MultiMeshJax
namespace CrossTaskBarrierRemover

open StatusOr
open ComputationFusion (tupleShape)
open HloGraph (Rewired redirects)

variable {removeParameters : Bool} {properties : Properties} {c₀ : HloComputation} {n₀ : ℕ}
  {rank : ℕ → ℕ} {barrier inputTuple user : HloInstruction} {g : HloGraph} {uses : Uses}
  {acc : HloGraph × ℕ} {done : List HloInstruction}

section regrouped

@[simp] theorem propagateProperties_id (i j : HloInstruction) : (propagateProperties i j).id = j.id := by
  unfold propagateProperties
  split <;> rfl

@[simp] theorem propagateProperties_opcode (i j : HloInstruction) :
    (propagateProperties i j).opcode = j.opcode := by
  unfold propagateProperties
  split <;> rfl

@[simp] theorem propagateProperties_operands (i j : HloInstruction) :
    (propagateProperties i j).operands = j.operands := by
  unfold propagateProperties
  split <;> rfl

@[simp] theorem propagateProperties_shape (i j : HloInstruction) :
    (propagateProperties i j).shape = j.shape := by
  unfold propagateProperties
  split <;> rfl

@[simp] theorem propagateProperties_controlPredecessors (i j : HloInstruction) :
    (propagateProperties i j).controlPredecessors = j.controlPredecessors := by
  unfold propagateProperties
  split <;> rfl

/-- The new get-tuple-element for a user, with its index. -/
def gteOf (n₀ : ℕ) (user : HloInstruction × ℕ) : HloInstruction :=
  { propagateProperties user.1
      { id := 0, opcode := .getTupleElement user.2, operands := [n₀ + 1], shape := user.1.shape }
    with id := n₀ + 2 + user.2 }

theorem gteOf_opcode (n₀ : ℕ) (user : HloInstruction × ℕ) :
    (gteOf n₀ user).opcode = .getTupleElement user.2 := propagateProperties_opcode ..

theorem gteOf_operands (n₀ : ℕ) (user : HloInstruction × ℕ) : (gteOf n₀ user).operands = [n₀ + 1] :=
  propagateProperties_operands ..

def gtePairs (n₀ : ℕ) (users : List HloInstruction) : List (ℕ × ℕ) :=
  users.zipIdx.map fun user => (user.1.id, n₀ + 2 + user.2)

theorem map_fst_gtePairs (n₀ : ℕ) (users : List HloInstruction) :
    (gtePairs n₀ users).map Prod.fst = users.map HloInstruction.id := by
  rw [gtePairs, List.map_map]
  change users.zipIdx.map (HloInstruction.id ∘ Prod.fst) = _
  rw [← List.map_map, List.zipIdx_map_fst]

theorem gtePairs_append : gtePairs n₀ (done ++ [user]) =
    gtePairs n₀ done ++ [(user.id, n₀ + 2 + done.length)] := by
  simp [gtePairs, List.zipIdx_append]

/-- The new tuple and barrier. -/
structure NewBarrier (n₀ : ℕ) (operands : List ℕ) (newTuple newBarrier : HloInstruction) : Prop where
  tuple_id : newTuple.id = n₀
  tuple_opcode : newTuple.opcode = .tuple
  tuple_operands : newTuple.operands = operands
  tuple_quiet : newTuple.controlPredecessors = []
  id_eq : newBarrier.id = n₀ + 1
  opcode : newBarrier.opcode = .optimizationBarrier
  operands_eq : newBarrier.operands = [n₀]
  quiet : newBarrier.controlPredecessors = []

/-- Some of the users that stay read the new barrier. -/
structure Regrouping (removeParameters : Bool) (properties : Properties) (c₀ : HloComputation)
    (n₀ : ℕ) (barrier inputTuple newTuple newBarrier : HloInstruction) (done : List HloInstruction)
    (acc : HloGraph × ℕ) : Prop where
  rewired : Rewired c₀ n₀
    (redirects (pairsOf inputTuple
      (peeled removeParameters properties inputTuple (c₀.users barrier.id)) ++ gtePairs n₀ done))
    ((done.map HloInstruction.id).reverse ++
      ((peeled removeParameters properties inputTuple (c₀.users barrier.id)).map
        HloInstruction.id).reverse)
    (newTuple :: newBarrier :: done.zipIdx.map (gteOf n₀)) acc.1
  nextId : acc.1.nextId = n₀ + 2 + done.length
  count : acc.2 = done.length

/-- The users that are peeled off and those that stay are all different. -/
theorem nodup_peeled_kept (hids : c₀.ids.Nodup) {users : List HloInstruction}
    (hsub : users.Sublist (kept removeParameters properties inputTuple (c₀.users barrier.id))) :
    ((peeled removeParameters properties inputTuple (c₀.users barrier.id) ++ users).map
      HloInstruction.id).Nodup := by
  have hperm := List.filter_append_perm
    (isPeeled removeParameters properties inputTuple) (c₀.users barrier.id)
  have hall := (hperm.map HloInstruction.id).nodup_iff.mpr (nodup_users hids barrier.id)
  exact List.Nodup.sublist ((hsub.append_left _).map _) hall

theorem kept_takes (htakes : ∀ w ∈ c₀.users barrier.id, Takes removeParameters properties inputTuple w)
    (h : user ∈ kept removeParameters properties inputTuple (c₀.users barrier.id)) :
    user ∈ c₀.users barrier.id ∧ Takes removeParameters properties inputTuple user :=
  ⟨List.mem_of_mem_filter h, htakes user (List.mem_of_mem_filter h)⟩

/-- A user that stays is not redirected, and nothing is redirected to it, until its turn comes. -/
theorem redirects_eq_kept (hranked : Ranked c₀ n₀ rank) (hsite : Site c₀ barrier inputTuple)
    (htakes : ∀ w ∈ c₀.users barrier.id, Takes removeParameters properties inputTuple w)
    {after : List HloInstruction}
    (heq : kept removeParameters properties inputTuple (c₀.users barrier.id) = done ++ user :: after)
    (id : ℕ) :
    redirects (pairsOf inputTuple
      (peeled removeParameters properties inputTuple (c₀.users barrier.id)) ++ gtePairs n₀ done) id =
        user.id ↔ id = user.id := by
  have hstays : user ∈ kept removeParameters properties inputTuple (c₀.users barrier.id) :=
    heq ▸ List.mem_append_right _ (List.mem_cons_self ..)
  obtain ⟨huser, -⟩ := kept_takes htakes hstays
  have hlt : user.id < n₀ :=
    hranked.lt _ (List.mem_map_of_mem (HloComputation.mem_users.mp huser).1)
  have hsub : (done ++ [user]).Sublist
      (kept removeParameters properties inputTuple (c₀.users barrier.id)) := by
    rw [heq]
    exact (List.singleton_sublist.mpr (List.mem_cons_self ..)).append_left done
  have hall := nodup_peeled_kept hranked.nodup hsub
  rw [← List.append_assoc, List.map_append, List.nodup_append] at hall
  have hfst : (pairsOf inputTuple (peeled removeParameters properties inputTuple
      (c₀.users barrier.id)) ++ gtePairs n₀ done).map Prod.fst =
        (peeled removeParameters properties inputTuple (c₀.users barrier.id) ++ done).map
          HloInstruction.id := by
    rw [List.map_append, map_fst_pairsOf, map_fst_gtePairs, List.map_append]
  apply HloGraph.redirects_eq_iff
  · rw [hfst]
    exact hall.1
  · rw [hfst]
    intro hin
    exact hall.2.2 _ hin _ (by simp) rfl
  · rw [List.map_append, map_snd_pairsOf, List.mem_append, not_or]
    constructor
    · intro hin
      obtain ⟨w, hw, hwid⟩ := List.mem_map.mp hin
      have hw' := (user_isPeeled hw).1
      exact operand_ne_user hranked hsite (htakes w hw').mem huser hwid
    · intro hin
      obtain ⟨pair, hpair, hid⟩ := List.mem_map.mp hin
      obtain ⟨w, -, rfl⟩ := List.mem_map.mp hpair
      change n₀ + 2 + w.2 = user.id at hid
      omega

theorem Regrouping.step {newTuple newBarrier : HloInstruction} {after : List HloInstruction}
    (hranked : Ranked c₀ n₀ rank) (hsite : Site c₀ barrier inputTuple)
    (htakes : ∀ w ∈ c₀.users barrier.id, Takes removeParameters properties inputTuple w)
    (hnew : NewBarrier n₀ ((kept removeParameters properties inputTuple
      (c₀.users barrier.id)).map (operandOf inputTuple)) newTuple newBarrier)
    (heq : kept removeParameters properties inputTuple (c₀.users barrier.id) = done ++ user :: after)
    (h : Regrouping removeParameters properties c₀ n₀ barrier inputTuple newTuple newBarrier done acc) :
    Settles (c₀.hasControlDependencies user = false) (replaceUser (n₀ + 1) acc user)
      (Regrouping removeParameters properties c₀ n₀ barrier inputTuple newTuple newBarrier
        (done ++ [user])) := by
  have hstays : user ∈ kept removeParameters properties inputTuple (c₀.users barrier.id) :=
    heq ▸ List.mem_append_right _ (List.mem_cons_self ..)
  obtain ⟨huser, htakesUser⟩ := kept_takes htakes hstays
  obtain ⟨hmem, -⟩ := HloComputation.mem_users.mp huser
  have hlt : user.id < n₀ := hranked.lt _ (List.mem_map_of_mem hmem)
  have hσ := redirects_eq_kept hranked hsite htakes heq
  have hadded := h.rewired.addInstruction (i := propagateProperties user
    { id := 0, opcode := .getTupleElement acc.2, operands := [n₀ + 1], shape := user.shape })
    hranked.lt (propagateProperties_controlPredecessors ..)
  have hgte : ({ propagateProperties user
      { id := 0, opcode := .getTupleElement acc.2, operands := [n₀ + 1], shape := user.shape }
        with id := acc.1.nextId } : HloInstruction) = gteOf n₀ (user, done.length) := by
    rw [h.nextId, h.count, gteOf]
  have hunread : ∀ j ∈ newTuple :: newBarrier :: done.zipIdx.map (gteOf n₀) ++
      [gteOf n₀ (user, done.length)], user.id ∉ j.operands := by
    have hgtes : ∀ w : HloInstruction × ℕ, user.id ∉ (gteOf n₀ w).operands := by
      intro w hread
      change user.id ∈ (propagateProperties _ _).operands at hread
      rw [propagateProperties_operands, List.mem_singleton] at hread
      omega
    intro j hj
    rcases List.mem_append.mp hj with hj | hj
    · rcases List.mem_cons.mp hj with rfl | hj
      · rw [hnew.tuple_operands]
        intro hread
        obtain ⟨w, hw, hwid⟩ := List.mem_map.mp hread
        exact operand_ne_user hranked hsite (kept_takes htakes hw).2.mem huser hwid
      · rcases List.mem_cons.mp hj with rfl | hj
        · rw [hnew.operands_eq, List.mem_singleton]
          omega
        · obtain ⟨w, -, rfl⟩ := List.mem_map.mp hj
          exact hgtes w
    · rw [List.mem_singleton.mp hj]
      exact hgtes _
  rw [hgte] at hadded
  have hfresh : ∀ j ∈ (acc.1.addInstruction (propagateProperties user
      { id := 0, opcode := .getTupleElement acc.2, operands := [n₀ + 1],
        shape := user.shape })).computation.instructions, j.id = acc.1.nextId →
          user.id ∉ j.operands := by
    intro j hj hid
    rcases (hadded.mem j).mp hj with ⟨j₀, hj₀, -, rfl⟩ | hin
    · have hold : j₀.id < n₀ := hranked.lt _ (List.mem_map_of_mem hj₀)
      have hid' : j₀.id = acc.1.nextId := hid
      rw [h.nextId] at hid'
      omega
    · exact hunread j hin
  have hne : acc.1.nextId ≠ user.id := by
    rw [h.nextId]
    omega
  obtain ⟨hiff, hresult⟩ := hadded.redirect hranked.nodup hranked.lt hmem hσ hunread hfresh hne
    htakesUser.isParameter
  unfold replaceUser
  apply (settles_of_iff (P := fun g => g.nextId = acc.1.nextId + 1 ∧ Rewired c₀ n₀ _ _ _ g) hiff
    fun g hg => ⟨(hresult g hg).2, (hresult g hg).1⟩).bind_ok
  rintro g ⟨hnext, hrewired⟩
  have hzip : (done ++ [user]).zipIdx.map (gteOf n₀) =
      done.zipIdx.map (gteOf n₀) ++ [gteOf n₀ (user, done.length)] := by
    simp [List.zipIdx_append]
  constructor
  · rw [hzip, gtePairs_append, ← List.append_assoc, HloGraph.redirects_append, List.map_append,
      List.reverse_append, ← h.nextId]
    exact hrewired
  · rw [hnext, h.nextId, List.length_append]
    rfl
  · change acc.2 + 1 = _
    rw [h.count, List.length_append]
    rfl

end regrouped

section rebuilt

/-- What reads the user comes to read what the user takes out. -/
def Passed (removeParameters : Bool) (properties : Properties) (c₀ : HloComputation)
    (barrier inputTuple user : HloInstruction) : Prop :=
  isPeeled removeParameters properties inputTuple user = true ∨
    (kept removeParameters properties inputTuple (c₀.users barrier.id)).length = 1

/-- No user of the old barrier is left, and what read them reads what they took out, or a user of
the new barrier. More may be gone. -/
structure Rebuilt (removeParameters : Bool) (properties : Properties) (c₀ : HloComputation) (n₀ : ℕ)
    (barrier inputTuple : HloInstruction) (more : List ℕ) (σ : ℕ → ℕ) (news : List HloInstruction)
    (g : HloGraph) : Prop where
  rewired : ∃ gone, Rewired c₀ n₀ σ gone news g ∧
    ∀ id, id ∈ gone ↔ id ∈ more ∨ id ∈ (c₀.users barrier.id).map HloInstruction.id
  outside : ∀ id, id ∉ (c₀.users barrier.id).map HloInstruction.id → σ id = id
  passed : ∀ user ∈ c₀.users barrier.id,
    Passed removeParameters properties c₀ barrier inputTuple user →
      σ user.id = operandOf inputTuple user
  regrouped : ∀ user ∈ c₀.users barrier.id,
    ¬Passed removeParameters properties c₀ barrier inputTuple user →
      ∃ index : ℕ, (kept removeParameters properties inputTuple (c₀.users barrier.id))[index]? =
        some user ∧ σ user.id = n₀ + 2 + index
  news : (kept removeParameters properties inputTuple (c₀.users barrier.id)).length = 1 ∧ news = [] ∨
    (kept removeParameters properties inputTuple (c₀.users barrier.id)).length ≠ 1 ∧
      ∃ newTuple newBarrier, NewBarrier n₀ ((kept removeParameters properties inputTuple
        (c₀.users barrier.id)).map (operandOf inputTuple)) newTuple newBarrier ∧
          news = newTuple :: newBarrier ::
            (kept removeParameters properties inputTuple (c₀.users barrier.id)).zipIdx.map (gteOf n₀)

theorem mem_users_iff (removeParameters : Bool) (properties : Properties)
    (inputTuple : HloInstruction) : user ∈ c₀.users barrier.id ↔
    user ∈ peeled removeParameters properties inputTuple (c₀.users barrier.id) ∨
      user ∈ kept removeParameters properties inputTuple (c₀.users barrier.id) := by
  rw [← List.mem_append]
  exact (List.filter_append_perm _ _).mem_iff.symm

/-- The redirections of all users. -/
theorem redirects_users (hids : c₀.ids.Nodup) {pairs : List (ℕ × ℕ)}
    (hpairs : pairs.map Prod.fst =
      (kept removeParameters properties inputTuple (c₀.users barrier.id)).map HloInstruction.id) :
    (∀ id, id ∉ (c₀.users barrier.id).map HloInstruction.id →
      redirects (pairsOf inputTuple (peeled removeParameters properties inputTuple
        (c₀.users barrier.id)) ++ pairs) id = id) ∧
    (∀ user ∈ peeled removeParameters properties inputTuple (c₀.users barrier.id),
      redirects (pairsOf inputTuple (peeled removeParameters properties inputTuple
        (c₀.users barrier.id)) ++ pairs) user.id = operandOf inputTuple user) ∧
    ∀ pair ∈ pairs, redirects (pairsOf inputTuple (peeled removeParameters properties inputTuple
      (c₀.users barrier.id)) ++ pairs) pair.1 = pair.2 := by
  have hfst : (pairsOf inputTuple (peeled removeParameters properties inputTuple
      (c₀.users barrier.id)) ++ pairs).map Prod.fst =
        (peeled removeParameters properties inputTuple (c₀.users barrier.id) ++
          kept removeParameters properties inputTuple (c₀.users barrier.id)).map HloInstruction.id := by
    rw [List.map_append, map_fst_pairsOf, hpairs, List.map_append]
  have hnodup : ((peeled removeParameters properties inputTuple (c₀.users barrier.id) ++
      kept removeParameters properties inputTuple (c₀.users barrier.id)).map
        HloInstruction.id).Nodup := nodup_peeled_kept hids (.refl _)
  rw [← hfst] at hnodup
  refine ⟨?_, ?_, ?_⟩
  · intro id hid
    apply HloGraph.redirects_of_notMem
    rw [hfst]
    intro hin
    obtain ⟨w, hw, rfl⟩ := List.mem_map.mp hin
    exact hid (List.mem_map_of_mem ((mem_users_iff _ _ _).mpr (List.mem_append.mp hw)))
  · intro w hw
    exact HloGraph.redirects_of_mem hnodup
      (List.mem_append_left _ (List.mem_map_of_mem hw))
  · intro pair hpair
    exact HloGraph.redirects_of_mem hnodup (List.mem_append_right _ hpair)

theorem mem_gone_iff (removeParameters : Bool) (properties : Properties) (c₀ : HloComputation)
    (barrier inputTuple : HloInstruction) (id : ℕ) :
    id ∈ ((kept removeParameters properties inputTuple (c₀.users barrier.id)).map
      HloInstruction.id).reverse ++ ((peeled removeParameters properties inputTuple
        (c₀.users barrier.id)).map HloInstruction.id).reverse ↔
      id ∈ (c₀.users barrier.id).map HloInstruction.id := by
  rw [List.mem_append, List.mem_reverse, List.mem_reverse, List.mem_map, List.mem_map, List.mem_map]
  constructor
  · rintro (⟨w, hw, rfl⟩ | ⟨w, hw, rfl⟩)
    · exact ⟨w, (mem_users_iff _ _ _).mpr (.inr hw), rfl⟩
    · exact ⟨w, (mem_users_iff _ _ _).mpr (.inl hw), rfl⟩
  · rintro ⟨w, hw, rfl⟩
    rcases (mem_users_iff removeParameters properties inputTuple).mp hw with hin | hin
    · exact .inr ⟨w, hin, rfl⟩
    · exact .inl ⟨w, hin, rfl⟩

/-- The only operand that is left is handed on. -/
theorem settles_replaceBarrier_single (hranked : Ranked c₀ n₀ rank)
    (hsite : Site c₀ barrier inputTuple)
    (hpeeled : Peeled removeParameters properties c₀ n₀ inputTuple (c₀.users barrier.id) (g, uses))
    (hsingle : kept removeParameters properties inputTuple (c₀.users barrier.id) = [user]) :
    Settles (∀ w ∈ kept removeParameters properties inputTuple (c₀.users barrier.id),
        c₀.hasControlDependencies w = false)
      (replaceBarrier barrier inputTuple g uses) fun g' => ∃ σ news,
        Rebuilt removeParameters properties c₀ n₀ barrier inputTuple [] σ news g' := by
  have hstays : user ∈ kept removeParameters properties inputTuple (c₀.users barrier.id) := by
    rw [hsingle]
    exact List.mem_singleton_self user
  obtain ⟨huser, htakes⟩ := kept_takes hpeeled.takes hstays
  have hsplit : kept removeParameters properties inputTuple (c₀.users barrier.id) =
      [] ++ user :: [] := hsingle
  have hσ := redirects_eq_kept hranked hsite hpeeled.takes hsplit
  rw [gtePairs, List.zipIdx_nil, List.map_nil, List.append_nil] at hσ
  have hpairs : ([(user.id, operandOf inputTuple user)] : List (ℕ × ℕ)).map Prod.fst =
      (kept removeParameters properties inputTuple (c₀.users barrier.id)).map HloInstruction.id := by
    rw [hsingle]
    rfl
  obtain ⟨houtside, hpeeledTo, hto⟩ := redirects_users hranked.nodup hpairs
  obtain ⟨hiff, hresult⟩ := hpeeled.rewired.redirect hranked.nodup hranked.lt
    (HloComputation.mem_users.mp huser).1 hσ (by simp)
    (operand_unread hranked hsite hpeeled.rewired hσ htakes huser)
    (operand_ne_user hranked hsite htakes.mem huser) htakes.isParameter
  have hrun : replaceBarrier barrier inputTuple g uses =
      (g.replaceUses user.id (operandOf inputTuple user)).removeInstruction user := by
    unfold replaceBarrier
    rw [hpeeled.newOperands, hpeeled.usersToReplace, hsingle]
    rfl
  have hone : (kept removeParameters properties inputTuple (c₀.users barrier.id)).length = 1 := by
    rw [hsingle]
    rfl
  rw [hrun]
  apply settles_of_iff
  · rw [hiff, hsingle]
    simp
  · intro g' hg'
    obtain ⟨hrewired, -⟩ := hresult g' hg'
    have hcompose := HloGraph.redirects_append (pairsOf inputTuple
      (peeled removeParameters properties inputTuple (c₀.users barrier.id)))
      (user.id, operandOf inputTuple user)
    rw [← hcompose] at hrewired
    refine ⟨_, [], ⟨_, hrewired, ?_⟩, houtside, ?_, ?_, .inl ⟨hone, rfl⟩⟩
    · intro id
      have hgone := mem_gone_iff removeParameters properties c₀ barrier inputTuple id
      rw [hsingle] at hgone
      exact hgone.trans (by simp)
    · intro w hw _
      rcases (mem_users_iff removeParameters properties inputTuple).mp hw with hin | hin
      · exact hpeeledTo w hin
      · rw [hsingle, List.mem_singleton] at hin
        subst hin
        exact hto _ (List.mem_singleton_self _)
    · intro w _ hnot
      exact absurd (.inr hone) hnot

/-- The operands that are left go into a new barrier. -/
theorem settles_regroup (hranked : Ranked c₀ n₀ rank) (hsite : Site c₀ barrier inputTuple)
    (hpeeled : Peeled removeParameters properties c₀ n₀ inputTuple (c₀.users barrier.id) (g, uses))
    (hmany : (kept removeParameters properties inputTuple (c₀.users barrier.id)).length ≠ 1) :
    Settles (∀ w ∈ kept removeParameters properties inputTuple (c₀.users barrier.id),
        c₀.hasControlDependencies w = false)
      (regroup barrier inputTuple g uses) fun g' => ∃ σ news,
        Rebuilt removeParameters properties c₀ n₀ barrier inputTuple [] σ news g' := by
  obtain ⟨houtside, hpeeledTo, hto⟩ := redirects_users hranked.nodup
    (map_fst_gtePairs n₀
      (kept removeParameters properties inputTuple (c₀.users barrier.id)))
  have hnextId : g.nextId = n₀ := hpeeled.nextId
  unfold regroup
  rw [hpeeled.newOperands, hpeeled.usersToReplace, hnextId]
  generalize tupleShape (((kept removeParameters properties inputTuple
    (c₀.users barrier.id)).map (operandOf inputTuple)).map (shapeOf g)) = shape
  dsimp only
  let newTuple : HloInstruction := { propagateProperties inputTuple
    { id := 0, opcode := .tuple, operands := (kept removeParameters properties inputTuple
        (c₀.users barrier.id)).map (operandOf inputTuple), shape := shape } with id := n₀ }
  let newBarrier : HloInstruction := { propagateProperties barrier
    { id := 0, opcode := .optimizationBarrier, operands := [n₀], shape := shape }
      with id := n₀ + 1 }
  have hnew : NewBarrier n₀ ((kept removeParameters properties inputTuple
      (c₀.users barrier.id)).map (operandOf inputTuple)) newTuple newBarrier :=
    ⟨rfl, propagateProperties_opcode .., propagateProperties_operands ..,
      propagateProperties_controlPredecessors .., rfl, propagateProperties_opcode ..,
      propagateProperties_operands .., propagateProperties_controlPredecessors ..⟩
  have htuple := hpeeled.rewired.addInstruction hranked.lt
    (propagateProperties_controlPredecessors inputTuple
      { id := 0, opcode := .tuple, operands := (kept removeParameters properties inputTuple
          (c₀.users barrier.id)).map (operandOf inputTuple), shape := shape })
  have hbarrier := htuple.addInstruction hranked.lt
    (propagateProperties_controlPredecessors barrier
      { id := 0, opcode := .optimizationBarrier, operands := [n₀], shape := shape })
  have hstart : Regrouping removeParameters properties c₀ n₀ barrier inputTuple newTuple newBarrier []
      ((g.addInstruction (propagateProperties inputTuple
        { id := 0, opcode := .tuple, operands := (kept removeParameters properties inputTuple
            (c₀.users barrier.id)).map (operandOf inputTuple), shape := shape })).addInstruction
        (propagateProperties barrier
          { id := 0, opcode := .optimizationBarrier, operands := [n₀], shape := shape }), 0) := by
    constructor
    · rw [gtePairs, List.zipIdx_nil, List.map_nil, List.append_nil, List.map_nil, List.reverse_nil,
        List.nil_append]
      have htwo : ∀ x y : HloInstruction, [] ++ [x] ++ [y] = [x, y] := fun _ _ => rfl
      rw [htwo] at hbarrier
      have htupleId : g.nextId = n₀ := hnextId
      have hbarrierId : (g.addInstruction (propagateProperties inputTuple
        { id := 0, opcode := .tuple, operands := (kept removeParameters properties inputTuple
            (c₀.users barrier.id)).map (operandOf inputTuple), shape := shape })).nextId = n₀ + 1 := by
        change g.nextId + 1 = _
        rw [hnextId]
      rw [htupleId, hbarrierId] at hbarrier
      exact hbarrier
    · change g.nextId + 1 + 1 = _
      rw [hnextId]
      rfl
    · rfl
  have hloop := settles_foldlM
    (Regrouping removeParameters properties c₀ n₀ barrier inputTuple newTuple newBarrier) hstart
    (kept removeParameters properties inputTuple (c₀.users barrier.id))
    fun done user after heq acc hacc => hacc.step hranked hsite hpeeled.takes hnew heq
  have hcondition : (∀ done user after,
      kept removeParameters properties inputTuple (c₀.users barrier.id) = done ++ user :: after →
        c₀.hasControlDependencies user = false) ↔
      ∀ w ∈ kept removeParameters properties inputTuple (c₀.users barrier.id),
        c₀.hasControlDependencies w = false := by
    constructor
    · intro h w hw
      obtain ⟨before, after, heq⟩ := List.append_of_mem hw
      exact h before w after heq
    · intro h before w after heq
      exact h w (heq ▸ List.mem_append_right _ (List.mem_cons_self ..))
  apply (hloop.congr hcondition).bind_ok
  rintro ⟨g', count⟩ ⟨hrewired, -, -⟩
  refine ⟨_, _, ⟨_, hrewired, fun id => (mem_gone_iff _ _ _ _ _ id).trans (by simp)⟩, houtside, ?_, ?_,
    .inr ⟨hmany, newTuple, newBarrier, hnew, rfl⟩⟩
  · intro w hw hpassed
    rcases hpassed with hyes | hone
    · exact hpeeledTo w (List.mem_filter.mpr ⟨hw, hyes⟩)
    · exact absurd hone hmany
  · intro w hw hnot
    rcases (mem_users_iff removeParameters properties inputTuple).mp hw with hin | hin
    · exact absurd (.inl (user_isPeeled hin).2) hnot
    · obtain ⟨index, hlt, hget⟩ := List.mem_iff_getElem.mp hin
      have hzip : (w, index) ∈
          (kept removeParameters properties inputTuple (c₀.users barrier.id)).zipIdx := by
        rw [List.mk_mem_zipIdx_iff_getElem?, List.getElem?_eq_getElem hlt, hget]
      exact ⟨index, by rw [List.getElem?_eq_getElem hlt, hget], hto _ (List.mem_map_of_mem hzip)⟩

end rebuilt

end CrossTaskBarrierRemover
end MultiMeshJax
