import MultiMeshJax.CrossTaskBarrierRemover.Pass
import MultiMeshJax.Foundation.Settles

/-! What it takes to have the users of a barrier read other instructions, and what comes of it. -/
namespace MultiMeshJax
namespace CrossTaskBarrierRemover

open StatusOr
open HloGraph (Rewired redirects)

/-- The operands come before their users in an order. -/
structure Ranked (c : HloComputation) (n : ℕ) (rank : ℕ → ℕ) : Prop where
  nodup : c.ids.Nodup
  lt : ∀ id ∈ c.ids, id < n
  closed : ∀ j ∈ c.instructions, ∀ o ∈ j.operands, o ∈ c.ids
  descends : ∀ j ∈ c.instructions, ∀ o ∈ j.operands, rank o < rank j.id
  root : c.root ∈ c.ids

/-- A barrier of a tuple. -/
structure Site (c : HloComputation) (barrier inputTuple : HloInstruction) : Prop where
  barrier_mem : barrier ∈ c.instructions
  opcode : barrier.opcode = .optimizationBarrier
  operands : barrier.operands = [inputTuple.id]
  tuple_mem : inputTuple ∈ c.instructions
  tuple_opcode : inputTuple.opcode = .tuple

def indexOf (user : HloInstruction) : ℕ :=
  match user.opcode with
  | .getTupleElement index => index
  | _ => 0

/-- What a user takes out of the barrier. -/
def operandOf (inputTuple user : HloInstruction) : ℕ := inputTuple.operands.getD (indexOf user) 0

section peeling

variable (removeParameters : Bool) (properties : Properties)

def isPeeled (inputTuple user : HloInstruction) : Bool :=
  removeParameters && properties (operandOf inputTuple user) == some true

/-- The user takes an element out of the tuple, whose properties are known if they are asked for. -/
structure Takes (inputTuple user : HloInstruction) : Prop where
  element : ∃ index, user.opcode = .getTupleElement index ∧ index < inputTuple.operands.length
  known : removeParameters = true → (properties (operandOf inputTuple user)).isSome

def peeled (inputTuple : HloInstruction) (users : List HloInstruction) : List HloInstruction :=
  users.filter (isPeeled removeParameters properties inputTuple)

def kept (inputTuple : HloInstruction) (users : List HloInstruction) : List HloInstruction :=
  users.filter fun user => !isPeeled removeParameters properties inputTuple user

end peeling

def pairsOf (inputTuple : HloInstruction) (users : List HloInstruction) : List (ℕ × ℕ) :=
  users.map fun user => (user.id, operandOf inputTuple user)

variable {removeParameters : Bool} {properties : Properties} {c₀ : HloComputation} {n₀ : ℕ}
  {rank : ℕ → ℕ} {barrier inputTuple user : HloInstruction} {acc acc' : HloGraph × Uses}
  {users done : List HloInstruction}

section takes

theorem Takes.elementAt (h : Takes removeParameters properties inputTuple user) :
    elementAt inputTuple.operands (indexOf user) = ok (operandOf inputTuple user) := by
  obtain ⟨index, hopcode, hlt⟩ := h.element
  rw [operandOf, indexOf, hopcode]
  dsimp only
  rw [elementAt_of_lt hlt, List.getD_eq_getElem _ _ hlt]

theorem Takes.mem (h : Takes removeParameters properties inputTuple user) :
    operandOf inputTuple user ∈ inputTuple.operands :=
  List.mem_of_getElem? (elementAt_eq_ok.mp h.elementAt)

theorem Takes.tupleIndex (h : Takes removeParameters properties inputTuple user) :
    user.tupleIndex = ok (indexOf user) := by
  obtain ⟨index, hopcode, -⟩ := h.element
  rw [HloInstruction.tupleIndex_eq_ok, indexOf, hopcode]

theorem Takes.isParameter (h : Takes removeParameters properties inputTuple user) :
    user.isParameter = false := by
  obtain ⟨index, hopcode, -⟩ := h.element
  rw [HloInstruction.isParameter, hopcode]

/-- The outcome of a visit, as a function of whether the user is peeled off. -/
theorem visitUser_eq_ok : visitUser removeParameters properties inputTuple acc user = ok acc' ↔
    Takes removeParameters properties inputTuple user ∧
      if isPeeled removeParameters properties inputTuple user = true then
        ∃ g, (acc.1.replaceUses user.id (operandOf inputTuple user)).removeInstruction user = ok g ∧
          acc' = (g, { acc.2 with
            operandsNeeded := acc.2.operandsNeeded ++ [operandOf inputTuple user] })
      else acc' = (acc.1,
        { newOperands := acc.2.newOperands ++ [operandOf inputTuple user]
          operandsNeeded := acc.2.operandsNeeded ++ [operandOf inputTuple user]
          usersToReplace := acc.2.usersToReplace ++ [user] }) := by
  unfold visitUser
  constructor
  · intro h
    obtain ⟨index, hindex, h⟩ := bind_eq_ok.mp h
    obtain ⟨operand, hoperand, h⟩ := bind_eq_ok.mp h
    obtain ⟨derived, hderived, h⟩ := bind_eq_ok.mp h
    have hopcode : user.opcode = .getTupleElement index :=
      HloInstruction.tupleIndex_eq_ok.mp hindex
    have hlt : index < inputTuple.operands.length :=
      (List.getElem?_eq_some_iff.mp (elementAt_eq_ok.mp hoperand)).1
    have hoperand' : operandOf inputTuple user = operand := by
      rw [operandOf, indexOf, hopcode, List.getD_eq_getElem?_getD, elementAt_eq_ok.mp hoperand,
        Option.getD_some]
    subst hoperand'
    have hknown : (removeParameters = true →
        (properties (operandOf inputTuple user)).isSome = true) ∧
          derived = isPeeled removeParameters properties inputTuple user := by
      unfold isPeeled
      unfold isParameterInput at hderived
      cases removeParameters with
      | false =>
        obtain rfl := ok.inj hderived
        exact ⟨fun h => absurd h Bool.false_ne_true, rfl⟩
      | true =>
        rw [if_pos rfl, Properties.derivedInput] at hderived
        cases hp : properties (operandOf inputTuple user) with
        | none =>
          rw [hp] at hderived
          cases hderived
        | some d =>
          rw [hp] at hderived
          obtain rfl := ok.inj hderived
          cases d <;> simp
    refine ⟨⟨⟨index, hopcode, hlt⟩, hknown.1⟩, ?_⟩
    rw [← hknown.2]
    split at h
    · rename_i hyes
      rw [if_pos hyes]
      obtain ⟨g, hg, h⟩ := bind_eq_ok.mp h
      exact ⟨g, hg, (ok.inj h).symm⟩
    · rename_i hno
      rw [if_neg hno]
      exact (ok.inj h).symm
  · rintro ⟨htakes, h⟩
    have hderived : isParameterInput removeParameters properties (operandOf inputTuple user) =
        ok (isPeeled removeParameters properties inputTuple user) := by
      unfold isPeeled isParameterInput
      cases removeParameters with
      | false => rfl
      | true =>
        rw [if_pos rfl, Properties.derivedInput]
        obtain ⟨d, hd⟩ := Option.isSome_iff_exists.mp (htakes.known rfl)
        rw [hd]
        cases d <;> rfl
    rw [htakes.tupleIndex, ok_bind, htakes.elementAt, ok_bind, hderived, ok_bind]
    split at h
    · rename_i hyes
      obtain ⟨g, hg, rfl⟩ := h
      rw [if_pos hyes, hg]
      rfl
    · rename_i hno
      rw [if_neg hno, h]
      rfl

end takes

section site

variable (hranked : Ranked c₀ n₀ rank) (hsite : Site c₀ barrier inputTuple)

include hranked hsite

theorem rank_tuple_lt : rank inputTuple.id < rank barrier.id := by
  apply hranked.descends barrier hsite.barrier_mem
  rw [hsite.operands]
  exact List.mem_singleton_self _

theorem rank_operand_lt {o : ℕ} (ho : o ∈ inputTuple.operands) : rank o < rank inputTuple.id :=
  hranked.descends inputTuple hsite.tuple_mem o ho

omit hsite in
theorem rank_user_lt (huser : user ∈ c₀.users barrier.id) : rank barrier.id < rank user.id := by
  obtain ⟨hmem, hread⟩ := HloComputation.mem_users.mp huser
  exact hranked.descends user hmem _ hread

/-- The tuple, its operands, the barrier and its users are all different. -/
theorem operand_ne_user {o : ℕ} (ho : o ∈ inputTuple.operands) (huser : user ∈ c₀.users barrier.id) :
    o ≠ user.id := by
  have h₁ := rank_operand_lt hranked hsite ho
  have h₂ := rank_tuple_lt hranked hsite
  have h₃ := rank_user_lt hranked huser
  rintro rfl
  omega

end site

/-- The users that have been visited: those that are peeled off are gone. -/
structure Peeled (removeParameters : Bool) (properties : Properties) (c₀ : HloComputation) (n₀ : ℕ)
    (inputTuple : HloInstruction) (done : List HloInstruction) (acc : HloGraph × Uses) : Prop where
  takes : ∀ user ∈ done, Takes removeParameters properties inputTuple user
  quiet : ∀ user ∈ peeled removeParameters properties inputTuple done,
    c₀.hasControlDependencies user = false
  rewired : Rewired c₀ n₀
    (redirects (pairsOf inputTuple (peeled removeParameters properties inputTuple done)))
    ((peeled removeParameters properties inputTuple done).map HloInstruction.id).reverse [] acc.1
  nextId : acc.1.nextId = n₀
  newOperands : acc.2.newOperands =
    (kept removeParameters properties inputTuple done).map (operandOf inputTuple)
  operandsNeeded : acc.2.operandsNeeded = done.map (operandOf inputTuple)
  usersToReplace : acc.2.usersToReplace = kept removeParameters properties inputTuple done

theorem peeled_append_of_pos (done : List HloInstruction)
    (h : isPeeled removeParameters properties inputTuple user = true) :
    peeled removeParameters properties inputTuple (done ++ [user]) =
      peeled removeParameters properties inputTuple done ++ [user] ∧
    kept removeParameters properties inputTuple (done ++ [user]) =
      kept removeParameters properties inputTuple done := by
  simp [peeled, kept, List.filter_append, h]

theorem peeled_append_of_neg (done : List HloInstruction)
    (h : isPeeled removeParameters properties inputTuple user = false) :
    peeled removeParameters properties inputTuple (done ++ [user]) =
      peeled removeParameters properties inputTuple done ∧
    kept removeParameters properties inputTuple (done ++ [user]) =
      kept removeParameters properties inputTuple done ++ [user] := by
  simp [peeled, kept, List.filter_append, h]

theorem nodup_users (hids : c₀.ids.Nodup) (id : ℕ) :
    ((c₀.users id).map HloInstruction.id).Nodup :=
  hids.sublist (List.filter_sublist.map _)

theorem map_fst_pairsOf : (pairsOf inputTuple users).map Prod.fst = users.map HloInstruction.id := by
  rw [pairsOf, List.map_map]
  rfl

theorem map_snd_pairsOf :
    (pairsOf inputTuple users).map Prod.snd = users.map (operandOf inputTuple) := by
  rw [pairsOf, List.map_map]
  rfl

theorem user_isPeeled (h : user ∈ peeled removeParameters properties inputTuple done) :
    user ∈ done ∧ isPeeled removeParameters properties inputTuple user = true :=
  List.mem_filter.mp h

/-- One more user: it is not redirected, and nothing is redirected to it. -/
theorem redirects_eq_user (hranked : Ranked c₀ n₀ rank) (hsite : Site c₀ barrier inputTuple)
    {after : List HloInstruction} (heq : c₀.users barrier.id = done ++ user :: after)
    (hsub : users.Sublist done)
    (htakes : ∀ w ∈ users, Takes removeParameters properties inputTuple w) (id : ℕ) :
    redirects (pairsOf inputTuple users) id = user.id ↔ id = user.id := by
  have hall := nodup_users hranked.nodup barrier.id
  rw [heq, List.map_append, List.map_cons, List.nodup_append] at hall
  have huser : user ∈ c₀.users barrier.id := heq ▸ List.mem_append_right _ (List.mem_cons_self ..)
  apply HloGraph.redirects_eq_iff
  · rw [map_fst_pairsOf]
    exact hall.1.sublist (hsub.map _)
  · rw [map_fst_pairsOf]
    intro hin
    exact hall.2.2 _ ((hsub.map _).subset hin) _ (List.mem_cons_self ..) rfl
  · rw [map_snd_pairsOf]
    intro hin
    obtain ⟨w, hw, heq⟩ := List.mem_map.mp hin
    exact operand_ne_user hranked hsite (htakes w hw).mem huser heq

/-- What a user takes out does not read the user. -/
theorem operand_unread (hranked : Ranked c₀ n₀ rank) (hsite : Site c₀ barrier inputTuple)
    {σ : ℕ → ℕ} {gone : List ℕ} {g : HloGraph} (h : Rewired c₀ n₀ σ gone [] g)
    (hσ : ∀ id, σ id = user.id ↔ id = user.id)
    (htakes : Takes removeParameters properties inputTuple user)
    (huser : user ∈ c₀.users barrier.id) :
    ∀ j ∈ g.computation.instructions, j.id = operandOf inputTuple user → user.id ∉ j.operands := by
  intro j hj hid hread
  rcases (h.mem j).mp hj with ⟨j₀, hj₀, -, rfl⟩ | hin
  · obtain ⟨o, ho, hσo⟩ := List.mem_map.mp hread
    obtain rfl := (hσ o).mp hσo
    have h₁ := hranked.descends j₀ hj₀ _ ho
    have h₂ := rank_operand_lt hranked hsite htakes.mem
    have h₃ := rank_tuple_lt hranked hsite
    have h₄ := rank_user_lt hranked huser
    have hid' : j₀.id = operandOf inputTuple user := hid
    rw [hid'] at h₁
    omega
  · cases hin

/-- A user that is peeled off. -/
theorem Peeled.peel (hranked : Ranked c₀ n₀ rank) (hsite : Site c₀ barrier inputTuple)
    {after : List HloInstruction} (heq : c₀.users barrier.id = done ++ user :: after)
    (hacc : Peeled removeParameters properties c₀ n₀ inputTuple done acc)
    (htakes : Takes removeParameters properties inputTuple user)
    (hpeeled : isPeeled removeParameters properties inputTuple user = true) :
    Settles (Takes removeParameters properties inputTuple user ∧
        (isPeeled removeParameters properties inputTuple user = true →
          c₀.hasControlDependencies user = false))
      (visitUser removeParameters properties inputTuple acc user)
      (Peeled removeParameters properties c₀ n₀ inputTuple (done ++ [user])) := by
  have huser : user ∈ c₀.users barrier.id := heq ▸ List.mem_append_right _ (List.mem_cons_self ..)
  have hmem := (HloComputation.mem_users.mp huser).1
  have hσ := redirects_eq_user hranked hsite heq
    (List.filter_sublist (p := isPeeled removeParameters properties inputTuple))
    (fun w hw => hacc.takes w (List.mem_of_mem_filter hw))
  obtain ⟨hiff, hresult⟩ := hacc.rewired.redirect hranked.nodup hranked.lt hmem hσ (by simp)
    (operand_unread hranked hsite hacc.rewired hσ htakes huser)
    (operand_ne_user hranked hsite htakes.mem huser) htakes.isParameter
  obtain ⟨hmore, hsame⟩ := peeled_append_of_pos done hpeeled
  apply settles_of_iff
  · constructor
    · rintro ⟨acc', hacc'⟩
      obtain ⟨-, hcase⟩ := visitUser_eq_ok.mp hacc'
      rw [if_pos hpeeled] at hcase
      obtain ⟨g, hg, -⟩ := hcase
      exact ⟨htakes, fun _ => hiff.mp ⟨g, hg⟩⟩
    · rintro ⟨-, hquiet⟩
      obtain ⟨g, hg⟩ := hiff.mpr (hquiet hpeeled)
      let acc' : HloGraph × Uses := (g, { acc.2 with
        operandsNeeded := acc.2.operandsNeeded ++ [operandOf inputTuple user] })
      refine ⟨acc', visitUser_eq_ok.mpr ⟨htakes, ?_⟩⟩
      rw [if_pos hpeeled]
      exact ⟨g, hg, rfl⟩
  · intro acc' hacc'
    obtain ⟨-, hcase⟩ := visitUser_eq_ok.mp hacc'
    rw [if_pos hpeeled] at hcase
    obtain ⟨g, hg, rfl⟩ := hcase
    obtain ⟨hrewired, hnextId⟩ := hresult g hg
    constructor
    · intro w hw
      rcases List.mem_append.mp hw with hw | hw
      · exact hacc.takes w hw
      · rw [List.mem_singleton.mp hw]
        exact htakes
    · intro w hw
      rw [hmore] at hw
      rcases List.mem_append.mp hw with hw | hw
      · exact hacc.quiet w hw
      · rw [List.mem_singleton.mp hw]
        exact hiff.mp ⟨g, hg⟩
    · rw [hmore, List.map_append, List.reverse_append, pairsOf, List.map_append]
      exact (HloGraph.redirects_append _ (user.id, operandOf inputTuple user)).symm ▸ hrewired
    · exact hnextId.trans hacc.nextId
    · rw [hsame]
      exact hacc.newOperands
    · rw [List.map_append, ← hacc.operandsNeeded]
      rfl
    · rw [hsame]
      exact hacc.usersToReplace

/-- A user that stays. -/
theorem Peeled.keep (hacc : Peeled removeParameters properties c₀ n₀ inputTuple done acc)
    (htakes : Takes removeParameters properties inputTuple user)
    (hpeeled : isPeeled removeParameters properties inputTuple user = false) :
    Settles (Takes removeParameters properties inputTuple user ∧
        (isPeeled removeParameters properties inputTuple user = true →
          c₀.hasControlDependencies user = false))
      (visitUser removeParameters properties inputTuple acc user)
      (Peeled removeParameters properties c₀ n₀ inputTuple (done ++ [user])) := by
  have hnot : ¬isPeeled removeParameters properties inputTuple user = true := by simp [hpeeled]
  have hrun : visitUser removeParameters properties inputTuple acc user = ok (acc.1,
      { newOperands := acc.2.newOperands ++ [operandOf inputTuple user]
        operandsNeeded := acc.2.operandsNeeded ++ [operandOf inputTuple user]
        usersToReplace := acc.2.usersToReplace ++ [user] }) := by
    apply visitUser_eq_ok.mpr
    refine ⟨htakes, ?_⟩
    rw [if_neg hnot]
  left
  refine ⟨⟨htakes, fun h => absurd h hnot⟩, _, hrun, ?_⟩
  obtain ⟨hsame, hmore⟩ := peeled_append_of_neg done hpeeled
  constructor
  · intro w hw
    rcases List.mem_append.mp hw with hw | hw
    · exact hacc.takes w hw
    · rw [List.mem_singleton.mp hw]
      exact htakes
  · rw [hsame]
    exact hacc.quiet
  · rw [hsame]
    exact hacc.rewired
  · exact hacc.nextId
  · rw [hmore, List.map_append, ← hacc.newOperands]
    rfl
  · rw [List.map_append, ← hacc.operandsNeeded]
    rfl
  · rw [hmore, ← hacc.usersToReplace]

/-- The users of a barrier can be visited exactly when each takes an element out of the tuple,
and those that are peeled off have no control dependencies. -/
theorem settles_visitUsers (hranked : Ranked c₀ n₀ rank) (hsite : Site c₀ barrier inputTuple) :
    Settles (∀ user ∈ c₀.users barrier.id, Takes removeParameters properties inputTuple user ∧
        (isPeeled removeParameters properties inputTuple user = true →
          c₀.hasControlDependencies user = false))
      ((c₀.users barrier.id).foldlM (visitUser removeParameters properties inputTuple)
        (⟨c₀, n₀⟩, {}))
      (Peeled removeParameters properties c₀ n₀ inputTuple (c₀.users barrier.id)) := by
  have hstart : Peeled removeParameters properties c₀ n₀ inputTuple [] (⟨c₀, n₀⟩, {}) := by
    refine ⟨by simp, by simp [peeled], ?_, rfl, rfl, rfl, rfl⟩
    exact HloGraph.rewired_self hranked.nodup
  have hstep : ∀ done user after, c₀.users barrier.id = done ++ user :: after → ∀ acc,
      Peeled removeParameters properties c₀ n₀ inputTuple done acc →
        Settles (Takes removeParameters properties inputTuple user ∧
            (isPeeled removeParameters properties inputTuple user = true →
              c₀.hasControlDependencies user = false))
          (visitUser removeParameters properties inputTuple acc user)
          (Peeled removeParameters properties c₀ n₀ inputTuple (done ++ [user])) := by
    intro done user after heq acc hacc
    by_cases htakes : Takes removeParameters properties inputTuple user
    · cases hpeeled : isPeeled removeParameters properties inputTuple user with
      | false => exact hpeeled ▸ hacc.keep htakes hpeeled
      | true => exact hpeeled ▸ hacc.peel hranked hsite heq htakes hpeeled
    · right
      refine ⟨fun h => htakes h.1, ?_⟩
      intro acc' hacc'
      exact htakes (visitUser_eq_ok.mp hacc').1
  apply (settles_foldlM _ hstart (c₀.users barrier.id) hstep).congr
  constructor
  · intro h user huser
    obtain ⟨before, after, heq⟩ := List.append_of_mem huser
    exact h before user after heq
  · intro h before user after heq
    exact h user (heq ▸ List.mem_append_right _ (List.mem_cons_self ..))

end CrossTaskBarrierRemover
end MultiMeshJax
