import MultiMeshJax.CrossTaskBarrierRemover.Hanging

/-! What it takes to visit a barrier, and what the visit leaves. -/
namespace MultiMeshJax
namespace CrossTaskBarrierRemover

open StatusOr HloComputation
open HloGraph (Rewired)

variable {removeParameters : Bool} {properties : Properties} {c₀ : HloComputation} {n₀ : ℕ}
  {rank : ℕ → ℕ} {barrier inputTuple user : HloInstruction} {g g' : HloGraph} {σ : ℕ → ℕ}
  {gone roots : List ℕ} {news : List HloInstruction} {x : ℕ}

/-- None of the operands hangs from those that are listed before it, and nothing stands against the
removal of what hangs. -/
structure Deletes (removeParameters : Bool) (properties : Properties) (c₀ : HloComputation)
    (barrier inputTuple : HloInstruction) (roots : List ℕ) : Prop where
  once : ∀ before x after, roots = before ++ x :: after →
    ¬Hangs removeParameters properties c₀ barrier inputTuple before x
  root : ∀ x, Hangs removeParameters properties c₀ barrier inputTuple roots x → x ≠ c₀.root ∧
    ∀ user ∈ c₀.users barrier.id, operandOf inputTuple user = x → user.id ≠ c₀.root
  quiet : ∀ x i, Hangs removeParameters properties c₀ barrier inputTuple roots x →
    c₀.instruction x = some i → c₀.hasControlDependencies i = false

theorem foldlM_removeUnneeded (xs : List ℕ) (g : HloGraph) :
    xs.foldlM removeUnneeded g =
      xs.foldlM removeInstructionBackToParameters g.computation >>= fun c =>
        ok { g with computation := c } := by
  induction xs generalizing g with
  | nil => rfl
  | cons x xs ih =>
    rw [List.foldlM_cons, List.foldlM_cons]
    unfold removeUnneeded
    cases hc : g.computation.removeInstructionBackToParameters x with
    | ok c =>
      rw [ok_bind, ok_bind, pure_eq, ok_bind]
      exact ih _
    | error message => rfl
    | fatal reason => rfl

section deleted

variable (h : Rebuilt removeParameters properties c₀ n₀ barrier inputTuple
    [inputTuple.id, barrier.id] σ news g)
  (hranked : Ranked c₀ n₀ rank) (hsite : Site c₀ barrier inputTuple) (hunary : UnaryElements c₀)
  (htakes : ∀ w ∈ c₀.users barrier.id, Takes removeParameters properties inputTuple w)
  (houtcome : Outcome removeParameters properties c₀ n₀ barrier inputTuple σ gone news g)
  (hgone : ∀ id, id ∈ gone ↔ Replaced c₀ barrier inputTuple id)
  (hroots : ∀ id ∈ roots, id ∈ inputTuple.operands)

include h hranked hsite houtcome hgone hroots

theorem deletable_iff (hx : Hangs removeParameters properties c₀ barrier inputTuple roots x) :
    Deletable g.computation x ↔
      (x ≠ c₀.root ∧ ∀ user ∈ c₀.users barrier.id, operandOf inputTuple user = x →
        user.id ≠ c₀.root) ∧
      ∀ i, c₀.instruction x = some i → c₀.hasControlDependencies i = false := by
  obtain ⟨i, hi, -, -, hpassed⟩ := hx.cases
  have hlt := hx.rank_lt hranked hsite hroots
  obtain rfl := id_of_instruction hi
  have hmem := mem_of_instruction hi
  have hids : i.id ∈ c₀.ids := List.mem_map_of_mem hmem
  have hthere : ¬Replaced c₀ barrier inputTuple i.id := by
    intro hin
    have hle := Replaced.rank_le hranked hsite hin
    omega
  have hnow := instruction_of_mem houtcome.rewired.nodup
    ((houtcome.rewired.mem _).mpr (.inl ⟨i, hmem, fun hin => hthere ((hgone _).mp hin), rfl⟩))
  have hnow' : g.computation.instruction i.id = some (i.mapOperands σ) := hnow
  have hσ := h.eq_operand_iff (hranked.lt _ hids) (fun hin => hthere (.inr hin)) c₀.root
  unfold Deletable
  apply and_congr
  · rw [houtcome.rewired.root, ne_comm, Ne, hσ, not_or]
    apply and_congr ne_comm
    constructor
    · intro hnone w hw hoperand hroot
      exact hnone ⟨w, hw, hroot, (hpassed w hw hoperand).1, hoperand⟩
    · rintro hall ⟨w, hw, hroot, -, hoperand⟩
      exact hall w hw hoperand hroot
  · rw [hnow', hi]
    constructor
    · intro hall k hk
      obtain rfl := Option.some.inj hk
      have hquiet := hall _ rfl
      rw [houtcome.rewired.hasControlDependencies] at hquiet
      exact hquiet
    · intro hall k hk
      obtain rfl := Option.some.inj hk
      rw [houtcome.rewired.hasControlDependencies]
      exact hall i rfl

include hunary htakes

/-- The operands can be removed one after the other exactly when none hangs from those before it. -/
theorem allRemovable_iff_deletes : AllRemovable g.computation roots ↔
    Deletes removeParameters properties c₀ barrier inputTuple roots := by
  have hfreed : ∀ {xs : List ℕ}, (∀ id ∈ xs, id ∈ roots) → ∀ x, g.computation.Freed xs x ↔
      Hangs removeParameters properties c₀ barrier inputTuple xs x := by
    intro xs hxs x
    exact freed_iff_hangs h hranked hsite hunary htakes houtcome hgone
      fun id hid => hroots id (hxs id hid)
  have hall := hfreed fun id hid => hid
  have hbefore : ∀ before x after, roots = before ++ x :: after → ∀ id ∈ before, id ∈ roots := by
    rintro before x after rfl id hid
    exact List.mem_append_left _ hid
  have hiff := fun x hx => deletable_iff (x := x) h hranked hsite houtcome hgone hroots hx
  constructor
  · rintro ⟨honce, hdeletable⟩
    constructor
    · intro before x after heq
      rw [← hfreed (hbefore before x after heq)]
      exact honce before x after heq
    · intro x hx
      exact ((hiff x hx).mp (hdeletable x ((hall x).mpr hx))).1
    · intro x i hx
      exact ((hiff x hx).mp (hdeletable x ((hall x).mpr hx))).2 i
  · rintro ⟨honce, hroot, hquiet⟩
    constructor
    · intro before x after heq
      rw [hfreed (hbefore before x after heq)]
      exact honce before x after heq
    · intro x hx
      have hx := (hall x).mp hx
      exact (hiff x hx).mpr ⟨hroot x hx, fun i => hquiet x i hx⟩

/-- What is left without them is as before. -/
theorem Outcome.cleared {c : HloComputation}
    (hdeletes : Deletes removeParameters properties c₀ barrier inputTuple roots)
    (hcleared : Cleared g.computation roots c) : ∃ gone',
      Outcome removeParameters properties c₀ n₀ barrier inputTuple σ gone' news
        { g with computation := c } := by
  obtain ⟨deleted, hwithout, hdeleted⟩ := hcleared
  have hhangs : ∀ x, x ∈ deleted ↔
      Hangs removeParameters properties c₀ barrier inputTuple roots x := fun x =>
    (hdeleted x).trans (freed_iff_hangs h hranked hsite hunary htakes houtcome hgone hroots)
  have hrank : ∀ x ∈ deleted, rank x < rank inputTuple.id := fun x hx =>
    ((hhangs x).mp hx).rank_lt hranked hsite hroots
  have hreplaced : ∀ x, x ∈ deleted → ¬Replaced c₀ barrier inputTuple x := by
    intro x hx hin
    have hlt := hrank x hx
    have hle := Replaced.rank_le hranked hsite hin
    omega
  have hnew : ∀ j ∈ news, j.id ∉ deleted := by
    intro j hj hin
    obtain ⟨i, hi, -⟩ := ((hhangs _).mp hin).cases
    have hlt := hranked.lt _ (mem_ids_of_instruction hi)
    have hge := (houtcome.rewired.fresh j hj).1
    omega
  -- an operand that is handed on to a reader does not hang
  have hhanded : ∀ w ∈ c₀.users barrier.id, ∀ j ∈ c₀.users w.id,
      operandOf inputTuple w ∉ deleted := by
    intro w hw j hj hin
    obtain ⟨i, -, -, -, hpassed⟩ := ((hhangs _).mp hin).cases
    rw [(hpassed w hw rfl).2] at hj
    cases hj
  have hoperand : ∀ w ∈ c₀.users barrier.id, operandOf inputTuple w ∉ gone := by
    intro w hw hin
    have hlt := rank_operand_lt hranked hsite (htakes w hw).mem
    have hle := Replaced.rank_le hranked hsite ((hgone _).mp hin)
    omega
  refine ⟨deleted ++ gone, ⟨?_, ?_, ?_, houtcome.rewired.fresh, houtcome.rewired.le, ?_,
    houtcome.rewired.newsQuiet⟩, htakes, houtcome.outside, ?_, ?_, ?_, ?_, houtcome.news⟩
  · intro j
    change j ∈ c.instructions ↔ _
    rw [hwithout.mem, houtcome.rewired.mem]
    constructor
    · rintro ⟨⟨j₀, hj₀, hthere, rfl⟩ | hjnew, hkept⟩
      · refine .inl ⟨j₀, hj₀, ?_, rfl⟩
        rw [List.mem_append, not_or]
        exact ⟨hkept, hthere⟩
      · exact .inr hjnew
    · rintro (⟨j₀, hj₀, hthere, rfl⟩ | hjnew)
      · rw [List.mem_append, not_or] at hthere
        exact ⟨.inl ⟨j₀, hj₀, hthere.2, rfl⟩, hthere.1⟩
      · exact ⟨.inr hjnew, hnew j hjnew⟩
  · exact hwithout.nodup houtcome.rewired.nodup
  · exact hwithout.root.trans houtcome.rewired.root
  · intro j hj hin
    rcases List.mem_append.mp hin with hin | hin
    · exact hdeletes.quiet _ j ((hhangs _).mp hin) (instruction_of_mem hranked.nodup hj)
    · exact houtcome.rewired.quiet j hj hin
  · intro w hw
    exact .inr ⟨List.mem_append_right _ ((hgone _).mpr (.inr (List.mem_map_of_mem hw))),
      ((houtcome.user w hw).resolve_left fun hthere =>
        hthere.1 ((hgone _).mpr (.inr (List.mem_map_of_mem hw)))).2⟩
  · intro hnews w hw hin
    rcases List.mem_append.mp hin with hin | hin
    · obtain ⟨i, -, -, -, hpassed⟩ := ((hhangs _).mp hin).cases
      obtain ⟨hmem, hstays⟩ := List.mem_filter.mp hw
      rcases (hpassed w hmem rfl).1 with hpeeled | hone
      · rw [hpeeled] at hstays
        cases hstays
      · rcases h.news with ⟨-, hnil⟩ | ⟨hmany, -⟩
        · exact hnews hnil
        · exact hmany hone
    · exact hoperand w (List.mem_of_mem_filter hw) hin
  · intro j hj hthere o ho hin
    rw [List.mem_append, not_or] at hthere
    rcases List.mem_append.mp hin with hin | hin
    · exfalso
      obtain ⟨i, -, -, husers, -⟩ := ((hhangs _).mp hin).cases
      apply hthere.1
      rw [hhangs]
      apply husers j (mem_users.mpr ⟨hj, ho⟩)
      intro heq
      exact hthere.2 ((hgone _).mpr (.inl (by simp [heq])))
    · obtain ⟨w, hw, rfl, hkept⟩ := houtcome.closed j hj hthere.2 o ho hin
      refine ⟨w, hw, rfl, ?_⟩
      rw [List.mem_append, not_or]
      exact ⟨hhanded w hw j (mem_users.mpr ⟨hj, ho⟩), hkept⟩
  · intro hin
    rcases List.mem_append.mp hin with hin | hin
    · exact absurd rfl (hdeletes.root _ ((hhangs _).mp hin)).1
    · obtain ⟨w, hw, heq, hkept⟩ := houtcome.root hin
      refine ⟨w, hw, heq, ?_⟩
      rw [List.mem_append, not_or]
      refine ⟨?_, hkept⟩
      intro hdeletedOperand
      exact (hdeletes.root _ ((hhangs _).mp hdeletedOperand)).2 w hw rfl heq

end deleted

section visit

/-- Where the barrier stays, the users that are peeled off are handed through. -/
theorem Peeled.outcome {uses : Uses} (hranked : Ranked c₀ n₀ rank)
    (hsite : Site c₀ barrier inputTuple)
    (hpeeled : Peeled removeParameters properties c₀ n₀ inputTuple (c₀.users barrier.id) (g, uses)) :
    ∃ σ gone, Outcome removeParameters properties c₀ n₀ barrier inputTuple σ gone [] g := by
  have hnodup := nodup_users hranked.nodup barrier.id
  have hsub : (peeled removeParameters properties inputTuple (c₀.users barrier.id)).Sublist
      (c₀.users barrier.id) := List.filter_sublist
  have hgone : ∀ id, id ∈ ((peeled removeParameters properties inputTuple
      (c₀.users barrier.id)).map HloInstruction.id).reverse ↔
        ∃ w ∈ peeled removeParameters properties inputTuple (c₀.users barrier.id), w.id = id := by
    intro id
    rw [List.mem_reverse, List.mem_map]
  have hpairs : (pairsOf inputTuple (peeled removeParameters properties inputTuple
      (c₀.users barrier.id))).map Prod.fst = (peeled removeParameters properties inputTuple
        (c₀.users barrier.id)).map HloInstruction.id := map_fst_pairsOf
  have hstays : ∀ id, (∀ w ∈ peeled removeParameters properties inputTuple (c₀.users barrier.id),
      w.id ≠ id) → HloGraph.redirects (pairsOf inputTuple
        (peeled removeParameters properties inputTuple (c₀.users barrier.id))) id = id := by
    intro id hid
    apply HloGraph.redirects_of_notMem
    rw [hpairs]
    intro hin
    obtain ⟨w, hw, heq⟩ := List.mem_map.mp hin
    exact hid w hw heq
  have hlives : ∀ id, Lives inputTuple (c₀.users barrier.id) ((peeled removeParameters properties
      inputTuple (c₀.users barrier.id)).map HloInstruction.id).reverse id := by
    intro id hin
    obtain ⟨w, hw, rfl⟩ := (hgone id).mp hin
    refine ⟨w, hsub.subset hw, rfl, ?_⟩
    intro hin
    obtain ⟨w', hw', heq⟩ := (hgone _).mp hin
    exact operand_ne_user hranked hsite (hpeeled.takes w (hsub.subset hw)).mem
      (hsub.subset hw') heq.symm
  refine ⟨_, _, hpeeled.rewired, hpeeled.takes, ?_, ?_, fun h => absurd rfl h, ?_, hlives _, .inl rfl⟩
  · intro id hid
    apply hstays
    rintro w hw rfl
    exact hid (List.mem_map_of_mem (hsub.subset hw))
  · intro w hw
    by_cases hin : w ∈ peeled removeParameters properties inputTuple (c₀.users barrier.id)
    · right
      refine ⟨(hgone _).mpr ⟨w, hin, rfl⟩, .inl ?_⟩
      have hpair : (w.id, operandOf inputTuple w) ∈ pairsOf inputTuple
          (peeled removeParameters properties inputTuple (c₀.users barrier.id)) :=
        List.mem_map_of_mem hin
      exact HloGraph.redirects_of_mem (hpairs ▸ List.Nodup.sublist (hsub.map _) hnodup) hpair
    · left
      have hne : ∀ w' ∈ peeled removeParameters properties inputTuple (c₀.users barrier.id),
          w'.id ≠ w.id := by
        intro w' hw' heq
        obtain rfl := List.inj_on_of_nodup_map hnodup (hsub.subset hw') hw heq
        exact hin hw'
      refine ⟨?_, hstays _ hne⟩
      intro hgoes
      obtain ⟨w', hw', heq⟩ := (hgone _).mp hgoes
      exact hne w' hw' heq
  · exact fun j _ _ o _ => hlives o

/-- The operands that no user takes out. -/
def unneeded (c₀ : HloComputation) (barrier inputTuple : HloInstruction) : List ℕ :=
  inputTuple.operands.filter fun operand =>
    operand ∉ (c₀.users barrier.id).map (operandOf inputTuple)

/-- The users take elements out whose properties are known. Where the barrier is replaced nothing
else reads it or its tuple, and the operands that are not needed can go one after the other. -/
structure Met (removeParameters : Bool) (properties : Properties) (c₀ : HloComputation)
    (barrier inputTuple : HloInstruction) : Prop where
  takes : ∀ user ∈ c₀.users barrier.id, Takes removeParameters properties inputTuple user
  peeled_quiet : ∀ user ∈ c₀.users barrier.id,
    isPeeled removeParameters properties inputTuple user = true →
      c₀.hasControlDependencies user = false
  replaced : (kept removeParameters properties inputTuple (c₀.users barrier.id)).length ≠
      inputTuple.operands.length →
    (∀ user ∈ kept removeParameters properties inputTuple (c₀.users barrier.id),
      c₀.hasControlDependencies user = false) ∧
    Unused c₀ barrier inputTuple ∧
    Deletes removeParameters properties c₀ barrier inputTuple (unneeded c₀ barrier inputTuple)

theorem settles_replaceBarrier {uses : Uses} (hranked : Ranked c₀ n₀ rank)
    (hsite : Site c₀ barrier inputTuple)
    (hpeeled : Peeled removeParameters properties c₀ n₀ inputTuple (c₀.users barrier.id) (g, uses)) :
    Settles (∀ w ∈ kept removeParameters properties inputTuple (c₀.users barrier.id),
        c₀.hasControlDependencies w = false)
      (replaceBarrier barrier inputTuple g uses) fun g' => ∃ σ news,
        Rebuilt removeParameters properties c₀ n₀ barrier inputTuple [] σ news g' := by
  by_cases hone : (kept removeParameters properties inputTuple (c₀.users barrier.id)).length = 1
  · obtain ⟨user, hsingle⟩ := List.length_eq_one_iff.mp hone
    exact settles_replaceBarrier_single hranked hsite hpeeled hsingle
  · have hrun : replaceBarrier barrier inputTuple g uses = regroup barrier inputTuple g uses := by
      unfold replaceBarrier
      split
      · rename_i operand user users hnew husers
        rw [hpeeled.newOperands] at hnew
        have hlength := congrArg List.length hnew
        rw [List.length_map] at hlength
        exact absurd hlength hone
      · rfl
    rw [hrun]
    exact settles_regroup hranked hsite hpeeled hone

/-- What is left to do once the users have been handed through. -/
theorem settles_removeReplaced (hranked : Ranked c₀ n₀ rank) (hsite : Site c₀ barrier inputTuple)
    (hunary : UnaryElements c₀)
    (htakes : ∀ w ∈ c₀.users barrier.id, Takes removeParameters properties inputTuple w)
    (h : Rebuilt removeParameters properties c₀ n₀ barrier inputTuple [] σ news g) :
    Settles (Unused c₀ barrier inputTuple ∧
        Deletes removeParameters properties c₀ barrier inputTuple (unneeded c₀ barrier inputTuple))
      ((g.removeInstruction barrier >>= fun g => g.removeInstruction inputTuple) >>=
        (unneeded c₀ barrier inputTuple).foldlM removeUnneeded) fun g => ∃ σ gone news,
        Outcome removeParameters properties c₀ n₀ barrier inputTuple σ gone news g := by
  apply (settles_removeBarrier hranked hsite hunary htakes h).and_condition.bind
  rintro g ⟨hunused, hrebuilt⟩
  obtain ⟨gone, hgone, houtcome⟩ := hrebuilt.outcome hranked hsite htakes hunused
  have hroots : ∀ id ∈ unneeded c₀ barrier inputTuple, id ∈ inputTuple.operands :=
    fun id hid => List.mem_of_mem_filter hid
  have hnow := houtcome.ranked hranked hsite
  have hthere : ∀ id ∈ unneeded c₀ barrier inputTuple, id ∈ g.computation.ids := by
    intro id hid
    have hmem := hroots id hid
    apply houtcome.mem_ids (hranked.closed inputTuple hsite.tuple_mem id hmem)
    intro hin
    have hlt := rank_operand_lt hranked hsite hmem
    have hle := Replaced.rank_le hranked hsite ((hgone id).mp hin)
    omega
  rw [foldlM_removeUnneeded]
  have hloop := (settles_removeAll hnow.nodup hnow.closed hthere).congr
    (allRemovable_iff_deletes hrebuilt hranked hsite hunary htakes houtcome hgone hroots)
  apply hloop.and_condition.bind_ok
  rintro c ⟨hdeletes, hcleared⟩
  obtain ⟨gone', hcleared⟩ := Outcome.cleared hrebuilt hranked hsite hunary htakes houtcome hgone
    hroots hdeletes hcleared
  exact ⟨σ, gone', news, hcleared⟩

/-- A barrier can be visited exactly when its condition is met, and the visit leaves a computation
as the outcome says. -/
theorem settles_visitBarrier (removeParameters : Bool) (properties : Properties) (hranked : Ranked c₀ n₀ rank) (hsite : Site c₀ barrier inputTuple)
    (hunary : UnaryElements c₀) :
    Settles (Met removeParameters properties c₀ barrier inputTuple)
      (visitBarrier removeParameters properties ⟨c₀, n₀⟩ barrier) fun g => ∃ σ gone news,
        Outcome removeParameters properties c₀ n₀ barrier inputTuple σ gone news g := by
  have htuple : c₀.getInstruction inputTuple.id = ok inputTuple := by
    rw [HloComputation.getInstruction, instruction_of_mem hranked.nodup hsite.tuple_mem, deref_some]
  unfold visitBarrier
  rw [hsite.operands]
  change Settles _ ((c₀.getInstruction inputTuple.id) >>= _) _
  rw [htuple, ok_bind]
  have hrest : ∀ acc : HloGraph × Uses,
      Peeled removeParameters properties c₀ n₀ inputTuple (c₀.users barrier.id) acc →
      Settles ((kept removeParameters properties inputTuple (c₀.users barrier.id)).length ≠
          inputTuple.operands.length →
        (∀ user ∈ kept removeParameters properties inputTuple (c₀.users barrier.id),
          c₀.hasControlDependencies user = false) ∧ Unused c₀ barrier inputTuple ∧
        Deletes removeParameters properties c₀ barrier inputTuple (unneeded c₀ barrier inputTuple))
      (if acc.2.newOperands.length = inputTuple.operands.length then ok acc.1
      else do
        let replaced ← replaceBarrier barrier inputTuple acc.1 acc.2
        let g ← replaced.removeInstruction barrier
        let g ← g.removeInstruction inputTuple
        (inputTuple.operands.filter fun operand =>
          operand ∉ acc.2.operandsNeeded).foldlM removeUnneeded g) fun g => ∃ σ gone news,
        Outcome removeParameters properties c₀ n₀ barrier inputTuple σ gone news g := by
    rintro ⟨g, uses⟩ hpeeled
    have hlength : uses.newOperands.length =
        (kept removeParameters properties inputTuple (c₀.users barrier.id)).length := by
      rw [hpeeled.newOperands, List.length_map]
    dsimp only
    rw [hlength, hpeeled.operandsNeeded]
    split
    · rename_i hsame
      obtain ⟨σ, gone, houtcome⟩ := hpeeled.outcome hranked hsite
      apply (settles_ok (P := fun g => ∃ σ gone news, Outcome removeParameters properties c₀ n₀
        barrier inputTuple σ gone news g) ⟨σ, gone, [], houtcome⟩).congr
      exact iff_of_true trivial fun h => absurd hsame h
    · rename_i hother
      have hreplace := settles_replaceBarrier hranked hsite hpeeled
      apply (hreplace.bind fun g' hg' => ?_).congr
      · exact ⟨fun hall _ => hall, fun hall => hall hother⟩
      · obtain ⟨σ, news, hrebuilt⟩ := hg'
        have hremove := settles_removeReplaced hranked hsite hunary hpeeled.takes hrebuilt
        rw [bind_assoc] at hremove
        exact hremove
  apply ((settles_visitUsers hranked hsite).bind hrest).congr
  constructor
  · rintro ⟨husers, hreplaced⟩
    exact ⟨fun w hw => (husers w hw).1, fun w hw => (husers w hw).2, hreplaced⟩
  · intro hmet
    exact ⟨fun w hw => ⟨hmet.takes w hw, hmet.peeled_quiet w hw⟩, hmet.replaced⟩

end visit

end CrossTaskBarrierRemover
end MultiMeshJax
