import MultiMeshJax.ComputationFusion.Visit

/-! The fusion sets of a round: no call is in two of them, and the first has two calls. -/
namespace MultiMeshJax
namespace ComputationFusion

open StatusOr

/-- Calls that match the same call match each other. -/
theorem fusionMatch_trans {type : FusionType} {partition_ : HloPartition}
    {lhs lhs' rhs : HloInstruction} (h : fusionMatch type partition_ lhs rhs = ok true)
    (h' : fusionMatch type partition_ lhs' rhs = ok true) :
    fusionMatch type partition_ lhs lhs' = ok true := by
  have hwhile : isWhile lhs = false ∧ isWhile lhs' = false := by
    unfold fusionMatch at h h'
    cases hl : isWhile lhs <;> cases hl' : isWhile lhs' <;> simp_all
  unfold fusionMatch at h h' ⊢
  simp only [hwhile.1, hwhile.2, Bool.false_or, Bool.or_false, Bool.false_eq_true,
    if_false] at h h' ⊢
  split at h
  · cases h
  rename_i hrhs
  rw [if_neg hrhs] at h'
  cases type with
  | matchingColor =>
    obtain ⟨c, hc, h⟩ := bind_eq_ok.mp h
    obtain ⟨d, hd, h⟩ := bind_eq_ok.mp h
    obtain ⟨c', hc', h'⟩ := bind_eq_ok.mp h'
    obtain ⟨d', hd', h'⟩ := bind_eq_ok.mp h'
    obtain rfl : d = d' := by simpa [hd] using hd'
    obtain rfl : c = d := by simpa using h
    obtain rfl : c' = c := by simpa using h'
    simp [hc, hc']
  | originalColor =>
    obtain ⟨c, hc, h⟩ := bind_eq_ok.mp h
    obtain ⟨d, hd, h⟩ := bind_eq_ok.mp h
    obtain ⟨c', hc', h'⟩ := bind_eq_ok.mp h'
    obtain ⟨d', hd', h'⟩ := bind_eq_ok.mp h'
    obtain rfl : d = d' := by simpa [hd] using hd'
    have hsame : partition_.originalColorOf c = partition_.originalColorOf d := by simpa using h
    have hsame' : partition_.originalColorOf c' = partition_.originalColorOf d := by simpa using h'
    simp [hc, hc', hsame, hsame']
  | matchingDevices =>
    dsimp only at h h' ⊢
    unfold HloPartition.sameMesh at h h' ⊢
    cases hl : lhs.color with
    | none => simp [hl] at h
    | some lhsColor =>
      cases hr : rhs.color with
      | none => simp [hl, hr] at h
      | some rhsColor =>
        cases hl' : lhs'.color with
        | none => simp [hl', hr] at h'
        | some lhsColor' =>
          simp only [hl, hl', hr] at h h' ⊢
          obtain ⟨config, hconfig, h⟩ := bind_eq_ok.mp h
          obtain ⟨other, hother, h⟩ := bind_eq_ok.mp h
          obtain ⟨config', hconfig', h'⟩ := bind_eq_ok.mp h'
          obtain ⟨other', hother', h'⟩ := bind_eq_ok.mp h'
          obtain rfl : other = other' := by simpa [hother] using hother'
          have hsame := ok.inj h
          have hsame' := ok.inj h'
          simp only [Bool.and_eq_true, decide_eq_true_eq] at hsame hsame'
          simp [hconfig, hconfig', hsame.1.1, hsame'.1.1, hsame.1.2, hsame'.1.2]

/-- What a search finds is the first that matches. -/
theorem findMatch_eq_ok {isMatch : HloInstruction → StatusOr Bool}
    {canReorder : HloInstruction → Bool} {others : List HloInstruction} {found : HloInstruction}
    (h : findMatch isMatch canReorder others = ok (some found)) : ∃ k : ℕ, others[k]? = some found ∧
      isMatch found = ok true ∧ ∀ j : ℕ, j < k → ∀ other, others[j]? = some other →
        isMatch other = ok false := by
  induction others with
  | nil => cases h
  | cons other others ih =>
    unfold findMatch at h
    obtain ⟨matches_, hmatches, h⟩ := bind_eq_ok.mp h
    split at h
    · rename_i htrue
      obtain rfl := Option.some.inj (ok.inj h)
      refine ⟨0, rfl, by rw [hmatches, htrue], ?_⟩
      intro j hj
      omega
    · rename_i hfalse
      split at h
      · obtain ⟨k, hk, hfound, hbefore⟩ := ih h
        refine ⟨k + 1, hk, hfound, ?_⟩
        intro j hj x hx
        cases j with
        | zero =>
          obtain rfl := Option.some.inj hx
          simpa [hfalse] using hmatches
        | succ j => exact hbefore j (by omega) x hx
      · cases ok.inj h

section sets

variable {v : List HloInstruction} {st st' : FusionSets} {call : HloInstruction}

/-- The sets are disjoint sets of calls that are visited. -/
structure Valid (v : List HloInstruction) (st : FusionSets) : Prop where
  mem : ∀ set ∈ st.sets, ∀ i ∈ set, i ∈ v ∧ i.isCall = true
  assigned : ∀ set ∈ st.sets, ∀ i ∈ set, (st.fusionSets i.id).isSome
  index : ∀ id k, st.fusionSets id = some k → k < st.sets.length
  nodup : (st.sets.flatten.map HloInstruction.id).Nodup
  nonempty : ∀ set ∈ st.sets, set ≠ []

theorem Valid.start (v : List HloInstruction) : Valid v {} where
  mem := by simp
  assigned := by simp
  index := by simp
  nodup := by simp
  nonempty := by simp

/-- A set that is made has one call. -/
theorem Valid.setOf (h : Valid v st) (hcall : call ∈ v) (hisCall : call.isCall = true) :
    Valid v (st.setOf call).1 := by
  unfold FusionSets.setOf
  split
  · exact h
  · rename_i hnone
    have hnew : call.id ∉ st.sets.flatten.map HloInstruction.id := by
      intro hmem
      obtain ⟨i, hi, hid⟩ := List.mem_map.mp hmem
      obtain ⟨set, hset, hi⟩ := List.mem_flatten.mp hi
      have := h.assigned set hset i hi
      rw [hid, hnone] at this
      cases this
    constructor
    · intro set hset
      rcases List.mem_append.mp hset with hset | hset
      · exact h.mem set hset
      · rw [List.mem_singleton.mp hset]
        simpa using ⟨hcall, hisCall⟩
    · intro set hset i hi
      dsimp only
      by_cases heq : i.id = call.id
      · rw [heq, Function.update_self]
        rfl
      · rw [Function.update_of_ne heq]
        rcases List.mem_append.mp hset with hset | hset
        · exact h.assigned set hset i hi
        · rw [List.mem_singleton.mp hset, List.mem_singleton] at hi
          exact absurd (congrArg HloInstruction.id hi) heq
    · intro id k hk
      dsimp only at hk ⊢
      rw [List.length_append, List.length_singleton]
      by_cases heq : id = call.id
      · rw [heq, Function.update_self] at hk
        have := Option.some.inj hk
        omega
      · rw [Function.update_of_ne heq] at hk
        have := h.index id k hk
        omega
    · rw [List.flatten_append, List.map_append, List.nodup_append]
      refine ⟨h.nodup, by simp, ?_⟩
      intro id hid id' hid' heq
      have hid'' : id' = call.id := by simpa using hid'
      exact hnew (by rwa [← hid'', ← heq])
    · intro set hset
      rcases List.mem_append.mp hset with hset | hset
      · exact h.nonempty set hset
      · rw [List.mem_singleton.mp hset]
        simp

theorem setOf_index (h : Valid v st) : (st.setOf call).2 < (st.setOf call).1.sets.length := by
  unfold FusionSets.setOf
  split
  · rename_i k hk
    exact h.index call.id k hk
  · simp

theorem flatten_modify {A : Type} {sets : List (List A)} {k : ℕ} (hk : k < sets.length) (x : A) :
    (sets.modify k fun set => set ++ [x]).flatten.Perm (sets.flatten ++ [x]) := by
  induction sets generalizing k with
  | nil => cases hk
  | cons set sets ih =>
    cases k with
    | zero =>
      simp only [List.modify_zero_cons, List.flatten_cons, List.append_assoc]
      exact (List.perm_append_comm).append_left set
    | succ k =>
      simp only [List.modify_succ_cons, List.flatten_cons, List.append_assoc]
      exact (ih (by simpa using hk)).append_left set

theorem mem_modify {A : Type} {sets : List (List A)} {k : ℕ} {x : A} {set : List A}
    (h : set ∈ sets.modify k fun set => set ++ [x]) :
    set ∈ sets ∨ ∃ old ∈ sets, set = old ++ [x] := by
  obtain ⟨n, hn⟩ := List.mem_iff_getElem?.mp h
  rw [List.getElem?_modify] at hn
  obtain ⟨old, hold, heq⟩ := Option.map_eq_some_iff.mp hn
  have hmem := List.mem_of_getElem? hold
  split at heq
  · exact .inr ⟨old, hmem, heq.symm⟩
  · exact .inl (heq ▸ hmem)

/-- A call that is in no set is put in one. -/
theorem Valid.push (h : Valid v st) (hcall : call ∈ v) (hisCall : call.isCall = true)
    (hnone : st.fusionSets call.id = none) {k : ℕ} (hk : k < st.sets.length) :
    Valid v (st.push k call) := by
  have hnew : call.id ∉ st.sets.flatten.map HloInstruction.id := by
    intro hmem
    obtain ⟨i, hi, hid⟩ := List.mem_map.mp hmem
    obtain ⟨set, hset, hi⟩ := List.mem_flatten.mp hi
    have := h.assigned set hset i hi
    rw [hid, hnone] at this
    cases this
  constructor
  · intro set hset i hi
    rcases mem_modify hset with hset | ⟨old, hold, rfl⟩
    · exact h.mem set hset i hi
    · rcases List.mem_append.mp hi with hi | hi
      · exact h.mem old hold i hi
      · rw [List.mem_singleton.mp hi]
        exact ⟨hcall, hisCall⟩
  · intro set hset i hi
    show (Function.update st.fusionSets call.id (some k) i.id).isSome
    by_cases heq : i.id = call.id
    · rw [heq, Function.update_self]
      rfl
    · rw [Function.update_of_ne heq]
      rcases mem_modify hset with hset | ⟨old, hold, rfl⟩
      · exact h.assigned set hset i hi
      · rcases List.mem_append.mp hi with hi | hi
        · exact h.assigned old hold i hi
        · exact absurd (congrArg HloInstruction.id (List.mem_singleton.mp hi)) heq
  · intro id j hj
    have hlength : (st.push k call).sets.length = st.sets.length := List.length_modify _ _ _
    rw [hlength]
    have hj' : Function.update st.fusionSets call.id (some k) id = some j := hj
    by_cases heq : id = call.id
    · rw [heq, Function.update_self] at hj'
      obtain rfl := Option.some.inj hj'
      exact hk
    · rw [Function.update_of_ne heq] at hj'
      exact h.index id j hj'
  · have hperm := (flatten_modify hk call).map HloInstruction.id
    have hnodup : ((st.sets.flatten ++ [call]).map HloInstruction.id).Nodup := by
      rw [List.map_append, List.nodup_append]
      refine ⟨h.nodup, by simp, ?_⟩
      intro id hid id' hid' heq
      have hid'' : id' = call.id := by simpa using hid'
      exact hnew (by rwa [← hid'', ← heq])
    exact hperm.nodup_iff.mpr hnodup
  · intro set hset
    rcases mem_modify hset with hset | ⟨old, hold, rfl⟩
    · exact h.nonempty set hset
    · simp

end sets

section phases

variable {m : Matching} {v : List HloInstruction} {st : FusionSets}

/-- The instructions that are visited are different tasks. -/
structure Tasks (v : List HloInstruction) : Prop where
  distinct : (v.map HloInstruction.id).Nodup
  task : ∀ i ∈ v, i.isTask = true

theorem Tasks.index_unique (h : Tasks v) {j k : ℕ} {x y : HloInstruction} (hx : v[j]? = some x)
    (hy : v[k]? = some y) (hid : x.id = y.id) : j = k := by
  have hj : (v.map HloInstruction.id)[j]? = some x.id := by rw [List.getElem?_map, hx]; rfl
  have hk : (v.map HloInstruction.id)[k]? = some x.id := by rw [List.getElem?_map, hy, hid]; rfl
  obtain ⟨hlt, -⟩ := List.getElem?_eq_some_iff.mp hj
  exact (List.getElem?_inj hlt h.distinct).mp (hj.trans hk.symm)

theorem Tasks.isCall (h : Tasks v) {i : HloInstruction} (hi : i ∈ v) (hwhile : isWhile i = false) :
    i.isCall = true := by
  have htask := h.task i hi
  unfold HloInstruction.isTask at htask
  unfold isWhile at hwhile
  unfold HloInstruction.isCall
  cases hop : i.opcode <;> simp_all

/-- `rhs` is the first task after `lhs` that matches it. -/
def FirstMatch (m : Matching) (v : List HloInstruction) (l r : ℕ) (lhs rhs : HloInstruction) :
    Prop :=
  l < r ∧ v[l]? = some lhs ∧ v[r]? = some rhs ∧
    fusionMatch m.type m.partition_ lhs rhs = ok true ∧
    ∀ (k : ℕ) x, l < k → k < r → v[k]? = some x → fusionMatch m.type m.partition_ lhs x = ok false

theorem not_isWhile_of_fusionMatch {type : FusionType} {partition_ : HloPartition}
    {lhs rhs : HloInstruction} (h : fusionMatch type partition_ lhs rhs = ok true) :
    isWhile lhs = false ∧ isWhile rhs = false := by
  unfold fusionMatch at h
  cases hl : isWhile lhs <;> cases hr : isWhile rhs <;> simp_all

theorem forwardMatch_eq_ok {l : ℕ} {lhs rhs : HloInstruction} (hlhs : v[l]? = some lhs)
    (h : m.forwardMatch v st l lhs = ok (some rhs)) : ∃ r, FirstMatch m v l r lhs rhs := by
  obtain ⟨k, hk, hmatch, hbefore⟩ := findMatch_eq_ok h
  rw [List.getElem?_drop] at hk
  refine ⟨l + 1 + k, by omega, hlhs, hk, hmatch, ?_⟩
  intro j x hl hr hx
  apply hbefore (j - (l + 1)) (by omega) x
  rw [List.getElem?_drop, show l + 1 + (j - (l + 1)) = j by omega]
  exact hx

/-- Only calls that an earlier step has matched are in a set. -/
def AssignedBefore (m : Matching) (v : List HloInstruction) (l : ℕ) (st : FusionSets) : Prop :=
  ∀ id, (st.fusionSets id).isSome → ∃ l' r lhs rhs, l' < l ∧ FirstMatch m v l' r lhs rhs ∧
    (id = lhs.id ∨ id = rhs.id)

/-- The first match of a call is not assigned by an earlier one, which would have matched
the call itself first. -/
theorem not_assigned (hv : Tasks v) (h : AssignedBefore m v l st) {r : ℕ}
    {lhs rhs : HloInstruction} (hmatch : FirstMatch m v l r lhs rhs) :
    st.fusionSets rhs.id = none := by
  rw [← Option.not_isSome_iff_eq_none]
  intro hassigned
  obtain ⟨l', r', lhs', rhs', hlt, hmatch', hid⟩ := h rhs.id hassigned
  obtain ⟨hlr, hlhs, hrhs, hfusion, -⟩ := hmatch
  obtain ⟨hlr', hlhs', hrhs', hfusion', hbefore⟩ := hmatch'
  rcases hid with hid | hid
  · have := hv.index_unique hrhs hlhs' hid
    omega
  · obtain rfl := hv.index_unique hrhs hrhs' hid
    obtain rfl : rhs = rhs' := by simpa [hrhs] using hrhs'
    have hfirst := hbefore l lhs hlt hlr hlhs
    rw [fusionMatch_trans hfusion' hfusion] at hfirst
    cases hfirst

/-- The first set has two calls. -/
def FirstIsPair (st : FusionSets) : Prop :=
  ∀ set rest, st.sets = set :: rest → 2 ≤ set.length

theorem noError_fusionMatch (type : FusionType) (partition_ : HloPartition)
    (lhs rhs : HloInstruction) :
    NoError (fun _ => True) (fusionMatch type partition_ lhs rhs) := by
  have hderef : ∀ {A : Type} (reason : String) (x : Option A),
      NoError (fun _ => True) (deref reason x) := by
    intro A reason x
    cases x <;> trivial
  unfold fusionMatch
  split
  · trivial
  · split
    · exact (hderef _ _).bind fun _ _ => (hderef _ _).bind fun _ _ => trivial
    · exact (hderef _ _).bind fun _ _ => (hderef _ _).bind fun _ _ => trivial
    · unfold HloPartition.sameMesh
      split
      · exact (hderef _ _).bind fun _ _ => (hderef _ _).bind fun _ _ => trivial
      · trivial

theorem noError_findMatch {isMatch : HloInstruction → StatusOr Bool}
    {canReorder : HloInstruction → Bool} (h : ∀ i, NoError (fun _ => True) (isMatch i))
    (others : List HloInstruction) :
    NoError (fun found => findMatch isMatch canReorder others = ok found)
      (findMatch isMatch canReorder others) := by
  have hall : NoError (fun _ => True) (findMatch isMatch canReorder others) := by
    induction others with
    | nil => trivial
    | cons other others ih =>
      unfold findMatch
      apply (h other).bind
      intro found _
      split
      · trivial
      · split
        · exact ih
        · trivial
  cases hrun : findMatch isMatch canReorder others with
  | ok found => rfl
  | error message =>
    rw [hrun] at hall
    exact hall
  | fatal reason => trivial

/-- Where the sets are not empty, what is made or grows leaves the first of them a pair. -/
theorem FirstIsPair.setOf (h : FirstIsPair st) (hne : st.sets ≠ []) (call : HloInstruction) :
    FirstIsPair (st.setOf call).1 := by
  unfold FusionSets.setOf
  split
  · exact h
  · intro set rest hsets
    dsimp only at hsets
    cases hst : st.sets with
    | nil => exact absurd hst hne
    | cons first others =>
      rw [hst, List.cons_append] at hsets
      rw [← (List.cons.inj hsets).1]
      exact h first others hst

theorem FirstIsPair.push (h : FirstIsPair st) (k : ℕ) (call : HloInstruction) :
    FirstIsPair (st.push k call) := by
  intro set rest hsets
  have hsets' : (st.sets.modify k fun calls => calls ++ [call]) = set :: rest := hsets
  cases hst : st.sets with
  | nil =>
    rw [hst] at hsets'
    simp at hsets'
  | cons first others =>
    have hfirst := h first others hst
    rw [hst] at hsets'
    cases k with
    | zero =>
      rw [List.modify_zero_cons] at hsets'
      rw [← (List.cons.inj hsets').1, List.length_append]
      omega
    | succ k =>
      rw [List.modify_succ_cons] at hsets'
      rwa [← (List.cons.inj hsets').1]

/-- A call and its match make a first set that has both of them. -/
theorem firstIsPair_setOf_push (hvalid : Valid v st) (h : FirstIsPair st)
    (lhs rhs : HloInstruction) :
    FirstIsPair ((st.setOf lhs).1.push (st.setOf lhs).2 rhs) := by
  by_cases hne : st.sets = []
  · have hnone : st.fusionSets lhs.id = none := by
      rw [← Option.not_isSome_iff_eq_none]
      intro hsome
      obtain ⟨k, hk⟩ := Option.isSome_iff_exists.mp hsome
      have := hvalid.index lhs.id k hk
      rw [hne] at this
      cases this
    intro set rest hsets
    have hsets' : [[lhs] ++ [rhs]] = set :: rest := by
      simpa [FusionSets.setOf, FusionSets.push, hnone, hne] using hsets
    rw [← (List.cons.inj hsets').1]
    simp
  · exact (h.setOf hne lhs).push _ _

/-- Setting a set for one call leaves the others alone. -/
theorem fusionSets_setOf {call : HloInstruction} {id : ℕ} (hne : id ≠ call.id) :
    (st.setOf call).1.fusionSets id = st.fusionSets id := by
  unfold FusionSets.setOf
  split
  · rfl
  · exact Function.update_of_ne hne _ _

theorem fusionSets_push {call : HloInstruction} {id k : ℕ} (hne : id ≠ call.id) :
    (st.push k call).fusionSets id = st.fusionSets id := Function.update_of_ne hne _ _

theorem noError_moveForward (hv : Tasks v) (hvalid : Valid v st) (hpair : FirstIsPair st) {l : ℕ}
    {lhs : HloInstruction} (hassigned : AssignedBefore m v l st) (hlhs : v[l]? = some lhs) :
    NoError (fun st => Valid v st ∧ FirstIsPair st ∧ AssignedBefore m v (l + 1) st)
      (m.moveForward v st (lhs, l)) := by
  have hlater : AssignedBefore m v (l + 1) st := by
    intro id hid
    obtain ⟨l', r, lhs', rhs', hlt, h⟩ := hassigned id hid
    exact ⟨l', r, lhs', rhs', by omega, h⟩
  unfold Matching.moveForward
  split
  · exact ⟨hvalid, hpair, hlater⟩
  · apply (noError_findMatch (noError_fusionMatch m.type m.partition_ lhs) _).bind
    intro found hfound
    cases found with
    | none => exact ⟨hvalid, hpair, hlater⟩
    | some rhs =>
      obtain ⟨r, hmatch⟩ := forwardMatch_eq_ok hlhs hfound
      have hnone := not_assigned hv hassigned hmatch
      obtain ⟨hlr, -, hrhs, hfusion, -⟩ := id hmatch
      obtain ⟨hlhsWhile, hrhsWhile⟩ := not_isWhile_of_fusionMatch hfusion
      have hlhsMem := List.mem_of_getElem? hlhs
      have hrhsMem := List.mem_of_getElem? hrhs
      have hne : rhs.id ≠ lhs.id := by
        intro heq
        have := hv.index_unique hrhs hlhs heq
        omega
      dsimp only
      rw [hnone, Option.isSome_none, if_neg Bool.false_ne_true]
      refine ⟨?_, firstIsPair_setOf_push hvalid hpair lhs rhs, ?_⟩
      · apply (hvalid.setOf hlhsMem (hv.isCall hlhsMem hlhsWhile)).push hrhsMem
          (hv.isCall hrhsMem hrhsWhile) _ (setOf_index hvalid)
        rw [fusionSets_setOf hne]
        exact hnone
      · intro id hid
        by_cases hidRhs : id = rhs.id
        · exact ⟨l, r, lhs, rhs, by omega, hmatch, .inr hidRhs⟩
        by_cases hidLhs : id = lhs.id
        · exact ⟨l, r, lhs, rhs, by omega, hmatch, .inl hidLhs⟩
        rw [fusionSets_push hidRhs, fusionSets_setOf hidLhs] at hid
        exact hlater id hid

theorem backwardMatch_eq_ok {r : ℕ} {lhs rhs : HloInstruction}
    (h : m.backwardMatch v st r rhs = ok (some lhs)) : ∃ l < r, v[l]? = some lhs ∧
      fusionMatch m.type m.partition_ lhs rhs = ok true := by
  obtain ⟨k, hk, hmatch, -⟩ := findMatch_eq_ok h
  have hmem := List.mem_reverse.mp (List.mem_of_getElem? hk)
  obtain ⟨l, hl, hget⟩ := List.mem_take_iff_getElem.mp hmem
  refine ⟨l, by omega, ?_, hmatch⟩
  rw [List.getElem?_eq_getElem (by omega), hget]

theorem noError_moveBackward (hv : Tasks v) (hvalid : Valid v st) (hpair : FirstIsPair st) {r : ℕ}
    {rhs : HloInstruction} (hrhs : v[r]? = some rhs) :
    NoError (fun st => Valid v st ∧ FirstIsPair st) (m.moveBackward v st (rhs, r)) := by
  unfold Matching.moveBackward
  split
  · exact ⟨hvalid, hpair⟩
  · apply (noError_findMatch
      (fun lhs => noError_fusionMatch m.type m.partition_ lhs rhs) _).bind
    intro found hfound
    cases found with
    | none => exact ⟨hvalid, hpair⟩
    | some lhs =>
      obtain ⟨l, hlr, hlhs, hfusion⟩ := backwardMatch_eq_ok hfound
      obtain ⟨hlhsWhile, hrhsWhile⟩ := not_isWhile_of_fusionMatch hfusion
      have hlhsMem := List.mem_of_getElem? hlhs
      have hrhsMem := List.mem_of_getElem? hrhs
      have hne : rhs.id ≠ lhs.id := by
        intro heq
        have := hv.index_unique hrhs hlhs heq
        omega
      have hset := hvalid.setOf hlhsMem (hv.isCall hlhsMem hlhsWhile)
      dsimp only
      rw [fusionSets_setOf hne]
      split
      · rename_i hsome
        refine ⟨hset, hpair.setOf ?_ lhs⟩
        intro hempty
        obtain ⟨k, hk⟩ := Option.isSome_iff_exists.mp hsome
        have := hvalid.index rhs.id k hk
        rw [hempty] at this
        cases this
      · rename_i hnone
        refine ⟨?_, firstIsPair_setOf_push hvalid hpair lhs rhs⟩
        apply hset.push hrhsMem (hv.isCall hrhsMem hrhsWhile) _ (setOf_index hvalid)
        rw [fusionSets_setOf hne]
        exact Option.not_isSome_iff_eq_none.mp hnone

/-- The selection of a round ends in no error: no match is in a set already. -/
theorem noError_findFusionSets (hv : Tasks v) :
    NoError (fun st => Valid v st ∧ FirstIsPair st) (m.findFusionSets v) := by
  unfold Matching.findFusionSets
  have hforward : NoError (fun st => Valid v st ∧ FirstIsPair st ∧
      AssignedBefore m v v.zipIdx.length st) (v.zipIdx.foldlM (m.moveForward v) {}) := by
    apply noError_foldlM fun done st =>
      Valid v st ∧ FirstIsPair st ∧ AssignedBefore m v done.length st
    · refine ⟨Valid.start v, ?_, ?_⟩
      · intro set rest hsets
        cases hsets
      · intro id hid
        cases hid
    · rintro done ⟨lhs, l⟩ hinitial st ⟨hvalid, hpair, hassigned⟩
      obtain ⟨hl, hlhs, -⟩ := of_prefix_zipIdx hinitial
      dsimp only at hl hlhs
      rw [← hl] at hassigned
      rw [List.length_append, List.length_singleton, ← hl]
      exact noError_moveForward hv hvalid hpair hassigned hlhs
  apply hforward.bind
  rintro st ⟨hvalid, hpair, -⟩
  apply noError_foldlM fun _ st => Valid v st ∧ FirstIsPair st
  · exact ⟨hvalid, hpair⟩
  · rintro done ⟨rhs, r⟩ hinitial st ⟨hvalid, hpair⟩
    obtain ⟨-, hrhs, -⟩ := of_prefix_zipIdx hinitial
    exact noError_moveBackward hv hvalid hpair hrhs

end phases

end ComputationFusion
end MultiMeshJax
