import MultiMeshJax.InputOutputBufferAlias.Pass

/-! The donors and the donees of one size are matched as far as they go. -/
namespace MultiMeshJax
namespace InputOutputBufferAlias

open StatusOr SortedMatching

variable {input : Input} {matchTemps : Bool} {st st' : State}

/-- A parameter that may be donated, with its size on one device. -/
structure DonatedBy (input : Input) (matchTemps : Bool) (st : State) (donor : DonorEntry)
    (i : HloInstruction) : Prop where
  opcode : i.opcode = .parameter donor.paramNumber
  unaliased : st.aliasConfig.parameterHasAlias donor.paramNumber = false
  isDonor : st.parameterIsBufferDonor donor.paramNumber = true
  temporary : matchTemps = input.temporaryParamIndices.contains donor.paramNumber
  size : ∃ shape, input.partitioning.getSpmdShape i = ok shape ∧
    donor.shapeSize = input.byteSizeOf shape

def IsDonor (input : Input) (matchTemps : Bool) (st : State) (donor : DonorEntry) : Prop :=
  ∃ i ∈ input.entry.instructions, DonatedBy input matchTemps st donor i

/-- An output that may get a buffer, with its size on one device. -/
def IsDonee (input : Input) (matchTemps : Bool) (st : State) (donee : DoneeEntry) : Prop :=
  (∃ all, outputs input = ok all ∧ donee ∈ all) ∧
    matchTemps = isTemporaryRoot input donee.index ∧
    st.aliasConfig.outputHasAlias donee.index = false

section collect

/-- A parameter that is visited is collected if it is a donor. -/
theorem mem_collectDonor {donors donors' : List DonorEntry} {i : HloInstruction}
    (h : collectDonor input matchTemps st donors i = ok donors') (donor : DonorEntry) :
    donor ∈ donors' ↔ donor ∈ donors ∨ DonatedBy input matchTemps st donor i := by
  unfold collectDonor at h
  split at h
  · rename_i n hop
    have hnumber : ∀ {donor}, DonatedBy input matchTemps st donor i → donor.paramNumber = n := by
      intro donor hdonor
      have hop' := hdonor.opcode
      rw [hop] at hop'
      cases hop'
      rfl
    split at h
    · cases h
    · split at h
      · rename_i halias
        obtain rfl := ok.inj h
        refine (or_iff_left ?_).symm
        intro hdonor
        have hfree := hdonor.unaliased
        rw [hnumber hdonor, halias] at hfree
        cases hfree
      · rename_i hunaliased
        split at h
        · rename_i hnot
          obtain rfl := ok.inj h
          refine (or_iff_left ?_).symm
          intro hdonor
          have his := hdonor.isDonor
          rw [hnumber hdonor] at his
          rw [his] at hnot
          cases hnot
        · rename_i hdonates
          obtain ⟨shape, hshape, h⟩ := bind_eq_ok.mp h
          split at h
          · rename_i htemps
            obtain rfl := ok.inj h
            rw [List.mem_append, List.mem_singleton]
            refine or_congr Iff.rfl ⟨?_, ?_⟩
            · rintro rfl
              exact ⟨hop, Bool.eq_false_iff.mpr hunaliased, by simpa using hdonates,
                beq_iff_eq.mp htemps, shape, hshape, rfl⟩
            · intro hdonor
              obtain ⟨shape', hshape', hsize⟩ := hdonor.size
              rw [hshape] at hshape'
              obtain rfl := ok.inj hshape'
              cases donor
              cases hnumber hdonor
              exact congrArg _ hsize
          · rename_i htemps
            obtain rfl := ok.inj h
            refine (or_iff_left ?_).symm
            intro hdonor
            have hsame := hdonor.temporary
            rw [hnumber hdonor] at hsame
            exact htemps (beq_iff_eq.mpr hsame)
  · rename_i hop
    obtain rfl := ok.inj h
    refine (or_iff_left ?_).symm
    intro hdonor
    exact hop _ hdonor.opcode

theorem mem_collectDonors {donors : List DonorEntry}
    (h : collectDonors input matchTemps st = ok donors) (donor : DonorEntry) :
    donor ∈ donors ↔ IsDonor input matchTemps st donor := by
  have hall := foldlM_prefix (fun done donors =>
    donor ∈ donors ↔ ∃ i ∈ done, DonatedBy input matchTemps st donor i) h (by simp) ?_
  · exact hall
  · intro done i _ donors₁ donors₂ hdone hstep
    rw [mem_collectDonor hstep donor, hdone]
    simp only [List.mem_append, List.mem_singleton]
    constructor
    · rintro (⟨j, hj, hdonor⟩ | hdonor)
      · exact ⟨j, .inl hj, hdonor⟩
      · exact ⟨i, .inr rfl, hdonor⟩
    · rintro ⟨j, hj | rfl, hdonor⟩
      · exact .inl ⟨j, hj, hdonor⟩
      · exact .inr hdonor

theorem mem_collectDonees {donees : List DoneeEntry}
    (h : collectDonees input matchTemps st = ok donees) (donee : DoneeEntry) :
    donee ∈ donees ↔ IsDonee input matchTemps st donee := by
  obtain ⟨all, hall, h⟩ := bind_eq_ok.mp h
  obtain rfl := ok.inj h
  simp only [List.mem_filter, Bool.and_eq_true, beq_iff_eq, Bool.not_eq_true', IsDonee, hall,
    ok.injEq, exists_eq_left']

def parameterNumber (i : HloInstruction) : Option ℕ :=
  match i.opcode with
  | .parameter n => some n
  | _ => none

/-- The module as the compiler verifies it: the parameters are numbered, they are arrays, and the
sharding of a tuple that is returned covers its elements. -/
structure WellFormed (input : Input) : Prop where
  numbers : (input.entry.instructions.filterMap parameterNumber).Nodup
  arrays : ∀ i ∈ input.entry.instructions, i.isParameter = true → i.shape.isTuple = false
  root : ∃ root, input.entry.rootInstruction = ok root ∧ input.partitioning.Covers root

/-- The donors are collected in the order of the parameters. -/
theorem collectDonors_sublist {donors : List DonorEntry}
    (h : collectDonors input matchTemps st = ok donors) :
    (donors.map DonorEntry.paramNumber).Sublist
      (input.entry.instructions.filterMap parameterNumber) := by
  apply foldlM_prefix (fun done donors => (donors.map DonorEntry.paramNumber).Sublist
    (done.filterMap parameterNumber)) h (List.Sublist.refl _)
  intro done i _ donors₁ donors₂ hdone hstep
  rw [List.filterMap_append]
  have hkept : donors₂ = donors₁ → (donors₂.map DonorEntry.paramNumber).Sublist
      (done.filterMap parameterNumber ++ [i].filterMap parameterNumber) := by
    rintro rfl
    exact hdone.trans (List.sublist_append_left _ _)
  unfold collectDonor at hstep
  split at hstep
  · rename_i n hop
    have hnumber : [i].filterMap parameterNumber = [n] := by
      simp [parameterNumber, hop]
    split at hstep
    · cases hstep
    · split at hstep
      · exact hkept (ok.inj hstep).symm
      · split at hstep
        · exact hkept (ok.inj hstep).symm
        · obtain ⟨shape, -, hstep⟩ := bind_eq_ok.mp hstep
          split at hstep
          · obtain rfl := ok.inj hstep
            rw [List.map_append, hnumber]
            exact hdone.append (List.Sublist.refl _)
          · exact hkept (ok.inj hstep).symm
  · exact hkept (ok.inj hstep).symm

theorem exists_collectDonors (hwf : WellFormed input) :
    ∃ donors, collectDonors input matchTemps st = ok donors := by
  obtain ⟨donors, hrun, -⟩ : ∃ donors, collectDonors input matchTemps st = ok donors ∧ True := by
    apply exists_foldlM_eq_ok (fun _ _ => True) trivial
    intro done i hinitial donors _
    have hi : i ∈ input.entry.instructions :=
      hinitial.subset (List.mem_append_right _ List.mem_cons_self)
    unfold collectDonor
    split
    · rename_i n hop
      have harray := hwf.arrays i hi (by rw [HloInstruction.isParameter, hop])
      have hcovers : input.partitioning.Covers i := by
        intro shapes elements hshape
        rw [hshape] at harray
        cases harray
      obtain ⟨shape, hshape⟩ := Partitioning.exists_getSpmdShape hcovers
      simp only [harray, Bool.false_eq_true, if_false, hshape, ok_bind, pure_eq]
      split
      · exact ⟨_, rfl, trivial⟩
      · split
        · exact ⟨_, rfl, trivial⟩
        · split
          · exact ⟨_, rfl, trivial⟩
          · exact ⟨_, rfl, trivial⟩
    · exact ⟨_, rfl, trivial⟩
  exact ⟨donors, hrun⟩

theorem exists_outputs (hwf : WellFormed input) : ∃ all, outputs input = ok all := by
  obtain ⟨root, hroot, hcovers⟩ := hwf.root
  obtain ⟨shape, hshape⟩ := Partitioning.exists_getSpmdShape hcovers
  unfold outputs
  rw [hroot, ok_bind, hshape, ok_bind]
  cases shape with
  | array elementType dims => exact ⟨_, rfl⟩
  | tuple shapes => exact ⟨_, rfl⟩

/-- Each output is there once. -/
theorem outputs_nodup {all : List DoneeEntry} (h : outputs input = ok all) :
    (all.map DoneeEntry.index).Nodup := by
  obtain ⟨root, -, h⟩ := bind_eq_ok.mp h
  obtain ⟨shape, -, h⟩ := bind_eq_ok.mp h
  cases shape with
  | array elementType dims =>
    obtain rfl := ok.inj h
    exact List.nodup_singleton _
  | tuple shapes =>
    obtain rfl := ok.inj h
    rw [List.map_map]
    have hindices : (shapes.zipIdx.map Prod.snd).Nodup := by
      rw [List.zipIdx_map_snd]
      exact List.nodup_range'
    have hsingle := hindices.map (f := fun idx => [idx]) fun a b hab => List.singleton_inj.mp hab
    rwa [List.map_map] at hsingle

end collect

section loop

/-- The alias that a pair becomes. -/
def aliasOf (p : DonorEntry × DoneeEntry) : ShapeIndex × ℕ := (p.2.index, p.1.paramNumber)

def aliasPair (st : State × Bool) (p : DonorEntry × DoneeEntry) : StatusOr (State × Bool) := do
  let aliased ← alias_ p.1 p.2 st.1
  return (aliased, true)

/-- The loop of the two pointers sets up the aliases of a sorted matching, one after the other. -/
theorem matchDonors_eq (donors : List DonorEntry) (donees : List DoneeEntry) (st : State × Bool) :
    matchDonors donors donees st =
      (matchSorted DonorEntry.shapeSize DoneeEntry.shapeSize donors donees).foldlM aliasPair st := by
  induction donors, donees using
    matchSorted_induction DonorEntry.shapeSize DoneeEntry.shapeSize generalizing st with
  | nil_left donees => rfl
  | nil_right donors =>
    rw [matchSorted_nil_right]
    cases donors with
    | nil => rfl
    | cons donor donors => rfl
  | larger donor donors donee donees hlt ih =>
    rw [matchSorted_of_gt hlt, ← ih st, matchDonors, matchDonor, if_pos hlt]
  | smaller donor donors donee donees hlt ih =>
    rw [matchSorted_of_lt hlt, ← ih st, matchDonors, matchDonor, if_neg hlt.not_gt, if_pos hlt,
      matchDonors]
  | equal donor donors donee donees heq ih =>
    rw [matchSorted_of_eq heq, matchDonors, matchDonor, if_neg heq.not_gt, if_neg heq.not_lt,
      List.foldlM_cons]
    cases haliased : alias_ donor donee st.1 with
    | ok aliased => simp only [aliasPair, haliased, ok_bind, pure_eq, ih]
    | error message => simp only [aliasPair, haliased, error_bind]
    | fatal reason => simp only [aliasPair, haliased, fatal_bind]

theorem setUpAlias_eq_ok {config config' : AliasConfig} {index : ShapeIndex} {n : ℕ} :
    config.setUpAlias index n = ok config' ↔
      config.outputHasAlias index = false ∧ config'.aliases = config.aliases ++ [(index, n)] := by
  unfold AliasConfig.setUpAlias
  split
  · rename_i h
    simp [h]
  · rename_i h
    rw [pure_eq, ok.injEq]
    constructor
    · rintro rfl
      exact ⟨Bool.eq_false_iff.mpr h, rfl⟩
    · rintro ⟨-, haliases⟩
      cases config'
      cases haliases
      rfl

/-- Outputs that are free and distinct can all be aliased. -/
theorem exists_foldlM_aliasPair {pairs : List (DonorEntry × DoneeEntry)} {st : State × Bool}
    (hnodup : (pairs.map fun p => p.2.index).Nodup)
    (hfree : ∀ p ∈ pairs, st.1.aliasConfig.outputHasAlias p.2.index = false) :
    ∃ st', pairs.foldlM aliasPair st = ok st' ∧
      st'.1.aliasConfig.aliases = st.1.aliasConfig.aliases ++ pairs.map aliasOf := by
  induction pairs generalizing st with
  | nil => exact ⟨st, rfl, by simp⟩
  | cons p pairs ih =>
    rw [List.map_cons, List.nodup_cons] at hnodup
    obtain ⟨hnew, hrest⟩ := hnodup
    obtain ⟨config, hconfig⟩ : ∃ config,
        st.1.aliasConfig.setUpAlias p.2.index p.1.paramNumber = ok config := by
      have hp := hfree p List.mem_cons_self
      unfold AliasConfig.setUpAlias
      rw [dif_neg (by rw [hp]; exact Bool.false_ne_true)]
      exact ⟨_, rfl⟩
    obtain ⟨-, haliases⟩ := setUpAlias_eq_ok.mp hconfig
    have hstep : aliasPair st p = ok (({ st.1 with aliasConfig := config } :
        State).removeBufferDonor p.1.paramNumber, true) := by
      simp only [aliasPair, alias_, State.setUpAlias, hconfig, ok_bind, pure_eq]
    have hstill : ∀ q ∈ pairs, config.outputHasAlias q.2.index = false := by
      intro q hq
      have hne : q.2.index ≠ p.2.index := fun heq => hnew (heq ▸ List.mem_map_of_mem hq)
      have hq' := hfree q (List.mem_cons_of_mem _ hq)
      rw [AliasConfig.outputHasAlias] at hq' ⊢
      rw [haliases]
      simpa [hne] using hq'
    set next : State × Bool := (({ st.1 with aliasConfig := config } :
      State).removeBufferDonor p.1.paramNumber, true) with hnext
    have hstillNext : ∀ q ∈ pairs, next.1.aliasConfig.outputHasAlias q.2.index = false := hstill
    obtain ⟨st', hrun, hst'⟩ := ih hrest hstillNext
    refine ⟨st', ?_, ?_⟩
    · rw [List.foldlM_cons, hstep, ok_bind, hrun]
    · rw [hst', List.map_cons, List.append_cons]
      exact congrArg (· ++ _) haliases

end loop

/-- The sizes go down. -/
theorem descending_insertionSort {α : Type} (size : α → ℕ) (xs : List α) :
    Descending size (xs.insertionSort fun a b => size b ≤ size a) := by
  have htotal : Std.Total fun a b : α => size b ≤ size a := ⟨fun a b => Nat.le_total _ _⟩
  have htrans : IsTrans α fun a b => size b ≤ size a := ⟨fun _ _ _ hab hbc => hbc.trans hab⟩
  exact List.pairwise_insertionSort _ xs

/-- The existing aliases give each parameter to one output. -/
def OneToOne (st : State) : Prop := (st.aliasConfig.aliases.map Prod.snd).Nodup

/-- What a successful run of the matching adds: the pairs of a sorted matching of the donors
with the donees. -/
theorem build_eq (hwf : WellFormed input) (hstatic : input.outputIsDynamic = false) :
    ∃ donors donees st' changed, build input matchTemps st = ok (st', changed) ∧
      (∀ donor, donor ∈ donors ↔ IsDonor input matchTemps st donor) ∧
      (∀ donee, donee ∈ donees ↔ IsDonee input matchTemps st donee) ∧
      (donors.map DonorEntry.paramNumber).Nodup ∧ (donees.map DoneeEntry.index).Nodup ∧
      Descending DonorEntry.shapeSize donors ∧ Descending DoneeEntry.shapeSize donees ∧
      st'.aliasConfig.aliases = st.aliasConfig.aliases ++
        (matchSorted DonorEntry.shapeSize DoneeEntry.shapeSize donors donees).map aliasOf := by
  obtain ⟨donors, hdonors⟩ : ∃ donors, collectDonors input matchTemps st = ok donors :=
    exists_collectDonors hwf
  obtain ⟨all, hall⟩ := exists_outputs hwf
  obtain ⟨donees, hdonees⟩ : ∃ donees, collectDonees input matchTemps st = ok donees := by
    unfold collectDonees
    rw [hall, ok_bind]
    exact ⟨_, rfl⟩
  have hdonorPerm := List.perm_insertionSort (fun a b : DonorEntry => b.shapeSize ≤ a.shapeSize)
    donors
  have hdoneePerm := List.perm_insertionSort (fun a b : DoneeEntry => b.shapeSize ≤ a.shapeSize)
    donees
  have hnumbers : (donors.map DonorEntry.paramNumber).Nodup :=
    (collectDonors_sublist hdonors).nodup hwf.numbers
  have hindices : (donees.map DoneeEntry.index).Nodup := by
    have hdonees' := hdonees
    unfold collectDonees at hdonees'
    rw [hall, ok_bind] at hdonees'
    obtain rfl := ok.inj hdonees'
    exact (List.filter_sublist.map _).nodup (outputs_nodup hall)
  set sortedDonors := donors.insertionSort fun a b => b.shapeSize ≤ a.shapeSize with hsortedDonors
  set sortedDonees := donees.insertionSort fun a b => b.shapeSize ≤ a.shapeSize with hsortedDonees
  have hindices' := (hdoneePerm.map DoneeEntry.index).nodup_iff.mpr hindices
  have hmem : ∀ donee, donee ∈ sortedDonees ↔ IsDonee input matchTemps st donee := fun donee =>
    hdoneePerm.mem_iff.trans (mem_collectDonees hdonees donee)
  have hpairs := snd_sublist (f := DonorEntry.shapeSize) (g := DoneeEntry.shapeSize) sortedDonors
    sortedDonees
  have hdistinct : ((matchSorted DonorEntry.shapeSize DoneeEntry.shapeSize sortedDonors
      sortedDonees).map (DoneeEntry.index ∘ Prod.snd)).Nodup := by
    have hsublist := (hpairs.map DoneeEntry.index).nodup hindices'
    rwa [List.map_map] at hsublist
  have hfree : ∀ p ∈ matchSorted DonorEntry.shapeSize DoneeEntry.shapeSize sortedDonors
      sortedDonees, (st, false).1.aliasConfig.outputHasAlias p.2.index = false := by
    intro p hp
    exact ((hmem p.2).mp (hpairs.subset (List.mem_map_of_mem hp))).2.2
  obtain ⟨result, hrun, haliases⟩ := exists_foldlM_aliasPair hdistinct hfree
  refine ⟨sortedDonors, sortedDonees, result.1, result.2, ?_, ?_, hmem, ?_, hindices', ?_, ?_,
    haliases⟩
  · unfold build
    rw [hstatic, if_neg Bool.false_ne_true, hdonors, ok_bind, hdonees, ok_bind, matchDonors_eq]
    exact hrun
  · exact fun donor => hdonorPerm.mem_iff.trans (mem_collectDonors hdonors donor)
  · exact (hdonorPerm.map DonorEntry.paramNumber).nodup_iff.mpr hnumbers
  · exact descending_insertionSort _ donors
  · exact descending_insertionSort _ donees

/-- Pairs of outputs and parameters that could be matched with each other. -/
def Matchable (input : Input) (matchTemps : Bool) (st : State) (entry : ShapeIndex × ℕ) : Prop :=
  ∃ size, IsDonor input matchTemps st ⟨entry.2, size⟩ ∧
    IsDonee input matchTemps st ⟨entry.1, size⟩

/-- The entries that distinct pairs come from are a matching. -/
theorem exists_isMatching {donors : List DonorEntry} {donees : List DoneeEntry}
    (hdonors : ∀ donor, donor ∈ donors ↔ IsDonor input matchTemps st donor)
    (hdonees : ∀ donee, donee ∈ donees ↔ IsDonee input matchTemps st donee)
    {pairs : List (ShapeIndex × ℕ)} (hfst : (pairs.map Prod.fst).Nodup)
    (hsnd : (pairs.map Prod.snd).Nodup)
    (hpairs : ∀ entry ∈ pairs, Matchable input matchTemps st entry) :
    ∃ entries, entries.map aliasOf = pairs ∧
      IsMatching DonorEntry.shapeSize DoneeEntry.shapeSize donors donees entries := by
  obtain ⟨entries, hentries⟩ := exists_forall₂ (R := fun (entry : ShapeIndex × ℕ)
    (q : DonorEntry × DoneeEntry) => aliasOf q = entry ∧ q.1 ∈ donors ∧ q.2 ∈ donees ∧
      q.1.shapeSize = q.2.shapeSize) (l := pairs) (by
    intro entry hentry
    obtain ⟨size, hdonor, hdonee⟩ := hpairs entry hentry
    exact ⟨(⟨entry.2, size⟩, ⟨entry.1, size⟩), rfl, (hdonors _).mpr hdonor,
      (hdonees _).mpr hdonee, rfl⟩)
  have hmap : entries.map aliasOf = pairs := by
    have heq := hentries.imp fun _ _ h => h.1.symm
    rw [← List.forall₂_eq_eq_eq, List.forall₂_map_left_iff]
    exact heq.flip.imp fun _ _ h => h.symm
  have hall : ∀ q ∈ entries, q.1 ∈ donors ∧ q.2 ∈ donees ∧ q.1.shapeSize = q.2.shapeSize := by
    intro q hq
    obtain ⟨k, hk, rfl⟩ := List.getElem_of_mem hq
    have hlength := hentries.length_eq
    exact (hentries.get (by omega) hk).2
  refine ⟨entries, hmap, fun q hq => (hall q hq).2.2, ?_, ?_⟩
  · apply List.subperm_of_subset
    · apply List.Nodup.of_map DonorEntry.paramNumber
      rw [← hmap, List.map_map] at hsnd
      rwa [List.map_map]
    · intro donor hdonor
      obtain ⟨q, hq, rfl⟩ := List.mem_map.mp hdonor
      exact (hall q hq).1
  · apply List.subperm_of_subset
    · apply List.Nodup.of_map DoneeEntry.index
      rw [← hmap, List.map_map] at hfst
      rwa [List.map_map]
    · intro donee hdonee
      obtain ⟨q, hq, rfl⟩ := List.mem_map.mp hdonee
      exact (hall q hq).2.1

/-- The matching of one kind: the existing aliases stay, no parameter goes to two outputs, what is
matched has one size, nothing of one size is left on both sides, and no other choice of pairs of
one size has more of them. -/
theorem build_maximumMatching (hwf : WellFormed input) (hstatic : input.outputIsDynamic = false)
    (hone : OneToOne st) :
    ∃ st' changed, build input matchTemps st = ok (st', changed) ∧ OneToOne st' ∧
      st.aliasConfig.aliases <+: st'.aliasConfig.aliases ∧
      (∀ entry ∈ st'.aliasConfig.aliases, entry ∉ st.aliasConfig.aliases →
        Matchable input matchTemps st entry) ∧
      (∀ entry, Matchable input matchTemps st entry →
        st'.aliasConfig.parameterHasAlias entry.2 = true ∨
          st'.aliasConfig.outputHasAlias entry.1 = true) ∧
      ∀ pairs : List (ShapeIndex × ℕ), (pairs.map Prod.fst).Nodup → (pairs.map Prod.snd).Nodup →
        (∀ entry ∈ pairs, Matchable input matchTemps st entry) →
          st.aliasConfig.aliases.length + pairs.length ≤ st'.aliasConfig.aliases.length := by
  have hbuild : ∃ donors donees st' changed, build input matchTemps st = ok (st', changed) ∧
      (∀ donor, donor ∈ donors ↔ IsDonor input matchTemps st donor) ∧
      (∀ donee, donee ∈ donees ↔ IsDonee input matchTemps st donee) ∧
      (donors.map DonorEntry.paramNumber).Nodup ∧ (donees.map DoneeEntry.index).Nodup ∧
      Descending DonorEntry.shapeSize donors ∧ Descending DoneeEntry.shapeSize donees ∧
      st'.aliasConfig.aliases = st.aliasConfig.aliases ++
        (matchSorted DonorEntry.shapeSize DoneeEntry.shapeSize donors donees).map aliasOf :=
    build_eq hwf hstatic
  obtain ⟨donors, donees, st', changed, hrun, hdonors, hdonees, hnumbers, hindices, hdown, hdown',
    haliases⟩ := hbuild
  have hfst := fst_sublist (f := DonorEntry.shapeSize) (g := DoneeEntry.shapeSize) donors donees
  have hsnd := snd_sublist (f := DonorEntry.shapeSize) (g := DoneeEntry.shapeSize) donors donees
  refine ⟨st', changed, hrun, ?_, ?_, ?_, ?_, ?_⟩
  · rw [OneToOne, haliases, List.map_append, List.map_map]
    have hnew := (hfst.map DonorEntry.paramNumber).nodup hnumbers
    rw [List.map_map] at hnew
    apply List.Nodup.append hone hnew
    intro n hold hn
    obtain ⟨p, hp, rfl⟩ := List.mem_map.mp hn
    obtain ⟨i, -, hdonor⟩ := (hdonors p.1).mp (hfst.subset (List.mem_map_of_mem hp))
    have hfree := hdonor.unaliased
    rw [AliasConfig.parameterHasAlias, List.contains_eq_mem, decide_eq_false_iff_not] at hfree
    exact hfree hold
  · exact haliases ▸ List.prefix_append _ _
  · intro entry hentry hnot
    rw [haliases, List.mem_append] at hentry
    obtain ⟨p, hp, rfl⟩ := List.mem_map.mp (hentry.resolve_left hnot)
    have hdonor := (hdonors p.1).mp (hfst.subset (List.mem_map_of_mem hp))
    have hdonee := (hdonees p.2).mp (hsnd.subset (List.mem_map_of_mem hp))
    have hsize : p.1.shapeSize = p.2.shapeSize := eq_of_mem_matchSorted hp
    refine ⟨p.1.shapeSize, hdonor, ?_⟩
    rw [hsize]
    exact hdonee
  · rintro entry ⟨size, hdonor, hdonee⟩
    rcases matchSorted_maximal hdown hdown' _ ((hdonors _).mpr hdonor) _ ((hdonees _).mpr hdonee)
      rfl with hmatched | hmatched
    · left
      obtain ⟨p, hp, hpdonor⟩ := List.mem_map.mp hmatched
      rw [AliasConfig.parameterHasAlias, List.contains_eq_mem, decide_eq_true_iff, haliases,
        List.map_append, List.mem_append, List.map_map]
      exact .inr (List.mem_map.mpr ⟨p, hp, by simp [aliasOf, hpdonor]⟩)
    · right
      obtain ⟨p, hp, hpdonee⟩ := List.mem_map.mp hmatched
      rw [AliasConfig.outputHasAlias, List.contains_eq_mem, decide_eq_true_iff, haliases,
        List.map_append, List.mem_append, List.map_map]
      exact .inr (List.mem_map.mpr ⟨p, hp, by simp [aliasOf, hpdonee]⟩)
  · intro pairs hpairFst hpairSnd hpairs
    obtain ⟨entries, hmap, hmatching⟩ :=
      exists_isMatching hdonors hdonees hpairFst hpairSnd hpairs
    have hle := length_le_of_isMatching hdown hdown' hmatching
    rw [haliases, List.length_append, List.length_map, ← hmap, List.length_map]
    omega

def parameter (id number : ℕ) (dims : List ℕ) : HloInstruction :=
  { id := id, opcode := .parameter number, shape := .array .f32 dims }

/-- Two parameters, and two outputs of the same sizes the other way round. -/
def swapped : Input where
  entry :=
    { instructions := [parameter 0 0 [4], parameter 1 1 [2],
        { id := 2, opcode := .other "negate", operands := [1], shape := .array .f32 [2] },
        { id := 3, opcode := .other "negate", operands := [0], shape := .array .f32 [4] },
        { id := 4, opcode := .tuple, operands := [2, 3], shape := .tuple [(.f32, [2]), (.f32, [4])] }]
      root := 4 }
  partitioning := { partitionedDimensions := fun dims _ => dims }
  byteSizeOf := fun shape => 4 * shape.dimensions.prod

theorem wellFormed_swapped : WellFormed swapped where
  numbers := by decide
  arrays := by decide
  root := by
    refine ⟨_, rfl, ?_⟩
    intro shapes elements _ helements
    cases helements

theorem build_maximumMatching_swapped :
    ∃ st' changed, build swapped false { donors := [0, 1] } = ok (st', changed) ∧
      OneToOne st' ∧ [] <+: st'.aliasConfig.aliases ∧
      (∀ entry ∈ st'.aliasConfig.aliases, entry ∉ ([] : List (ShapeIndex × ℕ)) →
        Matchable swapped false { donors := [0, 1] } entry) ∧
      (∀ entry, Matchable swapped false { donors := [0, 1] } entry →
        st'.aliasConfig.parameterHasAlias entry.2 = true ∨
          st'.aliasConfig.outputHasAlias entry.1 = true) ∧
      ∀ pairs : List (ShapeIndex × ℕ), (pairs.map Prod.fst).Nodup → (pairs.map Prod.snd).Nodup →
        (∀ entry ∈ pairs, Matchable swapped false { donors := [0, 1] } entry) →
          0 + pairs.length ≤ st'.aliasConfig.aliases.length :=
  build_maximumMatching wellFormed_swapped rfl List.nodup_nil

example : (build swapped false { donors := [0, 1] }).toOption.map
    (fun result => result.1.aliasConfig.aliases) = some [([1], 0), ([0], 1)] := by decide +kernel

end InputOutputBufferAlias
end MultiMeshJax
