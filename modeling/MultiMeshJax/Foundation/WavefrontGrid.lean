import Mathlib

/-! Enumerating a grid of microbatches and stages by wavefronts: the microbatches come in
groups, and each group starts a fixed delay after the one before. -/
namespace MultiMeshJax
namespace WavefrontGrid

variable {stages microbatches group delay : ℕ}

/-- The cell that is visited at the tick `wf - stage`, if there is one. -/
def slot (microbatches group delay wf stage : ℕ) : Option (ℕ × ℕ) :=
  let tick := wf - stage
  let microbatch := tick / delay * group + tick % delay
  if stage ≤ wf ∧ tick % delay < group ∧ microbatch < microbatches then
    some (microbatch, stage)
  else none

/-- The cells of the first `waves` wavefronts, within a wave from the last stage down. -/
def slots (stages microbatches group delay waves : ℕ) : List (ℕ × ℕ) :=
  (List.range waves).flatMap fun wf =>
    (List.range stages).reverse.filterMap (slot microbatches group delay wf)

theorem slot_eq_some {wf stage : ℕ} {c : ℕ × ℕ} :
    slot microbatches group delay wf stage = some c ↔
      stage ≤ wf ∧ (wf - stage) % delay < group ∧ c.1 < microbatches ∧ c.2 = stage ∧
        c.1 = (wf - stage) / delay * group + (wf - stage) % delay := by
  obtain ⟨i, s⟩ := c
  unfold slot
  simp only [Option.ite_none_right_eq_some, Option.some.injEq, Prod.mk.injEq]
  constructor
  · rintro ⟨⟨h1, h2, h3⟩, rfl, rfl⟩
    exact ⟨h1, h2, h3, rfl, rfl⟩
  · rintro ⟨h1, h2, h3, rfl, rfl⟩
    exact ⟨⟨h1, h2, h3⟩, rfl, rfl⟩

/-- The tick of a cell is determined by the cell: its quotient and its remainder are
those of the microbatch by the group. -/
theorem slot_wave (hd : 0 < delay) {wf stage : ℕ} {c : ℕ × ℕ}
    (h : slot microbatches group delay wf stage = some c) :
    wf = c.2 + c.1 / group * delay + c.1 % group ∧ c.1 % group < delay := by
  obtain ⟨hle, hoff, -, rfl, hc⟩ := slot_eq_some.mp h
  have hg : 0 < group := by omega
  have hdiv : c.1 / group = (wf - c.2) / delay := by
    rw [hc, mul_comm, Nat.mul_add_div hg, Nat.div_eq_of_lt hoff, Nat.add_zero]
  have hmod : c.1 % group = (wf - c.2) % delay := by
    rw [hc, mul_comm, Nat.mul_add_mod, Nat.mod_eq_of_lt hoff]
  have htick := Nat.div_add_mod' (wf - c.2) delay
  refine ⟨?_, hmod ▸ Nat.mod_lt _ hd⟩
  rw [hdiv, hmod]
  omega

theorem slot_at_wave (hg : 0 < group) {c : ℕ × ℕ} (hi : c.1 < microbatches)
    (hoff : c.1 % group < delay) :
    slot microbatches group delay (c.2 + c.1 / group * delay + c.1 % group) c.2 = some c := by
  have htick : c.2 + c.1 / group * delay + c.1 % group - c.2 =
      delay * (c.1 / group) + c.1 % group := by
    rw [mul_comm delay]
    omega
  have hd : 0 < delay := by omega
  refine slot_eq_some.mpr ⟨by omega, ?_, hi, rfl, ?_⟩
  · rw [htick, Nat.mul_add_mod, Nat.mod_eq_of_lt hoff]
    exact Nat.mod_lt _ hg
  · rw [htick, Nat.mul_add_mod, Nat.mod_eq_of_lt hoff, Nat.mul_add_div hd,
      Nat.div_eq_of_lt hoff, Nat.add_zero]
    exact (Nat.div_add_mod' _ _).symm

theorem mem_slots (hg : 0 < group) (hd : 0 < delay) {waves : ℕ}
    (hw : stages + (microbatches + group - 1) / group * delay ≤ waves) {c : ℕ × ℕ} :
    c ∈ slots stages microbatches group delay waves ↔
      c.1 < microbatches ∧ c.2 < stages ∧ c.1 % group < delay := by
  simp only [slots, List.mem_flatMap, List.mem_range, List.mem_filterMap, List.mem_reverse]
  constructor
  · rintro ⟨wf, -, stage, hstage, h⟩
    obtain ⟨-, -, hi, hs, -⟩ := slot_eq_some.mp h
    exact ⟨hi, hs ▸ hstage, (slot_wave hd h).2⟩
  · rintro ⟨hi, hs, hoff⟩
    have hq : c.1 / group + 1 ≤ (microbatches + group - 1) / group := by
      rw [Nat.le_div_iff_mul_le hg]
      have := Nat.div_mul_le_self c.1 group
      linarith [Nat.sub_add_cancel (by omega : 1 ≤ microbatches + group)]
    have hmul := Nat.mul_le_mul_right delay hq
    rw [add_mul] at hmul
    exact ⟨_, by omega, c.2, hs, slot_at_wave hg hi hoff⟩

theorem lt_of_mem_slots {waves : ℕ} {c : ℕ × ℕ}
    (h : c ∈ slots stages microbatches group delay waves) : c.2 < stages := by
  obtain ⟨wf, -, h⟩ := List.mem_flatMap.mp h
  obtain ⟨stage, hstage, h⟩ := List.mem_filterMap.mp h
  rw [(slot_eq_some.mp h).2.2.2.1]
  simpa using hstage

theorem nodup_slots (hd : 0 < delay) (waves : ℕ) :
    (slots stages microbatches group delay waves).Nodup := by
  refine List.nodup_flatMap.mpr ⟨fun wf _ => ?_, ?_⟩
  · refine (List.nodup_reverse.mpr List.nodup_range).filterMap ?_
    intro s s' c hc hc'
    exact ((slot_eq_some.mp hc).2.2.2.1).symm.trans (slot_eq_some.mp hc').2.2.2.1
  · refine List.nodup_range.pairwise_of_forall_ne ?_
    intro wf _ wf' _ hne c hc hc'
    simp only [List.mem_filterMap] at hc hc'
    obtain ⟨s, -, h⟩ := hc
    obtain ⟨s', -, h'⟩ := hc'
    exact hne ((slot_wave hd h).1.trans (slot_wave hd h').1.symm)

/-- No cell is left out exactly when no microbatch has an offset that reaches the delay. -/
theorem forall_mod_lt_iff (hg : 0 < group) :
    (∀ i < microbatches, i % group < delay) ↔ microbatches ≤ delay ∨ group ≤ delay := by
  constructor
  · intro h
    by_contra! hlt
    have := h delay hlt.1
    rw [Nat.mod_eq_of_lt hlt.2] at this
    exact lt_irrefl _ this
  · rintro (h | h) i hi
    · exact (Nat.mod_le i group).trans_lt (hi.trans_le h)
    · exact (Nat.mod_lt i hg).trans_le h

/-- The ticks by which a microbatch starts after the first one; an offset that reaches the
delay counts as the last one below it. -/
def phase (group delay i : ℕ) : ℕ := i / group * delay + min (i % group) (delay - 1)

theorem phase_mono (group delay : ℕ) {i j : ℕ} (h : i ≤ j) :
    phase group delay i ≤ phase group delay j := by
  unfold phase
  have hdiv := Nat.div_le_div_right (c := group) h
  rcases hdiv.lt_or_eq with hlt | heq
  · have hmul := Nat.mul_le_mul_right delay hlt
    rw [Nat.succ_mul] at hmul
    omega
  · have hi := Nat.div_add_mod i group
    have hj := Nat.div_add_mod j group
    rw [heq] at hi ⊢
    omega

/-- The wave of a cell, and within a wave the microbatch. -/
def rank (group delay : ℕ) (c : ℕ × ℕ) : ℕ ×ₗ ℕ := toLex (c.2 + phase group delay c.1, c.1)

/-- The cells are enumerated by rising rank. -/
theorem slots_pairwise (hd : 0 < delay) (waves : ℕ) :
    (slots stages microbatches group delay waves).Pairwise fun c c' =>
      rank group delay c < rank group delay c' := by
  have hwave : ∀ wf stage c, slot microbatches group delay wf stage = some c →
      c.2 = stage ∧ c.2 + phase group delay c.1 = wf := by
    intro wf stage c hc
    obtain ⟨hwf, hoff⟩ := slot_wave hd hc
    refine ⟨(slot_eq_some.mp hc).2.2.2.1, ?_⟩
    rw [phase, min_eq_left (by omega)]
    omega
  apply List.pairwise_flatMap.mpr
  constructor
  · intro wf _
    apply List.Pairwise.filterMap (R := fun s s' => s' < s)
    · intro s s' hlt c hc c' hc'
      obtain ⟨hs, hwf⟩ := hwave wf s c hc
      obtain ⟨hs', hwf'⟩ := hwave wf s' c' hc'
      apply Prod.Lex.toLex_lt_toLex.mpr
      right
      refine ⟨hwf.trans hwf'.symm, ?_⟩
      show c.1 < c'.1
      by_contra hle
      have := phase_mono group delay (Nat.le_of_not_lt hle)
      omega
    · exact List.pairwise_reverse.mpr List.pairwise_lt_range
  · apply List.pairwise_lt_range.imp
    intro wf wf' hlt c hc c' hc'
    obtain ⟨s, -, hc⟩ := List.mem_filterMap.mp hc
    obtain ⟨s', -, hc'⟩ := List.mem_filterMap.mp hc'
    apply Prod.Lex.toLex_lt_toLex.mpr
    left
    show c.2 + phase group delay c.1 < c'.2 + phase group delay c'.1
    rw [(hwave wf s c hc).2, (hwave wf' s' c' hc').2]
    exact hlt

/-- The groups, one after the other, list the microbatches in order. -/
theorem flatMap_groups (groups : ℕ) :
    ((List.range groups).flatMap fun a => (List.range group).map fun b => a * group + b) =
      List.range (groups * group) := by
  induction groups with
  | zero => simp
  | succ groups ih =>
    rw [List.range_succ, List.flatMap_append, ih, List.flatMap_singleton, Nat.succ_mul,
      List.range_add]

end WavefrontGrid
end MultiMeshJax
