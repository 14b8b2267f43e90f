import Mathlib

/-! The weight that goes from one colour to another along the edges of a coloured graph: each
producer counts once for each colour, other than its own, among its consumers. -/
namespace MultiMeshJax
namespace ColorCut

variable {V C : Type} [DecidableEq V] [DecidableEq C] (consumers : V → Finset V) (weight : V → ℕ)

/-- The colours among the consumers of a vertex. -/
def consumerColors (color : V → Option C) (v : V) : Finset C :=
  ((consumers v).image color).eraseNone

/-- A vertex without a colour sends nothing. -/
def cutAt (color : V → Option C) (v : V) : ℕ :=
  match color v with
  | none => 0
  | some own => weight v * ((consumerColors consumers color v).erase own).card

def cut (s : Finset V) (color : V → Option C) : ℕ := ∑ v ∈ s, cutAt consumers weight color v

variable {consumers weight} {color : V → Option C} {i v : V} {b : C}

omit [DecidableEq V] in
theorem mem_consumerColors {c : C} :
    c ∈ consumerColors consumers color v ↔ ∃ u ∈ consumers v, color u = some c := by
  simp [consumerColors]

/-- A vertex that does not feed the one that moves keeps the colours of its consumers. -/
theorem consumerColors_update_of_notMem (h : i ∉ consumers v) :
    consumerColors consumers (Function.update color i (some b)) v =
      consumerColors consumers color v := by
  ext c
  simp only [mem_consumerColors]
  apply exists_congr
  intro u
  apply and_congr_right
  intro hu
  have hne : u ≠ i := fun heq => h (heq ▸ hu)
  rw [Function.update_of_ne hne]

/-- A vertex that feeds the one that moves gains one colour at most. -/
theorem consumerColors_update_subset :
    consumerColors consumers (Function.update color i (some b)) v ⊆
      insert b (consumerColors consumers color v) := by
  intro c hc
  obtain ⟨u, hu, hcolor⟩ := mem_consumerColors.mp hc
  by_cases heq : u = i
  · subst heq
    rw [Function.update_self] at hcolor
    rw [← Option.some.inj hcolor]
    exact Finset.mem_insert_self ..
  · rw [Function.update_of_ne heq] at hcolor
    exact Finset.mem_insert_of_mem (mem_consumerColors.mpr ⟨u, hu, hcolor⟩)

theorem cutAt_update_of_notMem (h : i ∉ consumers v) (hne : v ≠ i) :
    cutAt consumers weight (Function.update color i (some b)) v =
      cutAt consumers weight color v := by
  rw [cutAt, cutAt, Function.update_of_ne hne, consumerColors_update_of_notMem h]

/-- The vertex that moves to the one colour of its consumers sends nothing any more. -/
theorem cutAt_update_self (hself : i ∉ consumers i)
    (huniform : consumerColors consumers color i = {b}) :
    cutAt consumers weight (Function.update color i (some b)) i = 0 := by
  rw [cutAt, Function.update_self, consumerColors_update_of_notMem hself, huniform]
  simp

omit [DecidableEq V] in
theorem cutAt_eq_weight {a : C} (hcolor : color i = some a) (hne : a ≠ b)
    (huniform : consumerColors consumers color i = {b}) :
    cutAt consumers weight color i = weight i := by
  have hnot : a ∉ ({b} : Finset C) := by simpa using hne
  rw [cutAt, hcolor, huniform]
  simp only
  rw [Finset.erase_eq_of_notMem hnot, Finset.card_singleton, mul_one]

/-- A vertex sends at most its weight more, and no more if it has the new colour itself. -/
theorem cutAt_update_le (hne : v ≠ i) :
    cutAt consumers weight (Function.update color i (some b)) v ≤
      cutAt consumers weight color v + if color v = some b then 0 else weight v := by
  have hsubset : consumerColors consumers (Function.update color i (some b)) v ⊆
      insert b (consumerColors consumers color v) := consumerColors_update_subset
  rw [cutAt, cutAt, Function.update_of_ne hne]
  cases hcolor : color v with
  | none => exact Nat.zero_le _
  | some own =>
    simp only [Option.some.injEq]
    split
    · next hown =>
      subst hown
      have herase : (consumerColors consumers (Function.update color i (some own)) v).erase own ⊆
          (consumerColors consumers color v).erase own := by
        intro c hc
        obtain ⟨hcne, hc⟩ := Finset.mem_erase.mp hc
        exact Finset.mem_erase.mpr ⟨hcne, Finset.mem_of_mem_insert_of_ne (hsubset hc) hcne⟩
      rw [add_zero]
      exact Nat.mul_le_mul_left _ (Finset.card_le_card herase)
    · next hother =>
      have hcard : ((consumerColors consumers (Function.update color i (some b)) v).erase own).card ≤
          ((consumerColors consumers color v).erase own).card + 1 := by
        calc ((consumerColors consumers (Function.update color i (some b)) v).erase own).card
            ≤ ((insert b (consumerColors consumers color v)).erase own).card :=
              Finset.card_le_card (Finset.erase_subset_erase own hsubset)
          _ = (insert b ((consumerColors consumers color v).erase own)).card := by
              rw [Finset.erase_insert_of_ne (Ne.symm hother)]
          _ ≤ ((consumerColors consumers color v).erase own).card + 1 := Finset.card_insert_le _ _
      calc weight v * ((consumerColors consumers (Function.update color i (some b)) v).erase own).card
          ≤ weight v * (((consumerColors consumers color v).erase own).card + 1) :=
            Nat.mul_le_mul_left _ hcard
        _ = weight v * ((consumerColors consumers color v).erase own).card + weight v :=
            Nat.mul_succ _ _

/-- A vertex that moves to the colour of its consumers saves its weight, at the cost of the
weights of the vertices that feed it and do not have that colour. -/
theorem cut_update_add_le {s : Finset V} {a : C} (his : i ∈ s) (hself : i ∉ consumers i)
    (hcolor : color i = some a) (hne : a ≠ b)
    (huniform : consumerColors consumers color i = {b}) :
    cut consumers weight s (Function.update color i (some b)) + weight i ≤
      cut consumers weight s color +
        ∑ v ∈ s with i ∈ consumers v, if color v = some b then 0 else weight v := by
  have hrest : ∑ v ∈ s.erase i, cutAt consumers weight (Function.update color i (some b)) v ≤
      ∑ v ∈ s.erase i, (cutAt consumers weight color v +
        if i ∈ consumers v then (if color v = some b then 0 else weight v) else 0) := by
    apply Finset.sum_le_sum
    intro v hv
    have hvi := Finset.ne_of_mem_erase hv
    split
    · exact cutAt_update_le hvi
    · next hnot => exact (cutAt_update_of_notMem hnot hvi).le
  have hfeeds : (∑ v ∈ s.erase i,
      if i ∈ consumers v then (if color v = some b then 0 else weight v) else 0) ≤
        ∑ v ∈ s with i ∈ consumers v, if color v = some b then 0 else weight v := by
    rw [Finset.sum_filter]
    exact Finset.sum_le_sum_of_subset (Finset.erase_subset i s)
  rw [Finset.sum_add_distrib] at hrest
  rw [cut, cut, ← Finset.add_sum_erase s _ his, ← Finset.add_sum_erase s _ his,
    cutAt_update_self hself huniform, cutAt_eq_weight hcolor hne huniform]
  omega

end ColorCut
end MultiMeshJax
