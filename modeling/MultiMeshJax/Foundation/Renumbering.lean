import Mathlib

/-! Numbers that are handed out one after the other to objects whose own number was met before. -/
namespace MultiMeshJax

/-- The first number from `n` on that is not used, for a number of tries. -/
def skipUsed (used : List ℤ) : ℕ → ℤ → ℤ
  | 0, n => n
  | tries + 1, n => if n ∈ used then skipUsed used tries (n + 1) else n

/-- There are no more numbers to skip than are used. -/
def nextUnused (used : List ℤ) (n : ℤ) : ℤ := skipUsed used used.length n

theorem skipUsed_mem {used : List ℤ} {tries : ℕ} {n : ℤ} (h : skipUsed used tries n ∈ used) :
    ∀ k : ℕ, k ≤ tries → n + k ∈ used := by
  induction tries generalizing n with
  | zero =>
    intro k hk
    obtain rfl : k = 0 := Nat.le_zero.mp hk
    simpa [skipUsed] using h
  | succ tries ih =>
    unfold skipUsed at h
    split at h
    · rename_i hn
      intro k hk
      cases k with
      | zero => simpa using hn
      | succ k =>
        have hrest := ih h k (by omega)
        have hsum : n + ((k + 1 : ℕ) : ℤ) = n + 1 + k := by
          push_cast
          ring
        rwa [hsum]
    · rename_i hn
      exact absurd h hn

theorem nextUnused_notMem (used : List ℤ) (n : ℤ) : nextUnused used n ∉ used := by
  intro h
  have hall := skipUsed_mem h
  have hsub : (List.range (used.length + 1)).map (fun k : ℕ => n + k) ⊆ used := by
    intro m hm
    obtain ⟨k, hk, rfl⟩ := List.mem_map.mp hm
    rw [List.mem_range] at hk
    exact hall k (by omega)
  have hnodup : ((List.range (used.length + 1)).map (fun k : ℕ => n + k)).Nodup := by
    apply List.nodup_range.map
    intro a b hab
    simpa using hab
  have hlength := (hnodup.subperm hsub).length_le
  rw [List.length_map, List.length_range] at hlength
  omega

/-- The numbers of some objects, those that were met, and where the search for the next starts. -/
structure Numbers (ι : Type) where
  number : ι → Option ℤ
  used : List ℤ
  nextAvailable : ℤ

namespace Numbers

variable {ι : Type} [DecidableEq ι]

/-- An object whose number was met before gets the next one that was not. -/
def visit (st : Numbers ι) (i : ι) : Numbers ι :=
  match st.number i with
  | none => st
  | some n =>
    if n ∈ st.used then
      let fresh := nextUnused st.used st.nextAvailable
      { number := Function.update st.number i (some fresh)
        used := fresh :: st.used
        nextAvailable := fresh + 1 }
    else { st with used := n :: st.used }

/-- The number that an object has after its visit, given the one that it has before. -/
def given (st : Numbers ι) (n : ℤ) : ℤ :=
  if n ∈ st.used then nextUnused st.used st.nextAvailable else n

theorem visit_of_none {st : Numbers ι} {i : ι} (h : st.number i = none) : st.visit i = st := by
  unfold visit
  rw [h]

theorem number_visit_self {st : Numbers ι} {i : ι} {n : ℤ} (h : st.number i = some n) :
    (st.visit i).number i = some (st.given n) := by
  unfold visit given
  rw [h]
  dsimp only
  split
  · exact Function.update_self ..
  · exact h

theorem number_visit_of_ne {st : Numbers ι} {i j : ι} (hne : j ≠ i) :
    (st.visit i).number j = st.number j := by
  unfold visit
  split
  · rfl
  · split
    · exact Function.update_of_ne hne ..
    · rfl

theorem used_visit {st : Numbers ι} {i : ι} {n : ℤ} (h : st.number i = some n) :
    (st.visit i).used = st.given n :: st.used := by
  unfold visit given
  rw [h]
  dsimp only
  split <;> rfl

omit [DecidableEq ι] in
theorem given_notMem (st : Numbers ι) (n : ℤ) : st.given n ∉ st.used := by
  unfold given
  split
  · exact nextUnused_notMem st.used st.nextAvailable
  · assumption

def run (st : Numbers ι) (visits : List ι) : Numbers ι := visits.foldl visit st

theorem run_append (st : Numbers ι) (visits visits' : List ι) :
    st.run (visits ++ visits') = (st.run visits).run visits' := List.foldl_append

theorem number_run_of_notMem {st : Numbers ι} {visits : List ι} {i : ι} (h : i ∉ visits) :
    (st.run visits).number i = st.number i := by
  induction visits generalizing st with
  | nil => rfl
  | cons j visits ih =>
    rw [List.mem_cons, not_or] at h
    exact (ih h.2).trans (number_visit_of_ne h.1)

/-- The numbers of the objects that were visited are used, and all different. -/
structure Apart (visited : List ι) (st : Numbers ι) : Prop where
  used : ∀ i ∈ visited, ∀ n, st.number i = some n → n ∈ st.used
  apart : ∀ i ∈ visited, ∀ j ∈ visited, i ≠ j → ∀ n, st.number i = some n → st.number j ≠ some n

theorem Apart.visit {visited : List ι} {st : Numbers ι} (h : Apart visited st) (i : ι) :
    Apart (visited ++ [i]) (st.visit i) := by
  cases hi : st.number i with
  | none =>
    rw [visit_of_none hi]
    have hmem : ∀ j ∈ visited ++ [i], ∀ n, st.number j = some n → j ∈ visited := by
      intro j hj n hn
      rcases List.mem_append.mp hj with hj | hj
      · exact hj
      · rw [List.mem_singleton.mp hj, hi] at hn
        cases hn
    constructor
    · intro j hj n hn
      exact h.used j (hmem j hj n hn) n hn
    · intro j hj k hk hne n hn hn'
      exact h.apart j (hmem j hj n hn) k (hmem k hk n hn') hne n hn hn'
  | some m =>
    have hother : ∀ j ∈ visited ++ [i], j ≠ i → ∀ n, (st.visit i).number j = some n →
        j ∈ visited ∧ st.number j = some n := by
      intro j hj hne n hn
      rw [number_visit_of_ne hne] at hn
      rcases List.mem_append.mp hj with hj | hj
      · exact ⟨hj, hn⟩
      · exact absurd (List.mem_singleton.mp hj) hne
    have hfresh : ∀ j ∈ visited ++ [i], j ≠ i → (st.visit i).number j ≠ some (st.given m) := by
      intro j hj hne hn
      obtain ⟨hmem, hold⟩ := hother j hj hne _ hn
      exact given_notMem st m (h.used j hmem _ hold)
    constructor
    · intro j hj n hn
      rw [used_visit hi]
      by_cases hne : j = i
      · subst hne
        rw [number_visit_self hi] at hn
        rw [← Option.some.inj hn]
        exact List.mem_cons_self ..
      · obtain ⟨hmem, hold⟩ := hother j hj hne n hn
        exact List.mem_cons_of_mem _ (h.used j hmem n hold)
    · intro j hj k hk hne n hn hn'
      by_cases hji : j = i
      · subst hji
        rw [number_visit_self hi] at hn
        rw [← Option.some.inj hn] at hn'
        exact hfresh k hk hne.symm hn'
      · by_cases hki : k = i
        · subst hki
          rw [number_visit_self hi] at hn'
          rw [← Option.some.inj hn'] at hn
          exact hfresh j hj hji hn
        · obtain ⟨hmem, hold⟩ := hother j hj hji n hn
          obtain ⟨hmem', hold'⟩ := hother k hk hki n hn'
          exact h.apart j hmem k hmem' hne n hold hold'

theorem Apart.run {visited : List ι} {st : Numbers ι} (h : Apart visited st) (visits : List ι) :
    Apart (visited ++ visits) (st.run visits) := by
  induction visits generalizing visited st with
  | nil => rwa [List.append_nil]
  | cons i visits ih =>
    have hrest := ih (h.visit i)
    rwa [List.append_assoc, List.singleton_append] at hrest

/-- After the last visit of an object its number stays. -/
theorem number_run_last {st : Numbers ι} {before after : List ι} {i : ι} (hlast : i ∉ after) {n : ℤ}
    (h : (st.run before).number i = some n) :
    (st.run (before ++ i :: after)).number i = some ((st.run before).given n) := by
  rw [run_append]
  change (((st.run before).visit i).run after).number i = _
  rw [number_run_of_notMem hlast, number_visit_self h]

/-- An object without a number gets none. -/
theorem number_run_eq_none {st : Numbers ι} {visits : List ι} {i : ι} :
    (st.run visits).number i = none ↔ st.number i = none := by
  induction visits generalizing st with
  | nil => rfl
  | cons j visits ih =>
    refine ih.trans ?_
    by_cases hne : i = j
    · subst hne
      cases hi : st.number i with
      | none => rw [visit_of_none hi, hi]
      | some n => simp [number_visit_self hi]
    · rw [number_visit_of_ne hne]

end Numbers

/-- The last time that something comes up. -/
theorem exists_last_mem {ι : Type} [DecidableEq ι] {visits : List ι} {i : ι} (h : i ∈ visits) :
    ∃ before after, visits = before ++ i :: after ∧ i ∉ after := by
  induction visits with
  | nil => cases h
  | cons j visits ih =>
    by_cases hin : i ∈ visits
    · obtain ⟨before, after, rfl, hlast⟩ := ih hin
      exact ⟨j :: before, after, rfl, hlast⟩
    · rcases List.mem_cons.mp h with rfl | h
      · exact ⟨[], visits, rfl, hin⟩
      · exact absurd h hin

end MultiMeshJax
