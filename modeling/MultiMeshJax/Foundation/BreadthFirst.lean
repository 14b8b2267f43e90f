import Mathlib.Data.List.Basic
import Mathlib.Logic.Relation
import Mathlib.Data.Nat.Find
import Mathlib.Tactic.Common

/-! Breadth-first search with a queue and no marks: what is found is the first hit of the
first level that has one. -/
namespace MultiMeshJax
namespace BreadthFirst

open Relation

variable {α : Type} (found : α → Bool) (next : α → List α)

/-- The search, which is out of fuel at `none` and has run out of elements at `some none`. -/
def search : ℕ → List α → Option (Option α)
  | _, [] => some none
  | 0, _ :: _ => none
  | fuel + 1, x :: queue => if found x then some (some x) else search fuel (queue ++ next x)

def level (start : List α) : ℕ → List α
  | 0 => start
  | n + 1 => (level start n).flatMap next

/-- The first hit in the order of the levels. -/
def IsFirst (start : List α) (x : α) : Prop :=
  ∃ n, (∀ m < n, ∀ y ∈ level next start m, found y = false) ∧
    (level next start n).find? found = some x

variable {found next} {start : List α} {x : α}

theorem search_mono {fuel fuel' : ℕ} (hle : fuel ≤ fuel') {queue : List α} {r : Option α}
    (h : search found next fuel queue = some r) : search found next fuel' queue = some r := by
  induction fuel generalizing fuel' queue with
  | zero =>
    cases queue with
    | nil => simpa [search] using h
    | cons y queue => simp [search] at h
  | succ fuel ih =>
    cases queue with
    | nil => simpa [search] using h
    | cons y queue =>
      obtain ⟨n, rfl⟩ : ∃ n, fuel' = n + 1 := ⟨fuel' - 1, by omega⟩
      rw [search] at h ⊢
      split at h
      · rename_i hy
        rw [if_pos hy]
        exact h
      · rename_i hy
        rw [if_neg hy]
        exact ih (Nat.le_of_succ_le_succ hle) h

/-- The front of the queue is passed over, and what comes next of it goes to the end. -/
theorem search_append {front : List α} (hfront : ∀ y ∈ front, found y = false) (fuel : ℕ)
    (rest : List α) : search found next (front.length + fuel) (front ++ rest) =
      search found next fuel (rest ++ front.flatMap next) := by
  induction front generalizing rest with
  | nil => simp
  | cons y front ih =>
    have hy := hfront y List.mem_cons_self
    have hlen : (y :: front).length + fuel = front.length + fuel + 1 := by
      simp only [List.length_cons]
      omega
    rw [hlen, List.cons_append, search, if_neg (by simp [hy]), List.append_assoc,
      ih fun z hz => hfront z (List.mem_cons_of_mem y hz)]
    simp

theorem search_level (n : ℕ) (hmiss : ∀ m < n, ∀ y ∈ level next start m, found y = false) :
    ∃ used, ∀ fuel, search found next (used + fuel) start =
      search found next fuel (level next start n) := by
  induction n with
  | zero => exact ⟨0, fun fuel => by rw [Nat.zero_add, level]⟩
  | succ n ih =>
    obtain ⟨used, hused⟩ := ih fun m hm => hmiss m (Nat.lt_trans hm (Nat.lt_succ_self n))
    refine ⟨used + (level next start n).length, fun fuel => ?_⟩
    rw [Nat.add_assoc, hused]
    have happend := @search_append _ _ next _ (hmiss n (Nat.lt_succ_self n)) fuel []
    simpa [level] using happend

theorem search_of_isFirst (h : IsFirst found next start x) :
    ∃ fuel, search found next fuel start = some (some x) := by
  obtain ⟨n, hmiss, hfind⟩ := h
  obtain ⟨hx, front, rest, hsplit, hfront⟩ := List.find?_eq_some_iff_append.mp hfind
  obtain ⟨used, hused⟩ := search_level n hmiss
  refine ⟨used + (front.length + 1), ?_⟩
  have hmissed : ∀ y ∈ front, found y = false := fun y hy => by simpa using hfront y hy
  rw [hused, hsplit, search_append hmissed, List.cons_append, search, if_pos hx]

/-- In the course of the search the queue is the rest of a level and what comes next of its
front. -/
theorem isFirst_of_rest {fuel n : ℕ} {front rest : List α}
    (hmiss : ∀ m < n, ∀ y ∈ level next start m, found y = false)
    (hlevel : level next start n = front ++ rest) (hfront : ∀ y ∈ front, found y = false)
    (h : search found next fuel (rest ++ front.flatMap next) = some (some x)) :
    IsFirst found next start x := by
  induction fuel generalizing n front rest with
  | zero =>
    cases hqueue : rest ++ front.flatMap next with
    | nil =>
      rw [hqueue] at h
      cases h
    | cons y queue =>
      rw [hqueue] at h
      cases h
  | succ fuel ih =>
    have hstep : ∀ n front y rest, (∀ m < n, ∀ z ∈ level next start m, found z = false) →
        level next start n = front ++ y :: rest → (∀ z ∈ front, found z = false) →
        search found next (fuel + 1) (y :: rest ++ front.flatMap next) = some (some x) →
        IsFirst found next start x := by
      intro n front y rest hmiss hlevel hfront h
      rw [List.cons_append, search] at h
      split at h
      · rename_i hy
        obtain rfl : y = x := by simpa using h
        refine ⟨n, hmiss, ?_⟩
        rw [hlevel, List.find?_eq_some_iff_append]
        exact ⟨hy, front, rest, rfl, fun z hz => by simp [hfront z hz]⟩
      · rename_i hy
        have hlevel' : level next start n = front ++ [y] ++ rest := by simp [hlevel]
        apply ih hmiss hlevel'
        · intro z hz
          rcases List.mem_append.mp hz with hz | hz
          · exact hfront z hz
          · rw [List.mem_singleton.mp hz]
            simpa using hy
        · simpa using h
    cases rest with
    | cons y rest => exact hstep n front y rest hmiss hlevel hfront h
    | nil =>
      -- the level is done, and the queue holds the next one
      rw [List.append_nil] at hlevel
      rw [List.nil_append] at h
      have hmiss' : ∀ m < n + 1, ∀ y ∈ level next start m, found y = false := by
        intro m hm y hy
        rcases Nat.lt_succ_iff_lt_or_eq.mp hm with hm | rfl
        · exact hmiss m hm y hy
        · exact hfront y (hlevel ▸ hy)
      cases hqueue : front.flatMap next with
      | nil =>
        rw [hqueue] at h
        cases h
      | cons y queue =>
        rw [hqueue] at h
        apply hstep (n + 1) [] y queue hmiss' (by rw [level, hlevel, hqueue]; rfl) (by simp)
        simpa using h

theorem search_iff_isFirst :
    (∃ fuel, search found next fuel start = some (some x)) ↔ IsFirst found next start x := by
  constructor
  · rintro ⟨fuel, h⟩
    have hlevel : level next start 0 = [] ++ start := rfl
    apply isFirst_of_rest (by simp) hlevel (by simp)
    simpa using h
  · exact search_of_isFirst

theorem IsFirst.hit (h : IsFirst found next start x) : found x = true := by
  obtain ⟨n, -, hfind⟩ := h
  exact List.find?_some hfind

/-- Two first hits are the same. -/
theorem IsFirst.unique {y : α} (hx : IsFirst found next start x)
    (hy : IsFirst found next start y) : x = y := by
  obtain ⟨fuel, hfuel⟩ := search_of_isFirst hx
  obtain ⟨fuel', hfuel'⟩ := search_of_isFirst hy
  have h := search_mono (le_max_left fuel fuel') hfuel
  rw [search_mono (le_max_right fuel fuel') hfuel'] at h
  simpa using h.symm

/-- One step of the search, which does not go on from a hit. -/
def Step (found : α → Bool) (next : α → List α) (x y : α) : Prop :=
  found x = false ∧ y ∈ next x

theorem reachable_of_mem_level {n : ℕ}
    (hmiss : ∀ m < n, ∀ y ∈ level next start m, found y = false)
    (hx : x ∈ level next start n) : ∃ s ∈ start, ReflTransGen (Step found next) s x := by
  induction n generalizing x with
  | zero => exact ⟨x, hx, .refl⟩
  | succ n ih =>
    obtain ⟨y, hy, hxy⟩ := List.mem_flatMap.mp hx
    obtain ⟨s, hs, hreach⟩ := ih (fun m hm => hmiss m (Nat.lt_trans hm (Nat.lt_succ_self n))) hy
    exact ⟨s, hs, hreach.tail ⟨hmiss n (Nat.lt_succ_self n) y hy, hxy⟩⟩

theorem IsFirst.reachable (h : IsFirst found next start x) :
    ∃ s ∈ start, ReflTransGen (Step found next) s x := by
  obtain ⟨n, hmiss, hfind⟩ := h
  exact reachable_of_mem_level hmiss (List.mem_of_find?_eq_some hfind)

theorem mem_level_of_reachable {s : α} (hs : s ∈ start)
    (h : ReflTransGen (Step found next) s x) : ∃ n, x ∈ level next start n := by
  induction h with
  | refl => exact ⟨0, hs⟩
  | tail _ hstep ih =>
    obtain ⟨n, hn⟩ := ih
    exact ⟨n + 1, List.mem_flatMap.mpr ⟨_, hn, hstep.2⟩⟩

/-- Where a hit can be reached there is a first one. -/
theorem exists_isFirst {s : α} (hs : s ∈ start) (h : ReflTransGen (Step found next) s x)
    (hx : found x = true) : ∃ y, IsFirst found next start y := by
  classical
  obtain ⟨n, hn⟩ := mem_level_of_reachable hs h
  have hex : ∃ n, ∃ y ∈ level next start n, found y = true := ⟨n, x, hn, hx⟩
  have hmiss : ∀ m < Nat.find hex, ∀ y ∈ level next start m, found y = false := by
    intro m hm y hy
    have hnone := Nat.find_min hex hm
    simp only [not_exists, not_and, Bool.not_eq_true] at hnone
    exact hnone y hy
  obtain ⟨y, hy, hfound⟩ := Nat.find_spec hex
  obtain ⟨z, hz⟩ := Option.isSome_iff_exists.mp (List.find?_isSome.mpr ⟨y, hy, hfound⟩)
  exact ⟨z, Nat.find hex, hmiss, hz⟩

end BreadthFirst
end MultiMeshJax
