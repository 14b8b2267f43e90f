import Mathlib.Data.Multiset.Count
import Mathlib.Data.List.Sort

/-! Two lists that are sorted from large to small are matched element by element where their
sizes agree. -/
namespace MultiMeshJax
namespace SortedMatching

variable {α β κ : Type} [LinearOrder κ] (f : α → κ) (g : β → κ)

/-- The pairs of one element and of those after it, which `rest` gives. -/
def matchOne (x : α) (rest : List β → List (α × β)) : List β → List (α × β)
  | [] => []
  | y :: ys =>
    if g y < f x then rest (y :: ys)
    else if f x < g y then matchOne x rest ys
    else (x, y) :: rest ys

def matchSorted : List α → List β → List (α × β)
  | [], _ => []
  | x :: xs, ys => matchOne f g x (matchSorted xs) ys

variable {f g} {x : α} {y : β} {xs : List α} {ys : List β}

@[simp] theorem matchSorted_nil_left : matchSorted f g [] ys = [] := rfl

@[simp] theorem matchSorted_nil_right : matchSorted f g xs [] = [] := by
  cases xs with
  | nil => rfl
  | cons x xs => rfl

theorem matchSorted_of_gt (h : g y < f x) :
    matchSorted f g (x :: xs) (y :: ys) = matchSorted f g xs (y :: ys) := by
  rw [matchSorted, matchOne, if_pos h]

theorem matchSorted_of_lt (h : f x < g y) :
    matchSorted f g (x :: xs) (y :: ys) = matchSorted f g (x :: xs) ys := by
  rw [matchSorted, matchOne, if_neg h.not_gt, if_pos h, matchSorted]

theorem matchSorted_of_eq (h : f x = g y) :
    matchSorted f g (x :: xs) (y :: ys) = (x, y) :: matchSorted f g xs ys := by
  rw [matchSorted, matchOne, if_neg h.not_gt, if_neg h.not_lt]

/-- The cases of the two pointers. -/
theorem matchSorted_induction (f : α → κ) (g : β → κ) {P : List α → List β → Prop}
    (nil_left : ∀ ys, P [] ys) (nil_right : ∀ xs, P xs [])
    (larger : ∀ x xs y ys, g y < f x → P xs (y :: ys) → P (x :: xs) (y :: ys))
    (smaller : ∀ x xs y ys, f x < g y → P (x :: xs) ys → P (x :: xs) (y :: ys))
    (equal : ∀ x xs y ys, f x = g y → P xs ys → P (x :: xs) (y :: ys))
    (xs : List α) (ys : List β) : P xs ys := by
  induction xs generalizing ys with
  | nil => exact nil_left ys
  | cons x xs ih =>
    induction ys with
    | nil => exact nil_right _
    | cons y ys ih' =>
      rcases lt_trichotomy (f x) (g y) with h | h | h
      · exact smaller x xs y ys h ih'
      · exact equal x xs y ys h (ih ys)
      · exact larger x xs y ys h (ih (y :: ys))

theorem eq_of_mem_matchSorted {p : α × β} (h : p ∈ matchSorted f g xs ys) : f p.1 = g p.2 := by
  induction xs, ys using matchSorted_induction f g with
  | nil_left ys => cases h
  | nil_right xs =>
    rw [matchSorted_nil_right] at h
    cases h
  | larger x xs y ys hlt ih =>
    rw [matchSorted_of_gt hlt] at h
    exact ih h
  | smaller x xs y ys hlt ih =>
    rw [matchSorted_of_lt hlt] at h
    exact ih h
  | equal x xs y ys heq ih =>
    rw [matchSorted_of_eq heq] at h
    rcases List.mem_cons.mp h with rfl | h
    · exact heq
    · exact ih h

theorem fst_sublist (xs : List α) (ys : List β) :
    ((matchSorted f g xs ys).map Prod.fst).Sublist xs := by
  induction xs, ys using matchSorted_induction f g with
  | nil_left ys => exact List.Sublist.refl _
  | nil_right xs =>
    rw [matchSorted_nil_right]
    exact List.nil_sublist xs
  | larger x xs y ys hlt ih =>
    rw [matchSorted_of_gt hlt]
    exact ih.cons x
  | smaller x xs y ys hlt ih =>
    rw [matchSorted_of_lt hlt]
    exact ih
  | equal x xs y ys heq ih =>
    rw [matchSorted_of_eq heq]
    exact ih.cons_cons x

theorem snd_sublist (xs : List α) (ys : List β) :
    ((matchSorted f g xs ys).map Prod.snd).Sublist ys := by
  induction xs, ys using matchSorted_induction f g with
  | nil_left ys => exact List.nil_sublist ys
  | nil_right xs =>
    rw [matchSorted_nil_right]
    exact List.Sublist.refl _
  | larger x xs y ys hlt ih =>
    rw [matchSorted_of_gt hlt]
    exact ih
  | smaller x xs y ys hlt ih =>
    rw [matchSorted_of_lt hlt]
    exact ih.cons y
  | equal x xs y ys heq ih =>
    rw [matchSorted_of_eq heq]
    exact ih.cons_cons y

/-- From large to small. -/
def Descending (f : α → κ) (xs : List α) : Prop := xs.Pairwise fun a b => f b ≤ f a

/-- Nothing of equal size stays unmatched on both sides. -/
theorem matchSorted_maximal (hxs : Descending f xs) (hys : Descending g ys) :
    ∀ x ∈ xs, ∀ y ∈ ys, f x = g y →
      x ∈ (matchSorted f g xs ys).map Prod.fst ∨ y ∈ (matchSorted f g xs ys).map Prod.snd := by
  induction xs, ys using matchSorted_induction f g with
  | nil_left ys =>
    intro x hx
    cases hx
  | nil_right xs =>
    intro x _ y hy
    cases hy
  | larger x₀ xs y₀ ys hlt ih =>
    intro x hx y hy heq
    obtain ⟨-, hrest⟩ := List.pairwise_cons.mp hxs
    obtain ⟨hhead, -⟩ := List.pairwise_cons.mp hys
    rw [matchSorted_of_gt hlt]
    rcases List.mem_cons.mp hx with rfl | hx
    · -- everything on the other side is smaller
      have hle : g y ≤ g y₀ := by
        rcases List.mem_cons.mp hy with rfl | hy
        · exact le_rfl
        · exact hhead y hy
      exact absurd heq (hle.trans_lt hlt).ne'
    · exact ih hrest hys x hx y hy heq
  | smaller x₀ xs y₀ ys hlt ih =>
    intro x hx y hy heq
    obtain ⟨hhead, -⟩ := List.pairwise_cons.mp hxs
    obtain ⟨-, hrest⟩ := List.pairwise_cons.mp hys
    rw [matchSorted_of_lt hlt]
    rcases List.mem_cons.mp hy with rfl | hy
    · have hle : f x ≤ f x₀ := by
        rcases List.mem_cons.mp hx with rfl | hx
        · exact le_rfl
        · exact hhead x hx
      exact absurd heq (hle.trans_lt hlt).ne
    · exact ih hxs hrest x hx y hy heq
  | equal x₀ xs y₀ ys heq₀ ih =>
    intro x hx y hy heq
    rw [matchSorted_of_eq heq₀]
    rcases List.mem_cons.mp hx with rfl | hx
    · exact .inl List.mem_cons_self
    · rcases List.mem_cons.mp hy with rfl | hy
      · exact .inr List.mem_cons_self
      · exact (ih (List.pairwise_cons.mp hxs).2 (List.pairwise_cons.mp hys).2 x hx y hy heq).imp
          (List.mem_cons_of_mem _) (List.mem_cons_of_mem _)

/-- Pairs of equal size that use no element more often than it is there. -/
structure IsMatching (f : α → κ) (g : β → κ) (xs : List α) (ys : List β) (ps : List (α × β)) :
    Prop where
  equal : ∀ p ∈ ps, f p.1 = g p.2
  fst : (ps.map Prod.fst).Subperm xs
  snd : (ps.map Prod.snd).Subperm ys

theorem isMatching_matchSorted : IsMatching f g xs ys (matchSorted f g xs ys) where
  equal _ h := eq_of_mem_matchSorted h
  fst := (fst_sublist xs ys).subperm
  snd := (snd_sublist xs ys).subperm

/-- Of each size there are as many pairs as the shorter side allows. -/
theorem countP_matchSorted (hxs : Descending f xs) (hys : Descending g ys) (k : κ) :
    (matchSorted f g xs ys).countP (fun p => f p.1 = k) =
      min (xs.countP fun x => f x = k) (ys.countP fun y => g y = k) := by
  induction xs, ys using matchSorted_induction f g with
  | nil_left ys => simp
  | nil_right xs => simp
  | larger x xs y ys hlt ih =>
    have hcount := ih (List.pairwise_cons.mp hxs).2 hys
    rw [matchSorted_of_gt hlt, hcount, List.countP_cons (l := xs)]
    by_cases hk : f x = k
    · have hnone : (y :: ys).countP (fun y => g y = k) = 0 := by
        rw [List.countP_eq_zero]
        intro y' hy' heq
        have hle : g y' ≤ g y := by
          rcases List.mem_cons.mp hy' with rfl | hy'
          · exact le_rfl
          · exact (List.pairwise_cons.mp hys).1 y' hy'
        rw [of_decide_eq_true heq, ← hk] at hle
        exact hlt.not_ge hle
      rw [hnone, Nat.min_zero, Nat.min_zero]
    · simp [hk]
  | smaller x xs y ys hlt ih =>
    have hcount := ih hxs (List.pairwise_cons.mp hys).2
    rw [matchSorted_of_lt hlt, hcount, List.countP_cons (l := ys)]
    by_cases hk : g y = k
    · have hnone : (x :: xs).countP (fun x => f x = k) = 0 := by
        rw [List.countP_eq_zero]
        intro x' hx' heq
        have hle : f x' ≤ f x := by
          rcases List.mem_cons.mp hx' with rfl | hx'
          · exact le_rfl
          · exact (List.pairwise_cons.mp hxs).1 x' hx'
        rw [of_decide_eq_true heq, ← hk] at hle
        exact hlt.not_ge hle
      rw [hnone, Nat.zero_min, Nat.zero_min]
    · simp [hk]
  | equal x xs y ys heq ih =>
    have hcount := ih (List.pairwise_cons.mp hxs).2 (List.pairwise_cons.mp hys).2
    rw [matchSorted_of_eq heq, List.countP_cons, List.countP_cons, List.countP_cons, hcount, heq]
    by_cases hk : g y = k
    · simp only [hk, decide_true, if_true]
      omega
    · simp [hk]

/-- No matching has more pairs. -/
theorem length_le_of_isMatching (hxs : Descending f xs) (hys : Descending g ys)
    {ps : List (α × β)} (h : IsMatching f g xs ys ps) :
    ps.length ≤ (matchSorted f g xs ys).length := by
  have hsizes : (ps.map fun p => f p.1 : Multiset κ) ≤
      ((matchSorted f g xs ys).map fun p => f p.1 : List κ) := by
    rw [Multiset.le_iff_count]
    intro k
    have hfst : ps.countP (fun p => f p.1 = k) ≤ xs.countP fun x => f x = k := by
      have hle := h.fst.countP_le fun x => decide (f x = k)
      rwa [List.countP_map] at hle
    have hsnd : ps.countP (fun p => f p.1 = k) ≤ ys.countP fun y => g y = k := by
      have hle := h.snd.countP_le fun y => decide (g y = k)
      rw [List.countP_map] at hle
      refine le_trans (List.countP_mono_left ?_) hle
      intro p hp hk
      simpa [h.equal p hp] using hk
    have hmin := le_min hfst hsnd
    rw [← countP_matchSorted hxs hys k] at hmin
    rw [Multiset.coe_count, Multiset.coe_count, List.count_eq_countP, List.count_eq_countP,
      List.countP_map, List.countP_map]
    exact hmin
  simpa using Multiset.card_le_card hsizes

end SortedMatching
end MultiMeshJax
