import Mathlib

/-! Rows that are filled one after another: an empty row takes the candidates offered to it that
no row has taken, and a filled row stays as it is. -/
namespace MultiMeshJax

/-- The rows, and the values that were taken. -/
structure Slots (α : Type) where
  rows : List (List α)
  used : List α := []

namespace Slots

variable {α : Type} [DecidableEq α]

/-- The values in a row. -/
def row (st : Slots α) (slot : ℕ) : List α := st.rows.getD slot []

def addName (slot : ℕ) (st : Slots α) (name : α) : Slots α :=
  if name ∈ st.used then st
  else { rows := st.rows.modify slot (· ++ [name]), used := name :: st.used }

def addNames (st : Slots α) (slot : ℕ) (names : List α) : Slots α :=
  names.foldl (addName slot) st

/-- One offer: the row takes names only when it is empty. -/
def fill (st : Slots α) (offer : ℕ × List α) : Slots α :=
  if st.row offer.1 = [] then st.addNames offer.1 offer.2 else st

def fillAll (st : Slots α) (offers : List (ℕ × List α)) : Slots α := offers.foldl fill st

/-- Each value is in one place, and the used ones are those in the rows. -/
structure Consistent (st : Slots α) : Prop where
  placed : st.rows.flatten.Perm st.used
  once : st.used.Nodup

omit [DecidableEq α] in
theorem mem_used_iff {st : Slots α} (h : st.Consistent) {name : α} :
    name ∈ st.used ↔ ∃ slot, name ∈ st.row slot := by
  rw [← h.placed.mem_iff, List.mem_flatten]
  constructor
  · rintro ⟨names, hnames, hname⟩
    obtain ⟨slot, hslot, rfl⟩ := List.getElem_of_mem hnames
    exact ⟨slot, by simpa [row, List.getElem?_eq_getElem hslot] using hname⟩
  · rintro ⟨slot, hname⟩
    by_cases hslot : slot < st.rows.length
    · exact ⟨st.rows[slot], List.getElem_mem hslot,
        by simpa [row, List.getElem?_eq_getElem hslot] using hname⟩
    · simp [row, List.getElem?_eq_none (not_lt.mp hslot)] at hname

omit [DecidableEq α] in
theorem slot_unique {st : Slots α} (h : st.Consistent) {name : α} {slot slot' : ℕ}
    (hname : name ∈ st.row slot) (hname' : name ∈ st.row slot') : slot = slot' := by
  have hnodup : st.rows.flatten.Nodup := h.placed.nodup_iff.mpr h.once
  have hlt : ∀ s, name ∈ st.row s → ∃ hs : s < st.rows.length, name ∈ st.rows[s] := by
    intro s hs
    by_cases hlen : s < st.rows.length
    · exact ⟨hlen, by simpa [row, List.getElem?_eq_getElem hlen] using hs⟩
    · simp [row, List.getElem?_eq_none (not_lt.mp hlen)] at hs
  obtain ⟨hslot, hmem⟩ := hlt slot hname
  obtain ⟨hslot', hmem'⟩ := hlt slot' hname'
  have hdisjoint := List.pairwise_iff_getElem.mp (List.nodup_flatten.mp hnodup).2
  rcases lt_trichotomy slot slot' with hlt | heq | hgt
  · exact absurd hmem' (hdisjoint slot slot' hslot hslot' hlt hmem)
  · exact heq
  · exact absurd hmem (hdisjoint slot' slot hslot' hslot hgt hmem')

section step

variable (st : Slots α) (slot : ℕ) (names : List α)

@[simp] theorem length_rows_addName (name : α) :
    (st.addName slot name).rows.length = st.rows.length := by
  rw [addName]
  split <;> simp

@[simp] theorem length_rows_addNames :
    (st.addNames slot names).rows.length = st.rows.length := by
  induction names generalizing st with
  | nil => rfl
  | cons name rest ih => exact (ih _).trans (length_rows_addName st slot name)

@[simp] theorem length_rows_fill (offer : ℕ × List α) :
    (st.fill offer).rows.length = st.rows.length := by
  rw [fill]
  split <;> simp

theorem mem_used_addName (name n : α) :
    n ∈ (st.addName slot name).used ↔ n ∈ st.used ∨ n = name := by
  rw [addName]
  split
  · next h =>
    constructor
    · exact .inl
    · rintro (hn | rfl)
      · exact hn
      · exact h
  · simp [or_comm]

theorem mem_used_addNames (n : α) :
    n ∈ (st.addNames slot names).used ↔ n ∈ st.used ∨ n ∈ names := by
  induction names generalizing st with
  | nil => simp [addNames]
  | cons name rest ih =>
    have hrest := ih (st.addName slot name)
    rw [mem_used_addName] at hrest
    rw [List.mem_cons, ← or_assoc]
    exact hrest

theorem row_addName_of_ne (name : α) {s : ℕ} (h : s ≠ slot) :
    (st.addName slot name).row s = st.row s := by
  rw [addName]
  split
  · rfl
  · simp [row, h.symm]

theorem row_addNames_of_ne {s : ℕ} (h : s ≠ slot) :
    (st.addNames slot names).row s = st.row s := by
  induction names generalizing st with
  | nil => rfl
  | cons name rest ih => exact (ih _).trans (row_addName_of_ne st slot name h)

variable {st slot names}

theorem mem_row_addName {name n : α} (h : n ∈ (st.addName slot name).row slot) :
    n ∈ st.row slot ∨ n = name := by
  rw [addName] at h
  split at h
  · exact .inl h
  · by_cases hslot : slot < st.rows.length
    · simpa [row, List.getElem?_modify, List.getElem?_eq_getElem hslot] using h
    · simp [row, List.getElem?_eq_none (not_lt.mp hslot)] at h

theorem mem_row_addNames {n : α} (h : n ∈ (st.addNames slot names).row slot) :
    n ∈ st.row slot ∨ n ∈ names := by
  induction names generalizing st with
  | nil => exact .inl h
  | cons name rest ih =>
    have hlater : n ∈ ((st.addName slot name).addNames slot rest).row slot := h
    rcases ih hlater with hrow | hrest
    · rcases mem_row_addName hrow with hrow | rfl
      · exact .inl hrow
      · exact .inr (List.mem_cons_self ..)
    · exact .inr (List.mem_cons_of_mem _ hrest)

omit [DecidableEq α] in
theorem flatten_modify_append {rows : List (List α)} (h : slot < rows.length) (name : α) :
    (rows.modify slot (· ++ [name])).flatten.Perm (name :: rows.flatten) := by
  induction rows generalizing slot with
  | nil => simp at h
  | cons first rest ih =>
    cases slot with
    | zero =>
      rw [List.modify_zero_cons, List.flatten_cons, List.flatten_cons, List.append_assoc]
      exact List.perm_middle
    | succ slot =>
      rw [List.modify_succ_cons, List.flatten_cons, List.flatten_cons]
      exact ((ih (by simpa using h)).append_left first).trans List.perm_middle

theorem Consistent.addName (h : st.Consistent) (hslot : slot < st.rows.length) (name : α) :
    (st.addName slot name).Consistent := by
  rw [Slots.addName]
  split
  · exact h
  · next hnew =>
    constructor
    · exact (flatten_modify_append hslot name).trans (h.placed.cons name)
    · exact List.nodup_cons.mpr ⟨hnew, h.once⟩

theorem Consistent.addNames (h : st.Consistent) (hslot : slot < st.rows.length)
    (names : List α) : (st.addNames slot names).Consistent := by
  induction names generalizing st with
  | nil => exact h
  | cons name rest ih => exact ih (h.addName hslot name) (by simpa using hslot)

theorem Consistent.fill (h : st.Consistent) {offer : ℕ × List α}
    (hslot : offer.1 < st.rows.length) : (st.fill offer).Consistent := by
  rw [Slots.fill]
  split
  · exact h.addNames hslot offer.2
  · exact h

theorem row_fill_of_filled {s : ℕ} (h : st.row s ≠ []) (offer : ℕ × List α) :
    (st.fill offer).row s = st.row s := by
  rw [fill]
  split
  · next hempty =>
    have hne : s ≠ offer.1 := fun heq => h (heq ▸ hempty)
    exact row_addNames_of_ne _ _ _ hne
  · rfl

theorem row_fill_of_ne {s : ℕ} {offer : ℕ × List α} (h : s ≠ offer.1) :
    (st.fill offer).row s = st.row s := by
  rw [fill]
  split
  · exact row_addNames_of_ne _ _ _ h
  · rfl

theorem mem_row_fill {s : ℕ} {n : α} {offer : ℕ × List α} (h : n ∈ (st.fill offer).row s) :
    n ∈ st.row s ∨ offer.1 = s ∧ n ∈ offer.2 := by
  by_cases hs : s = offer.1
  · subst hs
    rw [fill] at h
    split at h
    · rcases mem_row_addNames h with hrow | hnames
      · exact .inl hrow
      · exact .inr ⟨rfl, hnames⟩
    · exact .inl h
  · rw [row_fill_of_ne hs] at h
    exact .inl h

theorem mem_used_fill_of_mem {n : α} (h : n ∈ st.used) (offer : ℕ × List α) :
    n ∈ (st.fill offer).used := by
  rw [fill]
  split
  · exact (mem_used_addNames _ _ _ _).mpr (.inl h)
  · exact h

end step

section run

variable {st : Slots α}

@[simp] theorem length_rows_fillAll (st : Slots α) (offers : List (ℕ × List α)) :
    (st.fillAll offers).rows.length = st.rows.length := by
  induction offers generalizing st with
  | nil => rfl
  | cons offer rest ih => exact (ih _).trans (length_rows_fill st offer)

theorem Consistent.fillAll (h : st.Consistent) {offers : List (ℕ × List α)}
    (hslots : ∀ offer ∈ offers, offer.1 < st.rows.length) : (st.fillAll offers).Consistent := by
  induction offers generalizing st with
  | nil => exact h
  | cons offer rest ih =>
    apply ih (h.fill (hslots offer (List.mem_cons_self ..)))
    intro later hlater
    rw [length_rows_fill]
    exact hslots later (List.mem_cons_of_mem _ hlater)

theorem row_fillAll_of_filled {s : ℕ} (h : st.row s ≠ []) (offers : List (ℕ × List α)) :
    (st.fillAll offers).row s = st.row s := by
  induction offers generalizing st with
  | nil => rfl
  | cons offer rest ih =>
    have hstep := row_fill_of_filled h offer
    exact (ih (hstep ▸ h)).trans hstep

/-- A name in a row was there before, or was offered to this row. -/
theorem mem_row_fillAll {s : ℕ} {n : α} {offers : List (ℕ × List α)}
    (h : n ∈ (st.fillAll offers).row s) :
    n ∈ st.row s ∨ ∃ offer ∈ offers, offer.1 = s ∧ n ∈ offer.2 := by
  induction offers generalizing st with
  | nil => exact .inl h
  | cons offer rest ih =>
    rcases ih h with hrow | ⟨later, hlater, hat⟩
    · rcases mem_row_fill hrow with hrow | hoffer
      · exact .inl hrow
      · exact .inr ⟨offer, List.mem_cons_self .., hoffer⟩
    · exact .inr ⟨later, List.mem_cons_of_mem _ hlater, hat⟩

theorem mem_used_fillAll_of_mem {n : α} (h : n ∈ st.used) (offers : List (ℕ × List α)) :
    n ∈ (st.fillAll offers).used := by
  induction offers generalizing st with
  | nil => exact h
  | cons offer rest ih => exact ih (mem_used_fill_of_mem h offer)

/-- Offers to different rows that are empty are taken whole. -/
theorem mem_used_fillAll {offers : List (ℕ × List α)} (hdistinct : (offers.map (·.1)).Nodup)
    (hempty : ∀ offer ∈ offers, st.row offer.1 = []) {offer : ℕ × List α} (hoffer : offer ∈ offers)
    {n : α} (hn : n ∈ offer.2) : n ∈ (st.fillAll offers).used := by
  induction offers generalizing st with
  | nil => cases hoffer
  | cons first rest ih =>
    rw [List.map_cons, List.nodup_cons] at hdistinct
    rcases List.mem_cons.mp hoffer with rfl | hrest
    · have htaken : n ∈ (st.fill offer).used := by
        rw [fill, if_pos (hempty offer (List.mem_cons_self ..)), mem_used_addNames]
        exact .inr hn
      exact mem_used_fillAll_of_mem htaken rest
    · apply ih hdistinct.2 _ hrest
      intro later hlater
      have hne : later.1 ≠ first.1 := by
        intro heq
        exact hdistinct.1 (List.mem_map.mpr ⟨later, hlater, heq⟩)
      rw [row_fill_of_ne hne]
      exact hempty later (List.mem_cons_of_mem _ hlater)

end run

/-- Empty rows. -/
def empty (α : Type) (n : ℕ) : Slots α where
  rows := List.replicate n []

omit [DecidableEq α] in
theorem row_empty (n slot : ℕ) : (empty α n).row slot = [] := by
  simp only [row, empty, List.getD_eq_getElem?_getD, List.getElem?_replicate]
  split <;> rfl

omit [DecidableEq α] in
theorem consistent_empty (n : ℕ) : (empty α n).Consistent where
  placed := by simp [empty]
  once := List.nodup_nil

end Slots
end MultiMeshJax
