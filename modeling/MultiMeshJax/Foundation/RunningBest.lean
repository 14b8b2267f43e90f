import Mathlib.Order.Basic
import Mathlib.Data.Set.Insert

/-! The best of several keys that improve while the best one is being looked for. -/
namespace MultiMeshJax

/-- The keys so far, and the index that had the least one when it was recorded, with the key
that it had then. -/
structure RunningBest (ι κ : Type) where
  key : ι → κ
  best : Option (ι × κ)

namespace RunningBest

variable {ι κ : Type} [LinearOrder κ]

def start (key : ι → κ) : RunningBest ι κ := ⟨key, none⟩

/-- The record changes only for a key that is less than the one recorded. -/
def improves (r : RunningBest ι κ) (k : κ) : Bool :=
  match r.best with
  | none => true
  | some (_, recorded) => decide (k < recorded)

def update [DecidableEq ι] (r : RunningBest ι κ) (i : ι) (k : κ) : RunningBest ι κ where
  key := Function.update r.key i k
  best := if r.improves k then some (i, k) else r.best

/-- The record is the present key of an index that was updated, and none of those that were
updated has a lesser one. -/
structure Leads (r : RunningBest ι κ) (seen : Set ι) : Prop where
  record : ∀ i k, r.best = some (i, k) → i ∈ seen ∧ k = r.key i ∧ ∀ j ∈ seen, k ≤ r.key j
  none_seen : r.best = none → seen = ∅

theorem leads_start (key : ι → κ) : Leads (start key) ∅ where
  record _ _ h := by cases h
  none_seen _ := rfl

/-- An index whose key does not get worse can be updated. -/
theorem Leads.update [DecidableEq ι] {r : RunningBest ι κ} {seen : Set ι} {i : ι} {k : κ} (h : r.Leads seen)
    (hk : k ≤ r.key i) : (r.update i k).Leads (insert i seen) := by
  cases hbest : r.best with
  | none =>
    have hseen := h.none_seen hbest
    constructor
    · intro j recorded hrecord
      simp only [RunningBest.update, improves, hbest, if_true, Option.some.injEq,
        Prod.mk.injEq] at hrecord
      obtain ⟨rfl, rfl⟩ := hrecord
      simp [RunningBest.update, hseen]
    · intro hnone
      simp [RunningBest.update, improves, hbest] at hnone
  | some entry =>
    have hentry := h.record entry.1 entry.2 hbest
    obtain ⟨hseen, hkey, hleast⟩ := hentry
    constructor
    · intro j recorded hrecord
      by_cases hlt : k < entry.2
      · simp only [RunningBest.update, improves, hbest, hlt, decide_true, if_true,
          Option.some.injEq, Prod.mk.injEq] at hrecord
        obtain ⟨rfl, rfl⟩ := hrecord
        refine ⟨Set.mem_insert _ _, by simp [RunningBest.update], ?_⟩
        intro j hj
        by_cases hji : j = i
        · simp [RunningBest.update, hji]
        · have hjseen : j ∈ seen := (Set.mem_insert_iff.mp hj).resolve_left hji
          simpa [RunningBest.update, hji] using hlt.le.trans (hleast j hjseen)
      · simp only [RunningBest.update, improves, hbest, hlt, decide_false,
          Bool.false_eq_true, if_false, Option.some.injEq] at hrecord
        subst hrecord
        dsimp only at hseen hkey hleast hlt
        -- the recorded index may itself be the one that is updated
        have hpresent : recorded = (r.update i k).key j := by
          by_cases hji : j = i
          · subst hji
            have hle : k ≤ recorded := hkey ▸ hk
            simpa [RunningBest.update] using (not_lt.mp hlt).antisymm hle
          · simpa [RunningBest.update, hji] using hkey
        refine ⟨Set.mem_insert_of_mem _ hseen, hpresent, ?_⟩
        intro j' hj'
        by_cases hji : j' = i
        · simpa [RunningBest.update, hji] using not_lt.mp hlt
        · have hjseen : j' ∈ seen := (Set.mem_insert_iff.mp hj').resolve_left hji
          simpa [RunningBest.update, hji] using hleast j' hjseen
    · intro hnone
      by_cases hlt : k < entry.2 <;> simp [RunningBest.update, improves, hbest, hlt] at hnone

end RunningBest

end MultiMeshJax
