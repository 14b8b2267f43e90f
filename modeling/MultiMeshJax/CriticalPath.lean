import Mathlib.Data.ENat.Basic
import MultiMeshJax.Coloring.Propagation
import MultiMeshJax.Foundation.BreadthFirst
import MultiMeshJax.Hlo.Program

/-! `CriticalRootTupleIndex`: which output of a call the critical path goes through. -/
namespace MultiMeshJax
namespace CriticalPath

open StatusOr Relation Coloring

/-- An order in which the users of each instruction are stored. -/
structure UserOrder (c : HloComputation) where
  users : ℕ → List HloInstruction
  perm : ∀ id, (users id).Perm (c.users id)

/-- The next call on a path, or its end. -/
def isCallOrRoot (c : HloComputation) (i : HloInstruction) : Bool := i.isCall || i.id == c.root

section finder

variable {c : HloComputation} (order : UserOrder c) (depthMap : ℕ → Option ℕ) (fuel : ℕ)

/-- The queue has no end where the users run in a circle. -/
def firstCallDepth (i : HloInstruction) : StatusOr ℕ :=
  match BreadthFirst.search (isCallOrRoot c) (fun i => order.users i.id) fuel [i] with
  | none => fatal "the search does not end"
  | some none => error "No call or root found"
  | some (some current) => deref "no depth" (depthMap current.id)

/-- The output of a call, as the loop over the users of the call holds it against the best
one so far. -/
def visitUser (best : ℕ∞ × ℕ) (user : HloInstruction) : StatusOr (ℕ∞ × ℕ) :=
  match user.opcode with
  | .getTupleElement tupleIndex => do
    let root ← c.rootInstruction
    if root.operands.length ≤ tupleIndex then error "has tuple index out of bounds"
    else do
      let callDepth ← firstCallDepth order depthMap fuel user
      if (callDepth : ℕ∞) ≤ best.1 then
        if (callDepth : ℕ∞) = best.1 ∧ best.2 < tupleIndex then return best
        else return (callDepth, tupleIndex)
      else return best
  | _ => error "Call has a user that is not a GTE: "

/-- The greatest value of the type stands above all depths. -/
def criticalRootTupleIndex (call : ℕ) : StatusOr ℕ := do
  let best ← (order.users call).foldlM (visitUser order depthMap fuel) (⊤, 0)
  return best.2

end finder

/-- A path that ends at the next call or at the root. -/
def Consumes (c : HloComputation) (i consumer : HloInstruction) : Prop :=
  ReflTransGen (fun x y => isCallOrRoot c x = false ∧ y ∈ c.users x.id) i consumer ∧
    isCallOrRoot c consumer = true

/-- Of two outputs the one is chosen that is consumed at the lesser depth, or is the first
among equals. -/
def Before (a b : ℕ × ℕ) : Prop := a.1 < b.1 ∨ a.1 = b.1 ∧ a.2 ≤ b.2

theorem Before.antisymm {a b : ℕ × ℕ} (h : Before a b) (h' : Before b a) : a = b := by
  rcases h with h | h <;> rcases h' with h' | h'
  · omega
  · omega
  · omega
  · exact Prod.ext h.1 (by omega)

theorem Before.trans {a b d : ℕ × ℕ} (h : Before a b) (h' : Before b d) : Before a d := by
  unfold Before at h h' ⊢
  omega

/-- A depth at which an output of the call is consumed, with the index of the output. -/
def ConsumedAt (c : HloComputation) (call : ℕ) (place : ℕ × ℕ) : Prop :=
  ∃ user ∈ c.users call, user.opcode = .getTupleElement place.2 ∧
    ∃ consumer, Consumes c user consumer ∧ computeDepthMap c consumer.id = some place.1

/-- The true critical output: it has a consumer of least depth over all outputs, and is the
first that has one. -/
def IsCritical (c : HloComputation) (call index : ℕ) : Prop :=
  ∃ depth, ConsumedAt c call (depth, index) ∧
    ∀ other, ConsumedAt c call other → Before (depth, index) other

theorem IsCritical.unique {c : HloComputation} {call index index' : ℕ}
    (h : IsCritical c call index) (h' : IsCritical c call index') : index = index' := by
  obtain ⟨depth, hplace, hleast⟩ := h
  obtain ⟨depth', hplace', hleast'⟩ := h'
  exact congrArg Prod.snd ((hleast _ hplace').antisymm (hleast' _ hplace))

section order

variable {c : HloComputation} (order : UserOrder c)

/-- The consumer that the search meets first from an output. -/
def FirstConsumer (user consumer : HloInstruction) : Prop :=
  BreadthFirst.IsFirst (isCallOrRoot c) (fun i => order.users i.id) [user] consumer

/-- The depth at which an output is consumed first, with the index of the output. -/
def FirstAt (user : HloInstruction) (place : ℕ × ℕ) : Prop :=
  user.opcode = .getTupleElement place.2 ∧
    ∃ consumer, FirstConsumer order user consumer ∧ computeDepthMap c consumer.id = some place.1

/-- Of the consumers that are met first the least deep one, or the one of the lowest index
among equals, is one of the critical output. -/
def FirstDecides (call : ℕ) : Prop :=
  ∃ place, IsCritical c call place.2 ∧ (∃ user ∈ c.users call, FirstAt order user place) ∧
    ∀ user ∈ c.users call, ∀ other, FirstAt order user other → Before place other

/-- The value that the search returns once its fuel is enough. -/
def Returns (call index : ℕ) : Prop :=
  ∃ fuel, criticalRootTupleIndex order (computeDepthMap c) fuel call = ok index

variable {order}

theorem mem_users {i j : HloInstruction} : j ∈ order.users i.id ↔ j ∈ c.users i.id :=
  (order.perm i.id).mem_iff

theorem FirstConsumer.consumes {user consumer : HloInstruction}
    (h : FirstConsumer order user consumer) : Consumes c user consumer := by
  obtain ⟨s, hs, hreach⟩ := BreadthFirst.IsFirst.reachable h
  obtain rfl := List.mem_singleton.mp hs
  refine ⟨ReflTransGen.mono (fun x y hstep => ?_) _ _ hreach, BreadthFirst.IsFirst.hit h⟩
  exact ⟨hstep.1, mem_users.mp hstep.2⟩

theorem exists_firstConsumer {user consumer : HloInstruction} (h : Consumes c user consumer) :
    ∃ first, FirstConsumer order user first := by
  apply BreadthFirst.exists_isFirst (List.mem_singleton_self user) _ h.2
  apply ReflTransGen.mono _ _ _ h.1
  intro x y hstep
  exact ⟨hstep.1, mem_users.mpr hstep.2⟩

theorem FirstAt.unique {user : HloInstruction} {place place' : ℕ × ℕ}
    (h : FirstAt order user place) (h' : FirstAt order user place') : place = place' := by
  obtain ⟨hop, consumer, hfirst, hdepth⟩ := h
  obtain ⟨hop', consumer', hfirst', hdepth'⟩ := h'
  obtain rfl := BreadthFirst.IsFirst.unique hfirst hfirst'
  rw [hdepth] at hdepth'
  rw [hop] at hop'
  exact Prod.ext (Option.some.inj hdepth') (HloOpcode.getTupleElement.inj hop')

theorem firstCallDepth_eq_ok {fuel depth : ℕ} {user : HloInstruction}
    (h : firstCallDepth order (computeDepthMap c) fuel user = ok depth) :
    ∃ consumer, FirstConsumer order user consumer ∧
      computeDepthMap c consumer.id = some depth := by
  unfold firstCallDepth at h
  split at h
  · cases h
  · cases h
  · rename_i consumer hsearch
    exact ⟨consumer, BreadthFirst.search_iff_isFirst.mp ⟨fuel, hsearch⟩, deref_eq_ok.mp h⟩

/-- With fuel enough for it, and any more, the search ends at the first consumer. -/
theorem firstCallDepth_of_first {user consumer : HloInstruction} {depth : ℕ}
    (h : FirstConsumer order user consumer)
    (hdepth : computeDepthMap c consumer.id = some depth) :
    ∃ enough, ∀ fuel, enough ≤ fuel →
      firstCallDepth order (computeDepthMap c) fuel user = ok depth := by
  obtain ⟨enough, hsearch⟩ := BreadthFirst.search_iff_isFirst.mpr h
  refine ⟨enough, fun fuel hle => ?_⟩
  unfold firstCallDepth
  rw [BreadthFirst.search_mono hle hsearch]
  exact deref_eq_ok.mpr hdepth

/-- The best place of the outputs that the loop has seen. -/
structure BestOf (order : UserOrder c) (done : List HloInstruction) (best : ℕ∞ × ℕ) : Prop where
  placed : ∀ user ∈ done, ∃ place, FirstAt order user place
  start : done = [] → best = (⊤, 0)
  least : done ≠ [] → ∃ place, best = ((place.1 : ℕ∞), place.2) ∧
    (∃ user ∈ done, FirstAt order user place) ∧
    ∀ user ∈ done, ∀ other, FirstAt order user other → Before place other

theorem BestOf.snoc {done : List HloInstruction} {best : ℕ∞ × ℕ} {user : HloInstruction}
    {place least : ℕ × ℕ} (h : BestOf order done best) (hplace : FirstAt order user place)
    (hleast : ∃ user' ∈ done ++ [user], FirstAt order user' least) (hbefore : Before least place)
    (hdone : ∀ user ∈ done, ∀ other, FirstAt order user other → Before least other) :
    BestOf order (done ++ [user]) ((least.1 : ℕ∞), least.2) where
  placed := by
    intro user' huser'
    rcases List.mem_append.mp huser' with huser' | huser'
    · exact h.placed user' huser'
    · rw [List.mem_singleton.mp huser']
      exact ⟨place, hplace⟩
  start := by simp
  least := by
    intro _
    refine ⟨least, rfl, hleast, ?_⟩
    intro user' huser' other hother
    rcases List.mem_append.mp huser' with huser' | huser'
    · exact hdone user' huser' other hother
    · rw [List.mem_singleton.mp huser'] at hother
      rw [hother.unique hplace]
      exact hbefore

/-- An output is either passed over or becomes the best one. -/
theorem visitUser_eq_ok {fuel : ℕ} {best best' : ℕ∞ × ℕ} {user : HloInstruction}
    (h : visitUser order (computeDepthMap c) fuel best user = ok best') :
    ∃ place, FirstAt order user place ∧ best' =
      if (place.1 : ℕ∞) ≤ best.1 ∧ ¬((place.1 : ℕ∞) = best.1 ∧ best.2 < place.2) then
        ((place.1 : ℕ∞), place.2) else best := by
  unfold visitUser at h
  split at h
  case h_2 => cases h
  case h_1 tupleIndex hop =>
    obtain ⟨root, -, h⟩ := bind_eq_ok.mp h
    split at h
    · cases h
    obtain ⟨depth, hdepth, h⟩ := bind_eq_ok.mp h
    obtain ⟨consumer, hfirst, hdepth⟩ := firstCallDepth_eq_ok hdepth
    refine ⟨(depth, tupleIndex), ⟨hop, consumer, hfirst, hdepth⟩, ?_⟩
    split at h
    · rename_i hle
      split at h
      · rename_i htie
        rw [if_neg fun hboth => hboth.2 htie]
        exact (ok.inj h).symm
      · rename_i htie
        rw [if_pos ⟨hle, htie⟩]
        exact (ok.inj h).symm
    · rename_i hle
      rw [if_neg fun hboth => hle hboth.1]
      exact (ok.inj h).symm

theorem visitUser_bestOf {fuel : ℕ} {done : List HloInstruction} {best best' : ℕ∞ × ℕ}
    {user : HloInstruction} (hbest : BestOf order done best)
    (h : visitUser order (computeDepthMap c) fuel best user = ok best') :
    BestOf order (done ++ [user]) best' := by
  obtain ⟨place, hplace, rfl⟩ := visitUser_eq_ok h
  by_cases hdone : done = []
  · rw [hbest.start hdone, if_pos (by simp)]
    apply hbest.snoc hplace ⟨user, by simp, hplace⟩ (Or.inr ⟨rfl, le_rfl⟩)
    simp [hdone]
  · obtain ⟨least, rfl, ⟨user', huser', hleast⟩, hothers⟩ := hbest.least hdone
    split
    · rename_i hnew
      have hbefore : Before place least := by
        simp only [Nat.cast_le, Nat.cast_inj] at hnew
        unfold Before
        omega
      apply hbest.snoc hplace ⟨user, by simp, hplace⟩ (Or.inr ⟨rfl, le_rfl⟩)
      intro user'' huser'' other hother
      exact hbefore.trans (hothers user'' huser'' other hother)
    · rename_i hold
      have hbefore : Before least place := by
        simp only [Nat.cast_le, Nat.cast_inj] at hold
        unfold Before
        omega
      exact hbest.snoc hplace ⟨user', List.mem_append_left _ huser', hleast⟩ hbefore hothers

/-- The loop over all users ends with the best first place. -/
theorem bestOf_users {call fuel : ℕ} {best : ℕ∞ × ℕ}
    (h : (order.users call).foldlM (visitUser order (computeDepthMap c) fuel) (⊤, 0) = ok best) :
    BestOf order (order.users call) best := by
  apply foldlM_prefix (BestOf order) h
  · exact ⟨by simp, fun _ => rfl, fun hne => absurd rfl hne⟩
  · intro done user _ best best' hdone hstep
    exact visitUser_bestOf hdone hstep

end order

/-- The users of the call are its outputs, each an output of the computation's tuple by
number, and each leads to a call or to the root. -/
structure Selectable (c : HloComputation) (call : ℕ) : Prop where
  outputs : ∀ user ∈ c.users call, ∃ index root, user.opcode = .getTupleElement index ∧
    c.instruction c.root = some root ∧ index < root.operands.length
  consumed : ∀ user ∈ c.users call, ∃ consumer, Consumes c user consumer

section selects

variable {c : HloComputation} {call : ℕ}

theorem isSome_foldl_update {value : (ℕ → Option ℕ) → HloInstruction → ℕ} {i : HloInstruction}
    {instructions : List HloInstruction} {depth : ℕ → Option ℕ}
    (h : (depth i.id).isSome ∨ i ∈ instructions) :
    (instructions.foldl (fun depth (j : HloInstruction) =>
      Function.update depth j.id (some (value depth j))) depth i.id).isSome := by
  induction instructions generalizing depth with
  | nil => simpa using h
  | cons j instructions ih =>
    rw [List.foldl_cons]
    apply ih
    by_cases hid : i.id = j.id
    · left
      rw [hid, Function.update_self]
      rfl
    · rw [Function.update_of_ne hid]
      rcases h with h | h
      · exact Or.inl h
      · exact Or.inr ((List.mem_cons.mp h).resolve_left fun heq => hid (heq ▸ rfl))

theorem computeDepthMap_isSome {i : HloInstruction} (h : i ∈ c.instructions) :
    (computeDepthMap c i.id).isSome := isSome_foldl_update (Or.inr h)

theorem Consumes.mem {user consumer : HloInstruction} (huser : user ∈ c.users call)
    (h : Consumes c user consumer) : consumer ∈ c.instructions := by
  rcases ReflTransGen.cases_tail h.1 with rfl | ⟨_, _, _, hmem⟩
  · exact List.mem_of_mem_filter huser
  · exact List.mem_of_mem_filter hmem

theorem Selectable.firstAt (h : Selectable c call) (order : UserOrder c) {user : HloInstruction}
    (huser : user ∈ c.users call) : ∃ place, FirstAt order user place := by
  obtain ⟨index, root, hop, hroot, hindex⟩ := h.outputs user huser
  obtain ⟨consumer, hconsumes⟩ := h.consumed user huser
  obtain ⟨first, hfirst⟩ : ∃ first, FirstConsumer order user first :=
    exists_firstConsumer hconsumes
  obtain ⟨depth, hdepth⟩ :=
    Option.isSome_iff_exists.mp (computeDepthMap_isSome (hfirst.consumes.mem huser))
  exact ⟨(depth, index), hop, first, hfirst, hdepth⟩

/-- With fuel enough the loop comes to its end. -/
theorem Selectable.returns (h : Selectable c call) (order : UserOrder c) :
    ∃ index, Returns order call index := by
  have htotal : ∀ users : List HloInstruction, (∀ user ∈ users, user ∈ c.users call) →
      ∃ enough, ∀ fuel, enough ≤ fuel → ∀ best, ∃ best',
        users.foldlM (visitUser order (computeDepthMap c) fuel) best = ok best' := by
    intro users
    induction users with
    | nil => exact fun _ => ⟨0, fun fuel _ best => ⟨best, rfl⟩⟩
    | cons user users ih =>
      intro hmem
      obtain ⟨enough, hrest⟩ := ih fun user' huser' => hmem user' (List.mem_cons_of_mem _ huser')
      have huser := hmem user List.mem_cons_self
      obtain ⟨index, root, hop, hroot, hindex⟩ := h.outputs user huser
      obtain ⟨place, hop', consumer, hfirst, hdepth⟩ := h.firstAt order huser
      obtain ⟨enough', hfirst⟩ := firstCallDepth_of_first hfirst hdepth
      refine ⟨max enough enough', fun fuel hle best => ?_⟩
      have hvisit : ∃ best', visitUser order (computeDepthMap c) fuel best user = ok best' := by
        have hroot : c.rootInstruction = ok root := deref_eq_ok.mpr hroot
        unfold visitUser
        rw [hop]
        dsimp only
        rw [hroot, ok_bind, if_neg (by omega), hfirst fuel (le_of_max_le_right hle), ok_bind]
        split
        · split <;> exact ⟨_, rfl⟩
        · exact ⟨_, rfl⟩
      obtain ⟨best', hvisit⟩ := hvisit
      rw [List.foldlM_cons, hvisit, ok_bind]
      exact hrest fuel (le_of_max_le_left hle) best'
  obtain ⟨enough, hfold⟩ := htotal (order.users call) fun user huser =>
    (order.perm call).mem_iff.mp huser
  obtain ⟨best, hbest⟩ := hfold enough le_rfl (⊤, 0)
  refine ⟨best.2, enough, ?_⟩
  unfold criticalRootTupleIndex
  rw [hbest]
  rfl

/-- What is returned is the place that comes before the other first ones. -/
theorem Returns.least {order : UserOrder c} {index : ℕ} (h : Returns order call index)
    (hused : c.users call ≠ []) : ∃ depth,
      (∃ user ∈ c.users call, FirstAt order user (depth, index)) ∧
        ∀ user ∈ c.users call, ∀ other, FirstAt order user other →
          Before (depth, index) other := by
  have hne : order.users call ≠ [] := fun heq => hused (by simpa [heq] using order.perm call)
  have hmem : ∀ user, user ∈ order.users call ↔ user ∈ c.users call := fun user =>
    (order.perm call).mem_iff
  obtain ⟨fuel, hrun⟩ := h
  obtain ⟨best, hfold, hindex⟩ := bind_eq_ok.mp hrun
  obtain ⟨place, rfl, ⟨user, huser, hplace⟩, hothers⟩ := (bestOf_users hfold).least hne
  obtain rfl := ok.inj hindex
  exact ⟨place.1, ⟨user, (hmem user).mp huser, hplace⟩, fun user' huser' =>
    hothers user' ((hmem user').mpr huser')⟩

theorem Returns.unique {order : UserOrder c} {index index' : ℕ} (h : Returns order call index)
    (h' : Returns order call index') (hused : c.users call ≠ []) : index = index' := by
  obtain ⟨depth, ⟨user, huser, hplace⟩, hothers⟩ := h.least hused
  obtain ⟨depth', ⟨user', huser', hplace'⟩, hothers'⟩ := h'.least hused
  exact congrArg Prod.snd ((hothers user' huser' _ hplace').antisymm (hothers' user huser _ hplace))

/-- In one order of the users, the critical output is returned as soon as the consumers that
are met first decide for it. -/
theorem returns_critical_iff (h : Selectable c call) (hused : c.users call ≠ [])
    (order : UserOrder c) :
    (∃ index, IsCritical c call index ∧ Returns order call index) ↔
      FirstDecides order call := by
  constructor
  · rintro ⟨index, hcritical, hreturns⟩
    obtain ⟨depth, hplace, hothers⟩ := hreturns.least hused
    exact ⟨(depth, index), hcritical, hplace, hothers⟩
  · rintro ⟨place, hcritical, ⟨user, huser, hplace⟩, hothers⟩
    obtain ⟨index, hreturns⟩ := h.returns order
    obtain ⟨depth, ⟨user', huser', hplace'⟩, hothers'⟩ := hreturns.least hused
    have hsame := (hothers user' huser' _ hplace').antisymm (hothers' user huser _ hplace)
    rw [hsame] at hcritical
    exact ⟨index, hcritical, hreturns⟩

end selects

namespace DistantConsumer

def output0 : HloInstruction := { id := 2, opcode := .getTupleElement 0, operands := [1] }

def output1 : HloInstruction := { id := 3, opcode := .getTupleElement 1, operands := [1] }

def reshape : HloInstruction := { id := 4, opcode := .other "reshape", operands := [2] }

def shallowCall : HloInstruction := { id := 5, opcode := .call 0, operands := [4] }

def middleCall : HloInstruction := { id := 7, opcode := .call 0, operands := [3, 6] }

def deepCall : HloInstruction := { id := 9, opcode := .call 0, operands := [2, 8] }

/-- The first output feeds a call of small depth through a reshape, and one of great depth at
once. -/
def computation : HloComputation where
  instructions := [
    { id := 0, opcode := .parameter 0 },
    { id := 1, opcode := .call 0, operands := [0] },
    output0, output1, reshape, shallowCall,
    { id := 6, opcode := .getTupleElement 0, operands := [5] },
    middleCall,
    { id := 8, opcode := .getTupleElement 0, operands := [7] },
    deepCall,
    { id := 10, opcode := .getTupleElement 0, operands := [9] },
    { id := 11, opcode := .tuple, operands := [10, 8] }]
  root := 11

theorem consumes_shallowCall : Consumes computation output0 shallowCall :=
  ⟨.tail (.single (b := reshape) (by decide)) (by decide), by decide⟩

theorem consumes_middleCall : Consumes computation output1 middleCall :=
  ⟨.single (by decide), by decide⟩

theorem mem_users_call {user : HloInstruction} (h : user ∈ computation.users 1) :
    user = output0 ∨ user = output1 := by
  have hmem : user ∈ [output0, output1] := h
  simpa using hmem

theorem not_critical : ¬IsCritical computation 1 1 := by
  rintro ⟨depth, ⟨user, huser, hop, consumer, ⟨hpath, hend⟩, hdepth⟩, hleast⟩
  have hbefore := hleast (4, 0) ⟨output0, by decide, rfl, shallowCall, consumes_shallowCall,
    by decide⟩
  rcases mem_users_call huser with rfl | rfl
  · cases hop
  -- the second output is only used by the call in the middle
  obtain rfl : consumer = middleCall := by
    rcases ReflTransGen.cases_head hpath with rfl | ⟨x, ⟨-, hx⟩, hrest⟩
    · cases hend
    · obtain rfl : x = middleCall := by
        have hmem : x ∈ [middleCall] := hx
        simpa using hmem
      rcases ReflTransGen.cases_head hrest with rfl | ⟨y, ⟨hgo, -⟩, -⟩
      · rfl
      · cases hgo
  obtain rfl : 6 = depth := Option.some.inj ((by decide : some 6 = _).trans hdepth)
  unfold Before at hbefore
  omega

end DistantConsumer

end CriticalPath
end MultiMeshJax
