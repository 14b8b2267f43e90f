import MultiMeshJax.Sharding.ZukuShape

/-! The propagation of one instruction's sharding to another, which is to replace a sharding only
by one with more tiles. -/
namespace MultiMeshJax

namespace HloSharding

def replicateOnLastTileDim : HloSharding → Bool
  | tiled _ replicateOnLast => replicateOnLast
  | _ => false

/-- The dimensions of the tile assignment, a maximal sharding having one tile. -/
def tileDimensions : HloSharding → List ℕ
  | tiled assignment _ => assignment.dimensions
  | _ => [1]

/-- The number of devices over the size of the trailing replicated dimension. -/
def dataTiles (sharding : HloSharding) : ℕ :=
  if sharding.replicateOnLastTileDim then
    sharding.tileDimensions.prod / sharding.tileDimensions.getLastD 1
  else sharding.tileDimensions.prod

end HloSharding

namespace ShardingPropagation

open StatusOr

/-- `PropagateSharding` from one instruction to another, which are given by id. The second
overload also has a number of devices. -/
structure Propagation where
  source : ℕ
  target : ℕ
  propagateReplicated : Bool
  numDevices : Option ℕ := none

structure Input where
  hasAssignedAxes : ℕ → Bool
  parameterAlias : ℕ → Bool
  resizeSharding : ℕ → HloSharding → ℕ → Option HloSharding

/-- The shardings of the instructions that have one. -/
abbrev Shardings := ℕ → Option HloSharding

section propagate

variable (input : Input)

def shardingCanBeReassigned (st : Shardings) (id : ℕ) : Bool :=
  (st id).isNone || !input.hasAssignedAxes id

def lastTileDimension (sharding : HloSharding) : StatusOr ℕ :=
  deref "back of an empty span" sharding.tileDimensions.getLast?

def sourceHasImprovedSharding (source : HloSharding) (target : Option HloSharding)
    (replicatedIsBetterThanNothing : Bool) : StatusOr Bool :=
  if source.isReplicated then return target.isNone && replicatedIsBetterThanNothing
  else
    match target with
    | none => return true
    | some target =>
      if target.isReplicated then return true
      else if target.replicateOnLastTileDim then
        if source.replicateOnLastTileDim then do
          let targetLast ← lastTileDimension target
          let sourceLast ← lastTileDimension source
          return decide (targetLast < sourceLast)
        else return true
      else return false

def shareSharding (p : Propagation) (st : Shardings) : StatusOr Shardings :=
  match st p.source with
  | none => return st
  | some source =>
    if shardingCanBeReassigned input st p.target then do
      let improved ← sourceHasImprovedSharding source (st p.target) p.propagateReplicated
      return if improved || input.parameterAlias p.target then
        Function.update st p.target (some source) else st
    else return st

/-- A sharding over another number of devices is resized, or else replicated. -/
def resizeToDevices (target numDevices : ℕ) (st : Shardings) : Shardings :=
  match st target with
  | none => st
  | some sharding =>
    if sharding.isReplicated || decide (sharding.tileDimensions.prod = numDevices) then st
    else Function.update st target
      (some ((input.resizeSharding target sharding numDevices).getD .replicated))

def propagateSharding (p : Propagation) (st : Shardings) : StatusOr Shardings := do
  let st' ← shareSharding input p st
  match p.numDevices with
  | none => return st'
  | some numDevices => return resizeToDevices input p.target numDevices st'

def Step (st : Shardings) (p : Propagation) (st' : Shardings) : Prop :=
  propagateSharding input p st = ok st'

end propagate

/-- A sharding over so many devices: it is replicated, or has a tile for each device. -/
def OverDevices (numDevices : ℕ) : HloSharding → Prop
  | .replicated => True
  | .maximal _ => False
  | .tiled assignment replicateOnLast => assignment.dimensions.prod = numDevices ∧
      (replicateOnLast = true → assignment.dimensions ≠ [])

/-- No parameter is involved, and the devices are the same. -/
def SameDevices (input : Input) (numDevices : ℕ) (p : Propagation) : Prop :=
  input.parameterAlias p.source = false ∧ input.parameterAlias p.target = false ∧
    (p.numDevices = none ∨ p.numDevices = some numDevices)

/-- The target may be reassigned, both are partially replicated, and the source more so. -/
def Coarsens (input : Input) (st : Shardings) (p : Propagation) : Prop :=
  ∃ source target, st p.source = some source ∧ st p.target = some target ∧
    input.hasAssignedAxes p.target = false ∧
    source.replicateOnLastTileDim = true ∧ target.replicateOnLastTileDim = true ∧
    target.tileDimensions.getLastD 1 < source.tileDimensions.getLastD 1

/-- Every instruction with a sharding keeps one, with as many tiles at least. -/
def NoFewerTiles (st st' : Shardings) : Prop :=
  ∀ id s, st id = some s → ∃ s', st' id = some s' ∧ s.dataTiles ≤ s'.dataTiles

/-- How often a run overwrites the sharding of an instruction, over the states that it comes to. -/
def overwrites (id : ℕ) : List Shardings → ℕ
  | st :: st' :: states => (if st id = st' id then 0 else 1) + overwrites id (st' :: states)
  | _ => 0

/-- The states of a run over the propagations. -/
inductive States (input : Input) : Shardings → List Propagation → List Shardings → Prop
  | nil (st : Shardings) : States input st [] [st]
  | cons {st st' : Shardings} {p : Propagation} {ps : List Propagation} {states : List Shardings}
      (hstep : Step input st p st') (hrest : States input st' ps states) :
      States input st (p :: ps) (st :: states)

/-- No step of the run coarsens the sharding of its target. -/
def NeverCoarsens (input : Input) (ps : List Propagation) (states : List Shardings) : Prop :=
  ∀ (k : ℕ) (p : Propagation) (st : Shardings), ps[k]? = some p → states[k]? = some st →
    ¬Coarsens input st p

section step

variable {input : Input} {numDevices : ℕ} {st st' : Shardings} {p : Propagation}

theorem OverDevices.prod {s : HloSharding} (h : OverDevices numDevices s)
    (hs : s.isReplicated = false) : s.tileDimensions.prod = numDevices := by
  cases s with
  | replicated => cases hs
  | maximal device => exact h.elim
  | tiled assignment last => exact h.1

theorem OverDevices.getLast? {s : HloSharding} (h : OverDevices numDevices s)
    (hs : s.replicateOnLastTileDim = true) :
    s.tileDimensions.getLast? = some (s.tileDimensions.getLastD 1) := by
  cases s with
  | replicated => cases hs
  | maximal device => cases hs
  | tiled assignment last =>
    rw [List.getLastD_eq_getLast?, HloSharding.tileDimensions, List.getLast?_eq_some_getLast (h.2 hs)]
    rfl

theorem isReplicated_eq_false {s : HloSharding} (hs : s.replicateOnLastTileDim = true) :
    s.isReplicated = false := by
  cases s with
  | replicated => cases hs
  | maximal device => rfl
  | tiled assignment last => rfl

/-- The trailing dimension divides the number of devices. -/
theorem OverDevices.last_dvd {s : HloSharding} (h : OverDevices numDevices s)
    (hs : s.replicateOnLastTileDim = true) : s.tileDimensions.getLastD 1 ∣ numDevices := by
  rw [← h.prod (isReplicated_eq_false hs)]
  exact List.dvd_prod (List.mem_of_getLast? (h.getLast? hs))

/-- The order in which shardings are preferred, but for the partially replicated ones. -/
def rank (numDevices : ℕ) : Option HloSharding → ℕ
  | none => 0
  | some s =>
    if s.isReplicated then 1
    else if s.replicateOnLastTileDim then 1 + s.tileDimensions.getLastD 1
    else numDevices + 2

theorem rank_le {s : Option HloSharding} (hpos : 0 < numDevices)
    (h : ∀ x, s = some x → OverDevices numDevices x) : rank numDevices s ≤ numDevices + 2 := by
  cases s with
  | none => exact Nat.zero_le _
  | some s =>
    unfold rank
    dsimp only
    split
    · omega
    · split
      · rename_i hlast
        have hle := Nat.le_of_dvd hpos ((h s rfl).last_dvd hlast)
        omega
      · omega

/-- The cases in which the source has a better sharding. -/
inductive Improved (source : HloSharding) : Option HloSharding → Prop
  | none : Improved source none
  | replicated {target : HloSharding} (hsource : source.isReplicated = false)
      (htarget : target.isReplicated = true) : Improved source (some target)
  | full {target : HloSharding} (hsource : source.isReplicated = false)
      (hfull : source.replicateOnLastTileDim = false)
      (htarget : target.replicateOnLastTileDim = true) : Improved source (some target)
  | partially {target : HloSharding} (hsource : source.replicateOnLastTileDim = true)
      (htarget : target.replicateOnLastTileDim = true)
      (hlast : target.tileDimensions.getLastD 1 < source.tileDimensions.getLastD 1) :
      Improved source (some target)

theorem exists_sourceHasImprovedSharding {source : HloSharding} {target : Option HloSharding}
    (replicated : Bool) (hsource : OverDevices numDevices source)
    (htarget : ∀ x, target = some x → OverDevices numDevices x) :
    ∃ improved, sourceHasImprovedSharding source target replicated = ok improved ∧
      (improved = true → Improved source target) ∧
      (∀ x, target = some x → source.replicateOnLastTileDim = true →
        x.replicateOnLastTileDim = true →
        x.tileDimensions.getLastD 1 < source.tileDimensions.getLastD 1 → improved = true) := by
  unfold sourceHasImprovedSharding
  by_cases hreplicated : source.isReplicated = true
  · rw [if_pos hreplicated]
    refine ⟨_, rfl, ?_, ?_⟩
    · intro h
      cases target with
      | none => exact .none
      | some x => simp at h
    · intro x _ hlast
      rw [isReplicated_eq_false hlast] at hreplicated
      cases hreplicated
  · rw [if_neg hreplicated]
    rw [Bool.not_eq_true] at hreplicated
    cases target with
    | none => exact ⟨true, rfl, fun _ => .none, fun x hx => by cases hx⟩
    | some x =>
      dsimp only
      by_cases hx : x.isReplicated = true
      · rw [if_pos hx]
        exact ⟨true, rfl, fun _ => .replicated hreplicated hx, fun _ _ _ _ _ => rfl⟩
      · rw [if_neg hx]
        by_cases hxlast : x.replicateOnLastTileDim = true
        · rw [if_pos hxlast]
          by_cases hlast : source.replicateOnLastTileDim = true
          · rw [if_pos hlast, lastTileDimension, lastTileDimension,
              (htarget x rfl).getLast? hxlast, hsource.getLast? hlast]
            refine ⟨_, rfl, ?_, ?_⟩
            · intro h
              exact .partially hlast hxlast (of_decide_eq_true h)
            · rintro y hy - - h
              obtain rfl := Option.some.inj hy
              exact decide_eq_true h
          · rw [if_neg hlast]
            refine ⟨true, rfl, fun _ => .full hreplicated (by simpa using hlast) hxlast, ?_⟩
            exact fun _ _ h => absurd h hlast
        · rw [if_neg hxlast]
          refine ⟨false, rfl, Bool.noConfusion, ?_⟩
          intro y hy _ h
          obtain rfl := Option.some.inj hy
          exact absurd h hxlast

/-- What a propagation over the same devices does. -/
theorem exists_step (hst : ∀ id s, st id = some s → OverDevices numDevices s)
    (hp : SameDevices input numDevices p) :
    ∃ st', Step input st p st' ∧
      (st' = st ∧ ¬Coarsens input st p ∨
        ∃ source, st p.source = some source ∧ Improved source (st p.target) ∧
          (st p.target = none ∨ input.hasAssignedAxes p.target = false) ∧
          st' = Function.update st p.target (some source)) := by
  have hresize : ∀ st₁ : Shardings, (∀ id s, st₁ id = some s → OverDevices numDevices s) →
      (match p.numDevices with
        | none => (return st₁ : StatusOr Shardings)
        | some n => return resizeToDevices input p.target n st₁) = ok st₁ := by
    intro st₁ hst₁
    rcases hp.2.2 with hnone | hsome
    · rw [hnone]
      rfl
    · rw [hsome]
      dsimp only
      unfold resizeToDevices
      cases htarget : st₁ p.target with
      | none => rfl
      | some s =>
        dsimp only
        by_cases hs : s.isReplicated = true
        · simp [hs]
        · rw [if_pos (by simp [(hst₁ _ _ htarget).prod (by simpa using hs)])]
          rfl
  unfold Step propagateSharding shareSharding
  cases hsource : st p.source with
  | none =>
    refine ⟨st, hresize st hst, .inl ⟨rfl, ?_⟩⟩
    rintro ⟨s, -, hs, -⟩
    rw [hsource] at hs
    cases hs
  | some source =>
    dsimp only
    by_cases hassign : shardingCanBeReassigned input st p.target = true
    · rw [if_pos hassign]
      obtain ⟨improved, heq, himproved, hcoarsens⟩ := exists_sourceHasImprovedSharding
        p.propagateReplicated (hst _ _ hsource) (fun x hx => hst p.target x hx)
      rw [heq, ok_bind, hp.2.1, Bool.or_false, pure_eq, ok_bind]
      have hfree : st p.target = none ∨ input.hasAssignedAxes p.target = false := by
        simpa [shardingCanBeReassigned] using hassign
      cases improved with
      | true =>
        have hnew : ∀ id s, Function.update st p.target (some source) id = some s →
            OverDevices numDevices s := by
          intro id s hs
          by_cases hid : id = p.target
          · rw [hid, Function.update_self] at hs
            exact Option.some.inj hs ▸ hst _ _ hsource
          · rw [Function.update_of_ne hid] at hs
            exact hst id s hs
        exact ⟨_, hresize _ hnew, .inr ⟨source, rfl, himproved rfl, hfree, rfl⟩⟩
      | false =>
        refine ⟨st, hresize st hst, .inl ⟨rfl, ?_⟩⟩
        rintro ⟨s, t, hs, ht, -, hslast, htlast, hlt⟩
        rw [hsource] at hs
        obtain rfl := Option.some.inj hs
        cases hcoarsens t ht hslast htlast hlt
    · rw [if_neg hassign]
      refine ⟨st, hresize st hst, .inl ⟨rfl, ?_⟩⟩
      rintro ⟨s, t, -, ht, haxes, -⟩
      simp [shardingCanBeReassigned, haxes] at hassign

theorem Improved.rank_lt {source : HloSharding} {target : Option HloSharding}
    (h : Improved source target) (hpos : 0 < numDevices) (hsource : OverDevices numDevices source)
    (htarget : ∀ x, target = some x → OverDevices numDevices x) :
    rank numDevices target < rank numDevices (some source) := by
  have hlast : ∀ x : HloSharding, OverDevices numDevices x → x.replicateOnLastTileDim = true →
      0 < x.tileDimensions.getLastD 1 ∧ x.tileDimensions.getLastD 1 ≤ numDevices := by
    intro x hx hxlast
    have hdvd := hx.last_dvd hxlast
    exact ⟨Nat.pos_of_dvd_of_pos hdvd hpos, Nat.le_of_dvd hpos hdvd⟩
  cases h with
  | none =>
    unfold rank
    dsimp only
    split
    · omega
    · split <;> omega
  | @replicated t hsource' ht =>
    simp only [rank, ht, hsource', if_true, Bool.false_eq_true, if_false]
    split
    · rename_i hs
      have := hlast source hsource hs
      omega
    · omega
  | @full t hsource' hfull ht =>
    have := hlast t (htarget t rfl) ht
    simp only [rank, ht, isReplicated_eq_false ht, hsource', hfull, if_true, Bool.false_eq_true,
      if_false]
    omega
  | @partially t hsource' ht hlt =>
    simp only [rank, ht, hsource', isReplicated_eq_false ht, isReplicated_eq_false hsource',
      if_true, Bool.false_eq_true, if_false]
    omega

/-- Of two partially replicated shardings the one with the smaller trailing dimension has more
tiles. -/
theorem Improved.dataTiles_le_iff {source target : HloSharding}
    (h : Improved source (some target)) (hpos : 0 < numDevices)
    (hsource : OverDevices numDevices source) (htarget : OverDevices numDevices target) :
    target.dataTiles ≤ source.dataTiles ↔ ¬(source.replicateOnLastTileDim = true ∧
      target.replicateOnLastTileDim = true) := by
  cases h with
  | replicated hsource' ht =>
    have hlast : target.replicateOnLastTileDim = false := by
      cases target with
      | replicated => rfl
      | maximal device => rfl
      | tiled assignment last => cases ht
    have hone : target.dataTiles = 1 := by
      cases target with
      | replicated => rfl
      | maximal device => cases ht
      | tiled assignment last => cases ht
    rw [hone]
    apply iff_of_true
    · unfold HloSharding.dataTiles
      rw [hsource.prod hsource']
      split
      · rename_i hs
        have hdvd := hsource.last_dvd hs
        exact Nat.div_pos (Nat.le_of_dvd hpos hdvd) (Nat.pos_of_dvd_of_pos hdvd hpos)
      · exact hpos
    · simp [hlast]
  | full hsource' hfull ht =>
    apply iff_of_true
    · unfold HloSharding.dataTiles
      rw [hsource.prod hsource', htarget.prod (isReplicated_eq_false ht), if_pos ht,
        if_neg (by simp [hfull])]
      exact Nat.div_le_self _ _
    · simp [hfull]
  | partially hsource' ht hlt =>
    apply iff_of_false
    · unfold HloSharding.dataTiles
      rw [hsource.prod (isReplicated_eq_false hsource'), htarget.prod (isReplicated_eq_false ht),
        if_pos ht, if_pos hsource', not_le]
      obtain ⟨m, hm⟩ := hsource.last_dvd hsource'
      obtain ⟨n, hn⟩ := htarget.last_dvd ht
      have hspos := Nat.pos_of_dvd_of_pos ⟨m, hm⟩ hpos
      have htpos := Nat.pos_of_dvd_of_pos ⟨n, hn⟩ hpos
      rw [Nat.div_eq_of_eq_mul_right hspos hm, Nat.div_eq_of_eq_mul_right htpos hn]
      by_contra hle
      have hmul : target.tileDimensions.getLastD 1 * n <
          source.tileDimensions.getLastD 1 * m := by
        have hmpos : 0 < m := by
          rcases Nat.eq_zero_or_pos m with rfl | h
          · omega
          · exact h
        exact Nat.mul_lt_mul_of_lt_of_le hlt (not_lt.mp hle) hmpos
      omega
    · simp [hsource', ht]

/-- One propagation: the shardings stay over the devices, and it takes tiles from the target just
when it coarsens it. -/
theorem step_spec (hpos : 0 < numDevices)
    (hst : ∀ id s, st id = some s → OverDevices numDevices s)
    (hp : SameDevices input numDevices p) :
    ∃ st', Step input st p st' ∧ (∀ id s, st' id = some s → OverDevices numDevices s) ∧
      (∀ id, st' id = st id ∨ rank numDevices (st id) < rank numDevices (st' id)) ∧
      (NoFewerTiles st st' ↔ ¬Coarsens input st p) := by
  obtain ⟨st', hstep, hcases⟩ := exists_step hst hp
  refine ⟨st', hstep, ?_⟩
  rcases hcases with ⟨rfl, hkeep⟩ | ⟨source, hsource, himproved, hfree, rfl⟩
  · exact ⟨hst, fun _ => .inl rfl, iff_of_true (fun id s hs => ⟨s, hs, le_refl _⟩) hkeep⟩
  · have hsourceOver := hst _ _ hsource
    have htargetOver : ∀ x, st p.target = some x → OverDevices numDevices x :=
      fun x hx => hst _ x hx
    refine ⟨?_, ?_, ?_⟩
    · intro id s hs
      by_cases hid : id = p.target
      · rw [hid, Function.update_self] at hs
        exact Option.some.inj hs ▸ hsourceOver
      · rw [Function.update_of_ne hid] at hs
        exact hst id s hs
    · intro id
      by_cases hid : id = p.target
      · rw [hid, Function.update_self]
        exact .inr (himproved.rank_lt hpos hsourceOver htargetOver)
      · exact .inl (Function.update_of_ne hid _ _)
    · have htiles : NoFewerTiles st (Function.update st p.target (some source)) ↔
          ∀ x, st p.target = some x → x.dataTiles ≤ source.dataTiles := by
        constructor
        · intro h x hx
          obtain ⟨s', hs', hle⟩ := h p.target x hx
          rw [Function.update_self] at hs'
          exact Option.some.inj hs' ▸ hle
        · intro h id s hs
          by_cases hid : id = p.target
          · rw [hid] at hs ⊢
            exact ⟨source, Function.update_self .., h s hs⟩
          · exact ⟨s, by rwa [Function.update_of_ne hid], le_refl _⟩
      rw [htiles]
      constructor
      · rintro h ⟨s, x, hs, hx, -, hslast, hxlast, -⟩
        rw [hsource] at hs
        obtain rfl := Option.some.inj hs
        rw [hx] at himproved
        exact (himproved.dataTiles_le_iff hpos hsourceOver (htargetOver x hx)).mp (h x hx)
          ⟨hslast, hxlast⟩
      · intro h x hx
        rw [hx] at himproved
        apply (himproved.dataTiles_le_iff hpos hsourceOver (htargetOver x hx)).mpr
        rintro ⟨hslast, hxlast⟩
        apply h
        refine ⟨source, x, hsource, hx, ?_, hslast, hxlast, ?_⟩
        · exact hfree.resolve_left (by simp [hx])
        · cases himproved with
          | replicated _ ht =>
            rw [isReplicated_eq_false hxlast] at ht
            cases ht
          | full _ hfull _ =>
            rw [hslast] at hfull
            cases hfull
          | partially _ _ hlt => exact hlt

end step

section run

variable {input : Input} {numDevices : ℕ} {st : Shardings} {ps : List Propagation}
  {states : List Shardings}

theorem States.head (h : States input st ps states) : ∃ rest, states = st :: rest := by
  cases h with
  | nil => exact ⟨[], rfl⟩
  | cons hstep hrest => exact ⟨_, rfl⟩

theorem States.unique {states' : List Shardings} (h : States input st ps states)
    (h' : States input st ps states') : states = states' := by
  induction h generalizing states' with
  | nil =>
    cases h'
    rfl
  | cons hstep _ ih =>
    cases h' with
    | cons hstep' hrest' =>
      obtain rfl := ok.inj (hstep.symm.trans hstep')
      rw [ih hrest']

theorem NoFewerTiles.trans {st' st'' : Shardings} (h : NoFewerTiles st st')
    (h' : NoFewerTiles st' st'') : NoFewerTiles st st'' := by
  intro id s hs
  obtain ⟨s', hs', hle⟩ := h id s hs
  obtain ⟨s'', hs'', hle'⟩ := h' id s' hs'
  exact ⟨s'', hs'', hle.trans hle'⟩

instance : IsTrans Shardings NoFewerTiles := ⟨fun _ _ _ h h' => h.trans h'⟩

/-- An instruction is overwritten no more often than its sharding can get better. -/
theorem overwrites_le {id : ℕ} (hpos : 0 < numDevices)
    (hover : ∀ st ∈ states, ∀ s, st id = some s → OverDevices numDevices s)
    (hchain : states.IsChain fun st st' =>
      st' id = st id ∨ rank numDevices (st id) < rank numDevices (st' id)) :
    ∀ st, states.head? = some st →
      overwrites id states + rank numDevices (st id) ≤ numDevices + 2 := by
  induction states with
  | nil =>
    intro st hhead
    cases hhead
  | cons st₀ states ih =>
    intro st hhead
    obtain rfl := Option.some.inj hhead
    cases states with
    | nil =>
      have hle := rank_le hpos (hover st₀ (List.mem_cons_self ..))
      simpa [overwrites] using hle
    | cons st₁ states =>
      obtain ⟨hstep, hrest⟩ := List.isChain_cons_cons.mp hchain
      have hle := ih (fun st hst => hover st (List.mem_cons_of_mem _ hst)) hrest st₁ rfl
      rw [overwrites]
      split
      · rename_i heq
        rw [heq]
        omega
      · rename_i hne
        have hlt := hstep.resolve_left fun heq => hne heq.symm
        omega

/-- The states of a run over the same devices. -/
theorem exists_states (hpos : 0 < numDevices)
    (hst : ∀ id s, st id = some s → OverDevices numDevices s)
    (hps : ∀ p ∈ ps, SameDevices input numDevices p) :
    ∃ states, States input st ps states ∧
      (∀ st' ∈ states, ∀ id s, st' id = some s → OverDevices numDevices s) ∧
      (∀ id, states.IsChain fun st st' =>
        st' id = st id ∨ rank numDevices (st id) < rank numDevices (st' id)) ∧
      (states.IsChain NoFewerTiles ↔ NeverCoarsens input ps states) := by
  induction ps generalizing st with
  | nil =>
    refine ⟨[st], .nil st, ?_, fun _ => .singleton _, iff_of_true (.singleton _) ?_⟩
    · intro st' hst'
      obtain rfl := List.mem_singleton.mp hst'
      exact hst
    · intro k p st' hp
      simp at hp
  | cons p ps ih =>
    obtain ⟨st₁, hstep, hover, hrank, htiles⟩ := step_spec hpos hst (hps p (List.mem_cons_self ..))
    obtain ⟨states, hstates, hall, hranks, hchain⟩ :=
      ih hover fun q hq => hps q (List.mem_cons_of_mem _ hq)
    obtain ⟨rest, rfl⟩ := hstates.head
    refine ⟨st :: st₁ :: rest, .cons hstep hstates, ?_, ?_, ?_⟩
    · intro st' hst'
      rcases List.mem_cons.mp hst' with rfl | hst'
      · exact hst
      · exact hall st' hst'
    · exact fun id => .cons_cons (hrank id) (hranks id)
    · rw [List.isChain_cons_cons, htiles, hchain]
      constructor
      · rintro ⟨hfirst, hrest⟩ k q st' hq hst'
        cases k with
        | zero =>
          obtain rfl := Option.some.inj hq
          obtain rfl := Option.some.inj hst'
          exact hfirst
        | succ k => exact hrest k q st' hq hst'
      · intro h
        exact ⟨h 0 p st rfl rfl, fun k q st' hq hst' => h (k + 1) q st' hq hst'⟩

/-- Over one number of devices a run ends without a failure; no sharding is replaced by one with
fewer tiles, and the overwriting comes to an end, just when no step takes the more replicated one
of two partially replicated shardings. -/
theorem run_noFewerTiles_iff (hpos : 0 < numDevices)
    (hst : ∀ id s, st id = some s → OverDevices numDevices s)
    (hps : ∀ p ∈ ps, SameDevices input numDevices p) :
    ∃ states, States input st ps states ∧
      ((states.Pairwise NoFewerTiles ∧ ∀ id, overwrites id states ≤ numDevices + 2) ↔
        NeverCoarsens input ps states) := by
  obtain ⟨states, hstates, hover, hranks, hchain⟩ := exists_states hpos hst hps
  refine ⟨states, hstates, ?_⟩
  rw [← List.isChain_iff_pairwise, hchain]
  apply and_iff_left
  intro id
  obtain ⟨rest, rfl⟩ := hstates.head
  have hle := overwrites_le hpos (fun st' hst' s => hover st' hst' id s) (hranks id) st rfl
  omega

/-- Eight devices: the target has four tiles, the source two. -/
def twoPartial : Shardings := fun id =>
  if id = 0 then some (.tiled (.array [2, 4] (List.range 8)) true)
  else if id = 1 then some (.tiled (.array [4, 2] (List.range 8)) true)
  else none

def noParameters : Input where
  hasAssignedAxes _ := false
  parameterAlias _ := false
  resizeSharding _ _ _ := none

def firstToSecond : Propagation where
  source := 0
  target := 1
  propagateReplicated := true

theorem twoPartial_over : ∀ id s, twoPartial id = some s → OverDevices 8 s := by
  intro id s hs
  unfold twoPartial at hs
  split at hs
  · obtain rfl := Option.some.inj hs
    exact ⟨by decide, fun _ => by decide⟩
  · split at hs
    · obtain rfl := Option.some.inj hs
      exact ⟨by decide, fun _ => by decide⟩
    · cases hs

theorem sameDevices_firstToSecond : ∀ p ∈ [firstToSecond], SameDevices noParameters 8 p := by
  intro p hp
  obtain rfl := List.mem_singleton.mp hp
  exact ⟨rfl, rfl, .inl rfl⟩

theorem run_noFewerTiles_iff_twoPartial :
    ∃ states, States noParameters twoPartial [firstToSecond] states ∧
      ((states.Pairwise NoFewerTiles ∧ ∀ id, overwrites id states ≤ 8 + 2) ↔
        NeverCoarsens noParameters [firstToSecond] states) :=
  run_noFewerTiles_iff (by decide) twoPartial_over sameDevices_firstToSecond

/-- The target of four tiles gets the two tiles of the source. -/
theorem twoPartial_loses_tiles :
    ∃ st s s', Step noParameters twoPartial firstToSecond st ∧ twoPartial 1 = some s ∧
      st 1 = some s' ∧ OverDevices 8 s ∧ OverDevices 8 s' ∧ s.dataTiles = 4 ∧ s'.dataTiles = 2 := by
  refine ⟨Function.update twoPartial 1 (some (.tiled (.array [2, 4] (List.range 8)) true)), _, _,
    rfl, rfl, rfl, ?_, ?_, ?_, ?_⟩
  · exact twoPartial_over 1 _ rfl
  · exact twoPartial_over 0 _ rfl
  · decide
  · decide

end run

end ShardingPropagation
end MultiMeshJax
