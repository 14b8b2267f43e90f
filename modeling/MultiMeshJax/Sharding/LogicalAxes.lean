import MultiMeshJax.HloPartition
import MultiMeshJax.Sharding.LogicalToPhysical

/-! `LogicalShardingToOpSharding`: the dimensions of a tensor take device axes by the names of
their logical axes, in the order in which the task lists them. -/
namespace MultiMeshJax
namespace Sharding

open StatusOr MixedRadix

/-- A conversion to `int` keeps the low bits. -/
def toInt32 (x : ℤ) : ℤ := x.bmod (2 ^ 32)

theorem toInt32_le {x : ℤ} (h : 0 ≤ x) : toInt32 x ≤ x := by
  have hmod : x % 2 ^ 32 ≤ x := by omega
  have hlt : x % 2 ^ 32 < 2 ^ 32 := by omega
  rw [toInt32, Int.bmod_def]
  split <;> push_cast <;> omega

theorem toInt32_mul (x y : ℤ) : toInt32 (toInt32 x * y) = toInt32 (x * y) := by
  simp [toInt32]

/-- The device axes of a task, which have positive extents, and the logical axes that it maps
to them, the most important first. -/
structure LogicalContext where
  devices : List ℕ
  dims : List ℕ
  axes : List String
  logicalAxes : List (String × String)
  dims_pos : ∀ d ∈ dims, 0 < d

structure AxisState where
  logicalToDeviceAxes : List (List ℕ)
  deviceAxesUsed : List ℕ := []
  shardingOnAxis : List ℤ

section loop

variable (context : LogicalContext) (dimensions : List ℕ)

/-- The dimension takes the device axis, if it has the name and the axis is free and fits. -/
def assignAxis (pair : String × String) (st : AxisState) (axis : List String × ℕ) :
    StatusOr AxisState :=
  if axis.1.contains pair.1 then
    match context.axes.findIdx? fun ax => ax == pair.2 with
    | none => error ("unknown device axis '" ++ pair.2 ++ "' in autosharding")
    | some deviceAxisIndex => do
      let sharding ← elementAt st.shardingOnAxis axis.2
      let extent ← elementAt context.dims deviceAxisIndex
      let totalShardingOnAxis := toInt32 (sharding * extent)
      let size ← elementAt dimensions axis.2
      if totalShardingOnAxis ≤ size ∧ deviceAxisIndex ∉ st.deviceAxesUsed then
        return {
          logicalToDeviceAxes := st.logicalToDeviceAxes.modify axis.2 (· ++ [deviceAxisIndex])
          deviceAxesUsed := deviceAxisIndex :: st.deviceAxesUsed
          shardingOnAxis := st.shardingOnAxis.set axis.2 totalShardingOnAxis }
      else return st
  else return st

def assignAxes (logicalAxisNames : List (List String)) : StatusOr AxisState :=
  context.logicalAxes.foldlM (fun st pair =>
    logicalAxisNames.zipIdx.foldlM (assignAxis context dimensions pair) st)
    { logicalToDeviceAxes := List.replicate logicalAxisNames.length []
      shardingOnAxis := List.replicate logicalAxisNames.length 1 }

/-- Make sure the sharding evenly divides the dimensions. -/
def checkDivides (opSharding : OpSharding) : StatusOr Unit :=
  (List.range dimensions.length).foldlM (fun _ dim => do
    let size ← elementAt dimensions dim
    let tile ← elementAt opSharding.tileAssignmentDimensions dim
    if tile = 0 then fatal "division by zero"
    else if size % tile ≠ 0 then error " does not evenly divide shape "
    else return ()) ()

def logicalShardingToOpSharding (partition : HloPartition) (shardingDevices : DeviceList)
    (logicalAxisNames : List (List String)) : StatusOr OpSharding := do
  let st ← assignAxes context dimensions logicalAxisNames
  let listAllDevices := decide (context.devices.length < partition.totalDevices)
  let opSharding ← logicalToPhysicalSharding st.logicalToDeviceAxes shardingDevices context.dims
    listAllDevices
  if opSharding.tileAssignmentDevices ≠ [] ∧
      opSharding.tileAssignmentDevices.length ≠ context.dims.prod then
    error " devices in sharding, but dim product is "
  else if opSharding.type = .other then do
    checkDivides dimensions opSharding
    return opSharding
  else return opSharding

end loop

section greedy

/-- How far a dimension is tiled by the axes that it has. -/
def tiling (dims : List ℕ) (chosen : List (List ℕ)) (dim : ℕ) : ℕ :=
  (permute 1 (chosen.getD dim []) dims).prod

/-- A greedy choice: of the requests of a dimension for a device axis each is granted, or passed
over when the axis is taken or would tile the dimension further than its size. -/
inductive Greedy (sizes dims : List ℕ) :
    List (ℕ × ℕ) → List (List ℕ) → List (List ℕ) → Prop
  | done (chosen : List (List ℕ)) : Greedy sizes dims [] chosen chosen
  | take {dim axis : ℕ} {requests : List (ℕ × ℕ)} {chosen last : List (List ℕ)}
      (free : axis ∉ chosen.flatten) (listed : axis < dims.length)
      (rest : Greedy sizes dims requests (chosen.modify dim (· ++ [axis])) last) :
      Greedy sizes dims ((dim, axis) :: requests) chosen last
  | passOver {dim axis : ℕ} {requests : List (ℕ × ℕ)} {chosen last : List (List ℕ)}
      (reason : axis ∈ chosen.flatten ∨
        sizes.getD dim 0 < tiling dims chosen dim * dims.getD axis 1)
      (rest : Greedy sizes dims requests chosen last) :
      Greedy sizes dims ((dim, axis) :: requests) chosen last

/-- The requests in the order of the task's list: for each pair, the dimensions that have its
logical name ask for its device axis. -/
def requests (context : LogicalContext) (logicalAxisNames : List (List String)) :
    List (ℕ × ℕ) :=
  context.logicalAxes.flatMap fun pair =>
    (logicalAxisNames.zipIdx.filter fun axis => axis.1.contains pair.1).map fun axis =>
      (axis.2, context.axes.idxOf pair.2)

variable {sizes dims : List ℕ}

theorem Greedy.append {first second : List (ℕ × ℕ)} {chosen between last : List (List ℕ)}
    (h : Greedy sizes dims first chosen between) (h' : Greedy sizes dims second between last) :
    Greedy sizes dims (first ++ second) chosen last := by
  induction h with
  | done chosen => exact h'
  | take free listed _ ih => exact .take free listed (ih h')
  | passOver reason _ ih => exact .passOver reason (ih h')

theorem flatten_modify_perm {chosen : List (List ℕ)} {dim axis : ℕ} (h : dim < chosen.length) :
    (chosen.modify dim (· ++ [axis])).flatten.Perm (axis :: chosen.flatten) := by
  induction chosen generalizing dim with
  | nil => simp at h
  | cons axes chosen ih =>
    cases dim with
    | zero =>
      simp only [List.modify_zero_cons, List.flatten_cons, List.append_assoc]
      exact List.perm_middle
    | succ dim =>
      rw [List.modify_succ_cons, List.flatten_cons, List.flatten_cons]
      exact ((ih (by simpa using h)).append_left axes).trans List.perm_middle

theorem tiling_modify_self {chosen : List (List ℕ)} {dim axis : ℕ} (h : dim < chosen.length) :
    tiling dims (chosen.modify dim (· ++ [axis])) dim =
      tiling dims chosen dim * dims.getD axis 1 := by
  simp [tiling, permute, List.getD_eq_getElem?_getD, h]

theorem tiling_modify_of_ne {chosen : List (List ℕ)} {dim dim' axis : ℕ} (h : dim ≠ dim') :
    tiling dims (chosen.modify dim (· ++ [axis])) dim' = tiling dims chosen dim' := by
  simp [tiling, List.getD_eq_getElem?_getD, h]

/-- The state holds the choices, the axes that are taken, and the tilings as `int` values. -/
structure Assigned (dims : List ℕ) (n : ℕ) (st : AxisState) : Prop where
  length : st.logicalToDeviceAxes.length = n
  used : ∀ axis, axis ∈ st.deviceAxesUsed ↔ axis ∈ st.logicalToDeviceAxes.flatten
  nodup : st.logicalToDeviceAxes.flatten.Nodup
  listed : ∀ axis ∈ st.logicalToDeviceAxes.flatten, axis < dims.length
  tilings : ∀ dim < n, st.shardingOnAxis[dim]? =
    some (toInt32 (tiling dims st.logicalToDeviceAxes dim))

variable {context : LogicalContext} {n : ℕ} {st st' : AxisState}

theorem assignAxis_greedy {pair : String × String} {axis : List String × ℕ}
    (hst : Assigned context.dims n st) (hdim : axis.2 < n)
    (hrun : assignAxis context sizes pair st axis = ok st') :
    Assigned context.dims n st' ∧ Greedy sizes context.dims
      (if axis.1.contains pair.1 then [(axis.2, context.axes.idxOf pair.2)] else [])
      st.logicalToDeviceAxes st'.logicalToDeviceAxes := by
  unfold assignAxis at hrun
  split at hrun
  case isFalse hname =>
    obtain rfl := ok.inj hrun
    rw [if_neg hname]
    exact ⟨hst, .done _⟩
  case isTrue hname =>
    rw [if_pos hname]
    split at hrun
    · cases hrun
    rename_i deviceAxisIndex hfind
    obtain rfl : context.axes.idxOf pair.2 = deviceAxisIndex :=
      (List.findIdx?_eq_some_iff_findIdx_eq.mp hfind).2
    obtain ⟨sharding, hsharding, hrun⟩ := bind_eq_ok.mp hrun
    obtain ⟨extent, hextent, hrun⟩ := bind_eq_ok.mp hrun
    obtain ⟨size, hsize, hrun⟩ := bind_eq_ok.mp hrun
    have hextent := elementAt_eq_ok.mp hextent
    have hsize := elementAt_eq_ok.mp hsize
    have hsharding := (hst.tilings axis.2 hdim).symm.trans (elementAt_eq_ok.mp hsharding)
    rw [← Option.some.inj hsharding, toInt32_mul] at hrun
    have hlisted := (List.getElem?_eq_some_iff.mp hextent).1
    have hgetD : context.dims.getD (context.axes.idxOf pair.2) 1 = extent := by
      simp [List.getD_eq_getElem?_getD, hextent]
    split at hrun
    · rename_i htake
      obtain rfl := ok.inj hrun
      have hfree : context.axes.idxOf pair.2 ∉ st.logicalToDeviceAxes.flatten := fun h =>
        htake.2 ((hst.used _).mpr h)
      have hlt : axis.2 < st.logicalToDeviceAxes.length := hst.length ▸ hdim
      have hperm := @flatten_modify_perm _ _ (context.axes.idxOf pair.2) hlt
      refine ⟨⟨by simpa using hst.length, ?_, ?_, ?_, ?_⟩, .take hfree hlisted (.done _)⟩
      · intro device
        rw [hperm.mem_iff, List.mem_cons, List.mem_cons, hst.used]
      · exact hperm.nodup_iff.mpr (List.nodup_cons.mpr ⟨hfree, hst.nodup⟩)
      · intro device hdevice
        rcases List.mem_cons.mp (hperm.mem_iff.mp hdevice) with rfl | hdevice
        · exact hlisted
        · exact hst.listed device hdevice
      · intro dim hlt
        by_cases heq : axis.2 = dim
        · have hlen : axis.2 < st.shardingOnAxis.length := by
            have h := hst.tilings axis.2 hdim
            exact (List.getElem?_eq_some_iff.mp h).1
          subst heq
          rw [tiling_modify_self (hst.length ▸ hdim), hgetD, List.getElem?_set_self hlen]
          push_cast
          rfl
        · rw [tiling_modify_of_ne heq, List.getElem?_set_ne heq]
          exact hst.tilings dim hlt
    · rename_i hpass
      obtain rfl := ok.inj hrun
      refine ⟨hst, .passOver ?_ (.done _)⟩
      rw [not_and_or, not_not, hst.used] at hpass
      rcases hpass with hfar | hused
      · right
        have hle := toInt32_le (x := (tiling context.dims st.logicalToDeviceAxes axis.2 : ℤ) * extent)
          (by positivity)
        rw [hgetD]
        simp only [List.getD_eq_getElem?_getD, hsize, Option.getD_some]
        zify
        omega
      · exact Or.inl hused

/-- The loops over the pairs and the dimensions grant the requests greedily. -/
theorem assignAxes_greedy {names : List (List String)}
    (hrun : assignAxes context sizes names = ok st) :
    Assigned context.dims names.length st ∧ Greedy sizes context.dims (requests context names)
      (List.replicate names.length []) st.logicalToDeviceAxes := by
  have hstart : Assigned context.dims names.length
      { logicalToDeviceAxes := List.replicate names.length []
        shardingOnAxis := List.replicate names.length 1 } := by
    refine ⟨by simp, by simp, by simp, by simp, fun dim hdim => ?_⟩
    simp [tiling, permute, List.getD_eq_getElem?_getD, hdim, toInt32]
  apply foldlM_prefix (fun pairs st => Assigned context.dims names.length st ∧
    Greedy sizes context.dims (requests { context with logicalAxes := pairs } names)
      (List.replicate names.length []) st.logicalToDeviceAxes) hrun ⟨hstart, .done _⟩
  rintro pairs pair - st st' ⟨hst, hgreedy⟩ hpair
  have hdims := foldlM_prefix (fun dims st' => Assigned context.dims names.length st' ∧
    Greedy sizes context.dims ((dims.filter fun axis => axis.1.contains pair.1).map fun axis =>
      (axis.2, context.axes.idxOf pair.2)) st.logicalToDeviceAxes st'.logicalToDeviceAxes)
    hpair ⟨hst, .done _⟩ fun dims axis hinitial st₁ st₂ hst₁ hstep => by
      obtain ⟨hst₁, hgreedy₁⟩ := hst₁
      have hmem : axis ∈ names.zipIdx := hinitial.subset (by simp)
      have hdim : axis.2 < names.length := by
        have h := List.snd_lt_of_mem_zipIdx hmem
        omega
      obtain ⟨hst₂, hgreedy₂⟩ := assignAxis_greedy hst₁ hdim hstep
      refine ⟨hst₂, ?_⟩
      rw [List.filter_append, List.map_append]
      apply hgreedy₁.append
      rw [List.filter_cons]
      split at hgreedy₂
      · rename_i hname
        rw [if_pos hname]
        exact hgreedy₂
      · rename_i hname
        rw [if_neg hname]
        exact hgreedy₂
  refine ⟨hdims.1, ?_⟩
  have hsplit : requests { context with logicalAxes := pairs ++ [pair] } names =
      requests { context with logicalAxes := pairs } names ++
        (names.zipIdx.filter fun axis => axis.1.contains pair.1).map fun axis =>
          (axis.2, context.axes.idxOf pair.2) := by
    simp [requests]
  rw [hsplit]
  exact hgreedy.append hdims.2

end greedy

/-- How far the sharding tiles a dimension. -/
def OpTiling (s : OpSharding) (dim : ℕ) : ℕ :=
  if s.type = .replicated then 1 else s.tileAssignmentDimensions.getD dim 1

/-- What a valid greedy sharding is. -/
structure GreedySharding (context : LogicalContext) (sizes : List ℕ)
    (names : List (List String)) (s : OpSharding) (chosen : List (List ℕ)) : Prop where
  disjoint : chosen.flatten.Nodup
  greedy : Greedy sizes context.dims (requests context names)
    (List.replicate names.length []) chosen
  tiled : ∀ dim < sizes.length, OpTiling s dim = tiling context.dims chosen dim
  divides : ∀ dim < sizes.length, tiling context.dims chosen dim ∣ sizes.getD dim 0

theorem checkDivides_eq_ok {sizes : List ℕ} {s : OpSharding} (h : checkDivides sizes s = ok ()) :
    ∀ dim < sizes.length, s.tileAssignmentDimensions.getD dim 1 ∣ sizes.getD dim 0 := by
  have hall := foldlM_prefix (fun done (_ : Unit) => ∀ dim ∈ done,
    s.tileAssignmentDimensions.getD dim 1 ∣ sizes.getD dim 0) h (by simp)
    fun done dim _ _ _ hdone hstep => by
      obtain ⟨size, hsize, hstep⟩ := bind_eq_ok.mp hstep
      obtain ⟨tile, htile, hstep⟩ := bind_eq_ok.mp hstep
      have hsize := elementAt_eq_ok.mp hsize
      have htile := elementAt_eq_ok.mp htile
      split at hstep
      · cases hstep
      split at hstep
      · cases hstep
      rename_i hmod
      intro dim' hdim'
      rcases List.mem_append.mp hdim' with hdim' | hdim'
      · exact hdone dim' hdim'
      · rw [List.mem_singleton.mp hdim']
        simp only [List.getD_eq_getElem?_getD, hsize, htile, Option.getD_some]
        exact Nat.dvd_of_mod_eq_zero (not_not.mp hmod)
  exact fun dim hdim => hall dim (List.mem_range.mpr hdim)

/-- The axes of a dimension tile it alike in any order. -/
theorem getD_gridTileDims {axes : List (List ℕ)} {dims : List ℕ} {dim : ℕ}
    (h : dim < axes.length) : (gridTileDims axes dims).getD dim 1 = tiling dims axes dim := by
  have hget : (axisGroups axes dims)[dim]? = some (sortAxes axes[dim]) := by
    rw [axisGroups, List.getElem?_append_left (by simpa using h)]
    simp [h]
  have hperm : (permute 1 (sortAxes axes[dim]) dims).Perm (permute 1 axes[dim] dims) :=
    (List.perm_insertionSort _ _).map _
  simp [gridTileDims, tiling, List.getD_eq_getElem?_getD, hget, h, hperm.prod_eq]

theorem tiling_eq_one {context : LogicalContext} {chosen : List (List ℕ)}
    (h : ∀ a ∈ chosen.flatten, context.dims.getD a 1 ≤ 1) (dim : ℕ) :
    tiling context.dims chosen dim = 1 := by
  apply List.prod_eq_one
  intro extent hextent
  obtain ⟨a, ha, rfl⟩ := List.mem_map.mp hextent
  have hmem : a ∈ chosen.flatten := by
    rw [List.getD_eq_getElem?_getD] at ha
    cases hget : chosen[dim]? with
    | none => simp [hget] at ha
    | some axes =>
      rw [hget] at ha
      exact List.mem_flatten.mpr ⟨axes, List.mem_of_getElem? hget, ha⟩
  have hpos : 0 < context.dims.getD a 1 := by
    rw [List.getD_eq_getElem?_getD]
    cases hget : context.dims[a]? with
    | none => exact Nat.one_pos
    | some d => exact context.dims_pos d (List.mem_of_getElem? hget)
  have hle := h a hmem
  omega

theorem batchDims_pos : ∀ d ∈ [2, 4], 0 < d := by decide

def batchContext : LogicalContext where
  devices := [0, 1, 2, 3, 4, 5, 6, 7]
  dims := [2, 4]
  axes := ["x", "y"]
  logicalAxes := [("batch", "x"), ("batch", "y"), ("embed", "y")]
  dims_pos := batchDims_pos

end Sharding
end MultiMeshJax
