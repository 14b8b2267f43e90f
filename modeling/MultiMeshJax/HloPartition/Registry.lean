import MultiMeshJax.Foundation.Run
import MultiMeshJax.HloPartition.MetadataName

/-! The registry over sequences of calls: the colours by device list and the colours by name
stay in step. -/
namespace MultiMeshJax
namespace HloPartition

open StatusOr

/-- The registry that `HloPartition::Create` gives. -/
def create (devices : DeviceList) : HloPartition where
  devices := devices
  colors := []

inductive RegistryCall where
  | allocateColor (config : ColorConfig)
  | cloneColor (existingColor newColor : String) (devicesOverride : Option DeviceList)
      (taskOptionsOverride : Option TaskOptions)
  | findOrAllocateDefaultColor (devices : DeviceList)
  | findColor (devices : DeviceList)
  | recolor (colorMap : List (String × String))
  | setColorAsNonCritical (color : String)
  | computeMetadataNameColor (tasks : NamedTaskContexts) (opName : String)

/-- The registry after a call. -/
def call (p : HloPartition) : RegistryCall → StatusOr HloPartition
  | .allocateColor config => return (p.allocateColor config).2
  | .cloneColor existingColor newColor devicesOverride taskOptionsOverride => do
    let (_, p) ← p.cloneColor existingColor newColor devicesOverride taskOptionsOverride
    return p
  | .findOrAllocateDefaultColor devices => do
    let (_, p) ← p.findOrAllocateDefaultColor devices
    return p
  | .findColor devices => do
    let _ ← p.findColor devices
    return p
  | .recolor colorMap => p.recolor colorMap
  | .setColorAsNonCritical color => return p.setColorAsNonCritical color
  | .computeMetadataNameColor tasks opName => do
    let (_, p) ← p.computeMetadataNameColor tasks opName
    return p

/-- The name that a call allocates, if it allocates one. -/
def allocated (p : HloPartition) : RegistryCall → Option String
  | .allocateColor config => some (p.uniquify config.name)
  | .cloneColor _ newColor _ _ => some newColor
  | .findOrAllocateDefaultColor devices =>
    match p.deviceListToColors.lookup devices with
    | none => some (p.uniquify (defaultColorName devices))
    | some _ => none
  | .computeMetadataNameColor tasks opName => do
    let options ← p.metadataOptions tasks opName
    let name ← options.name
    match p.colors.lookup name with
    | none => some (p.uniquify name)
    | some _ => none
  | _ => none

/-- Every name that is listed for a device list is a colour with these devices. -/
def Consistent (p : HloPartition) : Prop :=
  ∀ devices names, p.deviceListToColors.lookup devices = some names →
    ∀ name ∈ names, p.devicesForColor name = ok devices

/-- The call allocates no name that a colour already has. -/
def AllocatesNewName (p : HloPartition) (c : RegistryCall) : Prop :=
  ∀ name, p.allocated c = some name → p.colors.lookup name = none

/-- The name, or the name with the number of the allocation, is not yet in use. -/
def NameAvailable (p : HloPartition) (name : String) : Prop :=
  p.colors.lookup name = none ∨ p.colors.lookup (name ++ "." ++ toString p.maxColor) = none

/-- When a call does not harm the registry. -/
def Safe (p : HloPartition) : RegistryCall → Prop
  | .allocateColor config => p.NameAvailable config.name
  | .findOrAllocateDefaultColor devices =>
    (p.deviceListToColors.lookup devices).isSome ∨ p.NameAvailable (defaultColorName devices)
  | .recolor colorMap => ∀ devices names, p.deviceListToColors.lookup devices = some names →
      ∀ name ∈ names, ∃ oldColor, colorMap.lookup name = some oldColor ∧
        p.devicesForColor oldColor = ok devices
  | _ => True

theorem lookup_uniquify_eq_none {p : HloPartition} {name : String} :
    p.colors.lookup (p.uniquify name) = none ↔ p.NameAvailable name := by
  unfold uniquify NameAvailable
  cases h : p.colors.lookup name with
  | none => simp [h]
  | some config => simp

theorem consistent_create (devices : DeviceList) : (create devices).Consistent := by
  intro d names h
  cases h

/-- A name that is added to the list of its devices, as a colour with these devices. -/
theorem Consistent.cons {p q : HloPartition} {name : String} {devices : DeviceList}
    (hp : p.Consistent) (hself : q.devicesForColor name = ok devices)
    (hkeep : ∀ other d, p.devicesForColor other = ok d → q.devicesForColor other = ok d)
    (hlists : q.deviceListToColors = (devices,
      (p.deviceListToColors.lookup devices).getD [] ++ [name]) :: p.deviceListToColors) :
    q.Consistent := by
  intro d names hlookup other hother
  rw [hlists, List.lookup_cons] at hlookup
  split at hlookup
  · rename_i heq
    obtain rfl := eq_of_beq heq
    obtain rfl := Option.some.inj hlookup
    rcases List.mem_append.mp hother with hother | hother
    · cases hlist : p.deviceListToColors.lookup d with
      | none => simp [hlist] at hother
      | some known =>
        rw [hlist] at hother
        exact hkeep _ _ (hp _ _ hlist other hother)
    · obtain rfl := List.mem_singleton.mp hother
      exact hself
  · exact hkeep _ _ (hp d names hlookup other hother)

/-- A lookup by device list gives a colour with these devices. -/
theorem Consistent.findColor {p : HloPartition} {devices : DeviceList} {color : String}
    (hp : p.Consistent) (h : p.findColor devices = ok (some color)) :
    p.devicesForColor color = ok devices := by
  unfold HloPartition.findColor at h
  split at h
  · cases h
  · rename_i colors hlookup
    obtain ⟨first, hfirst, h⟩ := bind_eq_ok.mp h
    obtain rfl := Option.some.inj (ok.inj h)
    exact hp devices colors hlookup first (List.mem_of_getElem? (elementAt_eq_ok.mp hfirst))

/-- A call that leaves the lists and the devices of the listed colours alone. -/
theorem Consistent.of_devices {p q : HloPartition} (hp : p.Consistent)
    (hlists : q.deviceListToColors = p.deviceListToColors)
    (hdevices : ∀ name d, p.devicesForColor name = ok d → q.devicesForColor name = ok d) :
    q.Consistent := by
  intro d names hlookup name hname
  rw [hlists] at hlookup
  exact hdevices _ _ (hp d names hlookup name hname)

theorem devicesForColor_setColorAsNonCritical {p : HloPartition} {color name : String}
    {d : DeviceList} (h : p.devicesForColor name = ok d) :
    (p.setColorAsNonCritical color).devicesForColor name = ok d := by
  obtain ⟨known, hknown, rfl⟩ := devicesForColor_eq_ok.mp h
  rw [devicesForColor_eq_ok]
  by_cases hname : name = color
  · subst hname
    refine ⟨{ known with noncritical := true }, ?_, rfl⟩
    simp [setColorAsNonCritical, hknown]
  · exact ⟨known, (lookup_cons_ne hname).trans hknown, rfl⟩

theorem lookup_mapM {f : String → StatusOr ColorConfig} {colorMap : List (String × String)}
    {configs : List (String × ColorConfig)}
    (h : List.Forall₂ (fun entry config => f entry.2 = ok config.2 ∧ config.1 = entry.1)
      colorMap configs) (name : String) :
    configs.lookup name = (colorMap.lookup name).bind fun old => (f old).toOption := by
  induction h with
  | nil => rfl
  | @cons entry config _ _ hhead _ ih =>
    obtain ⟨hconfig, hname⟩ := hhead
    rw [List.lookup_cons, List.lookup_cons, hname]
    split
    · simp [hconfig, toOption]
    · exact ih

theorem recolor_eq_ok {p q : HloPartition} {colorMap : List (String × String)}
    (h : p.recolor colorMap = ok q) :
    q.deviceListToColors = p.deviceListToColors ∧
      ∀ name, q.colors.lookup name = (colorMap.lookup name).bind fun old => p.colors.lookup old := by
  obtain ⟨configs, hconfigs, h⟩ := bind_eq_ok.mp h
  obtain rfl := ok.inj h
  refine ⟨rfl, ?_⟩
  intro name
  have hentries : List.Forall₂ (fun (entry : String × String) (config : String × ColorConfig) =>
      p.configForColor entry.2 = ok config.2 ∧ config.1 = entry.1) colorMap configs := by
    apply (mapM_eq_ok.mp hconfigs).imp
    rintro ⟨newColor, oldColor⟩ config hentry
    cases hknown : p.colors.lookup oldColor with
    | none => simp [hknown] at hentry
    | some known =>
      simp only [hknown] at hentry
      obtain rfl := ok.inj hentry
      exact ⟨deref_eq_ok.mpr hknown, rfl⟩
  have hlookup : ∀ old, (p.configForColor old).toOption = p.colors.lookup old := by
    intro old
    unfold configForColor
    cases p.colors.lookup old <;> rfl
  rw [lookup_mapM hentries]
  simp only [hlookup]

/-- A recolouring keeps the registry consistent if every listed name is a new colour that
stands for an old colour with the same devices. -/
theorem consistent_recolor_iff {p q : HloPartition} {colorMap : List (String × String)}
    (h : p.recolor colorMap = ok q) : q.Consistent ↔ p.Safe (.recolor colorMap) := by
  obtain ⟨hlists, hlookup⟩ := recolor_eq_ok h
  unfold Consistent Safe
  rw [hlists]
  have hdevices : ∀ name d, q.devicesForColor name = ok d ↔
      ∃ oldColor, colorMap.lookup name = some oldColor ∧ p.devicesForColor oldColor = ok d := by
    intro name d
    simp only [devicesForColor_eq_ok, hlookup, Option.bind_eq_some_iff]
    constructor
    · rintro ⟨config, ⟨oldColor, hold, hconfig⟩, hd⟩
      exact ⟨oldColor, hold, config, hconfig, hd⟩
    · rintro ⟨oldColor, hold, config, hconfig, hd⟩
      exact ⟨config, ⟨oldColor, hold, hconfig⟩, hd⟩
  simp only [hdevices]

theorem consistent_allocateColor {p : HloPartition} {config : ColorConfig} (hp : p.Consistent)
    (hnew : p.colors.lookup (p.uniquify config.name) = none) :
    (p.allocateColor config).2.Consistent := by
  obtain ⟨hextends, hself⟩ := allocateColor_spec hnew
  exact hp.cons hself hextends.devicesForColor rfl

theorem consistent_cloneColor {p q : HloPartition} {existing new color : String}
    {devices : Option DeviceList} {options : Option TaskOptions} (hp : p.Consistent)
    (h : p.cloneColor existing new devices options = ok (color, q)) :
    q.Consistent ∧ p.colors.lookup new = none := by
  unfold cloneColor at h
  split at h
  · cases h
  · split at h
    · cases h
    · rename_i hnew
      rw [Bool.not_eq_true, Option.isSome_eq_false_iff, Option.isNone_iff_eq_none] at hnew
      obtain ⟨-, rfl⟩ := Prod.mk.inj (ok.inj h)
      refine ⟨hp.of_devices rfl ?_, hnew⟩
      intro name d hd
      obtain ⟨known, hknown, rfl⟩ := devicesForColor_eq_ok.mp hd
      have hne : name ≠ new := by
        rintro rfl
        rw [hknown] at hnew
        cases hnew
      rw [devicesForColor_eq_ok]
      exact ⟨known, (lookup_cons_ne hne).trans hknown, rfl⟩

theorem consistent_withTask {p : HloPartition} {matchedName name : String} {backprop : Bool}
    {devices : DeviceList} {options : TaskOptions} (hp : p.Consistent)
    (hnew : p.colors.lookup name = none) :
    (p.withTask matchedName name backprop devices options).Consistent := by
  have hself : (p.withTask matchedName name backprop devices options).devicesForColor name =
      ok devices := by
    rw [devicesForColor_eq_ok]
    exact ⟨_, List.lookup_cons_self, rfl⟩
  apply hp.cons hself
  · intro other d hd
    obtain ⟨known, hknown, rfl⟩ := devicesForColor_eq_ok.mp hd
    have hne : other ≠ name := by
      rintro rfl
      rw [hknown] at hnew
      cases hnew
    rw [devicesForColor_eq_ok]
    refine ⟨known, ?_, rfl⟩
    simp only [withTask, allocateColor, uniquify_of_new hnew]
    rw [lookup_cons_ne hne, lookup_cons_ne hne]
    exact hknown
  · simp [withTask, allocateColor, uniquify_of_new hnew]

theorem consistent_computeMetadataNameColor {p q : HloPartition} {tasks : NamedTaskContexts}
    {opName : String} {color : Option String} (hp : p.Consistent)
    (h : p.computeMetadataNameColor tasks opName = ok (color, q)) : q.Consistent := by
  cases hoptions : p.metadataOptions tasks opName with
  | none =>
    rw [computeMetadataNameColor_of_none hoptions h]
    exact hp
  | some options =>
    rw [computeMetadataNameColor_of_options hoptions] at h
    obtain ⟨⟨color', p'⟩, hcolor, h⟩ := bind_eq_ok.mp h
    obtain ⟨-, rfl⟩ := Prod.mk.inj (ok.inj h)
    rcases colorOfOptions_cases hcolor with rfl | ⟨name, devices, hnew, rfl⟩
    · exact hp
    · exact consistent_withTask hp hnew

/-- A call of `ComputeMetadataNameColor` allocates no name but a new one. -/
theorem allocatesNewName_computeMetadataNameColor (p : HloPartition) (tasks : NamedTaskContexts)
    (opName : String) : p.AllocatesNewName (.computeMetadataNameColor tasks opName) := by
  intro name hname
  simp only [allocated, Option.bind_eq_bind, Option.bind_eq_some_iff] at hname
  obtain ⟨options, -, taskName, -, h⟩ := hname
  split at h
  · rename_i hnew
    obtain rfl := Option.some.inj h
    rw [uniquify_of_new hnew]
    exact hnew
  · cases h

/-- One call: it keeps the registry consistent and allocates no name in use if and only if it
is safe. -/
theorem call_consistent_iff {p q : HloPartition} {c : RegistryCall} (hp : p.Consistent)
    (h : p.call c = ok q) : (q.Consistent ∧ p.AllocatesNewName c) ↔ p.Safe c := by
  cases c with
  | allocateColor config =>
    obtain rfl := ok.inj h
    simp only [AllocatesNewName, allocated, Option.some.injEq, forall_eq', Safe]
    rw [lookup_uniquify_eq_none]
    apply and_iff_right_of_imp
    intro havailable
    exact consistent_allocateColor hp (lookup_uniquify_eq_none.mpr havailable)
  | cloneColor existing new devices options =>
    obtain ⟨⟨color, q'⟩, hclone, h⟩ := bind_eq_ok.mp h
    obtain rfl := ok.inj h
    obtain ⟨hq, hnew⟩ := consistent_cloneColor hp hclone
    apply iff_of_true _ trivial
    refine ⟨hq, ?_⟩
    intro name hname
    exact Option.some.inj hname ▸ hnew
  | findOrAllocateDefaultColor devices =>
    obtain ⟨⟨color, q'⟩, hfind, h⟩ := bind_eq_ok.mp h
    obtain rfl := ok.inj h
    unfold findOrAllocateDefaultColor at hfind
    simp only [AllocatesNewName, allocated, Safe]
    split at hfind
    · rename_i hnone
      obtain ⟨-, hq⟩ := Prod.mk.inj (ok.inj hfind)
      simp only [hnone, Option.some.injEq, forall_eq', Option.isSome_none, Bool.false_eq_true,
        false_or]
      rw [lookup_uniquify_eq_none]
      apply and_iff_right_of_imp
      intro havailable
      have hnew : p.colors.lookup (p.uniquify (defaultColorName devices)) = none :=
        lookup_uniquify_eq_none.mpr havailable
      rw [← hq]
      exact @consistent_allocateColor p { name := defaultColorName devices, devices := devices }
        hp hnew
    · cases hfind
    · rename_i hsome
      obtain ⟨-, rfl⟩ := Prod.mk.inj (ok.inj hfind)
      simp [hsome, hp]
  | findColor devices =>
    obtain ⟨color, -, h⟩ := bind_eq_ok.mp h
    obtain rfl := ok.inj h
    apply iff_of_true _ trivial
    exact ⟨hp, fun name hname => by cases hname⟩
  | recolor colorMap =>
    rw [← consistent_recolor_iff h]
    apply and_iff_left_of_imp
    intro _ name hname
    cases hname
  | setColorAsNonCritical color =>
    obtain rfl := ok.inj h
    apply iff_of_true _ trivial
    refine ⟨hp.of_devices rfl fun _ _ => devicesForColor_setColorAsNonCritical, ?_⟩
    intro name hname
    cases hname
  | computeMetadataNameColor tasks opName =>
    obtain ⟨⟨color, q'⟩, hcompute, h⟩ := bind_eq_ok.mp h
    obtain rfl := ok.inj h
    apply iff_of_true _ trivial
    exact ⟨consistent_computeMetadataNameColor hp hcompute,
      allocatesNewName_computeMetadataNameColor p tasks opName⟩

/-- Along a run of calls on a new registry, every state is consistent and no name in use is
allocated if and only if every call is safe in the state that it finds. -/
theorem registry_consistent_iff (devices : DeviceList) (calls : List RegistryCall) :
    Run.EachStep (fun p c q => p.call c = ok q) (fun p c q => q.Consistent ∧ p.AllocatesNewName c)
        (create devices) calls ↔
      Run.EachStep (fun p c q => p.call c = ok q) (fun p c _ => p.Safe c) (create devices) calls := by
  apply Run.eachStep_iff
  · intro p c q hp h
    exact call_consistent_iff hp h
  · exact consistent_create devices

/-- A task's colour that is renamed stays listed under its old name. -/
theorem recolor_leaves_stale_name :
    ¬ Run.EachStep (fun p c q => p.call c = ok q)
      (fun p c q => q.Consistent ∧ p.AllocatesNewName c) (create ⟨0, 4⟩)
      [.allocateColor { name := "task", devices := ⟨0, 2⟩ }, .recolor [("0.task", "task")]] := by
  intro h
  have hrecolor := (Run.eachStep_cons.mp h _ rfl).2
  have hconsistent := (Run.eachStep_cons.mp hrecolor _ rfl).1.1
  have hstale := hconsistent ⟨0, 2⟩ ["task"] rfl "task" (List.mem_singleton_self _)
  cases hstale

end HloPartition

end MultiMeshJax
