import MultiMeshJax.Hlo.Instruction

/-! The registry of colours and the device list of each colour. -/
namespace MultiMeshJax

/-- The options of a task that decide its devices, and the suffixes of the tasks that it is
split into. -/
structure TaskOptions where
  name : Option String := none
  devices : List ℕ := []
  loopDependentDevices : Option (ℤ → StatusOr (List ℕ)) := none
  splitBackprop : Option (String × String) := none

structure ColorConfig where
  name : String
  devices : DeviceList
  backprop : Bool := false
  noncritical : Bool := false
  taskOptions : TaskOptions := {}

/-- `maxColor` counts the colours that were allocated. Where `colors` has a name twice, the
first entry is the one that counts. -/
structure HloPartition where
  devices : DeviceList
  colors : List (String × ColorConfig)
  deviceListToColors : List (DeviceList × List String) := []
  maxColor : ℕ := 0
  originalColor : List (String × String) := []
  matchedColors : List ((String × Bool) × String) := []

namespace HloPartition

def kLoopIncrementColor : String := "loop_increment"

def totalDevices (p : HloPartition) : ℕ := p.devices.size

def isLoopIncrementColor (color : String) : Bool :=
  kLoopIncrementColor.toList.isPrefixOf color.toList

def configForColor (p : HloPartition) (color : String) : StatusOr ColorConfig :=
  .deref "no config exists for color" (p.colors.lookup color)

def getTaskOptions (p : HloPartition) (color : String) : StatusOr TaskOptions := do
  let config ← p.configForColor color
  return config.taskOptions

def devicesForColor (p : HloPartition) (color : String) : StatusOr DeviceList := do
  let config ← p.configForColor color
  return config.devices

/-- `partition.DevicesForColor(*Color(instruction))`, as the passes write it. -/
def devicesForTask (p : HloPartition) (task : HloInstruction) : StatusOr DeviceList := do
  let color ← .deref "instruction has no color" task.color
  p.devicesForColor color

/-- An instruction without a colour is on all the devices. -/
def devicesForInstruction (p : HloPartition) (instruction : HloInstruction) :
    StatusOr DeviceList :=
  match instruction.color with
  | some color => p.devicesForColor color
  | none => return p.devices

/-- The name under which a colour is allocated. -/
def uniquify (p : HloPartition) (name : String) : String :=
  if (p.colors.lookup name).isSome then name ++ "." ++ toString p.maxColor else name

def allocateColor (p : HloPartition) (config : ColorConfig) : String × HloPartition :=
  let name := p.uniquify config.name
  let known := (p.deviceListToColors.lookup config.devices).getD []
  (name, { p with
    colors := (name, { config with name := name }) :: p.colors
    deviceListToColors := (config.devices, known ++ [name]) :: p.deviceListToColors
    maxColor := p.maxColor + 1 })

def defaultColorName (devices : DeviceList) : String :=
  "devices_" ++ toString devices.start ++ "-" ++ toString devices.stop

def findOrAllocateDefaultColor (p : HloPartition) (devices : DeviceList) :
    StatusOr (String × HloPartition) :=
  match p.deviceListToColors.lookup devices with
  | none => return p.allocateColor { name := defaultColorName devices, devices := devices }
  | some [] => .error "device list added to map, but has no assigned colors"
  | some (color :: _) => return (color, p)

def findOrAllocateGlobalColor (p : HloPartition) : StatusOr (String × HloPartition) :=
  p.findOrAllocateDefaultColor p.devices

def findColor (p : HloPartition) (devices : DeviceList) : StatusOr (Option String) :=
  match p.deviceListToColors.lookup devices with
  | none => return none
  | some colors => do
    let color ← .elementAt colors 0
    return some color

def cloneColor (p : HloPartition) (existingColor newColor : String)
    (devicesOverride : Option DeviceList) (taskOptionsOverride : Option TaskOptions) :
    StatusOr (String × HloPartition) :=
  match p.colors.lookup existingColor with
  | none => .error ("attempting to clone from non-existent color: " ++ existingColor)
  | some config =>
    if (p.colors.lookup newColor).isSome then
      .error ("color " ++ newColor ++ "exists when cloning " ++ existingColor)
    else
      return (newColor, { p with colors := (newColor, { config with
        devices := devicesOverride.getD config.devices
        taskOptions := taskOptionsOverride.getD config.taskOptions }) :: p.colors })

def setColorAsNonCritical (p : HloPartition) (color : String) : HloPartition :=
  let config := (p.colors.lookup color).getD { name := "", devices := ⟨0, 0⟩ }
  { p with colors := (color, { config with noncritical := true }) :: p.colors }

/-- The new colours have the configurations of the old ones, and no other colour is left. -/
def recolor (p : HloPartition) (colorMap : List (String × String)) : StatusOr HloPartition := do
  let configs ← colorMap.mapM fun (newColor, oldColor) =>
    match p.colors.lookup oldColor with
    | none => .error ("cannot remap color " ++ oldColor ++ ", has not been created")
    | some config => .ok (newColor, config)
  return { p with
    colors := configs
    originalColor := colorMap.foldl (fun original (newColor, oldColor) =>
      (newColor, (original.lookup oldColor).getD oldColor) :: original) p.originalColor }

/-- The colour of all devices is registered with these, or can be allocated without
another colour being overwritten. -/
def GlobalColorConsistent (p : HloPartition) : Prop :=
  match p.deviceListToColors.lookup p.devices with
  | none => p.colors.lookup (p.uniquify (defaultColorName p.devices)) = none
  | some [] => True
  | some (color :: _) => p.devicesForColor color = .ok p.devices

/-- `p'` knows the colours of `p`. -/
structure Extends (p p' : HloPartition) : Prop where
  devices : p'.devices = p.devices
  devicesForColor : ∀ color d, p.devicesForColor color = .ok d → p'.devicesForColor color = .ok d

theorem Extends.refl (p : HloPartition) : Extends p p := ⟨rfl, fun _ _ h => h⟩

theorem Extends.trans {p p' p'' : HloPartition} (h : Extends p p') (h' : Extends p' p'') :
    Extends p p'' :=
  ⟨h'.devices.trans h.devices, fun c d hd => h'.devicesForColor c d (h.devicesForColor c d hd)⟩

theorem devicesForColor_eq_ok {p : HloPartition} {color : String} {d : DeviceList} :
    p.devicesForColor color = .ok d ↔ ∃ config, p.colors.lookup color = some config ∧
      config.devices = d := by
  simp [devicesForColor, configForColor, StatusOr.bind_eq_ok, StatusOr.deref_eq_ok]

theorem lookup_cons_ne {color name : String} {config : ColorConfig}
    {colors : List (String × ColorConfig)} (h : color ≠ name) :
    ((name, config) :: colors).lookup color = colors.lookup color := by
  rw [List.lookup_cons, beq_eq_false_iff_ne.mpr h]

/-- A colour that is allocated under a new name has its devices, and the others keep theirs. -/
theorem allocateColor_spec {p : HloPartition} {config : ColorConfig}
    (hfresh : p.colors.lookup (p.uniquify config.name) = none) :
    Extends p (p.allocateColor config).2 ∧
      (p.allocateColor config).2.devicesForColor (p.allocateColor config).1 =
        .ok config.devices := by
  refine ⟨⟨rfl, ?_⟩, ?_⟩
  · intro color d hd
    obtain ⟨known, hknown, rfl⟩ := devicesForColor_eq_ok.mp hd
    refine devicesForColor_eq_ok.mpr ⟨known, ?_, rfl⟩
    have hne : color ≠ p.uniquify config.name := by
      rintro rfl
      rw [hknown] at hfresh
      cases hfresh
    rw [← hknown]
    exact lookup_cons_ne hne
  · rw [devicesForColor_eq_ok]
    exact ⟨{ config with name := p.uniquify config.name }, by simp [allocateColor], rfl⟩

theorem findOrAllocateGlobalColor_spec {p p' : HloPartition} {color : String}
    (hp : p.GlobalColorConsistent) (h : p.findOrAllocateGlobalColor = .ok (color, p')) :
    Extends p p' ∧ p'.GlobalColorConsistent ∧ p'.devicesForColor color = .ok p.devices := by
  unfold findOrAllocateGlobalColor findOrAllocateDefaultColor at h
  have hconsistent := hp
  unfold GlobalColorConsistent at hp
  split at h
  · rename_i hlookup
    rw [hlookup] at hp
    obtain ⟨hextends, hnew⟩ :=
      @allocateColor_spec p { name := defaultColorName p.devices, devices := p.devices } hp
    obtain ⟨rfl, rfl⟩ := Prod.mk.inj (StatusOr.ok.inj h)
    refine ⟨hextends, ?_, hnew⟩
    simpa [GlobalColorConsistent, allocateColor, hlookup] using hnew
  · cases h
  · rename_i c cs hlookup
    rw [hlookup] at hp
    obtain ⟨rfl, rfl⟩ := Prod.mk.inj (StatusOr.ok.inj h)
    exact ⟨Extends.refl p, hconsistent, hp⟩

end HloPartition

end MultiMeshJax
