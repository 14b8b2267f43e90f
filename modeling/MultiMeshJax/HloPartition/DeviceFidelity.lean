import MultiMeshJax.HloPartition.MetadataName
import MultiMeshJax.LoopUnroll.LoopDependentColor
import MultiMeshJax.Task.MeshSlice

/-! A list of devices that becomes the mesh of a colour. -/
namespace MultiMeshJax

open StatusOr LoopUnroll

def createDeviceList (devices : List ℕ) : StatusOr DeviceList :=
  if devices.IsChain (· ≤ ·) then do
    let start ← elementAt devices 0
    return ⟨start, devices.length⟩
  else error "non-contiguous device lists not yet supported"

namespace HloPartition

/-- The colour of a custom call `MultiMeshTask`. No devices stand for all devices. -/
def colorOfExplicitTask (p : HloPartition) (instruction : HloInstruction)
    (options : TaskOptions) : StatusOr (String × HloPartition) :=
  let dl := if options.devices.isEmpty then ok p.devices else createDeviceList options.devices
  match options.name with
  | none => error ("task on " ++ toString instruction.id ++ " has no name")
  | some name => do
    let dl ← valueOrDie dl
    return p.allocateColor { name := name, devices := dl, taskOptions := options }

end HloPartition

/-- The range has the devices of the list and no others. -/
def DeviceList.HasExactly (d : DeviceList) (devices : List ℕ) : Prop :=
  ∀ x, x ∈ d.toList ↔ x ∈ devices

/-- The places where a list of devices reaches the compiler. -/
inductive MeshRequest where
  | explicitTask (instruction : HloInstruction) (options : TaskOptions)
  | metadataName (tasks : NamedTaskContexts) (opName : String)
  | loopDependent (instr : HloInstruction) (iter : ℤ)

namespace MeshRequest

/-- The list that reaches the compiler, if one does. -/
def mesh (st : ColorState) : MeshRequest → Option (List ℕ)
  | explicitTask _ options => if options.devices.isEmpty then none else some options.devices
  | metadataName tasks opName => (st.partition.metadataOptions tasks opName).map TaskOptions.devices
  | loopDependent instr iter => do
    let config ← instr.color.bind fun color => st.partition.colors.lookup color
    let deviceCallback ← config.taskOptions.loopDependentDevices
    (deviceCallback iter).toOption

/-- The colour that gets the devices, and the registry afterwards. -/
def attach (st : ColorState) : MeshRequest → StatusOr (Option String × HloPartition)
  | explicitTask instruction options => do
    let (color, p) ← st.partition.colorOfExplicitTask instruction options
    return (some color, p)
  | metadataName tasks opName => st.partition.computeMetadataNameColor tasks opName
  | loopDependent instr iter => do
    let (color, st) ← applyLoopDependentColor st instr iter
    return (some color, st.partition)

/-- The range that starts at the first device and has the length of the list. -/
def rangeOf (devices : List ℕ) : DeviceList := ⟨devices.headD 0, devices.length⟩

/-- The list is that range, in some order. -/
def IsRange (devices : List ℕ) : Prop := devices.Perm (rangeOf devices).toList

/-- Compilation returns an error, or the colour has exactly the devices of the list. -/
def Faithful (devices : List ℕ) (outcome : StatusOr (Option String × HloPartition)) : Prop :=
  (∃ e, outcome = error e) ∨ ∃ color p d, outcome = ok (some color, p) ∧
    p.devicesForColor color = ok d ∧ d.HasExactly devices

/-- When a list of devices is attached as it is, or is rejected. -/
def Attachable (st : ColorState) (devices : List ℕ) : MeshRequest → Prop
  | explicitTask _ options => options.name = none ∨ devices = (rangeOf devices).toList
  | metadataName tasks opName => ∀ options, st.partition.metadataOptions tasks opName = some options →
      options.name = none ∨ devices = [] ∨ IsRange devices ∨
        ∃ name config, options.name = some name ∧ st.partition.colors.lookup name = some config ∧
          config.devices ≠ rangeOf devices
  | loopDependent instr _ => ∀ color, instr.color = some color →
      ∀ config, st.partition.colors.lookup color = some config →
        devices ≠ [] ∧ devices.length = config.devices.size ∧
          (IsRange devices ∨ NameTaken st color (rangeOf devices))

theorem hasExactly_rangeOf_iff (devices : List ℕ) :
    (rangeOf devices).HasExactly devices ↔ IsRange devices := by
  constructor
  · intro h
    have hnodup : (rangeOf devices).toList.Nodup := List.nodup_range'
    have hsubset : (rangeOf devices).toList ⊆ devices := fun x hx => (h x).mp hx
    have hlength : devices.length ≤ (rangeOf devices).toList.length := by
      simp [rangeOf, DeviceList.toList]
    exact ((hnodup.subperm hsubset).perm_of_length_le hlength).symm
  · intro h x
    exact h.mem_iff.symm

theorem faithful_error (devices : List ℕ) (e : String) : Faithful devices (error e) :=
  .inl ⟨e, rfl⟩

theorem not_faithful_fatal (devices : List ℕ) (reason : String) :
    ¬ Faithful devices (fatal reason) := by
  rintro (⟨e, he⟩ | ⟨color, p, d, h, -⟩)
  · cases he
  · cases h

/-- A colour that is attached with the range of the list is faithful if the list is a range. -/
theorem faithful_ok_iff {devices : List ℕ} {color : String} {p : HloPartition}
    (h : p.devicesForColor color = ok (rangeOf devices)) :
    Faithful devices (ok (some color, p)) ↔ IsRange devices := by
  rw [← hasExactly_rangeOf_iff]
  constructor
  · rintro (⟨e, he⟩ | ⟨color', p', d, hok, hd, hexact⟩)
    · cases he
    · obtain ⟨hcolor, rfl⟩ := Prod.mk.inj (ok.inj hok)
      obtain rfl := Option.some.inj hcolor
      rw [h] at hd
      exact ok.inj hd ▸ hexact
  · intro hexact
    exact .inr ⟨color, p, _, rfl, h, hexact⟩

theorem devicesForColor_allocateColor (p : HloPartition) (config : ColorConfig) :
    (p.allocateColor config).2.devicesForColor (p.allocateColor config).1 =
      ok config.devices := by
  rw [HloPartition.devicesForColor_eq_ok]
  exact ⟨_, List.lookup_cons_self, rfl⟩

/-- An ascending list that is a range in some order is that range. -/
theorem isRange_iff_of_isChain {devices : List ℕ} (h : devices.IsChain (· ≤ ·)) :
    IsRange devices ↔ devices = (rangeOf devices).toList := by
  constructor
  · intro hrange
    have hsorted : devices.Pairwise (· ≤ ·) := List.isChain_iff_pairwise.mp h
    have hrange' : (rangeOf devices).toList.Pairwise (· ≤ ·) := List.pairwise_le_range'
    apply hrange.eq_of_pairwise _ hsorted hrange'
    intro a b _ _ hab hba
    exact le_antisymm hab hba
  · exact List.Perm.of_eq

theorem explicitTask_faithful_iff (st : ColorState) (instruction : HloInstruction)
    (options : TaskOptions) (hne : options.devices ≠ []) :
    Faithful options.devices ((explicitTask instruction options).attach st) ↔
      options.name = none ∨ options.devices = (rangeOf options.devices).toList := by
  have hempty : options.devices.isEmpty = false := by simpa using hne
  simp only [attach, HloPartition.colorOfExplicitTask, hempty, Bool.false_eq_true, if_false]
  cases hname : options.name with
  | none => exact iff_of_true (faithful_error _ _) (.inl rfl)
  | some name =>
    by_cases hchain : options.devices.IsChain (· ≤ ·)
    · obtain ⟨start, rest, hcons⟩ := List.exists_cons_of_ne_nil hne
      have hlist : createDeviceList options.devices = ok (rangeOf options.devices) := by
        rw [createDeviceList, if_pos hchain]
        simp [hcons, elementAt, rangeOf]
      simp only [hlist, valueOrDie, ok_bind, pure_eq]
      rw [faithful_ok_iff (devicesForColor_allocateColor _ _), isRange_iff_of_isChain hchain]
      simp
    · have hlist : createDeviceList options.devices =
          error "non-contiguous device lists not yet supported" := if_neg hchain
      simp only [hlist, valueOrDie, fatal_bind]
      apply iff_of_false (not_faithful_fatal _ _)
      rintro (h | heq)
      · cases h
      · apply hchain
        rw [heq]
        exact List.isChain_iff_pairwise.mpr List.pairwise_le_range'

/-- A task's options give a colour with the range of their devices, or an error. -/
theorem colorOfOptions_faithful_iff (p : HloPartition) (matchedName : String) (backprop : Bool)
    (options : TaskOptions) :
    Faithful options.devices (do
        let (color, p) ← p.colorOfOptions matchedName backprop options
        return (some color, p)) ↔
      options.name = none ∨ options.devices = [] ∨ IsRange options.devices ∨
        ∃ name config, options.name = some name ∧ p.colors.lookup name = some config ∧
          config.devices ≠ rangeOf options.devices := by
  by_cases hbad : options.name = none ∨ options.devices = []
  · have herror := @HloPartition.colorOfOptions_error p matchedName backprop options
    obtain ⟨e, he⟩ := herror (hbad.imp_right .inl)
    rw [he]
    exact iff_of_true (faithful_error _ e) (hbad.elim .inl fun h => .inr (.inl h))
  · rw [not_or] at hbad
    obtain ⟨name, hname⟩ := Option.ne_none_iff_exists'.mp hbad.1
    obtain ⟨start, rest, hdevices⟩ := List.exists_cons_of_ne_nil hbad.2
    have hrange : rangeOf options.devices = ⟨start, (start :: rest).length⟩ := by
      rw [hdevices]
      rfl
    simp only [hbad.1, hbad.2, false_or]
    cases hcolor : p.colors.lookup name with
    | none =>
      have hregistered : (p.withTask matchedName name backprop (rangeOf options.devices)
          options).devicesForColor name = ok (rangeOf options.devices) := by
        rw [HloPartition.devicesForColor_eq_ok]
        exact ⟨_, List.lookup_cons_self, rfl⟩
      rw [HloPartition.colorOfOptions_of_new hname hdevices hcolor, ← hrange]
      simp only [ok_bind, pure_eq]
      rw [faithful_ok_iff hregistered]
      simp [hname, hcolor]
    | some config =>
      by_cases hsame : config.devices = rangeOf options.devices
      · have hregistered : p.devicesForColor name = ok (rangeOf options.devices) :=
          HloPartition.devicesForColor_eq_ok.mpr ⟨config, hcolor, hsame⟩
        rw [HloPartition.colorOfOptions_of_known hname hdevices hcolor (hsame.trans hrange)]
        simp only [ok_bind, pure_eq]
        rw [faithful_ok_iff hregistered]
        simp [hname, hcolor, hsame]
      · have herror := @HloPartition.colorOfOptions_error p matchedName backprop options
        obtain ⟨e, he⟩ := herror
          (.inr (.inr ⟨name, start, rest, config, hname, hdevices, hcolor, hrange ▸ hsame⟩))
        rw [he]
        exact iff_of_true (faithful_error _ e) (.inr ⟨name, config, hname, hcolor, hsame⟩)

theorem metadataName_faithful_iff {st : ColorState} {tasks : NamedTaskContexts} {opName : String}
    {options : TaskOptions} (h : st.partition.metadataOptions tasks opName = some options) :
    Faithful options.devices ((metadataName tasks opName).attach st) ↔
      options.name = none ∨ options.devices = [] ∨ IsRange options.devices ∨
        ∃ name config, options.name = some name ∧ st.partition.colors.lookup name = some config ∧
          config.devices ≠ rangeOf options.devices := by
  simp only [attach, HloPartition.computeMetadataNameColor_of_options h]
  exact colorOfOptions_faithful_iff _ _ _ _

theorem loopDependent_faithful_iff {st : ColorState} {instr : HloInstruction} {iter : ℤ}
    {devices : List ℕ} (hst : ClonesRegistered st)
    (h : (loopDependent instr iter).mesh st = some devices) :
    Faithful devices ((loopDependent instr iter).attach st) ↔
      (loopDependent instr iter).Attachable st devices := by
  simp only [mesh, Option.bind_eq_bind, Option.bind_eq_some_iff, toOption_eq_some] at h
  obtain ⟨config, ⟨color, hcolor, hknown⟩, deviceCallback, hcallback, hdevices⟩ := h
  have hconfig : st.partition.configForColor color = ok config := deref_eq_ok.mpr hknown
  simp only [attach, Attachable, hcolor, Option.some.injEq, forall_eq', hknown]
  by_cases hbad : devices = [] ∨ devices.length ≠ config.devices.size
  · obtain ⟨reason, hfatal⟩ :=
      applyLoopDependentColor_fatal hcolor hconfig hcallback hdevices hbad
    rw [hfatal]
    apply iff_of_false (not_faithful_fatal _ reason)
    rintro ⟨hne, hlength, -⟩
    exact hbad.elim hne (absurd hlength)
  · rw [not_or, not_not] at hbad
    obtain ⟨hne, hlength⟩ := hbad
    obtain ⟨start, rest, rfl⟩ := List.exists_cons_of_ne_nil hne
    by_cases htaken : NameTaken st color (rangeOf (start :: rest))
    · obtain ⟨e, he⟩ :=
        applyLoopDependentColor_error hcolor hconfig hcallback hdevices hlength htaken
      rw [he]
      exact iff_of_true (faithful_error _ e) ⟨hne, hlength, .inr htaken⟩
    · obtain ⟨iterColor, st', hok, -, hregistered⟩ :=
        applyLoopDependentColor_ok hst hcolor hconfig hcallback hdevices hlength htaken
      have hrange : st'.partition.devicesForColor iterColor = ok (rangeOf (start :: rest)) :=
        hregistered
      rw [hok]
      simp only [ok_bind, pure_eq]
      rw [faithful_ok_iff hrange]
      simp [hlength, htaken]

/-- In every state that the unrolling reaches, a list of devices that reaches the compiler is
rejected with an error or attached as it is if and only if it is attachable. -/
theorem attach_faithful_iff {p : HloPartition} {instrs : List (HloInstruction × ℤ)}
    {st : ColorState} (hrun : applyLoopDependentColors { partition := p } instrs = ok st)
    (request : MeshRequest) {devices : List ℕ} (hmesh : request.mesh st = some devices) :
    Faithful devices (request.attach st) ↔ request.Attachable st devices := by
  cases request with
  | explicitTask instruction options =>
    simp only [mesh, List.isEmpty_iff, Option.ite_none_left_eq_some, Option.some.injEq] at hmesh
    obtain ⟨hne, rfl⟩ := hmesh
    exact explicitTask_faithful_iff st instruction options hne
  | metadataName tasks opName =>
    obtain ⟨options, hoptions, rfl⟩ := Option.map_eq_some_iff.mp hmesh
    rw [metadataName_faithful_iff hoptions, Attachable]
    simp only [hoptions, Option.some.injEq, forall_eq']
  | loopDependent instr iter =>
    exact loopDependent_faithful_iff (applyLoopDependentColors_keeps hrun) hmesh

def twoByTwo : HloPartition where
  devices := ⟨0, 4⟩
  colors := []

/-- A task on one column of a global mesh of two rows and two columns. -/
def columnTask : NamedTaskContexts where
  contexts := [[⟨"(task)", fun matchedName _ =>
    Frontend.cppCallback [("x", 2), ("y", 2)] matchedName { meshSlice := some [("y", 0)] }⟩]]
  partialMatch := fun opName _ => some opName

/-- A row is attached as it is. -/
theorem attach_faithful_iff_row :
    Faithful [2, 3] ((explicitTask { id := 0, opcode := .customCall "MultiMeshTask" }
        { name := some "task", devices := [2, 3] }).attach { partition := twoByTwo }) ↔
      (explicitTask { id := 0, opcode := .customCall "MultiMeshTask" }
        { name := some "task", devices := [2, 3] }).Attachable { partition := twoByTwo } [2, 3] := by
  have hrun : applyLoopDependentColors { partition := twoByTwo } [] =
    .ok { partition := twoByTwo } := rfl
  exact attach_faithful_iff hrun _ rfl

/-- The devices 0 and 2 of a column are attached as the devices 0 and 1. -/
theorem attach_replaces_column :
    (metadataName columnTask "task").mesh { partition := twoByTwo } = some [0, 2] ∧
      ¬ Faithful [0, 2] ((metadataName columnTask "task").attach { partition := twoByTwo }) := by
  have hoptions : twoByTwo.metadataOptions columnTask "task" =
      some { name := some "task", devices := [0, 2] } := rfl
  have hiff := @metadataName_faithful_iff { partition := twoByTwo } columnTask "task" _ hoptions
  refine ⟨rfl, ?_⟩
  rw [hiff]
  have hrange : ¬ IsRange [0, 2] := by
    unfold IsRange
    decide
  simp [hrange, twoByTwo]

end MeshRequest

end MultiMeshJax
