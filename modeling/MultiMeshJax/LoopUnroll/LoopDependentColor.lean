import MultiMeshJax.HloPartition

/-! The colour of an iteration, where the devices of a task depend on the iteration. -/
namespace MultiMeshJax
namespace LoopUnroll

open StatusOr

/-- The clones of a colour, by their devices. -/
abbrev ClonedColorMap := List ((String × DeviceList) × String)

structure ColorState where
  partition : HloPartition
  clonedColors : ClonedColorMap := []

def isLoopDependent (partition : HloPartition) (instr : HloInstruction) : StatusOr Bool :=
  match instr.color with
  | none => return false
  | some color => do
    let config ← partition.configForColor color
    return config.taskOptions.loopDependentDevices.isSome

def submeshColorName (color : String) (devices : DeviceList) : String :=
  color ++ "_submesh_[" ++ toString devices.start ++ "," ++ toString devices.stop ++ ")"

/-- The colour that the instruction is assigned in the iteration. -/
def applyLoopDependentColor (st : ColorState) (instr : HloInstruction) (iter : ℤ) :
    StatusOr (String × ColorState) :=
  match instr.color with
  | none => error ("instruction " ++ toString instr.id ++ " expected to have color")
  | some color => do
    let config ← st.partition.configForColor color
    match config.taskOptions.loopDependentDevices with
    | none => error ("color " ++ color ++ " expected to have non-null loop_dependent_devices")
    | some deviceCallback => do
      let deviceList ← deviceCallback iter
      let start ← elementAt deviceList 0
      let devices : DeviceList := ⟨start, deviceList.length⟩
      if devices.size ≠ config.devices.size then
        fatal ("loop dependent device count for color " ++ color ++ " has " ++
          toString devices.size ++ " devices for iter " ++ toString iter ++ " different from " ++
          "original " ++ toString config.devices.size ++ " devices")
      else
        match st.clonedColors.lookup (color, devices) with
        | some iterColor => return (iterColor, st)
        | none => do
          let (iterColor, partition) ← st.partition.cloneColor color
            (submeshColorName color devices) (some devices)
            (some { config.taskOptions with loopDependentDevices := none })
          return (iterColor, { partition := partition
                               clonedColors := ((color, devices), iterColor) :: st.clonedColors })

/-- The colours of a run of instructions, each in its iteration. -/
def applyLoopDependentColors (st : ColorState) (instrs : List (HloInstruction × ℤ)) :
    StatusOr ColorState :=
  instrs.foldlM (fun st (instr, iter) => do
    let (_, st) ← applyLoopDependentColor st instr iter
    return st) st

/-- Every clone is registered with the devices that it is a clone for. -/
def ClonesRegistered (st : ColorState) : Prop :=
  ∀ key iterColor, st.clonedColors.lookup key = some iterColor →
    st.partition.devicesForColor iterColor = ok key.2

/-- The name of the clone is the name of a colour that is no clone. -/
def NameTaken (st : ColorState) (color : String) (devices : DeviceList) : Prop :=
  st.clonedColors.lookup (color, devices) = none ∧
    (st.partition.colors.lookup (submeshColorName color devices)).isSome

theorem cloneColor_spec {p p' : HloPartition} {existing new color : String}
    {devices : DeviceList} {options : TaskOptions}
    (h : p.cloneColor existing new (some devices) (some options) = ok (color, p')) :
    p.Extends p' ∧ p'.devicesForColor color = ok devices := by
  unfold HloPartition.cloneColor at h
  split at h
  · cases h
  · rename_i config hconfig
    split at h
    · cases h
    · rename_i hnew
      obtain ⟨rfl, rfl⟩ := Prod.mk.inj (ok.inj h)
      constructor
      · refine ⟨rfl, ?_⟩
        intro other d hd
        obtain ⟨known, hknown, rfl⟩ := HloPartition.devicesForColor_eq_ok.mp hd
        have hne : other ≠ new := by
          rintro rfl
          simp [hknown] at hnew
        apply HloPartition.devicesForColor_eq_ok.mpr
        exact ⟨known, (HloPartition.lookup_cons_ne hne).trans hknown, rfl⟩
      · rw [HloPartition.devicesForColor_eq_ok]
        exact ⟨_, List.lookup_cons_self, rfl⟩

theorem ClonesRegistered.cons {st : ColorState} {p : HloPartition} {key : String × DeviceList}
    {color : String} (hst : ClonesRegistered st) (hextends : st.partition.Extends p)
    (hcolor : p.devicesForColor color = ok key.2) :
    ClonesRegistered ⟨p, (key, color) :: st.clonedColors⟩ := by
  intro key' color' hlookup
  rw [List.lookup_cons] at hlookup
  split at hlookup
  · rename_i hkey
    obtain rfl := Option.some.inj hlookup
    rw [eq_of_beq hkey]
    exact hcolor
  · exact hextends.devicesForColor _ _ (hst key' color' hlookup)

section outcomes

variable {st : ColorState} {instr : HloInstruction} {iter : ℤ} {color : String}
  {config : ColorConfig} {deviceCallback : ℤ → StatusOr (List ℕ)} {devices : List ℕ}

/-- An empty list, and one of another length, are fatal. -/
theorem applyLoopDependentColor_fatal (hcolor : instr.color = some color)
    (hconfig : st.partition.configForColor color = ok config)
    (hcallback : config.taskOptions.loopDependentDevices = some deviceCallback)
    (hdevices : deviceCallback iter = ok devices)
    (hbad : devices = [] ∨ devices.length ≠ config.devices.size) :
    ∃ reason, applyLoopDependentColor st instr iter = fatal reason := by
  simp only [applyLoopDependentColor, hcolor, hconfig, ok_bind, hcallback, hdevices]
  cases devices with
  | nil => exact ⟨_, rfl⟩
  | cons start rest =>
    have hne : (start :: rest).length ≠ config.devices.size := by simpa using hbad
    simp only [elementAt, List.getElem?_cons_zero, deref_some, ok_bind]
    rw [if_pos (by exact hne)]
    exact ⟨_, rfl⟩

theorem applyLoopDependentColor_error {start : ℕ} {rest : List ℕ}
    (hcolor : instr.color = some color)
    (hconfig : st.partition.configForColor color = ok config)
    (hcallback : config.taskOptions.loopDependentDevices = some deviceCallback)
    (hdevices : deviceCallback iter = ok (start :: rest))
    (hsize : (start :: rest).length = config.devices.size)
    (htaken : NameTaken st color ⟨start, (start :: rest).length⟩) :
    ∃ e, applyLoopDependentColor st instr iter = error e := by
  obtain ⟨hclone, hname⟩ := htaken
  have hknown := deref_eq_ok.mp hconfig
  simp only [applyLoopDependentColor, hcolor, hconfig, ok_bind, hcallback, hdevices, elementAt,
    List.getElem?_cons_zero, deref_some]
  have hsame : ¬ (DeviceList.size ⟨start, (start :: rest).length⟩ ≠ config.devices.size) :=
    not_not.mpr hsize
  rw [if_neg hsame, hclone]
  simp only [HloPartition.cloneColor, hknown, hname, if_true]
  exact ⟨_, rfl⟩

/-- Otherwise the instruction gets a colour with the range of the list's first device and
length. -/
theorem applyLoopDependentColor_ok {start : ℕ} {rest : List ℕ} (hst : ClonesRegistered st)
    (hcolor : instr.color = some color)
    (hconfig : st.partition.configForColor color = ok config)
    (hcallback : config.taskOptions.loopDependentDevices = some deviceCallback)
    (hdevices : deviceCallback iter = ok (start :: rest))
    (hsize : (start :: rest).length = config.devices.size)
    (htaken : ¬ NameTaken st color ⟨start, (start :: rest).length⟩) :
    ∃ iterColor st', applyLoopDependentColor st instr iter = ok (iterColor, st') ∧
      ClonesRegistered st' ∧
      st'.partition.devicesForColor iterColor = ok ⟨start, (start :: rest).length⟩ := by
  have hknown := deref_eq_ok.mp hconfig
  simp only [applyLoopDependentColor, hcolor, hconfig, ok_bind, hcallback, hdevices, elementAt,
    List.getElem?_cons_zero, deref_some]
  have hsame : ¬ (DeviceList.size ⟨start, (start :: rest).length⟩ ≠ config.devices.size) :=
    not_not.mpr hsize
  rw [if_neg hsame]
  cases hclone : st.clonedColors.lookup (color, ⟨start, (start :: rest).length⟩) with
  | some iterColor => exact ⟨iterColor, st, rfl, hst, hst _ _ hclone⟩
  | none =>
    have hname : (st.partition.colors.lookup
        (submeshColorName color ⟨start, (start :: rest).length⟩)).isSome = false := by
      apply Bool.eq_false_iff.mpr
      intro hsome
      exact htaken ⟨hclone, hsome⟩
    obtain ⟨p, hp⟩ : ∃ p, st.partition.cloneColor color
        (submeshColorName color ⟨start, (start :: rest).length⟩)
        (some ⟨start, (start :: rest).length⟩)
        (some { config.taskOptions with loopDependentDevices := none }) =
        ok (submeshColorName color ⟨start, (start :: rest).length⟩, p) := by
      simp only [HloPartition.cloneColor, hknown, hname, Bool.false_eq_true, if_false]
      exact ⟨_, rfl⟩
    obtain ⟨hextends, hregistered⟩ := cloneColor_spec hp
    simp only [hp, ok_bind]
    exact ⟨_, _, rfl, hst.cons hextends hregistered, hregistered⟩

/-- A colour that is assigned comes from a list of the callback of the instruction's colour. -/
theorem applyLoopDependentColor_eq_ok {iterColor : String} {st' : ColorState}
    (h : applyLoopDependentColor st instr iter = ok (iterColor, st')) :
    ∃ color config deviceCallback devices, instr.color = some color ∧
      st.partition.configForColor color = ok config ∧
      config.taskOptions.loopDependentDevices = some deviceCallback ∧
      deviceCallback iter = ok devices := by
  unfold applyLoopDependentColor at h
  split at h
  · cases h
  · rename_i color hcolor
    obtain ⟨config, hconfig, h⟩ := bind_eq_ok.mp h
    split at h
    · cases h
    · rename_i deviceCallback hcallback
      obtain ⟨devices, hdevices, -⟩ := bind_eq_ok.mp h
      exact ⟨color, config, deviceCallback, devices, hcolor, hconfig, hcallback, hdevices⟩

end outcomes

/-- A colour that is assigned leaves every clone registered with its devices. -/
theorem applyLoopDependentColor_keeps {st st' : ColorState} {instr : HloInstruction} {iter : ℤ}
    {iterColor : String} (hst : ClonesRegistered st)
    (h : applyLoopDependentColor st instr iter = ok (iterColor, st')) : ClonesRegistered st' := by
  obtain ⟨color, config, deviceCallback, devices, hcolor, hconfig, hcallback, hdevices⟩ :=
    applyLoopDependentColor_eq_ok h
  by_cases hbad : devices = [] ∨ devices.length ≠ config.devices.size
  · obtain ⟨reason, hfatal⟩ :=
      applyLoopDependentColor_fatal hcolor hconfig hcallback hdevices hbad
    rw [hfatal] at h
    cases h
  · rw [not_or, not_not] at hbad
    obtain ⟨start, rest, rfl⟩ := List.exists_cons_of_ne_nil hbad.1
    by_cases htaken : NameTaken st color ⟨start, (start :: rest).length⟩
    · obtain ⟨e, he⟩ :=
        applyLoopDependentColor_error hcolor hconfig hcallback hdevices hbad.2 htaken
      rw [he] at h
      cases h
    · obtain ⟨c, s, hok, hs, -⟩ :=
        applyLoopDependentColor_ok hst hcolor hconfig hcallback hdevices hbad.2 htaken
      rw [hok] at h
      obtain ⟨rfl, rfl⟩ := Prod.mk.inj (ok.inj h)
      exact hs

theorem applyLoopDependentColors_keeps {p : HloPartition} {instrs : List (HloInstruction × ℤ)}
    {st : ColorState} (h : applyLoopDependentColors { partition := p } instrs = ok st) :
    ClonesRegistered st := by
  apply foldlM_invariant ClonesRegistered h
  · intro key iterColor hlookup
    cases hlookup
  · intro x _ c c' hc hstep
    obtain ⟨⟨iterColor, st'⟩, happly, hrest⟩ := bind_eq_ok.mp hstep
    obtain rfl := ok.inj hrest
    exact applyLoopDependentColor_keeps hc happly

end LoopUnroll

end MultiMeshJax
