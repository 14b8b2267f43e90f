import MultiMeshJax.HloPartition

/-! Tasks that are matched by the name in an instruction's metadata. -/
namespace MultiMeshJax

/-- A registered task: the expression that matches names, and the callback that gives the
options of a matched name. An exception of the callback is an `error`. -/
structure NamedTask where
  pattern : String
  callback : String → Bool → StatusOr TaskOptions

/-- The registered tasks, by context, the innermost first, with the matching of `RE2`. -/
structure NamedTaskContexts where
  enableMetadataNameTasks : Bool := true
  contexts : List (List NamedTask)
  partialMatch : String → String → Option String

namespace NamedTaskContexts

def kJvpTransposeMetadata : String := "transpose(jvp"

/-- The first task that matches, with the name that it matches. -/
def find (tasks : NamedTaskContexts) (opName : String) : Option (NamedTask × String) :=
  tasks.contexts.flatten.findSome? fun task =>
    (tasks.partialMatch opName task.pattern).map fun matchedName => (task, matchedName)

def isBackprop (opName : String) : Bool :=
  decide (kJvpTransposeMetadata.toList <:+: opName.toList)

end NamedTaskContexts

namespace HloPartition

open StatusOr

/-- The colour of a task with these options, which is allocated if its name is new. -/
def colorOfOptions (p : HloPartition) (matchedName : String) (backprop : Bool)
    (options : TaskOptions) : StatusOr (String × HloPartition) :=
  match options.name, options.devices with
  | none, _ => error ("matcher " ++ matchedName ++ " produed TaskOptions with no name specified")
  | some name, [] =>
    error (matchedName ++ " with color " ++ name ++ " returned empty device vector")
  | some name, start :: rest =>
    let dl : DeviceList := ⟨start, (start :: rest).length⟩
    match p.colors.lookup name with
    | some config =>
      if dl ≠ config.devices then
        error ("task " ++ matchedName ++ " on color " ++ name ++
          " was previously allocated with different device list, cannot " ++
          "have multiple submeshes for a color")
      else return (name, p)
    | none =>
      let (uniquifiedName, p) :=
        p.allocateColor { name := name, devices := dl, taskOptions := options }
      if uniquifiedName ≠ name then
        error ("color " ++ name ++ " was already allocated with mismatched " ++
          "config, cannot reallocate")
      else do
        let config ← p.configForColor name
        return (name, { p with
          colors := (name, { config with backprop := backprop }) :: p.colors
          matchedColors := ((matchedName, backprop), name) :: p.matchedColors })

def computeMetadataNameColor (p : HloPartition) (tasks : NamedTaskContexts) (opName : String) :
    StatusOr (Option String × HloPartition) :=
  if !tasks.enableMetadataNameTasks || opName.isEmpty then return (none, p)
  else
    match tasks.find opName with
    | none => return (none, p)
    | some (task, matchedName) =>
      if matchedName.isEmpty then
        error ("matcher '" ++ task.pattern ++ " produced an empty match on " ++ opName)
      else
        match p.matchedColors.lookup (matchedName, NamedTaskContexts.isBackprop opName) with
        | some color => return (some color, p)
        | none => do
          let options ← task.callback matchedName (NamedTaskContexts.isBackprop opName)
          let (color, p) ←
            p.colorOfOptions matchedName (NamedTaskContexts.isBackprop opName) options
          return (some color, p)

/-- The options that the callback gives for a name that is matched for the first time. -/
def metadataOptions (p : HloPartition) (tasks : NamedTaskContexts) (opName : String) :
    Option TaskOptions :=
  if !tasks.enableMetadataNameTasks || opName.isEmpty then none
  else (tasks.find opName).bind fun (task, matchedName) =>
    if matchedName.isEmpty ||
        (p.matchedColors.lookup (matchedName, NamedTaskContexts.isBackprop opName)).isSome then none
    else (task.callback matchedName (NamedTaskContexts.isBackprop opName)).toOption

/-- The name that the first task to match finds. -/
def matchedName (tasks : NamedTaskContexts) (opName : String) : String :=
  ((tasks.find opName).map Prod.snd).getD ""

theorem computeMetadataNameColor_of_options {p : HloPartition} {tasks : NamedTaskContexts}
    {opName : String} {options : TaskOptions} (h : p.metadataOptions tasks opName = some options) :
    p.computeMetadataNameColor tasks opName = do
      let (color, p) ← p.colorOfOptions (matchedName tasks opName)
        (NamedTaskContexts.isBackprop opName) options
      return (some color, p) := by
  unfold metadataOptions at h
  unfold computeMetadataNameColor
  split at h
  · cases h
  · rename_i henabled
    obtain ⟨⟨task, name⟩, hfind, h⟩ := Option.bind_eq_some_iff.mp h
    simp only at h
    split at h
    · cases h
    · rename_i hnew
      simp only [Bool.or_eq_true, not_or, Bool.not_eq_true, Option.isSome_eq_false_iff,
        Option.isNone_iff_eq_none] at hnew
      rw [if_neg henabled]
      simp only [hfind, hnew.1, hnew.2, Bool.false_eq_true, if_false, toOption_eq_some.mp h,
        ok_bind, matchedName, Option.map_some, Option.getD_some]

/-- Without options of a callback, the registry stays as it is. -/
theorem computeMetadataNameColor_of_none {p p' : HloPartition} {tasks : NamedTaskContexts}
    {opName : String} {color : Option String} (hnone : p.metadataOptions tasks opName = none)
    (h : p.computeMetadataNameColor tasks opName = ok (color, p')) : p' = p := by
  unfold metadataOptions at hnone
  unfold computeMetadataNameColor at h
  split at h
  · exact (Prod.mk.inj (ok.inj h)).2.symm
  · rename_i henabled
    rw [if_neg henabled] at hnone
    split at h
    · exact (Prod.mk.inj (ok.inj h)).2.symm
    · rename_i task name hfind
      split at h
      · cases h
      · rename_i hname
        split at h
        · exact (Prod.mk.inj (ok.inj h)).2.symm
        · rename_i hmatched
          obtain ⟨options, hoptions, -⟩ := bind_eq_ok.mp h
          rw [hfind] at hnone
          simp [hname, hmatched, hoptions, toOption] at hnone

theorem uniquify_of_new {p : HloPartition} {name : String} (h : p.colors.lookup name = none) :
    p.uniquify name = name := by
  simp [uniquify, h]

section outcomes

variable {p : HloPartition} {matchedName : String} {backprop : Bool} {options : TaskOptions}

/-- A task without a name or devices, and one with a known name and other devices, are
rejected. -/
theorem colorOfOptions_error
    (h : options.name = none ∨ options.devices = [] ∨ ∃ name start rest config,
      options.name = some name ∧ options.devices = start :: rest ∧
      p.colors.lookup name = some config ∧ config.devices ≠ ⟨start, (start :: rest).length⟩) :
    ∃ e, p.colorOfOptions matchedName backprop options = error e := by
  unfold colorOfOptions
  rcases h with hname | hdevices | ⟨name, start, rest, config, hname, hdevices, hknown, hne⟩
  · rw [hname]
    exact ⟨_, rfl⟩
  · rw [hdevices]
    cases options.name with
    | none => exact ⟨_, rfl⟩
    | some name => exact ⟨_, rfl⟩
  · rw [hname, hdevices]
    simp only [hknown]
    rw [if_pos hne.symm]
    exact ⟨_, rfl⟩

theorem colorOfOptions_of_known {name : String} {start : ℕ} {rest : List ℕ}
    {config : ColorConfig} (hname : options.name = some name)
    (hdevices : options.devices = start :: rest) (hknown : p.colors.lookup name = some config)
    (hsame : config.devices = ⟨start, (start :: rest).length⟩) :
    p.colorOfOptions matchedName backprop options = ok (name, p) := by
  unfold colorOfOptions
  rw [hname, hdevices]
  simp only [hknown, hsame, ne_eq, not_true_eq_false, if_false, pure_eq]

/-- The registry with the colour of a task whose name is new. -/
def withTask (p : HloPartition) (matchedName name : String) (backprop : Bool)
    (devices : DeviceList) (options : TaskOptions) : HloPartition :=
  let q := (p.allocateColor { name := name, devices := devices, taskOptions := options }).2
  { q with
    colors := (name, { name := name, devices := devices, backprop := backprop,
                       taskOptions := options }) :: q.colors
    matchedColors := ((matchedName, backprop), name) :: q.matchedColors }

theorem colorOfOptions_of_new {name : String} {start : ℕ} {rest : List ℕ}
    (hname : options.name = some name) (hdevices : options.devices = start :: rest)
    (hnew : p.colors.lookup name = none) :
    p.colorOfOptions matchedName backprop options =
      ok (name, p.withTask matchedName name backprop ⟨start, (start :: rest).length⟩ options) := by
  unfold colorOfOptions withTask
  rw [hname, hdevices]
  simp only [hnew, allocateColor, uniquify_of_new hnew, ne_eq, not_true_eq_false, if_false,
    configForColor, List.lookup_cons_self, deref_some, ok_bind, pure_eq]

/-- A task's colour leaves the registry as it is, or is registered under a new name. -/
theorem colorOfOptions_cases {q : HloPartition} {color : String}
    (h : p.colorOfOptions matchedName backprop options = ok (color, q)) :
    q = p ∨ ∃ name devices, p.colors.lookup name = none ∧
      q = p.withTask matchedName name backprop devices options := by
  by_cases hbad : options.name = none ∨ options.devices = []
  · have herror := @colorOfOptions_error p matchedName backprop options
    obtain ⟨e, he⟩ := herror (hbad.imp_right .inl)
    rw [he] at h
    cases h
  · rw [not_or] at hbad
    obtain ⟨name, hname⟩ := Option.ne_none_iff_exists'.mp hbad.1
    obtain ⟨start, rest, hdevices⟩ := List.exists_cons_of_ne_nil hbad.2
    cases hcolor : p.colors.lookup name with
    | none =>
      rw [colorOfOptions_of_new hname hdevices hcolor] at h
      exact .inr ⟨name, _, hcolor, (Prod.mk.inj (ok.inj h)).2.symm⟩
    | some config =>
      by_cases hsame : config.devices = ⟨start, (start :: rest).length⟩
      · rw [colorOfOptions_of_known hname hdevices hcolor hsame] at h
        exact .inl (Prod.mk.inj (ok.inj h)).2.symm
      · have herror := @colorOfOptions_error p matchedName backprop options
        obtain ⟨e, he⟩ :=
          herror (.inr (.inr ⟨name, start, rest, config, hname, hdevices, hcolor, hsame⟩))
        rw [he] at h
        cases h

end outcomes

end HloPartition

end MultiMeshJax
