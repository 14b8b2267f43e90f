import MultiMeshJax.UniquifyColors.Pass
import MultiMeshJax.HloPartition.Registry

/-! When the new colours are unique and have the devices of the old ones. -/
namespace MultiMeshJax
namespace UniquifyColors

open StatusOr Coloring

section steps

/-- The pass handles the calls and the parameters of the computations that it visits. -/
inductive Step where
  | call (comp : HloComputation) (call : HloInstruction)
  | parameter (param : HloInstruction)

def Step.instruction : Step → HloInstruction
  | call _ i => i
  | parameter i => i

def stepsOf (comp : HloComputation) : List Step :=
  (comp.instructions.filter HloInstruction.isCall).map (Step.call comp) ++
    comp.parameterInstructions.map Step.parameter

variable (moduleName : String) (program : HloProgram)

def handle (st : State) : Step → StatusOr State
  | .call comp i => visitCall moduleName program comp st i
  | .parameter i => return visitParameter st i

/-- The computations in the order of the visits. -/
def visits : ℕ → List HloComputation → StatusOr (List HloComputation)
  | _, [] => return []
  | 0, _ :: _ => fatal "more visits than the fuel allows"
  | fuel + 1, comp :: toVisit => do
    let bodies ← loopBodies program comp
    let comps ← visits fuel (bodies.reverse ++ toVisit)
    return comp :: comps

def steps (fuel : ℕ) : StatusOr (List Step) := do
  let comps ← visits program fuel [program.entry]
  return comps.flatMap stepsOf

/-- The task calls, in the order of the visits. -/
def taskCalls (steps : List Step) : List HloInstruction :=
  steps.filterMap fun s =>
    match s with
    | .call _ i => some i
    | .parameter _ => none

theorem visitComputation_eq (st : State) (comp : HloComputation) :
    visitComputation moduleName program st comp =
      (stepsOf comp).foldlM (handle moduleName program) st := by
  have hparams : ∀ (params : List HloInstruction) (st : State),
      (params.map Step.parameter).foldlM (handle moduleName program) st =
        ok (params.foldl visitParameter st) := by
    intro params
    induction params with
    | nil => intro st; rfl
    | cons param params ih =>
      intro st
      rw [List.map_cons, List.foldlM_cons, List.foldl_cons, ← ih]
      rfl
  simp only [visitComputation, stepsOf, List.foldlM_append, List.foldlM_map, hparams]
  rfl

theorem visitAll_eq_ok {fuel : ℕ} {toVisit : List HloComputation} {st st' : State}
    (h : visitAll moduleName program fuel toVisit st = ok st') :
    ∃ comps, visits program fuel toVisit = ok comps ∧
      (comps.flatMap stepsOf).foldlM (handle moduleName program) st = ok st' := by
  induction fuel generalizing toVisit st with
  | zero =>
    match toVisit with
    | [] => exact ⟨[], rfl, h⟩
    | _ :: _ => cases h
  | succ fuel ih =>
    match toVisit with
    | [] => exact ⟨[], rfl, h⟩
    | comp :: toVisit =>
      obtain ⟨st₁, hcomp, h⟩ := bind_eq_ok.mp h
      obtain ⟨bodies, hbodies, h⟩ := bind_eq_ok.mp h
      obtain ⟨comps, hcomps, hrun⟩ := ih h
      refine ⟨comp :: comps, ?_, ?_⟩
      · show (loopBodies program comp >>= fun bodies => _) = _
        rw [hbodies, ok_bind, hcomps, ok_bind, pure_eq]
      · rw [visitComputation_eq] at hcomp
        rw [List.flatMap_cons, List.foldlM_append, hcomp, ok_bind, hrun]

end steps

section colors

theorem assignColors_apply (color : String) (ids : List ℕ) (colors : Colors) (id : ℕ) :
    assignColors color ids colors id = if id ∈ ids then some color else colors id := by
  induction ids generalizing colors with
  | nil => simp [assignColors]
  | cons head ids ih =>
    have hfold : assignColors color (head :: ids) colors =
        assignColors color ids (assignColor colors head color) := rfl
    rw [hfold, ih]
    by_cases hmem : id ∈ ids
    · simp [hmem]
    · by_cases hhead : id = head
      · simp [hhead, assignColor]
      · simp [hmem, hhead, assignColor]

/-- The devices and the criticality of a colour. -/
def configOf (p : HloPartition) (color : String) : Option (DeviceList × Bool) :=
  (p.colors.lookup color).map fun config => (config.devices, config.noncritical)

/-- The instruction goes with the call. -/
def GoesWith (program : HloProgram) (comp : HloComputation) (call : HloInstruction) (id : ℕ) :
    Prop :=
  ∃ related, recolored program comp call = ok related ∧ id ∈ related

/-- A call or parameter that was handled before has the colour of the call. -/
def SameColorBefore (done : List Step) (call : HloInstruction) : Prop :=
  ∃ s ∈ done, ∃ color, s.instruction.color = some color ∧ call.color = some color

/-- The call has a colour that was handled before, or one of the form of a name that is
generated for such a colour. -/
def MayBeRenamed (done : List Step) (call : HloInstruction) : Prop :=
  SameColorBefore done call ∨ ∃ s ∈ done, ∃ color n, s.instruction.color = some color ∧
    call.color = some (generatedName n color)

/-- The instruction goes with a call that gets a new colour. -/
def RenamedWith (program : HloProgram) (steps : List Step) (id : ℕ) : Prop :=
  ∃ done comp call, done ++ [.call comp call] <+: steps ∧ SameColorBefore done call ∧
    GoesWith program comp call id

/-- A name that can be generated for a call, at a time when no call or parameter of this
colour was handled. -/
def MayBeGenerated (steps : List Step) (name color : String) : Prop :=
  ∃ done comp call n, done ++ [.call comp call] <+: steps ∧ MayBeRenamed done call ∧
    call.color = some color ∧ name = generatedName n color ∧
      ∀ s ∈ done, s.instruction.color ≠ some name

/-- When a new colour for each call leaves every instruction with the devices it had. -/
structure Recolorable (program : HloProgram) (p : HloPartition) (steps : List Step) : Prop where
  once : ((taskCalls steps).map HloInstruction.id).Nodup
  apart : ∀ done comp call, done ++ [.call comp call] <+: steps → MayBeRenamed done call →
    ∀ s ∈ steps, ¬ GoesWith program comp call s.instruction.id
  agrees : ∀ done comp call, done ++ [.call comp call] <+: steps → MayBeRenamed done call →
    ∀ k ∈ program.instructions, GoesWith program comp call k.id →
      ∀ color color', k.color = some color → call.color = some color' →
        configOf p color = configOf p color'
  complete : ∀ k ∈ program.instructions, ∀ color, k.color = some color →
    (∃ s ∈ steps, s.instruction.color = some color) ∨ RenamedWith program steps k.id
  clash : ∀ k ∈ program.instructions, k.id ∉ (taskCalls steps).map HloInstruction.id →
    ¬ RenamedWith program steps k.id → ∀ name color, k.color = some name →
      MayBeGenerated steps name color → configOf p name = configOf p color

end colors

section invariant

variable {moduleName : String} {program : HloProgram} {p : HloPartition} {steps done : List Step}
  {st st' : State}

def names (st : State) : List String := st.colorMap.map Prod.fst

/-- What the map and the colours say after some of the steps. -/
structure Invariant (program : HloProgram) (p : HloPartition) (steps done : List Step)
    (st : State) : Prop where
  keys : ∀ s ∈ done, ∀ color, s.instruction.color = some color → color ∈ names st
  nodup : (names st).Nodup
  entries : ∀ entry ∈ st.colorMap, (∃ s ∈ done, s.instruction.color = some entry.2) ∧
    (entry.1 = entry.2 ∨ MayBeGenerated done entry.1 entry.2)
  pending : ∀ s ∈ steps, s.instruction.id ∉ (taskCalls done).map HloInstruction.id →
    st.colors s.instruction.id = s.instruction.color
  handled : ∀ i ∈ taskCalls done, ∃ entry ∈ st.colorMap,
    st.colors i.id = some entry.1 ∧ i.color = some entry.2
  unique : ∀ i ∈ taskCalls done, ∀ j ∈ taskCalls done, i.id ≠ j.id →
    st.colors i.id ≠ st.colors j.id
  others : ∀ k ∈ program.instructions, k.id ∉ (taskCalls steps).map HloInstruction.id →
    (st.colors k.id = k.color ∧ ¬ RenamedWith program done k.id) ∨
      ∃ entry ∈ st.colorMap, st.colors k.id = some entry.1 ∧
        ∀ color, k.color = some color → configOf p color = configOf p entry.2

theorem MayBeGenerated.mono {name color : String} {done' : List Step}
    (h : MayBeGenerated done name color) (hinitial : done <+: done') :
    MayBeGenerated done' name color := by
  obtain ⟨before, comp, call, n, hbefore, hrest⟩ := h
  exact ⟨before, comp, call, n, hbefore.trans hinitial, hrest⟩

theorem RenamedWith.mono {id : ℕ} {done' : List Step} (h : RenamedWith program done id)
    (hinitial : done <+: done') : RenamedWith program done' id := by
  obtain ⟨before, comp, call, hbefore, hrest⟩ := h
  exact ⟨before, comp, call, hbefore.trans hinitial, hrest⟩

/-- A call that is handled last is the one that renames, or an earlier one is. -/
theorem renamedWith_concat {s : Step} {id : ℕ} (h : RenamedWith program (done ++ [s]) id) :
    RenamedWith program done id ∨ ∃ comp call, s = .call comp call ∧ SameColorBefore done call ∧
      GoesWith program comp call id := by
  obtain ⟨before, comp, call, hbefore, hsame, hgoes⟩ := h
  rcases List.prefix_concat_iff.mp hbefore with heq | hbefore
  · obtain ⟨rfl, hlast⟩ := List.append_inj' heq rfl
    exact .inr ⟨comp, call, (List.singleton_inj.mp hlast).symm, hsame, hgoes⟩
  · exact .inl ⟨before, comp, call, hbefore, hsame, hgoes⟩

theorem taskCalls_append (done rest : List Step) :
    taskCalls (done ++ rest) = taskCalls done ++ taskCalls rest := List.filterMap_append

@[simp] theorem taskCalls_call (comp : HloComputation) (call : HloInstruction) :
    taskCalls [.call comp call] = [call] := rfl

@[simp] theorem taskCalls_parameter (param : HloInstruction) :
    taskCalls [.parameter param] = [] := rfl

theorem exists_step_of_mem_taskCalls {i : HloInstruction} (h : i ∈ taskCalls steps) :
    ∃ comp, .call comp i ∈ steps := by
  obtain ⟨s, hs, heq⟩ := List.mem_filterMap.mp h
  cases s with
  | call comp i' => exact ⟨comp, Option.some.inj heq ▸ hs⟩
  | parameter _ => cases heq

theorem mem_taskCalls_of_prefix {i : HloInstruction} (h : done <+: steps)
    (hi : i ∈ taskCalls done) : i ∈ taskCalls steps := by
  obtain ⟨rest, rfl⟩ := h
  rw [taskCalls_append]
  exact List.mem_append_left _ hi

/-- A call is not among the calls before it. -/
theorem Recolorable.id_ne (hsafe : Recolorable program p steps) {comp : HloComputation}
    {call i : HloInstruction} (hinitial : done ++ [.call comp call] <+: steps)
    (hi : i ∈ taskCalls done) : i.id ≠ call.id := by
  obtain ⟨rest, rfl⟩ := hinitial
  have honce := hsafe.once
  rw [taskCalls_append, List.map_append, taskCalls_append, List.map_append] at honce
  have hnodup := (List.nodup_append.mp honce).1
  exact (List.nodup_append.mp hnodup).2.2 i.id (List.mem_map_of_mem hi) call.id (by simp)

/-- No call that was handled has a name that is not a key. -/
theorem Invariant.color_ne (hinv : Invariant program p steps done st) {i : HloInstruction}
    {new : String} (hi : i ∈ taskCalls done) (hnew : new ∉ names st) :
    st.colors i.id ≠ some new := by
  intro heq
  obtain ⟨entry, hentry, hname, -⟩ := hinv.handled i hi
  have hkey : entry.1 ∈ names st := List.mem_map_of_mem hentry
  rw [hname, Option.some.injEq] at heq
  exact hnew (heq ▸ hkey)

/-- A colour that is a key was handled, or is of the form of a generated name. -/
theorem Invariant.mayBeRenamed (hinv : Invariant program p steps done st) {call : HloInstruction}
    {color : String} (hcolor : call.color = some color) (hkey : color ∈ names st) :
    MayBeRenamed done call := by
  obtain ⟨entry, hentry, rfl⟩ := List.mem_map.mp hkey
  obtain ⟨⟨s, hs, hold⟩, hname⟩ := hinv.entries entry hentry
  rcases hname with hname | ⟨_, _, _, n, _, _, _, hname, _⟩
  · exact .inl ⟨s, hs, entry.2, hold, hname ▸ hcolor⟩
  · exact .inr ⟨s, hs, entry.2, n, hold, hname ▸ hcolor⟩

/-- A step that adds a new name and leaves the colours alone. -/
theorem Invariant.add {s : Step} {color : String} (hinv : Invariant program p steps done st)
    (hcolor : s.instruction.color = some color) (hnew : color ∉ names st)
    (hs : ∀ i ∈ taskCalls [s], i = s.instruction) (hmem : s ∈ steps)
    (hpending : s.instruction.id ∉ (taskCalls done).map HloInstruction.id) :
    Invariant program p steps (done ++ [s]) { st with colorMap := (color, color) :: st.colorMap } := by
  have hinitial : done <+: done ++ [s] := List.prefix_append _ _
  have hcurrent := hinv.pending s hmem hpending
  have hsplit : ∀ i ∈ taskCalls (done ++ [s]), i ∈ taskCalls done ∨ i = s.instruction := by
    intro i hi
    rw [taskCalls_append, List.mem_append] at hi
    exact hi.imp_right (hs i)
  refine ⟨?_, List.nodup_cons.mpr ⟨hnew, hinv.nodup⟩, ?_, ?_, ?_, ?_, ?_⟩
  · intro s' hs' color' hcolor'
    rcases List.mem_append.mp hs' with hs' | hs'
    · exact List.mem_cons_of_mem _ (hinv.keys s' hs' color' hcolor')
    · rw [List.mem_singleton.mp hs', hcolor] at hcolor'
      exact Option.some.inj hcolor' ▸ List.mem_cons_self
  · intro entry hentry
    rcases List.mem_cons.mp hentry with rfl | hentry
    · exact ⟨⟨s, by simp, hcolor⟩, .inl rfl⟩
    · obtain ⟨⟨s', hs', hold'⟩, hname⟩ := hinv.entries entry hentry
      exact ⟨⟨s', List.mem_append_left _ hs', hold'⟩, hname.imp_right fun h => h.mono hinitial⟩
  · intro s' hs' hpending'
    apply hinv.pending s' hs'
    intro hin
    rw [taskCalls_append, List.map_append] at hpending'
    exact hpending' (List.mem_append_left _ hin)
  · intro i hi
    rcases hsplit i hi with hi | rfl
    · obtain ⟨entry, hentry, hrest⟩ := hinv.handled i hi
      exact ⟨entry, List.mem_cons_of_mem _ hentry, hrest⟩
    · exact ⟨_, List.mem_cons_self, hcurrent.trans hcolor, hcolor⟩
  · intro i hi j hj hne
    rcases hsplit i hi with hi | rfl <;> rcases hsplit j hj with hj | rfl
    · exact hinv.unique i hi j hj hne
    · exact fun heq => hinv.color_ne hi hnew (heq.trans (hcurrent.trans hcolor))
    · exact fun heq => hinv.color_ne hj hnew (heq.symm.trans (hcurrent.trans hcolor))
    · exact absurd rfl hne
  · intro k hk hcall
    rcases hinv.others k hk hcall with ⟨hkept, hnot⟩ | ⟨entry, hentry, hrest⟩
    · refine .inl ⟨hkept, fun hrenamed => ?_⟩
      rcases renamedWith_concat hrenamed with hrenamed | ⟨comp, call, rfl, hsame, -⟩
      · exact hnot hrenamed
      · obtain ⟨s', hs', color', hcolor', hcall'⟩ := hsame
        obtain rfl : color = color' := Option.some.inj (hcolor.symm.trans hcall')
        exact hnew (hinv.keys s' hs' color hcolor')
    · exact .inr ⟨entry, List.mem_cons_of_mem _ hentry, hrest⟩

/-- A parameter whose colour is known, or that has none. -/
theorem Invariant.skip {param : HloInstruction} (hinv : Invariant program p steps done st)
    (hknown : ∀ color, param.color = some color → color ∈ names st) :
    Invariant program p steps (done ++ [.parameter param]) st := by
  have hinitial : done <+: done ++ [.parameter param] := List.prefix_append _ _
  have hcalls : taskCalls (done ++ [.parameter param]) = taskCalls done := by
    rw [taskCalls_append, taskCalls_parameter, List.append_nil]
  refine ⟨?_, hinv.nodup, ?_, hcalls ▸ hinv.pending, hcalls ▸ hinv.handled,
    hcalls ▸ hinv.unique, ?_⟩
  · intro s hs color hcolor
    rcases List.mem_append.mp hs with hs | hs
    · exact hinv.keys s hs color hcolor
    · rw [List.mem_singleton.mp hs] at hcolor
      exact hknown color hcolor
  · intro entry hentry
    obtain ⟨⟨s, hs, hold⟩, hname⟩ := hinv.entries entry hentry
    exact ⟨⟨s, List.mem_append_left _ hs, hold⟩, hname.imp_right fun h => h.mono hinitial⟩
  · intro k hk hcall
    refine (hinv.others k hk hcall).imp_left fun ⟨hkept, hnot⟩ => ⟨hkept, fun hrenamed => ?_⟩
    rcases renamedWith_concat hrenamed with hrenamed | ⟨_, _, hparam, _⟩
    · exact hnot hrenamed
    · cases hparam

/-- A call that gets a generated name, and the instructions that go with it. -/
theorem Invariant.rename {comp : HloComputation} {call : HloInstruction} {color : String} {n : ℕ}
    {related : List ℕ} (hsafe : Recolorable program p steps)
    (hinv : Invariant program p steps done st) (hinitial : done ++ [.call comp call] <+: steps)
    (hcolor : call.color = some color) (hkey : color ∈ names st)
    (hnew : generatedName n color ∉ names st) (hrelated : recolored program comp call = ok related) :
    Invariant program p steps (done ++ [.call comp call])
      ⟨assignColors (generatedName n color) (related ++ [call.id]) st.colors,
        (generatedName n color, color) :: st.colorMap⟩ := by
  set new := generatedName n color
  have hmay := hinv.mayBeRenamed hcolor hkey
  have hdone : done <+: done ++ [.call comp call] := List.prefix_append _ _
  have hcalls : taskCalls (done ++ [.call comp call]) = taskCalls done ++ [call] := by
    rw [taskCalls_append, taskCalls_call]
  have hsub : ∀ i ∈ taskCalls (done ++ [.call comp call]), i ∈ taskCalls steps := fun i hi =>
    mem_taskCalls_of_prefix hinitial hi
  have happly : ∀ id, assignColors new (related ++ [call.id]) st.colors id =
      if id ∈ related ∨ id = call.id then some new else st.colors id := by
    intro id
    rw [assignColors_apply]
    simp only [List.mem_append, List.mem_singleton]
  generalize assignColors new (related ++ [call.id]) st.colors = colors at happly
  -- the steps that are still to come, and the calls before, keep their colours
  have hapart : ∀ s ∈ steps, s.instruction.id ∉ related := fun s hs hmem =>
    hsafe.apart done comp call hinitial hmay s hs ⟨related, hrelated, hmem⟩
  have hkeep : ∀ i ∈ taskCalls done, colors i.id = st.colors i.id := by
    intro i hi
    obtain ⟨_, hs⟩ := exists_step_of_mem_taskCalls (hsub i (hcalls ▸ List.mem_append_left _ hi))
    have hnot : i.id ∉ related := hapart _ hs
    rw [happly, if_neg (not_or.mpr ⟨hnot, hsafe.id_ne hinitial hi⟩)]
  have hself : colors call.id = some new := by rw [happly, if_pos (.inr rfl)]
  refine ⟨?_, List.nodup_cons.mpr ⟨hnew, hinv.nodup⟩, ?_, ?_, ?_, ?_, ?_⟩
  · intro s hs color' hcolor'
    apply List.mem_cons_of_mem
    rcases List.mem_append.mp hs with hs | hs
    · exact hinv.keys s hs color' hcolor'
    · rw [List.mem_singleton.mp hs] at hcolor'
      obtain rfl : color = color' := Option.some.inj (hcolor.symm.trans hcolor')
      exact hkey
  · intro entry hentry
    rcases List.mem_cons.mp hentry with rfl | hentry
    · refine ⟨⟨.call comp call, by simp, hcolor⟩, .inr ?_⟩
      refine ⟨done, comp, call, n, List.prefix_rfl, hmay, hcolor, rfl, ?_⟩
      intro s hs heq
      exact hnew (hinv.keys s hs _ heq)
    · obtain ⟨⟨s, hs, hold⟩, hname⟩ := hinv.entries entry hentry
      exact ⟨⟨s, List.mem_append_left _ hs, hold⟩, hname.imp_right fun h => h.mono hdone⟩
  · intro s hs hpending
    rw [hcalls, List.map_append, List.mem_append, not_or] at hpending
    have hne : s.instruction.id ≠ call.id := by simpa using hpending.2
    show colors s.instruction.id = s.instruction.color
    rw [happly, if_neg (not_or.mpr ⟨hapart s hs, hne⟩)]
    exact hinv.pending s hs hpending.1
  · intro i hi
    rw [hcalls, List.mem_append, List.mem_singleton] at hi
    rcases hi with hi | rfl
    · obtain ⟨entry, hentry, hname, hold⟩ := hinv.handled i hi
      exact ⟨entry, List.mem_cons_of_mem _ hentry, (hkeep i hi).trans hname, hold⟩
    · exact ⟨_, List.mem_cons_self, hself, hcolor⟩
  · intro i hi j hj hne
    rw [hcalls, List.mem_append, List.mem_singleton] at hi hj
    show colors i.id ≠ colors j.id
    rcases hi with hi | rfl <;> rcases hj with hj | rfl
    · rw [hkeep i hi, hkeep j hj]
      exact hinv.unique i hi j hj hne
    · rw [hkeep i hi, hself]
      exact hinv.color_ne hi hnew
    · rw [hkeep j hj, hself]
      exact (hinv.color_ne hj hnew).symm
    · exact absurd rfl hne
  · intro k hk hcall
    by_cases hmem : k.id ∈ related
    · have hrenamed : colors k.id = some new := by rw [happly, if_pos (.inl hmem)]
      refine .inr ⟨_, List.mem_cons_self, hrenamed, ?_⟩
      intro color' hcolor'
      exact hsafe.agrees done comp call hinitial hmay k hk ⟨related, hrelated, hmem⟩ color' color
        hcolor' hcolor
    · have hne : k.id ≠ call.id := by
        intro heq
        apply hcall
        rw [heq]
        exact List.mem_map_of_mem (hsub call (by simp [hcalls]))
      have hsame : colors k.id = st.colors k.id := by
        rw [happly, if_neg (not_or.mpr ⟨hmem, hne⟩)]
      rcases hinv.others k hk hcall with ⟨hkept, hnot⟩ | ⟨entry, hentry, hname, hold⟩
      · refine .inl ⟨hsame.trans hkept, fun hrenamed => ?_⟩
        rcases renamedWith_concat hrenamed with hrenamed | ⟨_, _, heq, -, _, hgoes, hin⟩
        · exact hnot hrenamed
        · cases heq
          exact hmem (ok.inj (hrelated.symm.trans hgoes) ▸ hin)
      · exact .inr ⟨entry, List.mem_cons_of_mem _ hentry, hsame.trans hname, hold⟩

/-- One step of the pass. -/
theorem Invariant.handle (hsafe : Recolorable program p steps)
    (hinv : Invariant program p steps done st) {s : Step} (hinitial : done ++ [s] <+: steps)
    (hparams : ∀ param, s = .parameter param →
      param.id ∉ (taskCalls steps).map HloInstruction.id)
    (h : handle moduleName program st s = ok st') :
    Invariant program p steps (done ++ [s]) st' := by
  have hmem : s ∈ steps := hinitial.subset (by simp)
  have hdone : done <+: steps := (List.prefix_append _ _).trans hinitial
  cases s with
  | call comp call =>
    have hpending : call.id ∉ (taskCalls done).map HloInstruction.id := by
      intro hin
      obtain ⟨i, hi, heq⟩ := List.mem_map.mp hin
      exact hsafe.id_ne hinitial hi heq
    have hcurrent : st.colors call.id = call.color := hinv.pending _ hmem hpending
    simp only [UniquifyColors.handle, visitCall, hcurrent] at h
    split at h
    · cases h
    · rename_i color hcolor
      obtain ⟨new, hnew, h⟩ := bind_eq_ok.mp h
      obtain ⟨related, hrelated, h⟩ := bind_eq_ok.mp h
      obtain ⟨hfresh, hname⟩ := newColor_eq_ok hnew
      split at h
      · rename_i hne
        obtain ⟨hkey, n, rfl⟩ := hname.resolve_left hne
        obtain rfl := ok.inj h
        exact hinv.rename hsafe hinitial hcolor hkey hfresh hrelated
      · rename_i hsame
        obtain rfl := ok.inj h
        obtain rfl := not_not.mp hsame
        refine hinv.add hcolor hfresh ?_ hmem hpending
        intro i hi
        exact List.mem_singleton.mp hi
  | parameter param =>
    have hpending : param.id ∉ (taskCalls done).map HloInstruction.id := by
      intro hin
      obtain ⟨i, hi, heq⟩ := List.mem_map.mp hin
      exact hparams param rfl (List.mem_map.mpr ⟨i, mem_taskCalls_of_prefix hdone hi, heq⟩)
    have hcurrent : st.colors param.id = param.color := hinv.pending _ hmem hpending
    obtain rfl := ok.inj h
    unfold visitParameter
    rw [hcurrent]
    cases hcolor : param.color with
    | none => exact hinv.skip (by simp [hcolor])
    | some color =>
      by_cases hkey : color ∈ names st
      · have hcontains : (st.colorMap.map Prod.fst).contains color = true := List.contains_iff_mem.mpr hkey
        simp only [hcontains, if_true]
        exact hinv.skip (by simpa [hcolor] using hkey)
      · have hcontains : (st.colorMap.map Prod.fst).contains color = false := by
          rw [← Bool.not_eq_true, List.contains_iff_mem]
          exact hkey
        simp only [hcontains, Bool.false_eq_true, if_false]
        exact hinv.add hcolor hkey (by simp) hmem hpending

end invariant

section registry

variable {p q : HloPartition}

theorem lookup_of_mem {m : List (String × String)} (hnodup : (m.map Prod.fst).Nodup)
    {entry : String × String} (h : entry ∈ m) : m.lookup entry.1 = some entry.2 := by
  induction m with
  | nil => cases h
  | cons head m ih =>
    rw [List.map_cons, List.nodup_cons] at hnodup
    rcases List.mem_cons.mp h with rfl | h
    · rw [List.lookup_cons, beq_self_eq_true]
    · have hne : entry.1 ≠ head.1 := by
        intro heq
        exact hnodup.1 (heq ▸ List.mem_map_of_mem h)
      rw [List.lookup_cons, beq_eq_false_iff_ne.mpr hne]
      exact ih hnodup.2 h

/-- The order of the hash map does not matter for what is found in it. -/
theorem lookup_hashEntries (hash : ColorHashOrder) {m : List (String × String)}
    (hnodup : (m.map Prod.fst).Nodup) {entry : String × String} (h : entry ∈ m) :
    entry ∈ hashEntries hash m ∧ (hashEntries hash m).lookup entry.1 = some entry.2 := by
  have hentry := lookup_of_mem hnodup h
  have hkeys : (hashEntries hash m).map Prod.fst = hash.order (m.map Prod.fst) := by
    unfold hashEntries
    have hknown : ∀ new ∈ hash.order (m.map Prod.fst), ∃ old, m.lookup new = some old := by
      intro new hnew
      obtain ⟨other, hother, rfl⟩ := List.mem_map.mp ((hash.perm _).mem_iff.mp hnew)
      exact ⟨_, lookup_of_mem hnodup hother⟩
    generalize hash.order (m.map Prod.fst) = order at hknown
    induction order with
    | nil => rfl
    | cons new order ih =>
      obtain ⟨old, hold⟩ := hknown new (by simp)
      have hrest := ih fun other hother => hknown other (List.mem_cons_of_mem _ hother)
      simp only [List.filterMap_cons, hold, Option.map_some, List.map_cons, hrest]
  have hmem : entry ∈ hashEntries hash m := by
    refine List.mem_filterMap.mpr ⟨entry.1, ?_, by rw [hentry, Option.map_some]⟩
    exact (hash.perm _).mem_iff.mpr (List.mem_map_of_mem h)
  refine ⟨hmem, lookup_of_mem ?_ hmem⟩
  rw [hkeys]
  exact (hash.perm _).nodup_iff.mpr hnodup

/-- A colour of the map is registered with the configuration of its old colour. -/
theorem configOf_recolor {m : List (String × String)} (h : p.recolor m = ok q)
    {entry : String × String} (hentry : entry ∈ m) (hlookup : m.lookup entry.1 = some entry.2) :
    ∃ config, configOf q entry.1 = some config ∧ configOf p entry.2 = some config := by
  have hnew := (HloPartition.recolor_eq_ok h).2 entry.1
  rw [hlookup, Option.bind_some] at hnew
  obtain ⟨configs, hconfigs, -⟩ := bind_eq_ok.mp h
  obtain ⟨k, hk⟩ := List.getElem?_of_mem hentry
  obtain ⟨config, -, hconfig⟩ := mapM_getElem? hconfigs hk
  dsimp only at hconfig
  split at hconfig
  · cases hconfig
  · rename_i known hknown
    exact ⟨(known.devices, known.noncritical), by rw [configOf, hnew, hknown, Option.map_some],
      by rw [configOf, hknown, Option.map_some]⟩

end registry

section run

variable {program : HloProgram} {fuel : ℕ}

theorem mem_computations_of_visits {toVisit comps : List HloComputation}
    (h : visits program fuel toVisit = ok comps)
    (htoVisit : ∀ comp ∈ toVisit, comp ∈ program.computations) :
    ∀ comp ∈ comps, comp ∈ program.computations := by
  induction fuel generalizing toVisit comps with
  | zero =>
    match toVisit with
    | [] =>
      obtain rfl := ok.inj h
      simp
    | _ :: _ => cases h
  | succ fuel ih =>
    match toVisit with
    | [] =>
      obtain rfl := ok.inj h
      simp
    | comp :: toVisit =>
      obtain ⟨bodies, hbodies, h⟩ := bind_eq_ok.mp h
      obtain ⟨rest, hrest, h⟩ := bind_eq_ok.mp h
      obtain rfl := ok.inj h
      have hcalled : ∀ body ∈ bodies, body ∈ program.computations := by
        intro body hbody
        obtain ⟨n, -, hn⟩ := exists_of_mem_mapM hbodies hbody
        exact HloProgram.mem_computations_of_called hn
      intro c hc
      rcases List.mem_cons.mp hc with rfl | hc
      · exact htoVisit _ (by simp)
      · apply ih hrest ?_ c hc
        intro c' hc'
        rcases List.mem_append.mp hc' with hc' | hc'
        · exact hcalled c' (List.mem_reverse.mp hc')
        · exact htoVisit c' (List.mem_cons_of_mem _ hc')

/-- The steps are about calls and parameters of the module. -/
theorem mem_instructions_of_steps {steps : List Step} (h : UniquifyColors.steps program fuel = ok steps)
    {s : Step} (hs : s ∈ steps) :
    s.instruction ∈ program.instructions ∧ (∀ comp i, s = .call comp i → i.isCall = true) ∧
      ∀ i, s = .parameter i → i.isParameter = true := by
  obtain ⟨comps, hcomps, h⟩ := bind_eq_ok.mp h
  obtain rfl := ok.inj h
  obtain ⟨comp, hcomp, hs⟩ := List.mem_flatMap.mp hs
  have hcomp := mem_computations_of_visits hcomps (by simp [HloProgram.computations]) comp hcomp
  have hmodule : ∀ i ∈ comp.instructions, i ∈ program.instructions := fun i hi =>
    HloProgram.mem_instructions hcomp hi
  rcases List.mem_append.mp hs with hs | hs
  · obtain ⟨i, hi, rfl⟩ := List.mem_map.mp hs
    obtain ⟨hi, hcall⟩ := List.mem_filter.mp hi
    exact ⟨hmodule i hi, fun _ _ h => (Step.call.inj h).2 ▸ hcall, fun _ h => by cases h⟩
  · obtain ⟨i, hi, rfl⟩ := List.mem_map.mp hs
    obtain ⟨hi, hparam⟩ := List.mem_filter.mp hi
    exact ⟨hmodule i hi, fun _ _ h => by (cases h), fun _ h => Step.parameter.inj h ▸ hparam⟩

theorem not_isCall_of_isParameter {i : HloInstruction} (h : i.isParameter = true) :
    ¬ i.isCall = true := by
  unfold HloInstruction.isParameter at h
  unfold HloInstruction.isCall
  cases hop : i.opcode <;> simp [hop] at h ⊢

end run

section twoCalls

def coloredInstruction (id : ℕ) (opcode : HloOpcode) (operands : List ℕ) (color : String) :
    HloInstruction :=
  { id := id, opcode := opcode, operands := operands, color := some color }

/-- Two calls of one colour, a parameter, and an instruction for a root tuple. -/
def twoCalls (paramColor rootColor : String) : HloProgram where
  entry :=
    { instructions := [coloredInstruction 0 (.parameter 0) [] paramColor,
        coloredInstruction 1 (.call 0) [0] "a", coloredInstruction 2 (.call 1) [0] "a",
        coloredInstruction 3 (.customCall kCustomCallRootTupleRecolor) [1] rootColor]
      root := 3 }
  called := [{ instructions := [coloredInstruction 10 (.parameter 0) [] "a"], root := 10 },
    { instructions := [coloredInstruction 20 (.parameter 0) [] "a"], root := 20 }]
  distinct := by
    show ([0, 1, 2, 3, 10, 20] : List ℕ).Nodup
    decide

def twoCallsPartition : HloPartition where
  devices := ⟨0, 2⟩
  colors := [("a", { name := "a", devices := ⟨0, 1⟩ }), ("0.a", { name := "0.a", devices := ⟨1, 1⟩ }),
    ("devices_0-2", { name := "devices_0-2", devices := ⟨0, 2⟩ })]

def twoCallsSteps : List Step :=
  [.call (twoCalls "a" "a").entry (coloredInstruction 1 (.call 0) [0] "a"),
    .call (twoCalls "a" "a").entry (coloredInstruction 2 (.call 1) [0] "a"),
    .parameter (coloredInstruction 0 (.parameter 0) [] "a")]

theorem recolorable_twoCalls :
    Recolorable (twoCalls "a" "a") twoCallsPartition twoCallsSteps := by
  have hcolors : ∀ k ∈ (twoCalls "a" "a").instructions, k.color = some "a" := by decide
  have hcalls : ∀ s ∈ twoCallsSteps, s.instruction.color = some "a" := by
    simp [twoCallsSteps, Step.instruction, coloredInstruction]
  have hmem : ∀ done comp call, done ++ [.call comp call] <+: twoCallsSteps →
      .call comp call ∈ twoCallsSteps := fun done comp call h => h.subset (by simp)
  refine ⟨by decide, ?_, ?_, ?_, ?_⟩
  · rintro done comp call hinitial - s hs ⟨related, hrelated, hin⟩
    have hcall := hmem done comp call hinitial
    simp only [twoCallsSteps, List.mem_cons, Step.call.injEq, reduceCtorEq, List.not_mem_nil,
      or_false] at hcall
    have hids : s.instruction.id ∈ [1, 2, 0] := by
      simp only [twoCallsSteps, List.mem_cons, List.not_mem_nil, or_false] at hs
      rcases hs with rfl | rfl | rfl <;> decide
    rcases hcall with ⟨rfl, rfl⟩ | ⟨rfl, rfl⟩
    · obtain rfl : [10, 3] = related := ok.inj hrelated
      simp only [List.mem_cons, List.not_mem_nil, or_false] at hids hin
      omega
    · obtain rfl : [20] = related := ok.inj hrelated
      simp only [List.mem_cons, List.not_mem_nil, or_false] at hids hin
      omega
  · intro done comp call hinitial _ k hk _ color color' hcolor hcolor'
    have hcall : call.color = some "a" := hcalls _ (hmem done comp call hinitial)
    rw [Option.some.inj (hcolor.symm.trans (hcolors k hk)),
      Option.some.inj (hcolor'.symm.trans hcall)]
  · intro k hk color hcolor
    exact .inl ⟨twoCallsSteps[0], by simp [twoCallsSteps], (hcolors k hk).symm.trans hcolor ▸
      hcalls _ (by simp [twoCallsSteps])⟩
  · rintro k hk - - name color hname ⟨done, comp, call, n, hinitial, -, hcolor, hgenerated, -⟩
    have hcall : call.color = some "a" := hcalls _ (hmem done comp call hinitial)
    rw [hcolors k hk, hgenerated, Option.some.inj (hcolor.symm.trans hcall)] at hname
    exact absurd (Option.some.inj hname).symm (generatedName_ne n "a")

end twoCalls

end UniquifyColors
end MultiMeshJax
