import MultiMeshJax.Executable.Execute

/-! The fast path of `MultiMeshPjRtExecutable::Execute` for a single small task, compared
with the general path. -/
namespace MultiMeshJax
namespace Executable

open StatusOr

variable {α : Type}

/-- The buffers passed to the fast-path executable. -/
def fastPathBuffers (task : SpmdHloModuleTask) (handles : List α) :
    StatusOr (List (Option α)) :=
  scatter (task.inputs.map (·.index)) handles handles.length

/-- The outputs of the fast-path executable in the order of the caller. -/
def permutedOutputs (task : SpmdHloModuleTask) (outputs : List α) :
    StatusOr (List (Option α)) :=
  scatter (task.outputs.map (·.index)) outputs outputs.length

/-- The store of entry parameter or entry result `i`. -/
def IsEntryStore (type : StoreType) (i : ℕ) (s : Store) : Prop :=
  s.type = type ∧ s.scalar = false ∧ s.index = (i : ℤ)

theorem entryStores_index {type : StoreType} {indices : List ℕ} {stores : List Store}
    (h : List.Forall₂ (IsEntryStore type) indices stores) :
    stores.map (·.index) = indices.map Nat.cast := by
  induction h with
  | nil => rfl
  | cons hhead _ ih => rw [List.map_cons, List.map_cons, ih, hhead.2.2]

theorem entryStores_handles {type : StoreType} {indices : List ℕ} {ss : List Store}
    (h : List.Forall₂ (IsEntryStore type) indices ss) {stores : Stores}
    {f : ℕ → Option StoreHandle}
    (hget : ∀ i ∈ indices, ∀ s, IsEntryStore type i s → getStoreHandle stores s = ok (f i)) :
    getStoreHandles stores ss = ok (indices.map f) := by
  have hfilter : ss.filter (fun s => !s.scalar) = ss := by
    rw [List.filter_eq_self]
    intro s hs
    obtain ⟨k, hk, rfl⟩ := List.getElem_of_mem hs
    have hscalar : ss[k].scalar = false := (h.get (h.length_eq ▸ hk) hk).2.1
    simp [hscalar]
  rw [getStoreHandles, hfilter, mapM_eq_ok, List.forall₂_map_right_iff]
  clear hfilter
  induction h with
  | nil => exact .nil
  | cons hhead _ ih =>
    refine .cons (hget _ (by simp) _ hhead) (ih ?_)
    exact fun i hi => hget i (List.mem_cons_of_mem _ hi)

/-- A task that is a schedule by itself: its parameters are the entry parameters and its
results the entry results, each in some order. -/
structure SingleTask where
  task : SpmdHloModuleTask
  params : List ℕ
  roots : List ℕ
  params_perm : params.Perm (List.range params.length)
  roots_perm : roots.Perm (List.range roots.length)
  inputs_eq : List.Forall₂ (IsEntryStore .param) params task.inputs
  outputs_eq : List.Forall₂ (IsEntryStore .root) roots task.outputs
  scalars_nil : task.scalars = []
  alias_lt : ∀ p ∈ task.module.aliasConfig, p.2 < params.length

namespace SingleTask

variable (t : SingleTask)

theorem params_lt {i : ℕ} (h : i ∈ t.params) : i < t.params.length := by
  simpa using t.params_perm.mem_iff.mp h

theorem parameterNumberAlias_eq_ok (j : ℕ) :
    ∃ a, parameterNumberAlias t.task j = ok a ∧ ∀ i, a = some i → ∃ k ∈ t.params, i = (k : ℤ) := by
  unfold parameterNumberAlias
  cases h : t.task.module.outputAlias j with
  | none => exact ⟨none, rfl, by simp⟩
  | some k =>
    have hk : k < t.params.length := by
      obtain ⟨before, after, heq, -⟩ := List.lookup_eq_some_iff.mp h
      exact t.alias_lt (j, k) (by simp [heq])
    have hlt : k < t.task.inputs.length := t.inputs_eq.length_eq ▸ hk
    have hstore := t.inputs_eq.get hk hlt
    simp only [List.get_eq_getElem] at hstore
    refine ⟨some t.params[k], ?_, ?_⟩
    · simp [elementAt, List.getElem?_eq_getElem hlt, hstore.1, hstore.2.2]
    · intro i hi
      exact ⟨t.params[k], List.getElem_mem hk, by simpa using hi.symm⟩

/-- Every root of the task gets a store, and no other root is touched. -/
private theorem setupRootStores_loop {arguments : List StoreHandle}
    (hargs : arguments.length = t.params.length) {indices : List ℕ} {outputs : List Store}
    (h : List.Forall₂ (IsEntryStore .root) indices outputs) (hnodup : indices.Nodup)
    {start : ℕ} {rootStores : RootStores} (hfree : ∀ i ∈ indices, rootStores[i]? = some none) :
    ∃ result, (outputs.zipIdx start).foldlM (fun rootStores (output, localIndex) =>
        if output.type = .root then do
          let aliased ← parameterNumberAlias t.task localIndex
          addRootStore arguments rootStores output aliased
        else return rootStores) rootStores = ok result ∧
      result.length = rootStores.length ∧
      (∀ i ∈ indices, ∃ handle, result[i]? = some (some handle)) ∧
      ∀ i, i ∉ indices → result[i]? = rootStores[i]? := by
  induction h generalizing start rootStores with
  | nil => exact ⟨rootStores, rfl, rfl, by simp, fun _ _ => rfl⟩
  | @cons i output indices outputs hhead htail ih =>
    obtain ⟨hi, hnodup⟩ := List.nodup_cons.mp hnodup
    obtain ⟨aliased, haliased, hparam⟩ := t.parameterNumberAlias_eq_ok start
    have hslot := hfree i (by simp)
    have hlt := (List.getElem?_eq_some_iff.mp hslot).1
    -- the slot of this root is free, and receives an argument or a new store
    obtain ⟨handle, hadd⟩ : ∃ handle, addRootStore arguments rootStores output aliased =
        ok (rootStores.set i (some handle)) := by
      unfold addRootStore
      rw [hhead.2.2, elementAtInt_natCast, elementAt, hslot]
      simp only [deref_some, ok_bind]
      cases aliased with
      | none => exact ⟨_, assignAt_natCast hlt _⟩
      | some p =>
        obtain ⟨k, hk, rfl⟩ := hparam p rfl
        have hk' : k < arguments.length := hargs ▸ t.params_lt hk
        simp only [elementAtInt_natCast, elementAt, List.getElem?_eq_getElem hk', deref_some,
          ok_bind]
        exact ⟨_, assignAt_natCast hlt _⟩
    have hfree' : ∀ j ∈ indices, (rootStores.set i (some handle))[j]? = some none := by
      intro j hj
      have hne : i ≠ j := fun he => hi (he ▸ hj)
      rw [List.getElem?_set_ne hne]
      exact hfree j (List.mem_cons_of_mem i hj)
    obtain ⟨result, hrun, hlen, hset, hkept⟩ := @ih hnodup (start + 1) _ hfree'
    refine ⟨result, ?_, by simpa using hlen, ?_, ?_⟩
    · simp only [List.zipIdx_cons, List.foldlM_cons, hhead.1, if_true, haliased, ok_bind, hadd]
      exact hrun
    · intro j hj
      rcases List.mem_cons.mp hj with rfl | hj
      · exact ⟨handle, by rw [hkept _ hi, List.getElem?_set_self hlt]⟩
      · exact hset j hj
    · intro j hj
      rw [List.mem_cons, not_or] at hj
      rw [hkept j hj.2, List.getElem?_set_ne (Ne.symm hj.1)]

theorem configureRootStores_eq_ok {arguments : List StoreHandle}
    (hargs : arguments.length = t.params.length) :
    ∃ results : List StoreHandle, results.length = t.roots.length ∧
      configureRootStores arguments t.roots.length [.task t.task] = ok (results.map some) := by
  have hfree : ∀ i ∈ t.roots,
      (List.replicate t.roots.length (none : Option StoreHandle))[i]? = some none := by
    intro i hi
    have hlt : i < t.roots.length := by simpa using t.roots_perm.mem_iff.mp hi
    simp [hlt]
  obtain ⟨roots, hrun, hlen, hset, -⟩ := t.setupRootStores_loop hargs t.outputs_eq
    (t.roots_perm.nodup_iff.mpr List.nodup_range) hfree
  rw [List.length_replicate] at hlen
  have hsome : ∀ root ∈ roots, ∃ handle, root = some handle := by
    intro root hroot
    obtain ⟨i, hi, rfl⟩ := List.getElem_of_mem hroot
    obtain ⟨handle, hget⟩ := hset i (t.roots_perm.mem_iff.mpr (by simpa [← hlen] using hi))
    exact ⟨handle, by simpa [List.getElem?_eq_getElem hi] using hget⟩
  have hmap : (roots.map fun root => root.getD (.newRoot 0)).map some = roots := by
    rw [List.map_map, List.map_congr_left, List.map_id]
    intro root hroot
    obtain ⟨handle, rfl⟩ := hsome root hroot
    rfl
  refine ⟨roots.map fun root => root.getD (.newRoot 0), by simpa using hlen, ?_⟩
  rw [hmap]
  simpa [configureRootStores, setupRootStores] using hrun

theorem inputBuffers_nil (inputs : List (Option StoreHandle)) :
    inputBuffers [] inputs = ok (inputs.map .store) := by
  have hloop : ∀ n ≤ inputs.length, (List.range n).foldlM (mergeStep [] inputs) ([], 0) =
      ok ((inputs.take n).map InputBuffer.store, n) := by
    intro n hn
    induction n with
    | zero => rfl
    | succ n ih =>
      have hlt : n < inputs.length := hn
      have hget : elementAt inputs n = ok inputs[n] :=
        elementAt_eq_ok.mpr (List.getElem?_eq_getElem hlt)
      have htake : (inputs.take (n + 1)).map InputBuffer.store =
          (inputs.take n).map InputBuffer.store ++ [.store inputs[n]] := by
        rw [List.take_add_one, List.getElem?_eq_getElem hlt, List.map_append]
        rfl
      rw [List.range_succ, List.foldlM_append, ih (by omega), ok_bind, htake]
      simp [mergeStep, scalarBuffer, hget]
  rw [inputBuffers, List.length_nil, Nat.zero_add, hloop _ le_rfl, List.take_length]
  rfl

/-- What the general path gives the task and returns to the caller. -/
theorem execute_eq_ok {arguments : List StoreHandle}
    (hargs : arguments.length = t.params.length) :
    ∃ results : List StoreHandle, results.length = t.roots.length ∧
      execute [.task t.task] arguments 0 t.roots.length = ok
        ⟨[.execute t.task.module.computation (t.params.map fun i => .store arguments[i]?)
          (t.roots.map fun o => results[o]?)], results⟩ := by
  obtain ⟨results, hlen, hroots⟩ := t.configureRootStores_eq_ok hargs
  have hinputs : getStoreHandles ⟨arguments, results.map some, []⟩ t.task.inputs =
      ok (t.params.map fun i => arguments[i]?) := by
    apply entryStores_handles t.inputs_eq
    intro i hi s hs
    have hlt : i < arguments.length := hargs ▸ t.params_lt hi
    simp [getStoreHandle, hs.1, hs.2.2, elementAtInt_natCast, elementAt,
      List.getElem?_eq_getElem hlt]
  have houtputs : getStoreHandles ⟨arguments, results.map some, []⟩ t.task.outputs =
      ok (t.roots.map fun o => results[o]?) := by
    apply entryStores_handles t.outputs_eq
    intro o ho s hs
    have hlt : o < results.length := by simpa [hlen] using t.roots_perm.mem_iff.mp ho
    simp [getStoreHandle, hs.1, hs.2.2, elementAtInt_natCast, elementAt,
      List.getElem?_eq_getElem hlt]
  have hresults : (results.map some).mapM resultHandle = ok results := by
    rw [mapM_eq_ok, List.forall₂_map_left_iff, List.forall₂_same]
    exact fun _ _ => rfl
  refine ⟨results, hlen, ?_⟩
  simp only [execute, hroots, ok_bind, List.range_zero, List.map_nil, List.mapM_cons,
    List.mapM_nil, bindOperation, hinputs, houtputs, t.scalars_nil, inputBuffers_nil, pure_eq,
    hresults, List.map_map, List.flatten_cons, List.flatten_nil, List.append_nil]
  rfl

/-- Both paths give executable parameter `k` the argument of its entry index, and return
result `j` at its entry index. -/
def PathsAgree (arguments : List StoreHandle) : Prop :=
  ∃ buffers outputs targets results,
    fastPathBuffers t.task arguments = ok buffers ∧
    permutedOutputs t.task (List.range t.roots.length) = ok outputs ∧
    execute [.task t.task] arguments 0 t.roots.length = ok
      ⟨[.execute t.task.module.computation (buffers.map .store) targets], results⟩ ∧
    (∀ k i : ℕ, t.params[k]? = some i → buffers[k]? = some arguments[i]?) ∧
    ∀ j o : ℕ, t.roots[j]? = some o → outputs[o]? = some (some j) ∧ targets[j]? = some results[o]?

theorem fastPathBuffers_eq_ok {arguments : List StoreHandle}
    (hargs : arguments.length = t.params.length) :
    ∃ buffers, fastPathBuffers t.task arguments = ok buffers ∧
      buffers.length = t.params.length ∧
      ∀ k i : ℕ, t.params[k]? = some i → buffers[i]? = some arguments[k]? := by
  obtain ⟨buffers, hrun, hlen, hwritten⟩ := scatter_perm t.params_perm hargs
  refine ⟨buffers, ?_, hlen.trans hargs, ?_⟩
  · rw [fastPathBuffers, entryStores_index t.inputs_eq, hrun]
  · intro k i hk
    obtain ⟨hlt, rfl⟩ := List.getElem?_eq_some_iff.mp hk
    exact hwritten k hlt

theorem permutedOutputs_eq_ok :
    ∃ outputs, permutedOutputs t.task (List.range t.roots.length) = ok outputs ∧
      ∀ j o : ℕ, t.roots[j]? = some o → outputs[o]? = some (some j) := by
  obtain ⟨outputs, hrun, -, hwritten⟩ :=
    scatter_perm t.roots_perm (List.length_range : (List.range t.roots.length).length = _)
  refine ⟨outputs, ?_, ?_⟩
  · rw [permutedOutputs, entryStores_index t.outputs_eq, hrun]
  · intro j o hj
    obtain ⟨hlt, rfl⟩ := List.getElem?_eq_some_iff.mp hj
    simpa [hlt] using hwritten j hlt

/-- The general path resolves every store through its index. -/
theorem pathsAgree_iff {arguments : List StoreHandle}
    (hargs : arguments.length = t.params.length) :
    t.PathsAgree arguments ↔ ∃ buffers, fastPathBuffers t.task arguments = ok buffers ∧
      buffers = t.params.map fun i => arguments[i]? := by
  constructor
  · rintro ⟨buffers, outputs, targets, results, hbuffers, -, hexecute, -, -⟩
    obtain ⟨results', -, hexecute'⟩ := t.execute_eq_ok hargs
    rw [hexecute] at hexecute'
    simp only [ok.injEq, Execution.mk.injEq, List.cons.injEq, Binding.execute.injEq] at hexecute'
    refine ⟨buffers, hbuffers, ?_⟩
    apply List.map_injective_iff.mpr (fun a b h => InputBuffer.store.inj h)
    rw [hexecute'.1.1.2.1, List.map_map]
    rfl
  · rintro ⟨buffers, hbuffers, heq⟩
    obtain ⟨outputs, houtputs, hreturned⟩ := t.permutedOutputs_eq_ok
    obtain ⟨results, hlen, hexecute⟩ := t.execute_eq_ok hargs
    refine ⟨buffers, outputs, t.roots.map fun o => results[o]?, results, hbuffers, houtputs, ?_,
      ?_, ?_⟩
    · rw [hexecute, heq, List.map_map]
      rfl
    · intro k i hk
      rw [heq, List.getElem?_map, hk, Option.map_some]
    · intro j o hj
      refine ⟨hreturned j o hj, ?_⟩
      rw [List.getElem?_map, hj, Option.map_some]

/-- The fast path binds like the general path if and only if the order of the parameters
is its own inverse. -/
theorem fastPath_agrees_iff :
    (∀ arguments : List StoreHandle, arguments.length = t.params.length →
        t.PathsAgree arguments) ↔
      ∀ k i : ℕ, t.params[k]? = some i → t.params[i]? = some k := by
  constructor
  · intro hagree k i hk
    set arguments := (List.range t.params.length).map StoreHandle.argument with hdef
    have hargs : arguments.length = t.params.length := by simp [hdef]
    obtain ⟨buffers, hbuffers, heq⟩ := (t.pathsAgree_iff hargs).mp (hagree arguments hargs)
    obtain ⟨buffers', hbuffers', -, hwritten⟩ := t.fastPathBuffers_eq_ok hargs
    obtain rfl : buffers' = buffers := ok.inj (hbuffers'.symm.trans hbuffers)
    have hlt : k < t.params.length := (List.getElem?_eq_some_iff.mp hk).1
    have hslot := hwritten k i hk
    rw [heq, List.getElem?_map] at hslot
    obtain ⟨i', hi', hslot⟩ := Option.map_eq_some_iff.mp hslot
    have hlt' : i' < t.params.length := t.params_lt (List.mem_of_getElem? hi')
    have hsame : i' = k := by simpa [hdef, hlt, hlt'] using hslot
    rw [hi', hsame]
  · intro hinvolutive arguments hargs
    rw [t.pathsAgree_iff hargs]
    obtain ⟨buffers, hbuffers, hlen, hwritten⟩ := t.fastPathBuffers_eq_ok hargs
    refine ⟨buffers, hbuffers, List.ext_getElem (by simpa using hlen) fun k hk _ => ?_⟩
    rw [hlen] at hk
    have hinverse := hinvolutive k _ (List.getElem?_eq_getElem hk)
    have hslot := hwritten _ _ hinverse
    simpa [List.getElem?_eq_getElem (hlen.symm ▸ hk)] using hslot

end SingleTask

def entryStore (type : StoreType) (index : ℕ) : Store := { type := type, index := index }

/-- Three parameters of a task in the order of a cycle of the entry parameters. -/
def rotatedTask : SingleTask where
  task :=
    { module := { computation := 0 }
      deviceAssignment := ⟨0, 1⟩
      inputs := [entryStore .param 1, entryStore .param 2, entryStore .param 0]
      outputs := [entryStore .root 0] }
  params := [1, 2, 0]
  roots := [0]
  params_perm := by decide
  roots_perm := by decide
  inputs_eq := by simp [IsEntryStore, entryStore]
  outputs_eq := by simp [IsEntryStore, entryStore]
  scalars_nil := rfl
  alias_lt := by simp

def threeArguments : List StoreHandle := [.argument 0, .argument 1, .argument 2]

/-- The fast path gives parameter 0 the argument 2, the general path the argument 1. -/
theorem rotatedTask_disagrees :
    fastPathBuffers rotatedTask.task threeArguments =
      ok [some (StoreHandle.argument 2), some (.argument 0), some (.argument 1)] ∧
    execute [.task rotatedTask.task] threeArguments 0 1 =
      ok ⟨[.execute 0 [.store (some (.argument 1)), .store (some (.argument 2)),
        .store (some (.argument 0))] [some (.newRoot 0)]], [.newRoot 0]⟩ ∧
    ¬ rotatedTask.PathsAgree threeArguments := by
  have hfast : fastPathBuffers rotatedTask.task threeArguments =
      ok [some (StoreHandle.argument 2), some (.argument 0), some (.argument 1)] := by decide
  refine ⟨hfast, by decide, ?_⟩
  rintro ⟨buffers, outputs, targets, results, hbuffers, -, -, hbind, -⟩
  obtain rfl := ok.inj (hfast.symm.trans hbuffers)
  exact absurd (hbind 0 1 rfl) (by decide)

end Executable
end MultiMeshJax
