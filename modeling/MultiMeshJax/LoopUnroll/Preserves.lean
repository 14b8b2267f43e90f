import MultiMeshJax.LoopUnroll.Pass
import MultiMeshJax.LoopUnroll.Values

/-! Unrolling: the entry computation computes what it did, and has no loops left. -/
namespace MultiMeshJax
namespace LoopUnroll

open StatusOr HloComputation

variable {V : Type} {I : Interpretation V} {ctx : Context V} {rank : ℕ → ℕ} {result : Value V}
  {val : ℕ → Value V} {c c' : HloComputation}

theorem replaceAllUsesAndRoot_eq (old new : ℕ) :
    c.replaceAllUsesAndRoot old new = c.replaceUses old new := by
  unfold replaceAllUsesAndRoot replaceUses
  dsimp only
  split
  · rename_i hroot
    have heq : c.root = old := hroot
    simp [heq]
  · rename_i hroot
    have hne : c.root ≠ old := hroot
    simp [hne, replaceAllUsesWith, mapInstructions]

/-- The clones come between the inputs of the loop and the loop. -/
def clonedRank (rank : ℕ → ℕ) (first base size id : ℕ) : ℕ :=
  if id < first then size * rank id else size * base + (id - first) + 1

theorem clonedRank_of_lt {first base size id : ℕ} (h : id < first) :
    clonedRank rank first base size id = size * rank id := if_pos h

theorem clonedRank_of_le {first base size id : ℕ} (h : first ≤ id) :
    clonedRank rank first base size id = size * base + (id - first) + 1 :=
  if_neg (by omega)

theorem clonedRank_lt {first base size a a' : ℕ} (ha : first ≤ a) (hlt : a < a') :
    clonedRank rank first base size a < clonedRank rank first base size a' := by
  rw [clonedRank_of_le ha, clonedRank_of_le (ha.trans hlt.le)]
  omega

/-- The next clone is still below what comes after the inputs. -/
theorem clonedRank_next_lt {first base size next id : ℕ} (hnext : first ≤ next)
    (hsize : next - first + 1 < size) (hid : id < first) (hbase : base < rank id) :
    clonedRank rank first base size next < clonedRank rank first base size id := by
  rw [clonedRank_of_le hnext, clonedRank_of_lt hid]
  have hle : size * (base + 1) ≤ size * rank id := Nat.mul_le_mul_left size hbase
  rw [Nat.mul_succ] at hle
  omega

theorem evaluates_clonedRank (h : Evaluates I ctx val rank result c) {first base size : ℕ}
    (hsize : 0 < size) (hids : ∀ id ∈ c.ids, id < first) :
    Evaluates I ctx val (clonedRank rank first base size) result c := by
  refine ⟨h.toClosed, h.valued, ?_, h.result⟩
  intro j hj o ho
  rw [clonedRank_of_lt (hids o (h.closed j hj o ho)),
    clonedRank_of_lt (hids j.id (List.mem_map_of_mem hj))]
  exact Nat.mul_lt_mul_of_pos_left (h.ranked j hj o ho) hsize

section redirected

variable {old new : ℕ} {i : HloInstruction}

/-- The instruction once `new` is used for `old`. -/
def redirected (old new : ℕ) (i : HloInstruction) : HloInstruction :=
  if i.id = new then i
  else { i with operands := i.operands.map fun o => if o = old then new else o }

theorem redirected_id (old new : ℕ) (i : HloInstruction) : (redirected old new i).id = i.id := by
  unfold redirected
  split <;> rfl

theorem redirected_opcode (old new : ℕ) (i : HloInstruction) :
    (redirected old new i).opcode = i.opcode := by
  unfold redirected
  split <;> rfl

theorem redirected_of_notMem (hold : old ∉ i.operands) : redirected old new i = i := by
  have hmap : i.operands.map (fun o => if o = old then new else o) = i.operands := by
    conv_rhs => rw [← List.map_id i.operands]
    apply List.map_congr_left
    intro o ho
    have hne : o ≠ old := fun heq => hold (heq ▸ ho)
    rw [if_neg hne, id]
  unfold redirected
  split
  · rfl
  · rw [hmap]

theorem instruction_replaceUses (old new id : ℕ) :
    (c.replaceUses old new).instruction id = (c.instruction id).map (redirected old new) :=
  instruction_mapInstructions (redirected_id old new) id

end redirected

/-- Opcodes stay, and instructions that read none of `gone` keep their operands. -/
def Keeps (gone : ℕ → Prop) (c c' : HloComputation) : Prop :=
  ∀ id i, c.instruction id = some i → ∃ j, c'.instruction id = some j ∧ j.opcode = i.opcode ∧
    ((∀ o ∈ i.operands, ¬gone o) → j.operands = i.operands)

variable {gone : ℕ → Prop}

theorem Keeps.refl (c : HloComputation) : Keeps gone c c :=
  fun _ i hi => ⟨i, hi, rfl, fun _ => rfl⟩

theorem Keeps.trans {c'' : HloComputation} (h : Keeps gone c c') (h' : Keeps gone c' c'') :
    Keeps gone c c'' := by
  intro id i hi
  obtain ⟨j, hj, hop, hoperands⟩ := h id i hi
  obtain ⟨k, hk, hop', hoperands'⟩ := h' id j hj
  refine ⟨k, hk, hop'.trans hop, ?_⟩
  intro hnone
  have hsame := hoperands hnone
  rw [← hsame]
  exact hoperands' (hsame ▸ hnone)

theorem keeps_of_extends (h : Extends c c') : Keeps gone c c' := by
  intro id i hi
  obtain ⟨j, hj, hsame⟩ := h id i hi
  exact ⟨j, hj, hsame.opcode, fun _ => hsame.operands⟩

theorem keeps_replaceUses {old : ℕ} (new : ℕ) (hold : gone old) :
    Keeps gone c (c.replaceUses old new) := by
  intro id i hi
  refine ⟨redirected old new i, ?_, redirected_opcode old new i, ?_⟩
  · rw [instruction_replaceUses, hi, Option.map_some]
  · intro hnone
    rw [redirected_of_notMem fun hmem => hnone old hmem hold]

theorem keeps_addControlDependencyTo (edge : HloInstruction × HloInstruction) :
    Keeps gone c (addControlDependencyTo c edge) := by
  intro id i hi
  have hfound : (addControlDependencyTo c edge).instruction id = (c.instruction id).map _ :=
    instruction_mapInstructions (by intro j; split <;> rfl) id
  rw [hi, Option.map_some] at hfound
  refine ⟨_, hfound, ?_⟩
  split <;> exact ⟨rfl, fun _ => rfl⟩

theorem evaluates_addControlDependencyTo (h : Evaluates I ctx val rank result c)
    (edge : HloInstruction × HloInstruction) :
    Evaluates I ctx val rank result (addControlDependencyTo c edge) := by
  apply h.mapInstructions
  intro j
  split <;> exact ⟨rfl, rfl, rfl, rfl, rfl⟩

/-- An instruction is replaced by one with its value that is below it. -/
theorem evaluates_replaceBelow (h : Evaluates I ctx val rank result c) {old new : ℕ}
    (hnew : new ∈ c.ids) (hval : val new = val old) (hrank : rank new < rank old) :
    Evaluates I ctx val rank result (c.replaceUses old new) :=
  h.replaceUses hnew hval fun j hj ho => hrank.trans (h.ranked j hj old ho)

theorem ids_addControlDependency (edge : HloInstruction × HloInstruction) :
    (addControlDependencyTo c edge).ids = c.ids :=
  ids_mapInstructions (by intro j; split <;> rfl)

theorem evaluates_addControlDependencies (gone : ℕ → Prop) (h : Evaluates I ctx val rank result c)
    (edges : List (HloInstruction × HloInstruction)) :
    Evaluates I ctx val rank result (edges.foldl addControlDependencyTo c) ∧
      (edges.foldl addControlDependencyTo c).ids = c.ids ∧
      Keeps gone c (edges.foldl addControlDependencyTo c) := by
  induction edges generalizing c with
  | nil => exact ⟨h, rfl, .refl c⟩
  | cons edge edges ih =>
    obtain ⟨hrest, hids, hkeeps⟩ := ih (evaluates_addControlDependencyTo h edge)
    exact ⟨hrest, hids.trans (ids_addControlDependency edge),
      (keeps_addControlDependencyTo edge).trans hkeeps⟩

/-- The loop with the body `n` takes its inputs in a tuple. -/
def LoopAt (c : HloComputation) (id n : ℕ) (inputs : List ℕ) : Prop :=
  ∃ w t, c.instruction id = some w ∧ w.opcode = .whileLoop n ∧ w.operands = [t.id] ∧
    c.instruction t.id = some t ∧ t.opcode = .tuple ∧ t.operands = inputs

/-- The results of a loop are those of the iterations of its body. -/
def Iterates (I : Interpretation V) (body : HloComputation) (config : LoopConfig) (n : ℕ) : Prop :=
  ∀ vs ws, I.loop n vs = some ws → ∃ states : ℕ → List (Value V), states 0 = vs ∧
    states config.numIterations = ws ∧ ∀ t < config.numIterations, body.Runs I
      ⟨fun _ => some (.tuple (states t)), t * config.microbatchSize⟩ (.tuple (states (t + 1)))

section unroll

variable {loop : Loop} {before : HloComputation} {first whileLoop n : ℕ} {st : CloneState}
  {outputs : List (Value V)} {w : HloInstruction}

/-- The users of a loop that has these outputs take them out of its tuple. -/
theorem value_of_user (h : Evaluates I ctx val rank result c) {user : HloInstruction}
    (hmem : user ∈ c.instructions) (huser : whileLoop ∈ user.operands) {index : ℕ}
    (hindex : user.tupleIndex = ok index) (htuple : val whileLoop = .tuple outputs) :
    outputs[index]? = some (val user.id) := by
  have happly := h.valued user hmem
  have hop : user.opcode = .getTupleElement index := HloInstruction.tupleIndex_eq_ok.mp hindex
  unfold Interpretation.apply at happly
  simp only [hop] at happly
  split at happly
  · rename_i vs hargs
    have hv : val whileLoop ∈ user.operands.map val := List.mem_map_of_mem huser
    rw [hargs, htuple, List.mem_singleton, Value.tuple.injEq] at hv
    rw [hv]
    exact happly
  · cases happly

/-- The parent while the users of the loop are replaced. -/
structure Replacing (I : Interpretation V) (ctx : Context V) (val : ℕ → Value V) (rank : ℕ → ℕ)
    (result : Value V) (st : CloneState) (whileLoop : ℕ) (outputs : List (Value V))
    (c : HloComputation) : Prop where
  evaluates : Evaluates I ctx val rank result c
  ids : c.ids = st.parent.ids
  previous : ∃ prev, c.instruction st.prevLoopOutputTuple = some prev ∧
    List.Forall₂ (Available rank val st) prev.operands outputs

theorem Replacing.replaceUser (h : Replacing I ctx val rank result st whileLoop outputs c)
    (hloop : rank st.nextId ≤ rank whileLoop) {user : HloInstruction}
    (huser : rank whileLoop < rank user.id)
    (hvalue : ∀ index, user.tupleIndex = ok index → outputs[index]? = some (val user.id))
    (hrun : LoopUnroll.replaceUser st.prevLoopOutputTuple c user = ok c') :
    Replacing I ctx val rank result st whileLoop outputs c' ∧
      ∃ index output, user.tupleIndex = ok index ∧ c' = c.replaceUses user.id output := by
  unfold LoopUnroll.replaceUser at hrun
  obtain ⟨index, hindex, hrun⟩ := bind_eq_ok.mp hrun
  obtain ⟨prev, hprev, hrun⟩ := bind_eq_ok.mp hrun
  obtain ⟨output, houtput, hrun⟩ := bind_eq_ok.mp hrun
  obtain rfl := ok.inj hrun
  obtain ⟨prev', hprev', hvalues⟩ := h.previous
  obtain rfl : prev' = prev := by simpa [hprev'] using deref_eq_ok.mp hprev
  obtain ⟨v, hv, havailable⟩ := forall₂_getElem? hvalues (elementAt_eq_ok.mp houtput)
  obtain rfl : v = val user.id := by simpa [hv] using hvalue index hindex
  rw [replaceAllUsesAndRoot_eq]
  have hbelow : rank output < rank user.id := (havailable.rank.trans_le hloop).trans huser
  refine ⟨⟨evaluates_replaceBelow h.evaluates (h.ids ▸ havailable.mem) havailable.value hbelow, ?_, ?_⟩,
    index, output, hindex, rfl⟩
  · rw [ids_replaceUses, h.ids]
  · refine ⟨prev', ?_, hvalues⟩
    rw [instruction_replaceUses, hprev', Option.map_some, redirected_of_notMem]
    intro hmem
    obtain ⟨v, -, hv⟩ := exists_of_mem_forall₂ hvalues hmem
    have hlt := (hv.rank.trans_le hloop).trans huser
    omega

/-- The loop and what takes its outputs out of its tuple. -/
def OfLoop (c : HloComputation) (whileLoop o : ℕ) : Prop :=
  o = whileLoop ∨ ∃ user ∈ c.users whileLoop, user.id = o ∧ ∃ index, user.tupleIndex = ok index

/-- The parent once the loop is unrolled. -/
structure UnrolledFrom (I : Interpretation V) (ctx : Context V) (result : Value V)
    (parent : HloComputation) (whileLoop : ℕ) (u : Unrolled) : Prop where
  evaluates : ∃ val rank, Evaluates I ctx val rank result u.parent
  keeps : Keeps (OfLoop parent whileLoop) parent u.parent
  removed : whileLoop ∈ u.removed

theorem user_of_extends (h : Evaluates I ctx val rank result c') (hnodup : c.ids.Nodup)
    (hextends : Extends c c') (hvalue : val whileLoop = .tuple outputs) {user : HloInstruction}
    (huser : user ∈ c.users whileLoop) : rank whileLoop < rank user.id ∧
      ∀ index, user.tupleIndex = ok index →
        OfLoop c whileLoop user.id ∧ outputs[index]? = some (val user.id) := by
  obtain ⟨hmem, hreads⟩ := mem_users.mp huser
  obtain ⟨user', huser', hsame⟩ := hextends _ _ (instruction_of_mem hnodup hmem)
  have hmem' := mem_of_instruction huser'
  have hreads' : whileLoop ∈ user'.operands := hsame.operands ▸ hreads
  refine ⟨hsame.id ▸ h.ranked user' hmem' whileLoop hreads', ?_⟩
  intro index hindex
  have hindex' : user'.tupleIndex = ok index := by
    rw [HloInstruction.tupleIndex_eq_ok, hsame.opcode]
    exact HloInstruction.tupleIndex_eq_ok.mp hindex
  have helement := value_of_user h hmem' hreads' hindex' hvalue
  exact ⟨.inr ⟨user, huser, rfl, index, hindex⟩, hsame.id ▸ helement⟩

/-- The parent before the first iteration, whose inputs stand in for the outputs of one before. -/
theorem cloning_start {nextId : ℕ} {t : HloInstruction} {size : ℕ}
    (h : Evaluates I ctx val rank result c) (hfresh : ∀ id ∈ c.ids, id < nextId) (hsize : 0 < size)
    (ht : c.instruction t.id = some t) (htop : t.opcode = .tuple) (hst : st.parent = c)
    (hnext : st.nextId = nextId) (hprev : st.prevLoopOutputTuple = t.id)
    (hinputs : loop.inputs = t.operands) :
    Cloning I ctx (clonedRank rank nextId (rank t.id) size) result nextId loop c
      (t.operands.map val) (t.operands.map val) val st := by
  subst hst hnext
  have htmem := mem_of_instruction ht
  have hlow : ∀ id ∈ st.parent.ids, rank id ≤ rank t.id →
      clonedRank rank st.nextId (rank t.id) size id <
        clonedRank rank st.nextId (rank t.id) size st.nextId := by
    intro id hid hle
    rw [clonedRank_of_lt (hfresh id hid), clonedRank_of_le le_rfl]
    have hmul : size * rank id ≤ size * rank t.id := Nat.mul_le_mul_left size hle
    omega
  have havailable : List.Forall₂
      (Available (clonedRank rank st.nextId (rank t.id) size) val st) t.operands
      (t.operands.map val) := by
    apply forall₂_map_of
    intro o ho
    have hmem := h.closed t htmem o ho
    exact ⟨hmem, hlow o hmem (h.ranked t htmem o ho).le, rfl⟩
  have htuple : val t.id = .tuple (t.operands.map val) := by
    have happly := h.valued t htmem
    unfold Interpretation.apply at happly
    simp only [htop] at happly
    exact (Option.some.inj happly).symm
  refine ⟨evaluates_clonedRank h hsize hfresh, .refl _, rfl, hfresh, le_rfl, hinputs ▸ havailable,
    ⟨t, hprev ▸ ht, havailable⟩, ?_⟩
  rw [hprev]
  exact ⟨List.mem_map_of_mem htmem, hlow t.id (List.mem_map_of_mem htmem) le_rfl, htuple⟩

/-- The loop gives what its iterations give. -/
theorem value_of_loop {w t : HloInstruction} (h : Evaluates I ctx val rank result c)
    (hw : w ∈ c.instructions) (hwop : w.opcode = .whileLoop n) (hwoperands : w.operands = [t.id])
    (ht : t ∈ c.instructions) (htop : t.opcode = .tuple) :
    ∃ ws, val w.id = .tuple ws ∧ I.loop n (t.operands.map val) = some ws := by
  have htuple := h.valued t ht
  have happly := h.valued w hw
  unfold Interpretation.apply at htuple happly
  simp only [htop] at htuple
  simp only [hwop, hwoperands, List.map_cons, List.map_nil, ← Option.some.inj htuple] at happly
  obtain ⟨ws, hws, hval⟩ := Option.map_eq_some_iff.mp happly
  exact ⟨ws, hval.symm, hws⟩

/-- The parent with the clones has the loop still, which gives what its iterations give. -/
theorem Cloning.outputs_of_loop {t : HloInstruction} {initial values ws : List (Value V)}
    (h : Cloning I ctx rank result first loop c initial values val st)
    (hw : c.instruction w.id = some w) (hwop : w.opcode = .whileLoop n)
    (hwoperands : w.operands = [t.id]) (ht : c.instruction t.id = some t)
    (htop : t.opcode = .tuple) (hinputs : loop.inputs = t.operands)
    (hws : I.loop n initial = some ws) : val w.id = .tuple ws := by
  obtain ⟨w', hw', hsame⟩ := h.extended _ _ hw
  obtain ⟨t', ht', hsame'⟩ := h.extended _ _ ht
  obtain ⟨ws', hval, hws'⟩ := value_of_loop h.evaluates (mem_of_instruction hw')
    (hsame.opcode.trans hwop) (by rw [hsame.operands, hwoperands, hsame'.id])
    (mem_of_instruction ht') (hsame'.opcode.trans htop)
  have hargs : t'.operands.map val = initial := by
    rw [hsame'.operands, ← hinputs, ← List.forall₂_eq_eq_eq, List.forall₂_map_left_iff]
    exact h.inputs.imp fun _ _ hv => hv.value
  rw [hargs, hws] at hws'
  rw [← hsame.id, hval, Option.some.inj hws']

theorem replaceUsers_spec {users : List HloInstruction}
    (hloop : rank st.nextId ≤ rank whileLoop)
    (husers : ∀ user ∈ users, rank whileLoop < rank user.id ∧
      ∀ index, user.tupleIndex = ok index → gone user.id ∧ outputs[index]? = some (val user.id))
    (h : Replacing I ctx val rank result st whileLoop outputs c)
    (hrun : users.foldlM (LoopUnroll.replaceUser st.prevLoopOutputTuple) c = ok c') :
    Replacing I ctx val rank result st whileLoop outputs c' ∧ Keeps gone c c' := by
  apply foldlM_invariant (fun d => Replacing I ctx val rank result st whileLoop outputs d ∧
    Keeps gone c d) hrun ⟨h, .refl c⟩
  rintro user huser d d' ⟨hd, hkeeps⟩ hstep
  obtain ⟨hrank, hvalue⟩ := husers user huser
  obtain ⟨hd', index, output, hindex, rfl⟩ :=
    hd.replaceUser hloop hrank (fun index hindex => (hvalue index hindex).2) hstep
  exact ⟨hd', hkeeps.trans (keeps_replaceUses output (hvalue index hindex).1)⟩

theorem unroll_values {parent body : HloComputation} {cloned : List HloInstruction}
    {tuple : HloInstruction} {inputs : List ℕ} {config : LoopConfig} {properties : LoopProperties}
    {nextId : ℕ} {colors : ColorState} {scheduleLoops : Scheduler} {u : Unrolled}
    (h : Evaluates I ctx val rank result parent) (hfresh : ∀ id ∈ parent.ids, id < nextId)
    (hloop : LoopAt parent whileLoop n inputs) (hshape : UnrollableBody body cloned tuple)
    (hhanded : ∀ p, body.instructions.find? (fun i => i.opcode == .parameter 0) = some p →
      HandedThrough properties body p.id inputs tuple.operands)
    (hiterates : Iterates I body config n)
    (hrun : unroll scheduleLoops body config properties parent nextId colors whileLoop = ok u) :
    UnrolledFrom I ctx result parent whileLoop u := by
  obtain ⟨w, t, hw, hwop, hwoperands, ht, htop, rfl⟩ := hloop
  obtain rfl := id_of_instruction hw
  have hwmem := mem_of_instruction hw
  have htmem := mem_of_instruction ht
  unfold unroll at hrun
  obtain ⟨w', hw', hrun⟩ := bind_eq_ok.mp hrun
  obtain rfl : w = w' := by simpa [getInstruction, hw] using hw'
  obtain ⟨inputTuple, htuple, hrun⟩ := bind_eq_ok.mp hrun
  obtain rfl : t.id = inputTuple := by simpa [hwoperands] using elementAt_eq_ok.mp htuple
  obtain ⟨t', ht', hrun⟩ := bind_eq_ok.mp hrun
  obtain rfl : t = t' := by simpa [getInstruction, ht] using ht'
  obtain ⟨p, hp, hrun⟩ := bind_eq_ok.mp hrun
  have hp := deref_eq_ok.mp hp
  have hparameter : ∃ q ∈ body.instructions, q.id = p.id ∧ q.opcode = .parameter 0 :=
    ⟨p, List.mem_of_find?_eq_some hp, rfl, by simpa using List.find?_some hp⟩
  obtain ⟨⟨st, tasks⟩, hclones, hrun⟩ := bind_eq_ok.mp hrun
  obtain ⟨c₁, husers, hrun⟩ := bind_eq_ok.mp hrun
  obtain ⟨rows, -, hrun⟩ := bind_eq_ok.mp hrun
  obtain ⟨schedule, -, hrun⟩ := bind_eq_ok.mp hrun
  obtain ⟨edges, -, hrun⟩ := bind_eq_ok.mp hrun
  obtain rfl := ok.inj hrun
  -- the inputs stand in for the outputs of an iteration before the first
  obtain ⟨ws, -, hws⟩ := value_of_loop h hwmem hwop hwoperands htmem htop
  obtain ⟨states, hzero, hlast, hstates⟩ := hiterates _ ws hws
  have hstart : Cloning I ctx (clonedRank rank nextId (rank t.id) (st.nextId - nextId + 2)) result
      nextId ⟨body, p.id, t.id, t.operands, config, properties⟩ parent (t.operands.map val)
      (t.operands.map val) val
      { parent := parent, nextId := nextId, colors := colors, prevLoopOutputTuple := t.id } :=
    cloning_start h hfresh (by omega) ht htop rfl rfl rfl rfl
  rw [← hzero] at hstart
  obtain ⟨val', hfinal⟩ := cloneIterations_values hshape hparameter (hhanded p hp)
    (fun a a' ha hlt => clonedRank_lt ha hlt) hstates hstart hclones
  have hbelow : clonedRank rank nextId (rank t.id) (st.nextId - nextId + 2) st.nextId <
      clonedRank rank nextId (rank t.id) (st.nextId - nextId + 2) w.id := by
    apply clonedRank_next_lt hfinal.first (by omega) (hfresh w.id (List.mem_map_of_mem hwmem))
    exact h.ranked w hwmem t.id (by rw [hwoperands]; exact List.mem_singleton_self _)
  have hvalue : val' w.id = .tuple (states config.numIterations) :=
    hfinal.outputs_of_loop hw hwop hwoperands ht htop rfl (by rw [hzero, hws, hlast])
  obtain ⟨hreplaced, hkeeps⟩ := replaceUsers_spec hbelow.le
    (fun _ huser => user_of_extends hfinal.evaluates h.nodup hfinal.extended hvalue huser)
    ⟨hfinal.evaluates, rfl, hfinal.previous⟩ husers
  obtain ⟨hedges, hids, hkeeps'⟩ :=
    evaluates_addControlDependencies (OfLoop parent w.id) hreplaced.evaluates edges.flatten
  have hmem : st.prevLoopOutputTuple ∈ (edges.flatten.foldl addControlDependencyTo c₁).ids := by
    rw [hids, hreplaced.ids]
    exact hfinal.tuple.mem
  have hdone := evaluates_replaceBelow hedges hmem (hfinal.tuple.value.trans hvalue.symm)
    (hfinal.tuple.rank.trans hbelow)
  have hall := (((keeps_of_extends hfinal.extended).trans hkeeps).trans hkeeps').trans
    (keeps_replaceUses st.prevLoopOutputTuple (.inl rfl))
  rw [← replaceAllUsesAndRoot_eq] at hdone hall
  exact ⟨⟨val', _, hdone⟩, hall, by simp⟩

end unroll

section properties

variable {properties properties' : LoopProperties} {users : List HloInstruction}
  {inputs rootOperands : List ℕ}

/-- Nothing that is known to be carried is taken for unchanged later. -/
theorem none_of_addLoopProperties
    (hrun : addLoopProperties users inputs rootOperands properties = ok properties') {id : ℕ}
    (hid : ∀ user ∈ users, user.id ≠ id) (hnone : properties' id = some none) :
    properties id = some none := by
  revert hnone
  apply foldlM_invariant (fun p => p id = some none → properties id = some none) hrun fun h => h
  intro user huser p p' ih hstep hnone
  apply ih
  obtain ⟨k, -, hstep⟩ := bind_eq_ok.mp hstep
  obtain ⟨input, -, hstep⟩ := bind_eq_ok.mp hstep
  obtain ⟨entry, -, hstep⟩ := bind_eq_ok.mp hstep
  obtain ⟨matching, -, hstep⟩ := bind_eq_ok.mp hstep
  have hne := (hid user huser).symm
  split at hstep
  · obtain rfl := ok.inj hstep
    rwa [Function.update_of_ne hne] at hnone
  · obtain rfl := ok.inj hstep
    by_cases hmatching : id = matching
    · rw [hmatching, Function.update_self] at hnone
      cases hnone
    by_cases hinput : id = input
    · rw [Function.update_of_ne hmatching, hinput, Function.update_self] at hnone
      cases hnone
    rwa [Function.update_of_ne hmatching, Function.update_of_ne hinput, Function.update_of_ne hne,
      Function.update_of_ne hne] at hnone

/-- What is taken for unchanged is an operand of the root in its own place. -/
theorem root_of_addLoopProperties
    (hrun : addLoopProperties users inputs rootOperands properties = ok properties')
    (hdisjoint : ∀ user ∈ users, ∀ input ∈ inputs, user.id ≠ input) :
    ∀ user ∈ users, ∀ k input, user.tupleIndex = ok k → inputs[k]? = some input →
      properties' input = some none → rootOperands[k]? = some user.id := by
  apply foldlM_prefix (fun done p => ∀ user ∈ done, ∀ k input, user.tupleIndex = ok k →
    inputs[k]? = some input → p input = some none → rootOperands[k]? = some user.id) hrun
  · intro user huser
    cases huser
  intro done last hinitial p p' ih hstep user huser k input hk hinput hnone
  have hlast : last ∈ users := hinitial.subset (by simp)
  have hfar := hdisjoint last hlast
  have hone : addLoopProperties [last] inputs rootOperands p = ok p' := by
    unfold addLoopProperties
    rw [List.foldlM_cons, hstep]
    rfl
  have hbefore : p input = some none := by
    apply none_of_addLoopProperties hone _ hnone
    intro other hother
    rw [List.mem_singleton.mp hother]
    exact hfar input (List.mem_of_getElem? hinput)
  rcases List.mem_append.mp huser with huser | huser
  · exact ih user huser k input hk hinput hbefore
  obtain rfl := List.mem_singleton.mp huser
  obtain ⟨k', hk', hstep⟩ := bind_eq_ok.mp hstep
  obtain rfl : k = k' := by simpa [hk] using hk'
  obtain ⟨input', hinput', hstep⟩ := bind_eq_ok.mp hstep
  obtain rfl : input = input' := by simpa [hinput] using elementAt_eq_ok.mp hinput'
  obtain ⟨entry, -, hstep⟩ := bind_eq_ok.mp hstep
  obtain ⟨matching, hmatching, hstep⟩ := bind_eq_ok.mp hstep
  split at hstep
  · rename_i heq
    rw [← heq]
    exact elementAt_eq_ok.mp hmatching
  · -- the input would have been marked as carried
    obtain rfl := ok.inj hstep
    by_cases heq : input = matching
    · rw [heq, Function.update_self] at hnone
      cases hnone
    · rw [Function.update_of_ne heq, Function.update_self] at hnone
      cases hnone

end properties

/-- No loop and no output of one: what takes an element takes it from a call. -/
def NotFromLoop (c : HloComputation) (o : ℕ) : Prop :=
  ∃ i, c.instruction o = some i ∧ (∀ n, i.opcode ≠ .whileLoop n) ∧ ∀ k,
    i.opcode = .getTupleElement k → ∃ call n, i.operands = [call] ∧
      ∃ j, c.instruction call = some j ∧ j.opcode = .call n

/-- The loop can be unrolled. What another loop has handed through is not among its inputs: its
place would be taken by a value that is not known to be carried. -/
structure UnrollableLoop (M : Machine V) (called : List HloComputation) (c : HloComputation)
    (id n : ℕ) (config : LoopConfig) (inputs : List ℕ) (body : HloComputation)
    (cloned : List HloInstruction) (tuple : HloInstruction) : Prop where
  trips : M.trips n = config.numIterations
  offset : ∀ t : ℕ, M.iterationOffset n t = t * config.microbatchSize
  site : LoopAt c id n inputs
  inputs : ∀ o ∈ inputs, NotFromLoop c o
  called : called[n]? = some body
  body : UnrollableBody body cloned tuple

section keeps

variable {w i : HloInstruction} {id n : ℕ}

theorem not_ofLoop (hnodup : c.ids.Nodup) (hw : c.instruction w.id = some w)
    (hwop : w.opcode = .whileLoop n) (hi : c.instruction id = some i)
    (hop : ∀ m, i.opcode ≠ .whileLoop m)
    (helement : ∀ k, i.opcode = .getTupleElement k → w.id ∉ i.operands) : ¬OfLoop c w.id id := by
  rintro (rfl | ⟨user, huser, rfl, k, hk⟩)
  · rw [hw] at hi
    cases hi
    exact hop n hwop
  · obtain ⟨hmem, hreads⟩ := mem_users.mp huser
    rw [instruction_of_mem hnodup hmem] at hi
    cases hi
    exact helement k (HloInstruction.tupleIndex_eq_ok.mp hk) hreads

theorem NotFromLoop.not_ofLoop (h : NotFromLoop c id) (hnodup : c.ids.Nodup)
    (hw : c.instruction w.id = some w) (hwop : w.opcode = .whileLoop n) : ¬OfLoop c w.id id := by
  obtain ⟨i, hi, hop, helement⟩ := h
  apply LoopUnroll.not_ofLoop hnodup hw hwop hi hop
  intro k hk hmem
  obtain ⟨call, m, hoperands, j, hj, hcall⟩ := helement k hk
  rw [hoperands, List.mem_singleton] at hmem
  rw [← hmem, hw] at hj
  cases hj
  rw [hwop] at hcall
  cases hcall

theorem NotFromLoop.keeps (h : NotFromLoop c id) (hnodup : c.ids.Nodup)
    (hw : c.instruction w.id = some w) (hwop : w.opcode = .whileLoop n)
    (hkeeps : Keeps (OfLoop c w.id) c c') : NotFromLoop c' id := by
  obtain ⟨i, hi, hop, helement⟩ := h
  obtain ⟨i', hi', hopcode, hoperands⟩ := hkeeps _ _ hi
  refine ⟨i', hi', fun m => hopcode ▸ hop m, ?_⟩
  intro k hk
  obtain ⟨call, m, hcall, j, hj, hjop⟩ := helement k (hopcode ▸ hk)
  obtain ⟨j', hj', hjopcode, -⟩ := hkeeps _ _ hj
  refine ⟨call, m, ?_, j', hj', hjopcode.trans hjop⟩
  rw [← hcall]
  apply hoperands
  intro o ho
  rw [hcall, List.mem_singleton] at ho
  subst ho
  exact LoopUnroll.not_ofLoop hnodup hw hwop hj (by simp [hjop]) (by simp [hjop])

theorem LoopAt.keeps {inputs : List ℕ} {m : ℕ} (h : LoopAt c id m inputs) (hnodup : c.ids.Nodup)
    (hinputs : ∀ o ∈ inputs, NotFromLoop c o) (hw : c.instruction w.id = some w)
    (hwop : w.opcode = .whileLoop n) (hkeeps : Keeps (OfLoop c w.id) c c') :
    LoopAt c' id m inputs := by
  obtain ⟨v, t, hv, hvop, hvoperands, ht, htop, rfl⟩ := h
  obtain ⟨v', hv', hvopcode, hvsame⟩ := hkeeps _ _ hv
  obtain ⟨t', ht', htopcode, htsame⟩ := hkeeps _ _ ht
  have htid : t'.id = t.id := id_of_instruction ht'
  refine ⟨v', t', hv', hvopcode.trans hvop, ?_, by rw [htid]; exact ht', htopcode.trans htop, ?_⟩
  · rw [htid, ← hvoperands]
    apply hvsame
    intro o ho
    rw [hvoperands, List.mem_singleton] at ho
    subst ho
    exact LoopUnroll.not_ofLoop hnodup hw hwop ht (by simp [htop]) (by simp [htop])
  · apply htsame
    intro o ho
    exact (hinputs o ho).not_ofLoop hnodup hw hwop

theorem UnrollableLoop.keeps {M : Machine V} {called : List HloComputation} {config : LoopConfig}
    {inputs : List ℕ} {body : HloComputation} {cloned : List HloInstruction}
    {tuple : HloInstruction} {m : ℕ}
    (h : UnrollableLoop M called c id m config inputs body cloned tuple) (hnodup : c.ids.Nodup)
    (hw : c.instruction w.id = some w) (hwop : w.opcode = .whileLoop n)
    (hkeeps : Keeps (OfLoop c w.id) c c') :
    UnrollableLoop M called c' id m config inputs body cloned tuple :=
  { h with
    site := h.site.keeps hnodup h.inputs hw hwop hkeeps
    inputs := fun o ho => (h.inputs o ho).keeps hnodup hw hwop hkeeps }

end keeps

/-- The entry computation and its loops. The iterations of each loop are those of its
configuration. -/
structure Unrollable (M : Machine V) (input : Input) (entry : HloComputation) : Prop where
  distinct : ((entry :: input.called).flatMap HloComputation.ids).Nodup
  loops : ∀ i ∈ entry.instructions, ∀ n config, i.opcode = .whileLoop n →
    input.config i.id = some (ok config) → ∃ inputs body cloned tuple,
      UnrollableLoop M input.called entry i.id n config inputs body cloned tuple

section pass

variable {M : Machine V} {input : Input} {entry body : HloComputation}
  {properties properties' : LoopProperties} {cloned : List HloInstruction}
  {tuple i : HloInstruction} {inputs : List ℕ} {config : LoopConfig} {n : ℕ}

theorem Unrollable.nodup (h : Unrollable M input entry) : entry.ids.Nodup := by
  have hdistinct := h.distinct
  rw [List.flatMap_cons, List.nodup_append] at hdistinct
  exact hdistinct.1

theorem Unrollable.disjoint (h : Unrollable M input entry) (hbody : input.called[n]? = some body)
    {b : HloInstruction} (hb : b ∈ body.instructions) {id : ℕ} (hid : id ∈ entry.ids) :
    b.id ≠ id := by
  have hdistinct := h.distinct
  rw [List.flatMap_cons, List.nodup_append] at hdistinct
  have hcalled : b.id ∈ input.called.flatMap HloComputation.ids :=
    List.mem_flatMap.mpr ⟨body, List.mem_of_getElem? hbody, List.mem_map_of_mem hb⟩
  exact (hdistinct.2.2 id hid b.id hcalled).symm

theorem none_of_addProperties (h : Unrollable M input entry)
    (hrun : addProperties input entry properties i = ok properties') {id : ℕ}
    (hid : id ∈ entry.ids) (hnone : properties' id = some none) : properties id = some none := by
  unfold addProperties at hrun
  split at hrun
  · rename_i n hop
    obtain ⟨inputTuple, -, hrun⟩ := bind_eq_ok.mp hrun
    obtain ⟨inputs, -, hrun⟩ := bind_eq_ok.mp hrun
    obtain ⟨body, hbody, hrun⟩ := bind_eq_ok.mp hrun
    obtain ⟨root, -, hrun⟩ := bind_eq_ok.mp hrun
    obtain ⟨parameter, -, hrun⟩ := bind_eq_ok.mp hrun
    apply none_of_addLoopProperties hrun _ hnone
    intro user huser
    exact h.disjoint (elementAt_eq_ok.mp hbody) (mem_users.mp huser).1 hid
  · obtain rfl := ok.inj hrun
    exact hnone

/-- What the properties say of the inputs of a loop is right of its body. -/
theorem handedThrough_of_addProperties (h : Unrollable M input entry)
    (hi : i ∈ entry.instructions) (hop : i.opcode = .whileLoop n)
    (hloop : UnrollableLoop M input.called entry i.id n config inputs body cloned tuple)
    (hrun : addProperties input entry properties i = ok properties') :
    ∀ p, body.instructions.find? (fun i => i.opcode == .parameter 0) = some p →
      HandedThrough properties' body p.id inputs tuple.operands := by
  intro p hp b hb k o hbop hsource ho hnone
  obtain ⟨w, t, hw, -, hoperands, ht, -, rfl⟩ := hloop.site
  obtain rfl : i = w := by simpa [instruction_of_mem h.nodup hi] using hw
  unfold addProperties at hrun
  simp only [hop] at hrun
  obtain ⟨inputTuple, htuple, hrun⟩ := bind_eq_ok.mp hrun
  obtain rfl : t.id = inputTuple := by simpa [hoperands] using elementAt_eq_ok.mp htuple
  obtain ⟨t', ht', hrun⟩ := bind_eq_ok.mp hrun
  obtain rfl : t = t' := by simpa [getInstruction, ht] using ht'
  obtain ⟨body', hbody, hrun⟩ := bind_eq_ok.mp hrun
  obtain rfl : body = body' := by simpa [hloop.called] using elementAt_eq_ok.mp hbody
  obtain ⟨root, hroot, hrun⟩ := bind_eq_ok.mp hrun
  obtain ⟨parameter, hparameter, hrun⟩ := bind_eq_ok.mp hrun
  obtain rfl : p = parameter := by simpa [hp] using deref_eq_ok.mp hparameter
  have hmem : tuple ∈ body.instructions := by
    rw [hloop.body.instructions]
    simp
  obtain rfl : root = tuple := by
    have hfound := instruction_of_mem hloop.body.nodup hmem
    rw [hloop.body.rootId] at hfound
    have hroot := deref_eq_ok.mp hroot
    rw [hfound] at hroot
    exact (Option.some.inj hroot).symm
  have huser : b ∈ body.users p.id := mem_users.mpr ⟨hb, List.mem_of_getElem? hsource⟩
  apply root_of_addLoopProperties hrun _ b huser k o _ ho hnone
  · intro user huser o' ho'
    apply h.disjoint hloop.called (mem_users.mp huser).1
    obtain ⟨j, hj, -⟩ := hloop.inputs o' ho'
    exact mem_ids_of_instruction hj
  · exact HloInstruction.tupleIndex_eq_ok.mpr hbop

/-- The properties of the loops that have been visited are right of their bodies. -/
def Sound (M : Machine V) (input : Input) (entry : HloComputation)
    (properties : LoopProperties) (done : List HloInstruction) : Prop :=
  ∀ i ∈ done, ∀ n config inputs body cloned tuple, i.opcode = .whileLoop n →
    UnrollableLoop M input.called entry i.id n config inputs body cloned tuple →
    ∀ p, body.instructions.find? (fun i => i.opcode == .parameter 0) = some p →
      HandedThrough properties body p.id inputs tuple.operands

theorem sound_of_properties (h : Unrollable M input entry)
    (hrun : entry.instructions.foldlM (addProperties input entry) properties = ok properties') :
    Sound M input entry properties' entry.instructions := by
  apply foldlM_prefix (fun done p => Sound M input entry p done) hrun
  · intro i hi
    cases hi
  intro done last hinitial p p' ih hstep i hi n config inputs body cloned tuple hop hloop
  rcases List.mem_append.mp hi with hi | hi
  · -- later loops take nothing for unchanged that was known to be carried
    intro q hq b hb k o hbop hsource ho hnone
    apply ih i hi n config inputs body cloned tuple hop hloop q hq b hb k o hbop hsource ho
    obtain ⟨j, hj, -⟩ := hloop.inputs o (List.mem_of_getElem? ho)
    exact none_of_addProperties h hstep (mem_ids_of_instruction hj) hnone
  · obtain rfl := List.mem_singleton.mp hi
    exact handedThrough_of_addProperties h (hinitial.subset (by simp)) hop hloop hstep

/-- The loop of a machine that follows the configuration. -/
theorem UnrollableLoop.iterates {c : HloComputation} {id : ℕ}
    (h : UnrollableLoop M input.called c id n config inputs body cloned tuple) :
    Iterates (M.meaning input.called) body config n := by
  intro vs ws hws
  obtain ⟨body', hbody, states, hzero, hlast, hstates⟩ := Machine.iterations_of_loop hws
  obtain rfl : body = body' := by simpa [h.called] using hbody
  rw [h.trips] at hlast hstates
  refine ⟨states, hzero, hlast, ?_⟩
  intro t ht
  rw [← h.offset t]
  exact hstates t ht

/-- The entry computation while its loops are unrolled. -/
structure Unrolling (M : Machine V) (input : Input) (entry : HloComputation) (ctx : Context V)
    (result : Value V) (done : List HloInstruction) (st : PassState) : Prop where
  evaluates : ∃ val rank, Evaluates (M.meaning input.called) ctx val rank result st.entry
  fresh : ∀ id ∈ st.entry.ids, id < st.nextId
  loops : ∀ i ∈ entry.instructions, ∀ n config inputs body cloned tuple,
    UnrollableLoop M input.called entry i.id n config inputs body cloned tuple →
      UnrollableLoop M input.called st.entry i.id n config inputs body cloned tuple
  removed : ∀ i ∈ done, ∀ n config, i.opcode = .whileLoop n → input.config i.id = some (ok config) →
    i.id ∈ st.removed

variable {result : Value V} {done : List HloInstruction} {st st' : PassState}

theorem Unrolling.visit (hall : Unrolling M input entry ctx result done st)
    (h : Unrollable M input entry) (hsound : Sound M input entry properties entry.instructions)
    (hi : i ∈ entry.instructions) (hrun : visit input properties st i = ok st') :
    Unrolling M input entry ctx result (done ++ [i]) st' := by
  unfold LoopUnroll.visit at hrun
  split at hrun
  · rename_i n entered hop hconfig
    obtain ⟨config, hok, hrun⟩ := bind_eq_ok.mp hrun
    rw [hok] at hconfig
    obtain ⟨body', hbody', hrun⟩ := bind_eq_ok.mp hrun
    obtain ⟨u, hu, hrun⟩ := bind_eq_ok.mp hrun
    obtain rfl := ok.inj hrun
    obtain ⟨inputs, body, cloned, tuple, hloop⟩ := h.loops i hi n config hop hconfig
    obtain rfl : body = body' := by simpa [hloop.called] using elementAt_eq_ok.mp hbody'
    have hnow := hall.loops i hi n config inputs body cloned tuple hloop
    obtain ⟨val, rank, hvalues⟩ := hall.evaluates
    have hunrolled := unroll_values hvalues hall.fresh hnow.site hnow.body
      (hsound i hi n config inputs body cloned tuple hop hloop) hnow.iterates hu
    obtain ⟨w, -, hw, hwop, -⟩ := hnow.site
    have hwid := id_of_instruction hw
    rw [← hwid] at hw
    refine ⟨hunrolled.evaluates, ?_, ?_, ?_⟩
    · intro id hid
      exact (lt_freshId hid).trans_le (le_max_right _ _)
    · intro j hj n' config' inputs' body' cloned' tuple' hloop'
      exact (hall.loops j hj n' config' inputs' body' cloned' tuple' hloop').keeps hvalues.nodup hw
        hwop (hwid ▸ hunrolled.keeps)
    · intro j hj n' config' hop' hconfig'
      rcases List.mem_append.mp hj with hj | hj
      · exact List.mem_append_left _ (hall.removed j hj n' config' hop' hconfig')
      · rw [List.mem_singleton.mp hj]
        exact List.mem_append_right _ hunrolled.removed
  · rename_i hnot
    obtain rfl := ok.inj hrun
    refine ⟨hall.evaluates, hall.fresh, hall.loops, ?_⟩
    intro j hj n' config' hop' hconfig'
    rcases List.mem_append.mp hj with hj | hj
    · exact hall.removed j hj n' config' hop' hconfig'
    · rw [List.mem_singleton.mp hj] at hop' hconfig'
      exact absurd hconfig' (hnot n' (ok config') hop')

/-- What is removed in the end was not used. -/
theorem evaluates_removeAll {I : Interpretation V} {removed : List ℕ}
    (h : Evaluates I ctx val rank result c) (hrun : removed.foldlM removeInstruction c = ok c') :
    Evaluates I ctx val rank result c' ∧ ∀ id ∈ removed, id ∉ c'.ids := by
  apply foldlM_prefix (fun done c => Evaluates I ctx val rank result c ∧
    ∀ id ∈ done, id ∉ c.ids) hrun
  · exact ⟨h, fun id hid => by cases hid⟩
  rintro done id - d d' ⟨hd, hgone⟩ hstep
  unfold LoopUnroll.removeInstruction at hstep
  split at hstep
  · cases hstep
  rename_i hremovable
  obtain rfl := ok.inj hstep
  simp only [Bool.or_eq_true, Bool.not_eq_true', List.isEmpty_eq_false_iff, beq_iff_eq, not_or,
    not_not] at hremovable
  refine ⟨hd.removeInstruction hremovable.1 hremovable.2, ?_⟩
  intro id' hid' hmem
  obtain ⟨j, hj, rfl⟩ := List.mem_map.mp hmem
  obtain ⟨hj, hne⟩ := mem_removeInstruction.mp hj
  rcases List.mem_append.mp hid' with hid' | hid'
  · exact hgone j.id hid' (List.mem_map_of_mem hj)
  · exact hne (List.mem_singleton.mp hid')

/-- The unrolled entry computation computes what the loops did, and none of them is left. -/
theorem run_unrolls {before : LoopProperties} {nextId : ℕ} {colors : ColorState}
    {entry' : HloComputation} (h : Unrollable M input entry)
    (hfresh : ∀ id ∈ entry.ids, id < nextId)
    (hrun : run input before entry nextId colors = ok entry')
    (hresult : entry.Runs (M.meaning input.called) ctx result) :
    entry'.Runs (M.meaning input.called) ctx result ∧ ∀ i ∈ entry.instructions, ∀ n config,
      i.opcode = .whileLoop n → input.config i.id = some (ok config) → i.id ∉ entry'.ids := by
  unfold run at hrun
  obtain ⟨properties, hproperties, hrun⟩ := bind_eq_ok.mp hrun
  obtain ⟨st, hvisits, hremoved⟩ := bind_eq_ok.mp hrun
  have hsound := sound_of_properties h hproperties
  have hall : Unrolling M input entry ctx result entry.instructions st := by
    apply foldlM_prefix (Unrolling M input entry ctx result) hvisits
    · refine ⟨Evaluates.of_runs h.nodup hresult, hfresh, fun _ _ _ _ _ _ _ _ hloop => hloop, ?_⟩
      intro i hi
      cases hi
    · intro done i hinitial st st' hst hstep
      exact hst.visit h hsound (hinitial.subset (by simp)) hstep
  obtain ⟨val, rank, hvalues⟩ := hall.evaluates
  obtain ⟨hdone, hgone⟩ := evaluates_removeAll hvalues hremoved
  refine ⟨hdone.runs, ?_⟩
  intro i hi n config hop hconfig
  exact hgone i.id (hall.removed i hi n config hop hconfig)

end pass

def accumulatorEntry : HloComputation where
  instructions := [
    { id := 0, opcode := .parameter 0 },
    { id := 1, opcode := .parameter 1 },
    { id := 2, opcode := .tuple, operands := [0, 1] },
    { id := 3, opcode := .whileLoop 0, operands := [2] },
    { id := 4, opcode := .getTupleElement 0, operands := [3] },
    { id := 5, opcode := .getTupleElement 1, operands := [3] },
    { id := 6, opcode := .tuple, operands := [4, 5] }]
  root := 6

def accumulatorFront : List HloInstruction := [
  { id := 10, opcode := .parameter 0 },
  { id := 11, opcode := .getTupleElement 0, operands := [10] },
  { id := 12, opcode := .customCall kCustomCallSliceOffset },
  { id := 13, opcode := .call 1, operands := [11, 12], color := some "f" },
  { id := 14, opcode := .getTupleElement 0, operands := [13], color := some "f" },
  { id := 15, opcode := .getTupleElement 1, operands := [10] }]

def accumulatorRoot : HloInstruction :=
  { id := 16, opcode := .tuple, operands := [14, 15] }

/-- The offset of each iteration is added to the first value, and the second is handed through. -/
def accumulatorBody : HloComputation where
  instructions := accumulatorFront ++ [accumulatorRoot]
  root := 16

def accumulatorTask : HloComputation where
  instructions := [
    { id := 20, opcode := .parameter 0 },
    { id := 21, opcode := .parameter 1 },
    { id := 22, opcode := .other "add", operands := [20, 21] },
    { id := 23, opcode := .tuple, operands := [22] }]
  root := 23

def oneStage : HloPartition where
  devices := ⟨0, 4⟩
  colors := [("f", { name := "f", devices := ⟨0, 4⟩ })]

def twoMicrobatches : LoopConfig where
  numIterations := 2
  microbatchSize := 4

def accumulatorInput : Input where
  scheduleLoops := LoopScheduler.scheduleLoops LoopScheduler.insertionOrder LoopScheduler.stableQueue
  called := [accumulatorBody, accumulatorTask]
  config id := if id = 3 then some (ok twoMicrobatches) else none

/-- Integers, with two iterations of each loop in steps of four. -/
def offsets : Machine ℤ where
  offset k := k
  operation
    | .other "add", _, [.data x, .data y] => some (.data (x + y))
    | _, _, _ => none
  trips _ := 2
  iterationOffset _ t := t * 4

theorem unrollable_accumulatorEntry : Unrollable offsets accumulatorInput accumulatorEntry where
  distinct := by decide
  loops := by
    intro i hi n config hop hconfig
    have hid : i.id = 3 := by
      by_contra hne
      simp [accumulatorInput, hne] at hconfig
    have hloop : ∀ j ∈ accumulatorEntry.instructions, j.id = 3 → j.opcode = .whileLoop 0 := by
      decide
    have hzero := hloop i hi hid
    rw [hop] at hzero
    obtain rfl : n = 0 := HloOpcode.whileLoop.inj hzero
    rw [hid] at hconfig ⊢
    obtain rfl : twoMicrobatches = config := ok.inj (Option.some.inj hconfig)
    refine ⟨[0, 1], accumulatorBody, accumulatorFront, accumulatorRoot, rfl, fun _ => rfl, ?_, ?_,
      rfl, ?_⟩
    · exact ⟨_, { id := 2, opcode := .tuple, operands := [0, 1] }, rfl, rfl, rfl, rfl, rfl, rfl⟩
    · have hparameter : ∀ o ∈ [0, 1], ∃ j, accumulatorEntry.instruction o = some j ∧
          j.opcode = .parameter o := by
        simp [accumulatorEntry, instruction]
      intro o ho
      obtain ⟨j, hj, hjop⟩ := hparameter o ho
      exact ⟨j, hj, by simp [hjop], by simp [hjop]⟩
    · exact ⟨⟨rfl, rfl, by decide, by decide⟩, rfl, by simp [accumulatorFront]⟩

theorem run_unrolls_accumulator : ∃ entry',
    run accumulatorInput (fun _ => some none) accumulatorEntry 30 ⟨oneStage, []⟩ = ok entry' ∧
      entry'.ids = [0, 1, 6, 30, 31, 32, 34, 35, 36] ∧
      entry'.Runs (offsets.meaning accumulatorInput.called)
        ⟨fun k => [.data 1, .data 7][k]?, 0⟩ (.tuple [.data 5, .data 7]) := by
  have hok : ((run accumulatorInput (fun _ => some none) accumulatorEntry 30
      ⟨oneStage, []⟩).toOption.map fun c => c.ids) = some [0, 1, 6, 30, 31, 32, 34, 35, 36] := by
    decide +kernel
  obtain ⟨entry', hout, hids⟩ := Option.map_eq_some_iff.mp hok
  have hrun := toOption_eq_some.mp hout
  have hbefore : accumulatorEntry.Runs (offsets.meaning accumulatorInput.called)
      ⟨fun k => [.data 1, .data 7][k]?, 0⟩ (.tuple [.data 5, .data 7]) :=
    (Machine.kept_meaning 6).runs ⟨8, rfl⟩
  have hunrolled := run_unrolls unrollable_accumulatorEntry (by decide) hrun hbefore
  exact ⟨entry', hrun, hids, hunrolled.1⟩

def doublingBody : HloComputation where
  instructions := [
    { id := 40, opcode := .parameter 0 },
    { id := 41, opcode := .getTupleElement 0, operands := [40] },
    { id := 42, opcode := .call 1, operands := [41, 41], color := some "f" },
    { id := 43, opcode := .getTupleElement 0, operands := [42], color := some "f" },
    { id := 44, opcode := .tuple, operands := [43] }]
  root := 44

/-- The second loop doubles what the first one hands through. -/
def handedOnEntry : HloComputation where
  instructions := [
    { id := 0, opcode := .parameter 0 },
    { id := 1, opcode := .parameter 1 },
    { id := 2, opcode := .tuple, operands := [0, 1] },
    { id := 3, opcode := .whileLoop 0, operands := [2] },
    { id := 4, opcode := .getTupleElement 0, operands := [3] },
    { id := 5, opcode := .getTupleElement 1, operands := [3] },
    { id := 6, opcode := .tuple, operands := [5] },
    { id := 7, opcode := .whileLoop 2, operands := [6] },
    { id := 8, opcode := .getTupleElement 0, operands := [7] },
    { id := 9, opcode := .tuple, operands := [4, 8] }]
  root := 9

def handedOnInput : Input where
  scheduleLoops := LoopScheduler.scheduleLoops LoopScheduler.insertionOrder LoopScheduler.stableQueue
  called := [accumulatorBody, accumulatorTask, doublingBody]
  config id := if id = 3 ∨ id = 7 then some (ok twoMicrobatches) else none

/-- What a loop hands through is not to be carried by another: once the first loop is unrolled, its
input stands there, and each iteration of the second loop starts from it. -/
theorem run_loses_iterations : ∃ entry',
    run handedOnInput (fun _ => some none) handedOnEntry 60 ⟨oneStage, []⟩ = ok entry' ∧
      handedOnEntry.Runs (offsets.meaning handedOnInput.called)
        ⟨fun k => [.data 1, .data 7][k]?, 0⟩ (.tuple [.data 5, .data 28]) ∧
      entry'.Runs (offsets.meaning handedOnInput.called)
        ⟨fun k => [.data 1, .data 7][k]?, 0⟩ (.tuple [.data 5, .data 14]) := by
  have hok : ((run handedOnInput (fun _ => some none) handedOnEntry 60 ⟨oneStage, []⟩).toOption.bind
      fun c => c.run (offsets.interpretation handedOnInput.called 6)
        ⟨fun k => [.data 1, .data 7][k]?, 0⟩ 10) = some (.tuple [.data 5, .data 14]) := rfl
  obtain ⟨entry', hout, hresult⟩ := Option.bind_eq_some_iff.mp hok
  exact ⟨entry', toOption_eq_some.mp hout, (Machine.kept_meaning 6).runs ⟨10, rfl⟩,
    (Machine.kept_meaning 6).runs ⟨10, hresult⟩⟩

end LoopUnroll
end MultiMeshJax
