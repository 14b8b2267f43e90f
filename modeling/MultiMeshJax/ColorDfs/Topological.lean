import MultiMeshJax.ColorDfs
import MultiMeshJax.Foundation.PostorderSearch

/-! When `ColorSortedPostorder` is a topological order. -/
namespace MultiMeshJax
namespace ColorDfs

open StatusOr
open Relation (ReflTransGen)

/-- A graph without cycles: the operands are there, and come before their users in an order. A
get-tuple-element reads one instruction. -/
structure Dag (c : HloComputation) (rank : ℕ → ℕ) : Prop where
  nodup : c.ids.Nodup
  closed : ∀ i ∈ c.instructions, ∀ o ∈ i.operands, o ∈ c.ids
  descends : ∀ i ∈ c.instructions, ∀ o ∈ i.operands, rank o < rank i.id
  root : c.root ∈ c.ids
  elements : ∀ i ∈ c.instructions, i.isGetTupleElement = true → ∃ o, i.operands = [o]

/-- What can be reached from the root. -/
inductive Needed (c : HloComputation) : ℕ → Prop
  | root : Needed c c.root
  | operand {i : HloInstruction} {o : ℕ} (hi : i ∈ c.instructions) (hneeded : Needed c i.id)
      (ho : o ∈ i.operands) : Needed c o

structure IsTopological (c : HloComputation) (order : List HloInstruction) : Prop where
  once : ∀ i ∈ c.instructions, Needed c i.id → order.count i = 1
  ordered : ∀ before i after, order = before ++ i :: after →
    ∀ o ∈ i.operands, o ∈ before.map HloInstruction.id

def Steps (c : HloComputation) (st st' : State) : Prop :=
  ∃ id rest, st.toVisit = id :: rest ∧ step c st id rest = ok st'

def start (c : HloComputation) : State := { toVisit := [c.root] }

/-- An element of a custom call. -/
def TakenFrom (c : HloComputation) (next : HloInstruction) (source : ℕ) : Prop :=
  next.isGetTupleElement = true ∧ next.operands[0]? = some source ∧
    ∃ i target, c.instruction source = some i ∧ i.opcode = .customCall target

/-- The traversal comes back to an instruction. -/
structure ComesBack (c : HloComputation) (st : State) (next : HloInstruction) : Prop where
  top : ∃ rest, st.toVisit = next.id :: rest
  opened : st.visited next.id = some false
  instruction : c.instruction next.id = some next

/-- The other users of the custom call are not in the order yet, if they are needed, and nothing
that they read is missing. -/
def Ready (c : HloComputation) (st : State) (users : List HloInstruction) : Prop :=
  ∀ before user after, users = before ++ user :: after → user.isGetTupleElement = false →
    (Needed c user.id → user ∉ st.dfs) ∧
      ∀ o ∈ user.operands, o ∈ (st.dfs ++ before).map HloInstruction.id

variable {c : HloComputation} {rank : ℕ → ℕ} {st st' st'' : State} {next : HloInstruction}
  {source : ℕ} {rest : List ℕ}

section steps

/-- What is put into the order together. -/
def Together (c : HloComputation) (next : HloInstruction) (users : List HloInstruction) : Prop :=
  (users = [next] ∧ ∀ source, ¬TakenFrom c next source) ∨
    ∃ source, TakenFrom c next source ∧ users = c.users source

/-- A step expands an instruction, takes one off that is done, or finishes one. -/
inductive Moves (c : HloComputation) (st : State) (next : HloInstruction) (rest : List ℕ) :
    State → Prop
  | expand {operands : List HloInstruction} (hfresh : st.visited next.id = none)
      (hoperands : operands.map HloInstruction.id = next.operands) :
      Moves c st next rest (pushOperands st next operands)
  | pop (hdone : st.visited next.id = some true) : Moves c st next rest { st with toVisit := rest }
  | finish {users : List HloInstruction} (hopened : st.visited next.id = some false)
      (husers : Together c next users) :
      Moves c st next rest
        { st with
          toVisit := rest
          dfs := st.dfs ++ users
          visited := fun id =>
            if id ∈ users.map HloInstruction.id then some true else st.visited id }

theorem exists_getInstruction (h : Dag c rank) {ids : List ℕ} (hids : ∀ id ∈ ids, id ∈ c.ids) :
    ∃ is, ids.mapM c.getInstruction = ok is ∧ is.map HloInstruction.id = ids := by
  induction ids with
  | nil => exact ⟨[], rfl, rfl⟩
  | cons id ids ih =>
    obtain ⟨is, his, hmap⟩ := ih fun id hid => hids id (List.mem_cons_of_mem _ hid)
    obtain ⟨i, hi, rfl⟩ := List.mem_map.mp (hids _ (List.mem_cons_self ..))
    refine ⟨i :: is, ?_, by rw [List.map_cons, hmap]⟩
    rw [List.mapM_cons, HloComputation.getInstruction,
      HloComputation.instruction_of_mem h.nodup hi, deref_some, ok_bind, his, ok_bind]
    rfl

/-- On a graph without cycles no step fails. -/
theorem exists_moves (st : State) (h : Dag c rank) (hnext : c.instruction next.id = some next)
    (rest : List ℕ) : ∃ st', step c st next.id rest = ok st' ∧ Moves c st next rest st' := by
  have hmem := HloComputation.mem_of_instruction hnext
  have hget : c.getInstruction next.id = ok next := by
    rw [HloComputation.getInstruction, hnext, deref_some]
  unfold step
  rw [hget, ok_bind]
  cases hvisited : st.visited next.id with
  | none =>
    obtain ⟨is, his, hmap⟩ := exists_getInstruction h (h.closed next hmem)
    refine ⟨_, ?_, .expand hvisited hmap⟩
    dsimp only
    rw [his]
    rfl
  | some done =>
    cases done with
    | true => exact ⟨_, rfl, .pop hvisited⟩
    | false =>
      dsimp only
      unfold finish
      dsimp only
      by_cases helement : next.isGetTupleElement = true
      · obtain ⟨source, hoperands⟩ := h.elements next hmem helement
        have hsource : next.operands[0]? = some source := by rw [hoperands]; rfl
        obtain ⟨i, hi, hid⟩ := List.mem_map.mp (h.closed next hmem source (by simp [hoperands]))
        have hi := HloComputation.instruction_of_mem h.nodup hi
        rw [hid] at hi
        rw [if_pos helement, elementAt_eq_ok.mpr hsource, ok_bind, HloComputation.getInstruction, hi,
          deref_some, ok_bind]
        split
        · rename_i target hop
          exact ⟨_, rfl, .finish hvisited (.inr ⟨source, ⟨helement, hsource, i, target, hi, hop⟩,
            rfl⟩)⟩
        · rename_i hop
          refine ⟨_, rfl, .finish hvisited (.inl ⟨rfl, ?_⟩)⟩
          rintro source' ⟨-, hsource', i', target, hi', hop'⟩
          rw [hsource] at hsource'
          obtain rfl := Option.some.inj hsource'
          rw [hi] at hi'
          obtain rfl := Option.some.inj hi'
          exact hop target hop'
      · rw [if_neg helement]
        exact ⟨_, rfl, .finish hvisited (.inl ⟨rfl, fun source htaken => helement htaken.1⟩)⟩

theorem steps_unique (hst' : Steps c st st') (hst'' : Steps c st st'') : st' = st'' := by
  obtain ⟨id, rest, htop, hst'⟩ := hst'
  obtain ⟨id', rest', htop', hst''⟩ := hst''
  rw [htop] at htop'
  obtain ⟨rfl, rfl⟩ := List.cons.inj htop'
  rw [hst'] at hst''
  exact ok.inj hst''

/-- What is on the stack is in the computation. -/
theorem Steps.moves (h : Dag c rank) (hst : ∀ id ∈ st.toVisit, id ∈ c.ids)
    (hsteps : Steps c st st') : ∃ next rest, c.instruction next.id = some next ∧
      st.toVisit = next.id :: rest ∧ Moves c st next rest st' := by
  obtain ⟨id, rest, htop, hstep⟩ := hsteps
  obtain ⟨next, hmem, rfl⟩ := List.mem_map.mp (hst id (htop ▸ List.mem_cons_self ..))
  have hnext := HloComputation.instruction_of_mem h.nodup hmem
  obtain ⟨st'', hstep', hmoves⟩ := exists_moves st h hnext rest
  rw [hstep] at hstep'
  obtain rfl := ok.inj hstep'
  exact ⟨next, rest, hnext, htop, hmoves⟩

/-- The operands go onto the stack. -/
theorem pushOperands_eq (st : State) {operands : List HloInstruction}
    (hoperands : operands.map HloInstruction.id = next.operands) :
    (∃ items, (pushOperands st next operands).toVisit = items ++ st.toVisit ∧
      ∀ id, id ∈ items ↔ id ∈ next.operands) ∧
    (pushOperands st next operands).dfs = st.dfs ∧
    (pushOperands st next operands).visited = Function.update st.visited next.id (some false) := by
  obtain ⟨htoVisit, hvisited, hdfs⟩ := setPriority_toVisit st next
  refine ⟨⟨((sortOperands (setPriority st next).colorPriority operands).map
    HloInstruction.id).reverse, ?_, ?_⟩, hdfs, ?_⟩
  · rw [← htoVisit]
    rfl
  · intro id
    rw [List.mem_reverse, ← hoperands]
    exact ((List.perm_insertionSort _ operands).map HloInstruction.id).mem_iff
  · rw [← hvisited]
    rfl

/-- What is put into the order together is in the computation, once each, and the instruction that
the traversal comes back to is among it. -/
theorem Together.mem {users : List HloInstruction} (h : Together c next users)
    (hmem : next ∈ c.instructions) : next ∈ users ∧ ∀ user ∈ users, user ∈ c.instructions := by
  rcases h with ⟨rfl, -⟩ | ⟨source, ⟨-, hsource, -⟩, rfl⟩
  · refine ⟨List.mem_singleton_self next, ?_⟩
    intro user huser
    rwa [List.mem_singleton.mp huser]
  · refine ⟨HloComputation.mem_users.mpr ⟨hmem, List.mem_of_getElem? hsource⟩, ?_⟩
    exact fun user huser => (HloComputation.mem_users.mp huser).1

theorem Together.nodup {users : List HloInstruction} (hids : c.ids.Nodup)
    (h : Together c next users) : users.Nodup := by
  rcases h with ⟨rfl, -⟩ | ⟨source, -, rfl⟩
  · exact List.nodup_singleton next
  · exact (List.Nodup.of_map _ hids).filter _

end steps

section searching

/-- The invariant of the traversal: above an open instruction there are only instructions below it,
and its operands are in the order or above it. -/
structure Searching (c : HloComputation) (rank : ℕ → ℕ) (st : State) : Prop where
  stack : ∀ id ∈ st.toVisit, id ∈ c.ids
  mem : ∀ i ∈ st.dfs, i ∈ c.instructions
  marked : ∀ id, st.visited id = some true ↔ id ∈ st.dfs.map HloInstruction.id
  ordered : ∀ before i after, st.dfs = before ++ i :: after →
    ∀ o ∈ i.operands, o ∈ before.map HloInstruction.id
  once : ∀ i, Needed c i.id → st.dfs.count i ≤ 1
  gathered : ∀ i ∈ st.dfs, ∀ source, TakenFrom c i source → ∀ user ∈ c.users source, user ∈ st.dfs
  root : c.root ∈ st.toVisit ∨ st.visited c.root = some true
  waiting : ∀ id, st.visited id = some false → id ∈ st.toVisit
  opened : ∀ i, c.instruction i.id = some i → st.visited i.id = some false →
    ∀ above below, st.toVisit = above ++ i.id :: below → i.id ∉ above →
      (∀ o ∈ i.operands, st.visited o = some true ∨ o ∈ above) ∧ ∀ x ∈ above, rank x < rank i.id

theorem searching_start (h : Dag c rank) : Searching c rank (start c) where
  stack id hid := by
    rw [List.mem_singleton.mp hid]
    exact h.root
  mem i hi := by cases hi
  marked id := iff_of_false (fun hid => by cases hid) (fun hid => by cases hid)
  ordered before i after heq := by
    have hlen := congrArg List.length heq
    simp [start] at hlen
  once i _ := Nat.zero_le _
  gathered i hi := by cases hi
  root := .inl (List.mem_singleton_self _)
  waiting id hid := by cases hid
  opened i _ hid := by cases hid

theorem Searching.pop (h : Searching c rank st) (htop : st.toVisit = next.id :: rest)
    (hdone : st.visited next.id = some true) : Searching c rank { st with toVisit := rest } where
  stack id hid := h.stack id (htop ▸ List.mem_cons_of_mem _ hid)
  mem := h.mem
  marked := h.marked
  ordered := h.ordered
  once := h.once
  gathered := h.gathered
  root := by
    rcases h.root with hroot | hroot
    · rw [htop] at hroot
      rcases List.mem_cons.mp hroot with heq | hrest
      · exact .inr (heq ▸ hdone)
      · exact .inl hrest
    · exact .inr hroot
  waiting id hid := by
    have hin := h.waiting id hid
    rw [htop] at hin
    rcases List.mem_cons.mp hin with rfl | hrest
    · rw [hdone] at hid
      cases hid
    · exact hrest
  opened i hi hid above below hsplit hfirst := by
    have hne : i.id ≠ next.id := by
      intro heq
      rw [heq, hdone] at hid
      cases hid
    have hsplit' : st.toVisit = (next.id :: above) ++ i.id :: below := by
      rw [htop, List.cons_append]
      exact congrArg _ hsplit
    obtain ⟨hoperands, hbelow⟩ := h.opened i hi hid (next.id :: above) below hsplit'
      (by simp [hne, hfirst])
    constructor
    · intro o ho
      rcases hoperands o ho with hin | hin
      · exact .inl hin
      · rcases List.mem_cons.mp hin with rfl | hin
        · exact .inl hdone
        · exact .inr hin
    · exact fun x hx => hbelow x (List.mem_cons_of_mem _ hx)

theorem Searching.expand (h : Searching c rank st) (hdag : Dag c rank)
    (htop : st.toVisit = next.id :: rest) (hnext : c.instruction next.id = some next)
    (hfresh : st.visited next.id = none) {operands : List HloInstruction}
    (hoperands : operands.map HloInstruction.id = next.operands) :
    Searching c rank (pushOperands st next operands) := by
  have hmem := HloComputation.mem_of_instruction hnext
  obtain ⟨⟨items, htoVisit, hitems⟩, hdfs, hvisited⟩ := pushOperands_eq st hoperands
  have hkept : ∀ id done, st.visited id = some done →
      id ≠ next.id ∧ (pushOperands st next operands).visited id = some done := by
    intro id done hid
    have hne : id ≠ next.id := by
      rintro rfl
      rw [hfresh] at hid
      cases hid
    rw [hvisited, Function.update_of_ne hne]
    exact ⟨hne, hid⟩
  have hback : ∀ id done, (pushOperands st next operands).visited id = some done → id ≠ next.id →
      st.visited id = some done := by
    intro id done hid hne
    rwa [hvisited, Function.update_of_ne hne] at hid
  have hnot : ∀ id ∈ items, rank id < rank next.id := fun id hid =>
    hdag.descends next hmem id ((hitems id).mp hid)
  -- an open instruction is in the old stack, with this one above it
  have hopened : ∀ i, c.instruction i.id = some i → st.visited i.id = some false →
      rank next.id < rank i.id := by
    intro i hi hid
    have hin := h.waiting i.id hid
    rw [htop] at hin
    have hin := (List.mem_cons.mp hin).resolve_left (hkept i.id false hid).1
    obtain ⟨above, below, hsplit, hfirst⟩ := List.eq_append_cons_of_mem hin
    have hsplit' : st.toVisit = (next.id :: above) ++ i.id :: below := by
      rw [htop, hsplit, List.cons_append]
    exact (h.opened i hi hid (next.id :: above) below hsplit'
      (by simp [(hkept i.id false hid).1, hfirst])).2 next.id (List.mem_cons_self ..)
  constructor
  · intro id hid
    rw [htoVisit] at hid
    rcases List.mem_append.mp hid with hid | hid
    · exact hdag.closed next hmem id ((hitems id).mp hid)
    · exact h.stack id hid
  · rw [hdfs]
    exact h.mem
  · intro id
    rw [hdfs, ← h.marked]
    constructor
    · intro hid
      apply hback id true hid
      rintro rfl
      rw [hvisited, Function.update_self] at hid
      cases hid
    · exact fun hid => (hkept id true hid).2
  · rw [hdfs]
    exact h.ordered
  · rw [hdfs]
    exact h.once
  · rw [hdfs]
    exact h.gathered
  · rcases h.root with hroot | hroot
    · exact .inl (htoVisit ▸ List.mem_append_right _ hroot)
    · exact .inr (hkept _ true hroot).2
  · intro id hid
    rw [htoVisit]
    by_cases hne : id = next.id
    · rw [hne, htop]
      exact List.mem_append_right _ (List.mem_cons_self ..)
    · exact List.mem_append_right _ (h.waiting id (hback id false hid hne))
  · intro i hi hid above below hsplit hfirst
    rw [htoVisit] at hsplit
    by_cases hne : i.id = next.id
    · rw [hne, hnext] at hi
      obtain rfl := Option.some.inj hi
      have hself : next.id ∉ items := fun hin => (hnot _ hin).false
      obtain ⟨mid, rfl, hmid⟩ := PostorderSearch.append_cons_split hsplit hself
      have hmid : mid = [] := by
        rw [htop] at hmid
        cases mid with
        | nil => rfl
        | cons m mid =>
          obtain ⟨rfl, -⟩ := List.cons.inj hmid
          simp at hfirst
      rw [hmid, List.append_nil]
      exact ⟨fun o ho => .inr ((hitems o).mpr ho), hnot⟩
    · have hid := hback i.id false hid hne
      have hbelow := hopened i hi hid
      have hself : i.id ∉ items := fun hin => by
        have hlt := hnot _ hin
        omega
      obtain ⟨mid, rfl, hmid⟩ := PostorderSearch.append_cons_split hsplit hself
      obtain ⟨hoperandsDone, hrank⟩ := h.opened i hi hid mid below hmid
        fun hin => hfirst (List.mem_append_right _ hin)
      constructor
      · intro o ho
        rcases hoperandsDone o ho with hin | hin
        · exact .inl (hkept o true hin).2
        · exact .inr (List.mem_append_right _ hin)
      · intro x hx
        rcases List.mem_append.mp hx with hx | hx
        · exact (hnot x hx).trans hbelow
        · exact hrank x hx

/-- A user of a custom call that is an element of something is taken from this call. -/
theorem takenFrom_of_user (hdag : Dag c rank) (htaken : TakenFrom c next source)
    {user : HloInstruction} (huser : user ∈ c.users source)
    (helement : user.isGetTupleElement = true) :
    user.operands = [source] ∧ TakenFrom c user source := by
  obtain ⟨hmem, hread⟩ := HloComputation.mem_users.mp huser
  obtain ⟨o, ho⟩ := hdag.elements user hmem helement
  rw [ho, List.mem_singleton] at hread
  subst hread
  exact ⟨ho, helement, by rw [ho]; rfl, htaken.2.2⟩

section finish

variable {users : List HloInstruction} (h : Searching c rank st) (hdag : Dag c rank)
  (htop : st.toVisit = next.id :: rest) (hnext : c.instruction next.id = some next)
  (hopen : st.visited next.id = some false) (husers : Together c next users)
  (hready : ∀ source, TakenFrom c next source → Ready c st (c.users source))

include h htop hnext hopen

/-- What an open instruction at the top reads is in the order. -/
theorem Searching.operands_done {o : ℕ} (ho : o ∈ next.operands) :
    o ∈ st.dfs.map HloInstruction.id := by
  obtain ⟨hdone, -⟩ := h.opened next hnext hopen [] rest htop List.not_mem_nil
  rcases hdone o ho with hin | hin
  · exact (h.marked o).mp hin
  · cases hin

omit htop hnext in
theorem Searching.next_notMem : next ∉ st.dfs := by
  intro hin
  have hmarked := (h.marked next.id).mpr (List.mem_map_of_mem hin)
  rw [hopen] at hmarked
  cases hmarked

include hdag husers hready

theorem Searching.finish_ordered {before after : List HloInstruction} {i : HloInstruction}
    (heq : users = before ++ i :: after) {o : ℕ} (ho : o ∈ i.operands) :
    o ∈ (st.dfs ++ before).map HloInstruction.id := by
  rw [List.map_append]
  rcases husers with ⟨hsingle, -⟩ | ⟨source, htaken, rfl⟩
  · rw [hsingle] at heq
    cases before with
    | nil =>
      obtain ⟨rfl, -⟩ := List.cons.inj heq
      exact List.mem_append_left _ (h.operands_done htop hnext hopen ho)
    | cons b before => simp at heq
  · have hin : i ∈ c.users source := heq ▸ List.mem_append_right _ (List.mem_cons_self ..)
    cases helement : i.isGetTupleElement with
    | true =>
      rw [(takenFrom_of_user hdag htaken hin helement).1, List.mem_singleton] at ho
      rw [ho]
      exact List.mem_append_left _
        (h.operands_done htop hnext hopen (List.mem_of_getElem? htaken.2.1))
    | false =>
      rw [← List.map_append]
      exact (hready source htaken before i after heq helement).2 o ho

omit htop in
theorem Searching.finish_fresh {i : HloInstruction} (hi : i ∈ users) (hneeded : Needed c i.id) :
    i ∉ st.dfs := by
  rcases husers with ⟨rfl, -⟩ | ⟨source, htaken, rfl⟩
  · rw [List.mem_singleton.mp hi]
    exact h.next_notMem hopen
  · cases helement : i.isGetTupleElement with
    | true =>
      intro hin
      have hself : next ∈ c.users source := HloComputation.mem_users.mpr
        ⟨HloComputation.mem_of_instruction hnext, List.mem_of_getElem? htaken.2.1⟩
      exact h.next_notMem hopen
        (h.gathered i hin source (takenFrom_of_user hdag htaken hi helement).2 next hself)
    | false =>
      obtain ⟨before, after, heq⟩ := List.append_of_mem hi
      exact (hready source htaken before i after heq helement).1 hneeded

theorem Searching.finish : Searching c rank
    { st with
      toVisit := rest
      dfs := st.dfs ++ users
      visited := fun id =>
        if id ∈ users.map HloInstruction.id then some true else st.visited id } := by
  obtain ⟨hself, hmem⟩ := husers.mem (HloComputation.mem_of_instruction hnext)
  have hselfId : next.id ∈ users.map HloInstruction.id := List.mem_map_of_mem hself
  constructor
  · exact fun id hid => h.stack id (htop ▸ List.mem_cons_of_mem _ hid)
  · intro i hi
    rcases List.mem_append.mp hi with hi | hi
    · exact h.mem i hi
    · exact hmem i hi
  · intro id
    dsimp only
    rw [List.map_append, List.mem_append, ← h.marked]
    split
    · rename_i hin
      exact iff_of_true rfl (.inr hin)
    · rename_i hnot
      exact (or_iff_left hnot).symm
  · intro before i after heq o ho
    rcases List.append_eq_append_iff.mp heq with ⟨mid, rfl, husersEq⟩ | ⟨mid, hdfs, hmid⟩
    · exact h.finish_ordered hdag htop hnext hopen husers hready husersEq ho
    · cases mid with
      | nil =>
        rw [List.append_nil] at hdfs
        have husersEq : users = [] ++ i :: after := hmid.symm
        have hin := h.finish_ordered hdag htop hnext hopen husers hready husersEq ho
        rwa [List.append_nil, hdfs] at hin
      | cons m mid =>
        obtain ⟨rfl, -⟩ := List.cons.inj hmid
        exact h.ordered before i mid hdfs o ho
  · intro i hneeded
    rw [List.count_append]
    by_cases hin : i ∈ users
    · have hfresh := h.finish_fresh hdag hnext hopen husers hready hin hneeded
      rw [List.count_eq_zero_of_not_mem hfresh, Nat.zero_add]
      exact List.nodup_iff_count_le_one.mp (husers.nodup hdag.nodup) i
    · rw [List.count_eq_zero_of_not_mem hin, Nat.add_zero]
      exact h.once i hneeded
  · intro i hi source htaken user huser
    rcases List.mem_append.mp hi with hi | hi
    · exact List.mem_append_left _ (h.gathered i hi source htaken user huser)
    · rcases husers with ⟨rfl, hnot⟩ | ⟨source', htaken', rfl⟩
      · rw [List.mem_singleton.mp hi] at htaken
        exact absurd htaken (hnot source)
      · obtain ⟨hoperands, -⟩ := takenFrom_of_user hdag htaken' hi htaken.1
        have hsource := htaken.2.1
        rw [hoperands] at hsource
        obtain rfl := Option.some.inj hsource
        exact List.mem_append_right _ huser
  · dsimp only
    rcases h.root with hroot | hroot
    · rw [htop] at hroot
      rcases List.mem_cons.mp hroot with heq | hrest
      · rw [heq, if_pos hselfId]
        exact .inr rfl
      · exact .inl hrest
    · right
      split
      · rfl
      · exact hroot
  · intro id hid
    dsimp only at hid
    split at hid
    · cases hid
    · rename_i hnot
      have hin := h.waiting id hid
      rw [htop] at hin
      rcases List.mem_cons.mp hin with rfl | hrest
      · exact absurd hselfId hnot
      · exact hrest
  · intro i hi hid above below hsplit hfirst
    dsimp only at hid
    split at hid
    · cases hid
    · rename_i hnot
      have hne : i.id ≠ next.id := fun heq => hnot (heq ▸ hselfId)
      have hsplit' : st.toVisit = (next.id :: above) ++ i.id :: below := by
        rw [htop, List.cons_append]
        exact congrArg _ hsplit
      obtain ⟨hoperands, hbelow⟩ := h.opened i hi hid (next.id :: above) below hsplit'
        (by simp [hne, hfirst])
      refine ⟨?_, fun x hx => hbelow x (List.mem_cons_of_mem _ hx)⟩
      intro o ho
      dsimp only
      split
      · exact .inl rfl
      · rename_i hother
        rcases hoperands o ho with hin | hin
        · exact .inl hin
        · rcases List.mem_cons.mp hin with rfl | hin
          · exact absurd hselfId hother
          · exact .inr hin

end finish

/-- Each step from a state in which the users of a custom call are ready keeps the invariant. -/
theorem Searching.steps (h : Searching c rank st) (hdag : Dag c rank)
    (hready : ∀ next source, ComesBack c st next → TakenFrom c next source →
      Ready c st (c.users source)) (hsteps : Steps c st st') : Searching c rank st' := by
  obtain ⟨next, rest, hnext, htop, hmoves⟩ := hsteps.moves hdag h.stack
  cases hmoves with
  | expand hfresh hoperands => exact h.expand hdag htop hnext hfresh hoperands
  | pop hdone => exact h.pop htop hdone
  | finish hopen husers =>
    exact h.finish hdag htop hnext hopen husers
      fun source => hready next source ⟨⟨rest, htop⟩, hopen, hnext⟩

theorem Searching.reaches (hdag : Dag c rank) (hready : ∀ st next source,
    ReflTransGen (Steps c) (start c) st → ComesBack c st next → TakenFrom c next source →
      Ready c st (c.users source)) (hreach : ReflTransGen (Steps c) (start c) st) :
    Searching c rank st := by
  induction hreach with
  | refl => exact searching_start hdag
  | tail hreach hsteps ih =>
    exact ih.steps hdag (fun next source => hready _ next source hreach) hsteps

end searching

section outcome

variable {order : List HloInstruction}

/-- The order only grows. -/
theorem dfs_le_of_reaches (hdag : Dag c rank) (hst : ∀ id ∈ st.toVisit, id ∈ c.ids)
    (hreach : ReflTransGen (Steps c) st st') :
    (∀ id ∈ st'.toVisit, id ∈ c.ids) ∧ st.dfs <+: st'.dfs := by
  induction hreach with
  | refl => exact ⟨hst, List.prefix_rfl⟩
  | @tail st₁ st₂ _ hsteps ih =>
    obtain ⟨hstack, hle⟩ := ih
    obtain ⟨next, rest, hnext, htop, hmoves⟩ := hsteps.moves hdag hstack
    have hrest : ∀ id ∈ rest, id ∈ c.ids := fun id hid =>
      hstack id (htop ▸ List.mem_cons_of_mem _ hid)
    cases hmoves with
    | expand hfresh hoperands =>
      obtain ⟨⟨items, htoVisit, hitems⟩, hdfs, -⟩ := pushOperands_eq st₁ hoperands
      constructor
      · intro id hid
        rw [htoVisit] at hid
        rcases List.mem_append.mp hid with hid | hid
        · exact hdag.closed next (HloComputation.mem_of_instruction hnext) id ((hitems id).mp hid)
        · exact hstack id hid
      · rw [hdfs]
        exact hle
    | pop hdone => exact ⟨hrest, hle⟩
    | finish hopen husers => exact ⟨hrest, hle.trans (List.prefix_append _ _)⟩

/-- The loop goes through the steps to the end. -/
theorem loop_reaches (hdag : Dag c rank) {fuel : ℕ} {result : StatusOr (List HloInstruction)}
    (hst : ∀ id ∈ st.toVisit, id ∈ c.ids) (hrun : loop c fuel st = some result) :
    ∃ st', ReflTransGen (Steps c) st st' ∧ st'.toVisit = [] ∧ result = ok st'.dfs := by
  induction fuel generalizing st with
  | zero =>
    unfold loop at hrun
    split at hrun
    · rename_i hempty
      exact ⟨st, .refl, hempty, (Option.some.inj hrun).symm⟩
    · cases hrun
    · rename_i hzero
      cases hzero
  | succ fuel ih =>
    unfold loop at hrun
    split at hrun
    · rename_i hempty
      exact ⟨st, .refl, hempty, (Option.some.inj hrun).symm⟩
    · rename_i hzero
      cases hzero
    · rename_i id rest fuel' htop hfuel
      obtain rfl : fuel' = fuel := by omega
      obtain ⟨next, hmem, rfl⟩ := List.mem_map.mp (hst id (htop ▸ List.mem_cons_self ..))
      obtain ⟨st₁, hstep, -⟩ := exists_moves st hdag
        (HloComputation.instruction_of_mem hdag.nodup hmem) rest
      have hsteps : Steps c st st₁ := ⟨next.id, rest, htop, hstep⟩
      rw [hstep] at hrun
      obtain ⟨st', hreach, hempty, hresult⟩ :=
        ih (dfs_le_of_reaches hdag hst (.single hsteps)).1 hrun
      exact ⟨st', .head hsteps hreach, hempty, hresult⟩

theorem exists_order (hdag : Dag c rank) : ∃ st', ReflTransGen (Steps c) (start c) st' ∧
    st'.toVisit = [] ∧ colorSortedPostorder c = some (ok st'.dfs) := by
  obtain ⟨result, hresult⟩ := Option.isSome_iff_exists.mp (colorSortedPostorder_isSome c)
  have hstart : ∀ id ∈ (start c).toVisit, id ∈ c.ids := (searching_start hdag).stack
  obtain ⟨st', hreach, hempty, rfl⟩ := loop_reaches hdag hstart hresult
  exact ⟨st', hreach, hempty, hresult⟩

/-- When the stack is empty, all that is needed is in the order. -/
theorem Searching.isTopological (h : Searching c rank st) (hdag : Dag c rank)
    (hempty : st.toVisit = []) : IsTopological c st.dfs := by
  have hall : ∀ id, Needed c id → id ∈ st.dfs.map HloInstruction.id := by
    intro id hneeded
    induction hneeded with
    | root =>
      rcases h.root with hroot | hroot
      · rw [hempty] at hroot
        cases hroot
      · exact (h.marked _).mp hroot
    | @operand i o hi _ ho ih =>
      obtain ⟨j, hj, heq⟩ := List.mem_map.mp ih
      obtain rfl := List.inj_on_of_nodup_map hdag.nodup (h.mem j hj) hi heq
      obtain ⟨before, after, hsplit⟩ := List.append_of_mem hj
      have hin := h.ordered before j after hsplit o ho
      rw [hsplit, List.map_append]
      exact List.mem_append_left _ hin
  constructor
  · intro i hi hneeded
    obtain ⟨j, hj, heq⟩ := List.mem_map.mp (hall i.id hneeded)
    obtain rfl := List.inj_on_of_nodup_map hdag.nodup (h.mem j hj) hi heq
    exact le_antisymm (h.once j hneeded) (List.count_pos_iff.mpr hj)
  · exact h.ordered

/-- In a topological order the users of a custom call are ready when they are put together. -/
theorem ready_of_isTopological (hdag : Dag c rank) (hstack : ∀ id ∈ st.toVisit, id ∈ c.ids)
    (hreach : ReflTransGen (Steps c) st st') (hempty : st'.toVisit = [])
    (htopological : IsTopological c st'.dfs) (hback : ComesBack c st next)
    (htaken : TakenFrom c next source) : Ready c st (c.users source) := by
  obtain ⟨rest, htop⟩ := hback.top
  rcases ReflTransGen.cases_head hreach with rfl | ⟨st₁, hsteps, hrest⟩
  · rw [htop] at hempty
    cases hempty
  obtain ⟨next', rest', hnext', htop', hmoves⟩ := hsteps.moves hdag hstack
  have hid : next'.id = next.id := by
    rw [htop] at htop'
    exact (List.cons.inj htop').1.symm
  rw [hid, hback.instruction] at hnext'
  obtain rfl := Option.some.inj hnext'
  have hstack₁ := (dfs_le_of_reaches hdag hstack (.single hsteps)).1
  obtain ⟨later, hlater⟩ := (dfs_le_of_reaches hdag hstack₁ hrest).2
  -- the users come right after what is in the order
  have hdfs : st₁.dfs = st.dfs ++ c.users source := by
    cases hmoves with
    | expand hfresh hoperands =>
      rw [hback.opened] at hfresh
      cases hfresh
    | pop hdone =>
      rw [hback.opened] at hdone
      cases hdone
    | finish hopen husers =>
      rcases husers with ⟨-, hnot⟩ | ⟨source', htaken', rfl⟩
      · exact absurd htaken (hnot source)
      · have hsource := htaken.2.1
        rw [htaken'.2.1] at hsource
        rw [Option.some.inj hsource]
  intro before user after heq _
  have hsplit : st'.dfs = (st.dfs ++ before) ++ user :: (after ++ later) := by
    rw [← hlater, hdfs, heq]
    simp
  constructor
  · intro hneeded hin
    have huser : user ∈ c.users source := heq ▸ List.mem_append_right _ (List.mem_cons_self ..)
    have hcount := htopological.once user (HloComputation.mem_users.mp huser).1 hneeded
    have hpos := List.count_pos_iff.mpr hin
    rw [hsplit, List.count_append, List.count_append, List.count_cons_self] at hcount
    omega
  · exact htopological.ordered _ user _ hsplit

/-- The order is topological exactly when, each time that the traversal comes back to an element of
a custom call, the other users of the call are ready. -/
theorem colorSortedPostorder_isTopological_iff (hdag : Dag c rank) :
    (∃ order, colorSortedPostorder c = some (ok order) ∧ IsTopological c order) ↔
      ∀ st next source, ReflTransGen (Steps c) (start c) st → ComesBack c st next →
        TakenFrom c next source → Ready c st (c.users source) := by
  obtain ⟨last, hlast, hempty, hrun⟩ := exists_order hdag
  constructor
  · rintro ⟨order, horder, htopological⟩
    rw [hrun] at horder
    obtain rfl := ok.inj (Option.some.inj horder)
    intro st next source hreach hback htaken
    have hstack := (dfs_le_of_reaches hdag (searching_start hdag).stack hreach).1
    have hunique : Relator.RightUnique (Steps c) := fun _ _ _ h h' => steps_unique h h'
    rcases ReflTransGen.total_of_right_unique hunique hreach hlast with hfrom | hto
    · exact ready_of_isTopological hdag hstack hfrom hempty htopological hback htaken
    · rcases ReflTransGen.cases_head hto with rfl | ⟨st₁, ⟨id, rest, htop, -⟩, -⟩
      · exact ready_of_isTopological hdag hstack .refl hempty htopological hback htaken
      · rw [hempty] at htop
        cases htop
  · intro hready
    exact ⟨_, hrun, (Searching.reaches hdag hready hlast).isTopological hdag hempty⟩

/-- Each custom call that elements are taken from has no other users. -/
def OnlyElements (c : HloComputation) : Prop :=
  ∀ i ∈ c.instructions, ∀ element ∈ c.users i.id, element.isGetTupleElement = true →
    ∀ user ∈ c.users i.id, user.isGetTupleElement = true

theorem OnlyElements.ready (h : OnlyElements c) (hnext : next ∈ c.instructions)
    (htaken : TakenFrom c next source) : Ready c st (c.users source) := by
  intro before user after heq hother
  obtain ⟨helement, hsource, i, target, hi, -⟩ := htaken
  obtain rfl := HloComputation.id_of_instruction hi
  have hself : next ∈ c.users i.id :=
    HloComputation.mem_users.mpr ⟨hnext, List.mem_of_getElem? hsource⟩
  have huser : user ∈ c.users i.id := heq ▸ List.mem_append_right _ (List.mem_cons_self ..)
  rw [h i (HloComputation.mem_of_instruction hi) next hself helement user huser] at hother
  cases hother

/-- Where a custom call with elements has no other users, the order is topological. -/
theorem OnlyElements.isTopological (h : OnlyElements c) (hdag : Dag c rank) :
    ∃ order, colorSortedPostorder c = some (ok order) ∧ IsTopological c order := by
  apply (colorSortedPostorder_isTopological_iff hdag).mpr
  intro st next source _ hback
  exact h.ready (HloComputation.mem_of_instruction hback.instruction)

/-- What is put into the order is not there yet. -/
theorem OnlyElements.nodup_of_reaches (h : OnlyElements c) (hdag : Dag c rank)
    (hreach : ReflTransGen (Steps c) (start c) st) : Searching c rank st ∧ st.dfs.Nodup := by
  induction hreach with
  | refl => exact ⟨searching_start hdag, List.nodup_nil⟩
  | @tail st₁ st₂ _ hsteps ih =>
    obtain ⟨hsearch, hnodup⟩ := ih
    have hready : ∀ next source, ComesBack c st₁ next → TakenFrom c next source →
        Ready c st₁ (c.users source) := fun next source hback =>
      h.ready (HloComputation.mem_of_instruction hback.instruction)
    refine ⟨hsearch.steps hdag hready hsteps, ?_⟩
    obtain ⟨next, rest, hnext, htop, hmoves⟩ := hsteps.moves hdag hsearch.stack
    cases hmoves with
    | expand hfresh hoperands =>
      rw [(pushOperands_eq st₁ hoperands).2.1]
      exact hnodup
    | pop hdone => exact hnodup
    | finish hopen husers =>
      apply hnodup.append (husers.nodup hdag.nodup)
      intro i hdone hi
      rcases husers with ⟨rfl, -⟩ | ⟨source, htaken, rfl⟩
      · rw [List.mem_singleton.mp hi] at hdone
        exact hsearch.next_notMem hopen hdone
      · have hself : next ∈ c.users source := HloComputation.mem_users.mpr
          ⟨HloComputation.mem_of_instruction hnext, List.mem_of_getElem? htaken.2.1⟩
        obtain ⟨s, _, hs, -⟩ := htaken.2.2
        obtain rfl := HloComputation.id_of_instruction hs
        have helement := h s (HloComputation.mem_of_instruction hs) next hself htaken.1 i hi
        exact hsearch.next_notMem hopen (hsearch.gathered i hdone s.id
          (takenFrom_of_user hdag htaken hi helement).2 next hself)

theorem OnlyElements.nodup (h : OnlyElements c) (hdag : Dag c rank)
    (hrun : colorSortedPostorder c = some (ok order)) :
    order.Nodup ∧ ∀ i ∈ order, i ∈ c.instructions := by
  obtain ⟨last, hlast, -, hrun'⟩ := exists_order hdag
  rw [hrun] at hrun'
  obtain rfl := ok.inj (Option.some.inj hrun')
  obtain ⟨hsearch, hnodup⟩ := h.nodup_of_reaches hdag hlast
  exact ⟨hnodup, hsearch.mem⟩

/-- Two elements of one custom call. -/
def twoElements : HloComputation where
  instructions := [
    { id := 0, opcode := .parameter 0 },
    { id := 1, opcode := .customCall "Split", operands := [0], shape := .tuple [] },
    { id := 2, opcode := .getTupleElement 0, operands := [1] },
    { id := 3, opcode := .getTupleElement 1, operands := [1] },
    { id := 4, opcode := .tuple, operands := [3, 2], shape := .tuple [] }]
  root := 4

theorem colorSortedPostorder_isTopological_iff_twoElements :
    (∃ rank, Dag twoElements rank) ∧
      ∃ order, colorSortedPostorder twoElements = some (ok order) ∧ IsTopological twoElements order := by
  have hdag : Dag twoElements id :=
    ⟨by decide, by decide, by decide, by decide, by
      intro i hi helement
      have hall : ∀ i ∈ twoElements.instructions, i.isGetTupleElement = true → i.operands = [1] := by
        decide
      exact ⟨1, hall i hi helement⟩⟩
  refine ⟨⟨id, hdag⟩, (colorSortedPostorder_isTopological_iff hdag).mpr ?_⟩
  intro st next source _ hback
  have helements : OnlyElements twoElements := by
    unfold OnlyElements
    decide
  exact helements.ready (HloComputation.mem_of_instruction hback.instruction)

/-- A custom call whose result is used whole by a task, and by an element. -/
def usedWhole : HloComputation where
  instructions := [
    { id := 0, opcode := .parameter 0 },
    { id := 1, opcode := .customCall "Split", operands := [0], shape := .tuple [] },
    { id := 2, opcode := .getTupleElement 0, operands := [1] },
    { id := 3, opcode := .call 1, operands := [1] },
    { id := 4, opcode := .tuple, operands := [2, 3], shape := .tuple [] }]
  root := 4

/-- The task comes before the element, and once more with it. -/
theorem usedWhole_not_isTopological : (∃ rank, Dag usedWhole rank) ∧
    ∀ order, colorSortedPostorder usedWhole = some (ok order) → ¬IsTopological usedWhole order := by
  have hdag : Dag usedWhole id :=
    ⟨by decide, by decide, by decide, by decide, by
      intro i hi helement
      have hall : ∀ i ∈ usedWhole.instructions, i.isGetTupleElement = true → i.operands = [1] := by
        decide
      exact ⟨1, hall i hi helement⟩⟩
  refine ⟨⟨id, hdag⟩, ?_⟩
  intro order horder htopological
  have htask : usedWhole.instructions[3]? = some { id := 3, opcode := .call 1, operands := [1] } := rfl
  have hneeded : Needed usedWhole 3 :=
    .operand (i := { id := 4, opcode := .tuple, operands := [2, 3], shape := .tuple [] })
      (by decide) .root (by decide)
  have hcount := htopological.once _ (List.mem_of_getElem? htask) hneeded
  have htwice : ((colorSortedPostorder usedWhole).bind toOption).map (fun order =>
      order.count { id := 3, opcode := .call 1, operands := [1] }) = some 2 := by decide +kernel
  rw [horder] at htwice
  have htwice : order.count { id := 3, opcode := .call 1, operands := [1] } = 2 :=
    Option.some.inj htwice
  omega

end outcome

end ColorDfs
end MultiMeshJax
