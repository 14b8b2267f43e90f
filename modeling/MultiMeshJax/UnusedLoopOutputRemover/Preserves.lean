import MultiMeshJax.UnusedLoopOutputRemover.Phases

/-! When the values of the outputs of loops that are used are the same after the pass. -/
namespace MultiMeshJax
namespace UnusedLoopOutputRemover

open StatusOr

/-- The outputs that the pass replaces are not carried to one that is used, and the inputs it
replaces are not read. -/
structure Harmless (p : HloProgram) (trips : ℕ → ℕ) (loop tuple root : HloInstruction) (n : ℕ) :
    Prop where
  barriers : BarriersInRange p loop tuple root
  carried : ∀ d k, 0 < d → d < trips n → CarriedTo p trips n (UsedOutput p loop.id) d k →
    KeptOutput p loop tuple root k
  not_run : trips n = 0 → ∀ k, UsedOutput p loop.id k → k < tuple.operands.length →
    ∃ j o number, KeptOutput p loop tuple root j ∧ p.rootOperand n j = some o ∧
      p.Reads trips o number k

/-- The result of the entry computation, and what is taken out of a tuple. -/
def Observed (p : HloProgram) (id : ℕ) : Prop :=
  id = p.entry.root ∨ ∃ i, p.instruction id = some i ∧ i.isGetTupleElement = true

/-- What is observed, as far as it is still there, has the values that it had. -/
structure Preserved (trips : ℕ → ℕ) (st st' : ProgramState) : Prop where
  nextId_le : st.nextId ≤ st'.nextId
  entry_root : st'.program.entry.root = st.program.entry.root
  root_stays : (st.program.instruction st.program.entry.root).isSome →
    (st'.program.instruction st.program.entry.root).isSome
  old : ∀ id, id < st.nextId → (st'.program.instruction id).isSome →
    (st.program.instruction id).isSome
  same : ∀ id i, st.program.instruction id = some i → i.isGetTupleElement = true →
    (st'.program.instruction id).isSome → st'.program.instruction id = some i
  value : ∀ id, Observed st.program id → (st'.program.instruction id).isSome →
    ∀ (V : Type) (operation : HloInstruction → List V → Option V) depth env v,
      st.program.value operation trips depth env id = some v →
      st'.program.value operation trips depth env id = some v

theorem Preserved.refl (trips : ℕ → ℕ) (st : ProgramState) : Preserved trips st st where
  nextId_le := le_rfl
  entry_root := rfl
  root_stays := fun h => h
  old := fun _ _ h => h
  same := fun _ _ h _ _ => h
  value := fun _ _ _ _ _ _ _ _ h => h

theorem Preserved.trans {trips : ℕ → ℕ} {st₁ st₂ st₃ : ProgramState} (h : Preserved trips st₁ st₂)
    (h' : Preserved trips st₂ st₃) : Preserved trips st₁ st₃ where
  nextId_le := h.nextId_le.trans h'.nextId_le
  entry_root := h'.entry_root.trans h.entry_root
  root_stays := by
    intro hroot
    have := h'.root_stays
    rw [h.entry_root] at this
    exact this (h.root_stays hroot)
  old := fun id hlt hsome => h.old id hlt (h'.old id (hlt.trans_le h.nextId_le) hsome)
  same := by
    intro id i hi hgte hsome
    have hlt := (st₁.lt_of_instruction hi).trans_le h.nextId_le
    have hi₂ := h.same id i hi hgte (h'.old id hlt hsome)
    exact h'.same id i hi₂ hgte hsome
  value := by
    intro id hobserved hsome V operation depth env v hv
    obtain ⟨i, hi⟩ := Option.isSome_iff_exists.mp (isSome_of_value hv)
    have hsome₂ := h'.old id ((st₁.lt_of_instruction hi).trans_le h.nextId_le) hsome
    apply h'.value id ?_ hsome V operation depth env v
    · exact h.value id hobserved hsome₂ V operation depth env v hv
    · rcases hobserved with hroot | ⟨j, hj, hgte⟩
      · exact .inl (hroot.trans h.entry_root.symm)
      · exact .inr ⟨j, h.same id j hj hgte hsome₂, hgte⟩

section visit

variable {p : HloProgram} {loop tuple root param : HloInstruction} {n nextId : ℕ}
  {body : HloComputation} {st : ProgramState} {trips : ℕ → ℕ} {lib : Library}

theorem outputsUsed_eq_ok (hsite : LoopSite p loop tuple root param n body) :
    ∃ outputsUsed, (p.users loop.id).mapM HloInstruction.tupleIndex = ok outputsUsed ∧
      ∀ k, k ∈ outputsUsed ↔ UsedOutput p loop.id k := by
  have hindex : ∀ i ∈ p.users loop.id, ∃ k, i.tupleIndex = ok k := by
    intro i hi
    obtain ⟨hmem, hoperand⟩ := List.mem_filter.mp hi
    have hgte := hsite.loop_users i hmem (List.contains_iff_mem.mp hoperand)
    unfold HloInstruction.isGetTupleElement at hgte
    unfold HloInstruction.tupleIndex
    cases hop : i.opcode <;> simp [hop] at hgte ⊢
  have hopcode : ∀ (i : HloInstruction) k, i.tupleIndex = ok k ↔ i.opcode = .getTupleElement k := by
    intro i k
    unfold HloInstruction.tupleIndex
    cases hop : i.opcode <;> simp
  obtain ⟨outputsUsed, hrun⟩ := exists_mapM_eq_ok _ hindex
  refine ⟨outputsUsed, hrun, ?_⟩
  intro k
  constructor
  · intro hk
    obtain ⟨i, hi, hik⟩ := exists_of_mem_mapM hrun hk
    exact ⟨i, hi, (hopcode i k).mp hik⟩
  · rintro ⟨i, hi, hik⟩
    obtain ⟨m, hm⟩ := List.getElem?_of_mem hi
    obtain ⟨k', hk', hik'⟩ := mapM_getElem? hrun hm
    rw [(hopcode i k).mpr hik] at hik'
    cases hik'
    exact List.mem_of_getElem? hk'

/-- What the visit keeps, once the used outputs depend only on what was left alone. -/
theorem preserved_of_reduced {keptInput : ℕ → Prop}
    (hsite : LoopSite st.program loop tuple root param n body)
    (h : Harmless st.program trips loop tuple root n) {st' : ProgramState}
    (hreduced : Reduced st.program st.nextId tuple.id root.id loop.id keptInput
      (KeptOutput st.program loop tuple root) st')
    (hlong : ∀ k, tuple.operands.length ≤ k → keptInput k)
    (hinputs : ∀ j o number k, KeptOutput st.program loop tuple root j →
      st.program.rootOperand n j = some o → st.program.Reads trips o number k → keptInput k) :
    Preserved trips st st' := by
  have hp : ∀ id i, st.program.instruction id = some i → id < st.nextId :=
    fun _ _ => st.lt_of_instruction
  have hq := hreduced.pruned
  have hroots : st'.program.entry.root = st.program.entry.root := (List.cons.inj hq.roots).1
  have hgte : ∀ id i, st.program.instruction id = some i → i.isGetTupleElement = true →
      id ≠ tuple.id ∧ id ≠ root.id := by
    intro id i hi hgte
    constructor
    · rintro rfl
      obtain rfl : tuple = i := Option.some.inj (hsite.tuple_mem.symm.trans hi)
      rw [HloInstruction.isGetTupleElement, hsite.tuple_opcode] at hgte
      cases hgte
    · rintro rfl
      obtain rfl : root = i := Option.some.inj ((root_instruction hsite).symm.trans hi)
      rw [HloInstruction.isGetTupleElement, hsite.root_opcode] at hgte
      cases hgte
  have hcarried : ∀ d k, d < trips n →
      CarriedTo st.program trips n (UsedOutput st.program loop.id) d k →
        KeptOutput st.program loop tuple root k := by
    intro d k hd hk
    rcases Nat.eq_zero_or_pos d with rfl | hpos
    · obtain ⟨j, hj, hcarries⟩ := hk
      cases hcarries
      exact .inl hj
    · exact h.carried d k hpos hd hk
  have hread : ∀ k, CarriedTo st.program trips n (UsedOutput st.program loop.id) (trips n) k →
      keptInput k := by
    rintro k ⟨j, hj, hcarries⟩
    cases htrips : trips n with
    | zero =>
      rw [htrips] at hcarries
      cases hcarries
      rcases Nat.lt_or_ge k tuple.operands.length with hlt | hle
      · obtain ⟨j', o, number, hj', ho, hreads⟩ := h.not_run htrips k hj hlt
        exact hinputs j' o number k hj' ho hreads
      · exact hlong k hle
    | succ t =>
      rw [htrips] at hcarries
      cases hcarries with
      | succ hcarries ho hreads =>
        exact hinputs _ _ _ k (hcarried t _ (by omega) ⟨j, hj, hcarries⟩) ho hreads
  refine ⟨hreduced.nextId_le, hroots, ?_, ?_, ?_, ?_⟩
  · exact hq.rootPresent _ (List.mem_cons_self ..)
  · intro id hlt hsome
    obtain ⟨i, hi⟩ := Option.isSome_iff_exists.mp hsome
    obtain ⟨i₀, hi₀, -⟩ := hq.old id i hi hlt
    exact Option.isSome_iff_exists.mpr ⟨i₀, hi₀⟩
  · intro id i hi hi' hsome
    obtain ⟨hne, hne'⟩ := hgte id i hi hi'
    exact (instruction_of_kept hq hp
      ⟨Option.isSome_iff_exists.mpr ⟨i, hi⟩, hsome, hne, hne'⟩).trans hi
  · intro id hobserved hsome V operation depth env v hv
    apply sameValue hsite hq hp ?_ hread hcarried depth env env id v ?_ (fun _ _ _ _ h => h) hv
    · intro i hi k hk hhead
      have huser : i ∈ st.program.users loop.id :=
        List.mem_filter.mpr ⟨hi, List.contains_iff_mem.mpr (List.mem_of_head? hhead)⟩
      exact ⟨i, huser, hk⟩
    · have hne : id ≠ tuple.id ∧ id ≠ root.id := by
        rcases hobserved with rfl | ⟨i, hi, hi'⟩
        · exact ⟨hsite.tuple_no_root _ (List.mem_cons_self ..), hsite.entry_root⟩
        · exact hgte id i hi hi'
      exact ⟨isSome_of_value hv, hsome, hne.1, hne.2⟩

/-- The visit of a loop: the users of the loop stay, and what is observed is preserved. -/
theorem safe_visitLoop (hsite : LoopSite st.program loop tuple root param n body)
    (h : Harmless st.program trips loop tuple root n) :
    Safe (fun st' => Preserved trips st st' ∧
        ∀ id, st.program.HasOperand id loop.id → (st'.program.instruction id).isSome)
      (visitLoop lib st loop.id) := by
  have hp : ∀ id i, st.program.instruction id = some i → id < st.nextId :=
    fun _ _ => st.lt_of_instruction
  have hstart : Reduced st.program st.nextId tuple.id root.id loop.id (fun _ => True)
      (fun _ => True) st := by
    refine ⟨Pruned.refl hp, le_rfl, Option.isSome_iff_exists.mpr ⟨loop, hsite.loop_mem⟩, ?_⟩
    rintro id ⟨i, hi, -⟩
    exact Option.isSome_iff_exists.mpr ⟨i, hi⟩
  obtain ⟨outputsUsed, houtputs, hused⟩ := outputsUsed_eq_ok hsite
  have hloop : getInstruction st.program loop.id = ok loop := deref_eq_ok.mpr hsite.loop_mem
  have hbody : loopBody loop = ok n := by rw [loopBody, hsite.loop_opcode]; rfl
  have hcalled : st.program.calledComputation n = ok body := elementAt_eq_ok.mpr hsite.body_eq
  have hinput : elementAt loop.operands 0 = ok tuple.id := by rw [hsite.loop_operands]; rfl
  have htuple : getInstruction st.program tuple.id = ok tuple := deref_eq_ok.mpr hsite.tuple_mem
  have hparam : elementAt body.parameterInstructions 0 = ok param := by rw [hsite.parameters]; rfl
  unfold visitLoop
  rw [hloop, ok_bind, hbody, ok_bind, hcalled, ok_bind, houtputs, ok_bind, hinput, ok_bind, htuple,
    ok_bind, hparam, hsite.root_eq]
  apply (safe_removeOutputs hsite hp h.barriers hused hstart).bind
  intro st₁ h₁
  rw [ok_bind]
  apply (safe_removeArguments hsite hp h₁).bind
  rintro ⟨st₂, inputsUsed⟩ ⟨h₂, hcollected⟩
  apply (safe_removeInputs hsite hp h₂).mono
  intro st₃ h₃
  refine ⟨preserved_of_reduced hsite h h₃ (fun _ hk => .inr hk) ?_, h₃.users_stay⟩
  intro j o number k hj ho hreads
  exact .inl (mem_of_reads hsite hp h₁ hcollected hj ho hreads)

end visit

section loops

variable {p : HloProgram} {lib : Library}

/-- The computations by the numbers under which they are visited. -/
def numbered (p : HloProgram) : List (Option ℕ × HloComputation) :=
  (none, p.entry) :: p.called.zipIdx.map fun c => (some c.2, c.1)

theorem visitedComputation_of_mem {c : Option ℕ × HloComputation} (hc : c ∈ numbered p) :
    visitedComputation p c.1 = ok c.2 := by
  rcases List.mem_cons.mp hc with rfl | hc
  · rfl
  · obtain ⟨⟨d, n⟩, hd, rfl⟩ := List.mem_map.mp hc
    exact elementAt_eq_ok.mpr (List.mem_zipIdx_iff_getElem?.mp hd)

/-- What the computations that are not yet visited can push. -/
def remaining (p : HloProgram) (visiting : List (Option ℕ)) : ℕ :=
  (((numbered p).filter fun c => !visiting.contains c.1).map
    fun c => c.2.instructions.length + 1).sum

theorem remaining_nil (p : HloProgram) :
    remaining p [] = p.instructions.length + p.computations.length := by
  have hsum : ∀ cs : List HloComputation, (cs.map fun c => c.instructions.length + 1).sum =
      (cs.flatMap HloComputation.instructions).length + cs.length := by
    intro cs
    induction cs with
    | nil => rfl
    | cons c cs ih =>
      rw [List.map_cons, List.sum_cons, ih, List.flatMap_cons, List.length_append, List.length_cons]
      omega
  have hmap : (numbered p).map (fun c => c.2.instructions.length + 1) =
      p.computations.map fun c => c.instructions.length + 1 := by
    rw [numbered, List.map_cons, List.map_map]
    show _ :: (p.called.zipIdx.map ((fun c => c.instructions.length + 1) ∘ Prod.fst)) = _
    rw [← List.map_map, List.zipIdx_map_fst]
    rfl
  have hfilter : ((numbered p).filter fun c => !([] : List (Option ℕ)).contains c.1) = numbered p := by
    apply List.filter_eq_self.mpr
    simp
  rw [remaining, hfilter, hmap, hsum]
  rfl

theorem remaining_cons {c : Option ℕ × HloComputation} {visiting : List (Option ℕ)}
    (hc : c ∈ numbered p) (hnot : c.1 ∉ visiting) :
    remaining p (c.1 :: visiting) + (c.2.instructions.length + 1) ≤ remaining p visiting := by
  have hle : ∀ cs : List (Option ℕ × HloComputation),
      ((cs.filter fun d => !(c.1 :: visiting).contains d.1).map
          fun d => d.2.instructions.length + 1).sum ≤
        ((cs.filter fun d => !visiting.contains d.1).map
          fun d => d.2.instructions.length + 1).sum := by
    intro cs
    apply List.Sublist.sum_le_sum
    · apply List.Sublist.map
      apply List.monotone_filter_right
      intro d hd
      simp only [List.contains_cons, Bool.not_or, Bool.and_eq_true] at hd
      exact hd.2
    · simp
  obtain ⟨before, after, hsplit⟩ := List.append_of_mem hc
  have hbefore := hle before
  have hafter := hle after
  rw [remaining, remaining, hsplit, List.filter_append, List.filter_append,
    List.filter_cons_of_neg (by simp), List.filter_cons_of_pos (by simpa using hnot)]
  simp only [List.map_append, List.sum_append, List.map_cons, List.sum_cons]
  omega

/-- The loops are found: the fuel is enough. -/
theorem safe_whileLoopDfs (hbodies : ∀ i ∈ p.instructions, ∀ n, i.opcode = .whileLoop n →
      n < p.called.length) {fuel : ℕ} {toVisit visiting : List (Option ℕ)}
    {parentLoops : ℕ → Option ℕ} {loops : List ℕ}
    (hvisit : ∀ computation ∈ toVisit, ∃ c, (computation, c) ∈ numbered p)
    (hfuel : toVisit.length + remaining p visiting ≤ fuel) :
    Safe (fun _ => True) (whileLoopDfs lib p fuel toVisit visiting parentLoops loops) := by
  induction fuel generalizing toVisit visiting parentLoops loops with
  | zero =>
    cases toVisit with
    | nil => trivial
    | cons computation toVisit => simp at hfuel
  | succ fuel ih =>
    cases toVisit with
    | nil => trivial
    | cons computation toVisit =>
      obtain ⟨c, hc⟩ := hvisit computation (by simp)
      rw [List.length_cons] at hfuel
      unfold whileLoopDfs
      split
      · apply ih (fun other hother => hvisit other (List.mem_cons_of_mem _ hother))
        omega
      · rename_i hnot
        have hlookup : visitedComputation p computation = ok c := visitedComputation_of_mem hc
        have hmem : c ∈ p.computations := by
          rcases List.mem_cons.mp hc with heq | hc
          · cases heq
            exact List.mem_cons_self
          · obtain ⟨⟨d, n⟩, hd, heq⟩ := List.mem_map.mp hc
            cases heq
            exact List.mem_cons_of_mem _ (List.mem_of_getElem? (List.mem_zipIdx_iff_getElem?.mp hd))
        have hbodies' : ∀ {n id : ℕ}, (n, id) ∈ bodiesOfLoops lib c → n < p.called.length := by
          intro n id hfound
          obtain ⟨i, hi, hopcode⟩ := List.mem_filterMap.mp hfound
          apply hbodies i (HloProgram.mem_instructions hmem hi)
          cases hop : i.opcode <;> simp [hop] at hopcode ⊢
          exact hopcode.2.1
        have hless := remaining_cons hc (by simpa using hnot)
        rw [hlookup, ok_bind]
        apply ih
        · intro other hother
          rcases List.mem_append.mp hother with hother | hother
          · obtain ⟨⟨n, id⟩, hfound, rfl⟩ := List.mem_map.mp (List.mem_reverse.mp hother)
            have hlt := hbodies' hfound
            have hget : p.called[n]? = some p.called[n] := List.getElem?_eq_getElem hlt
            refine ⟨p.called[n], List.mem_cons_of_mem _ (List.mem_map.mpr ⟨(p.called[n], n), ?_, rfl⟩)⟩
            exact List.mem_zipIdx_iff_getElem?.mpr hget
          · rcases List.mem_cons.mp hother with rfl | hother
            · exact ⟨c, hc⟩
            · exact hvisit other (List.mem_cons_of_mem _ hother)
        · simp only [List.length_append, List.length_reverse, List.length_map, List.length_cons]
          have hfound : (bodiesOfLoops lib c).length ≤ c.instructions.length :=
            List.length_filterMap_le _ _
          dsimp only at hless
          omega

end loops

section run

variable (lib : Library) (trips : ℕ → ℕ)

/-- The visit of the loop harms nothing that is used, in the state before it. -/
def VisitHarmless (st : ProgramState) (loopId : ℕ) : Prop :=
  ∃ loop tuple root param n body, loop.id = loopId ∧
    LoopSite st.program loop tuple root param n body ∧ Harmless st.program trips loop tuple root n

def EachVisitHarmless : List ℕ → ProgramState → Prop
  | [], _ => True
  | loop :: loops, st => VisitHarmless trips st loop ∧
      ∀ st', visitLoop lib st loop = ok st' → EachVisitHarmless loops st'

/-- The loops in the order of their visits. -/
def visitedLoops (p : HloProgram) : StatusOr (List ℕ) :=
  whileLoopDfs lib p (p.instructions.length + p.computations.length + 1) [none] [] (fun _ => none) []

variable {lib trips}

theorem safe_visitLoops {loops : List ℕ} {st : ProgramState}
    (h : EachVisitHarmless lib trips loops st) :
    Safe (Preserved trips st) (loops.foldlM (visitLoop lib) st) := by
  induction loops generalizing st with
  | nil => exact Preserved.refl trips st
  | cons loop loops ih =>
    obtain ⟨⟨loop, tuple, root, param, n, body, rfl, hsite, hharmless⟩, hrest⟩ := h
    rw [List.foldlM_cons]
    have hvisit : Safe (fun st' => Preserved trips st st' ∧
        ∀ id, st.program.HasOperand id loop.id → (st'.program.instruction id).isSome)
        (visitLoop lib st loop.id) := safe_visitLoop hsite hharmless
    cases hrun : visitLoop lib st loop.id with
    | ok st' =>
      rw [hrun] at hvisit
      rw [ok_bind]
      apply (ih (hrest st' hrun)).mono
      intro st'' hpreserved
      exact hvisit.1.trans hpreserved
    | error m => trivial
    | fatal r =>
      rw [hrun] at hvisit
      exact hvisit.elim

/-- A loop of two values: the first adds up the second, which only the next iteration reads. -/
def accumulatingLoop : HloProgram where
  entry :=
    { instructions :=
        [{ id := 6, opcode := .constant }, { id := 7, opcode := .constant },
          { id := 8, opcode := .tuple, operands := [6, 7] },
          { id := 9, opcode := .whileLoop 0, operands := [8] },
          { id := 10, opcode := .getTupleElement 0, operands := [9] }]
      root := 10 }
  called :=
    [{ instructions :=
        [{ id := 0, opcode := .parameter 0, shape := .tuple [(.f32, []), (.f32, [])] },
          { id := 1, opcode := .getTupleElement 0, operands := [0] },
          { id := 2, opcode := .getTupleElement 1, operands := [0] },
          { id := 3, opcode := .other "add", operands := [1, 2] },
          { id := 4, opcode := .other "negate", operands := [2] },
          { id := 5, opcode := .tuple, operands := [3, 4] }]
       root := 5 }]
  distinct := by decide

theorem le_of_path {p : HloProgram} (hp : ∀ i ∈ p.instructions, ∀ o ∈ i.operands, o < i.id)
    {id o : ℕ} (h : Relation.ReflTransGen p.HasOperand id o) : o ≤ id := by
  induction h with
  | refl => exact le_rfl
  | tail _ hoperand ih =>
    obtain ⟨i, hi, ho⟩ := hoperand
    obtain ⟨hmem, rfl⟩ := HloProgram.instruction_eq_some.mp hi
    exact (hp i hmem _ ho).le.trans ih

theorem loopSite_accumulatingLoop : LoopSite accumulatingLoop
    { id := 9, opcode := .whileLoop 0, operands := [8] }
    { id := 8, opcode := .tuple, operands := [6, 7] }
    { id := 5, opcode := .tuple, operands := [3, 4] }
    { id := 0, opcode := .parameter 0, shape := .tuple [(.f32, []), (.f32, [])] } 0
    { instructions :=
        [{ id := 0, opcode := .parameter 0, shape := .tuple [(.f32, []), (.f32, [])] },
          { id := 1, opcode := .getTupleElement 0, operands := [0] },
          { id := 2, opcode := .getTupleElement 1, operands := [0] },
          { id := 3, opcode := .other "add", operands := [1, 2] },
          { id := 4, opcode := .other "negate", operands := [2] },
          { id := 5, opcode := .tuple, operands := [3, 4] }]
      root := 5 } where
  loop_mem := by decide
  loop_opcode := by decide
  loop_operands := by decide
  only_loop := by decide
  loop_users := by decide
  tuple_mem := by decide
  tuple_opcode := by decide
  tuple_users := by decide
  tuple_operands := by decide
  body_eq := by decide
  root_eq := by decide
  root_mem := by decide
  root_opcode := by decide
  root_users := by decide
  root_only := by
    intro m c hc _
    cases m with
    | zero => rfl
    | succ m => simp [accumulatingLoop] at hc
  tuple_no_root := by decide
  entry_root := by decide
  length := by decide
  body_closed := by decide
  parameters := by decide
  param_users := by decide
  gte_operands := by
    have hoperands : ∀ i ∈ accumulatingLoop.instructions, i.isGetTupleElement = true →
        i.operands = [i.operands.headD 0] ∧
          (accumulatingLoop.instruction (i.operands.headD 0)).isSome := by decide
    intro i hi hgte
    exact ⟨_, hoperands i hi hgte⟩
  tuple_acyclic := by
    intro hpath
    exact absurd (le_of_path (by decide) hpath) (by decide)
  root_acyclic := by
    intro hpath
    exact absurd (le_of_path (by decide) hpath) (by decide)

/-- The dummies have no value. -/
def withoutDummies (i : HloInstruction) (_ : List Unit) : Option Unit :=
  if i.isCustomCall kCustomCallDummyOperation then none else some ()

/-- A loop one of whose outputs is the second output of a barrier. -/
def barrierLoop : HloProgram where
  entry :=
    { instructions :=
        [{ id := 9, opcode := .constant }, { id := 10, opcode := .constant },
          { id := 11, opcode := .tuple, operands := [9, 10] },
          { id := 12, opcode := .whileLoop 0, operands := [11] },
          { id := 13, opcode := .getTupleElement 0, operands := [12] }]
      root := 13 }
  called :=
    [{ instructions :=
        [{ id := 0, opcode := .parameter 0, shape := .tuple [(.f32, []), (.f32, [])] },
          { id := 1, opcode := .getTupleElement 0, operands := [0] },
          { id := 2, opcode := .getTupleElement 1, operands := [0] },
          { id := 3, opcode := .tuple, operands := [1, 2] },
          { id := 4, opcode := .optimizationBarrier, operands := [3],
            shape := .tuple [(.f32, []), (.f32, [])] },
          { id := 5, opcode := .getTupleElement 0, operands := [4] },
          { id := 6, opcode := .getTupleElement 1, operands := [4], color := some "fwd" },
          { id := 7, opcode := .tuple, operands := [5, 6] }]
       root := 7 }]
  distinct := by decide

end run

end UnusedLoopOutputRemover
end MultiMeshJax
