import MultiMeshJax.InputOutputBufferAlias.Matching

/-! Whether a buffer is given to an output of its own size on each device. -/
namespace MultiMeshJax
namespace InputOutputBufferAlias

open StatusOr SortedMatching

variable {input : Input} {matchTemps : Bool} {st st' : State}

/-- The parameter has as many bytes on a device as the output. -/
def EqualSize (input : Input) (entry : ShapeIndex × ℕ) : Prop :=
  ∃ i ∈ input.entry.instructions, i.opcode = .parameter entry.2 ∧
    ∃ shape all, input.partitioning.getSpmdShape i = ok shape ∧ outputs input = ok all ∧
      ⟨entry.1, input.byteSizeOf shape⟩ ∈ all

theorem equalSize_of_matchable {entry : ShapeIndex × ℕ}
    (h : Matchable input matchTemps st entry) : EqualSize input entry := by
  obtain ⟨size, ⟨i, hi, hdonor⟩, ⟨all, hall, hmem⟩, -⟩ := h
  obtain ⟨shape, hshape, hsize⟩ := hdonor.size
  refine ⟨i, hi, hdonor.opcode, shape, all, hshape, hall, ?_⟩
  rw [← hsize]
  exact hmem

section build

theorem aliases_foldlM_aliasPair {pairs : List (DonorEntry × DoneeEntry)}
    {start result : State × Bool} (h : pairs.foldlM aliasPair start = ok result) :
    result.1.aliasConfig.aliases = start.1.aliasConfig.aliases ++ pairs.map aliasOf := by
  apply foldlM_prefix (fun done (result : State × Bool) =>
    result.1.aliasConfig.aliases = start.1.aliasConfig.aliases ++ done.map aliasOf) h (by simp)
  intro done p _ before after hdone hstep
  obtain ⟨aliased, haliased, hstep⟩ := bind_eq_ok.mp hstep
  obtain rfl := ok.inj hstep
  obtain ⟨st₁, hset, haliased⟩ := bind_eq_ok.mp haliased
  obtain rfl := ok.inj haliased
  obtain ⟨config, hconfig, hset⟩ := bind_eq_ok.mp hset
  obtain rfl := ok.inj hset
  obtain ⟨-, haliases⟩ := setUpAlias_eq_ok.mp hconfig
  rw [List.map_append, ← List.append_assoc, ← hdone]
  exact haliases

/-- A matching adds pairs of one size only. -/
theorem build_adds {changed : Bool} (h : build input matchTemps st = ok (st', changed)) :
    ∃ new, st'.aliasConfig.aliases = st.aliasConfig.aliases ++ new ∧
      ∀ entry ∈ new, EqualSize input entry := by
  unfold build at h
  split at h
  · obtain rfl := congrArg Prod.fst (ok.inj h)
    exact ⟨[], by simp, by simp⟩
  · obtain ⟨donors, hdonors, h⟩ := bind_eq_ok.mp h
    obtain ⟨donees, hdonees, h⟩ := bind_eq_ok.mp h
    rw [matchDonors_eq] at h
    refine ⟨_, aliases_foldlM_aliasPair h, ?_⟩
    intro entry hentry
    obtain ⟨p, hp, rfl⟩ := List.mem_map.mp hentry
    have hdonor := (fst_sublist _ _).subset (List.mem_map_of_mem hp)
    have hdonee := (snd_sublist _ _).subset (List.mem_map_of_mem hp)
    rw [(List.perm_insertionSort _ _).mem_iff] at hdonor hdonee
    have hsize : p.1.shapeSize = p.2.shapeSize := eq_of_mem_matchSorted hp
    have hmatchable : Matchable input matchTemps st (aliasOf p) := by
      refine ⟨p.1.shapeSize, (mem_collectDonors hdonors p.1).mp hdonor, ?_⟩
      rw [hsize]
      exact (mem_collectDonees hdonees p.2).mp hdonee
    exact equalSize_of_matchable hmatchable

end build

section bestMatch

/-- The instructions that are visited breadth first, up to the bound. -/
def visitOrder (input : Input) : ℕ → List HloInstruction → List HloInstruction
  | 0, _ => []
  | _, [] => []
  | visits + 1, operand :: toVisit =>
    operand :: visitOrder input visits (toVisit ++ operandsOf input operand)

/-- The instruction of an output and those that it is computed from, the nearest first. -/
def reached (input : Input) (root : HloInstruction) : List HloInstruction :=
  root :: visitOrder input kMaxVisits (operandsOf input root)

/-- A parameter that may be donated and that has the shape of the output on all devices. -/
def donates (input : Input) (st : State) (root i : HloInstruction) : Bool :=
  isDonorParameter input st i && i.shape == root.shape

theorem search_eq (root : HloInstruction) (visits : ℕ) (toVisit : List HloInstruction) :
    search input st root visits toVisit =
      (visitOrder input visits toVisit).find? (donates input st root) := by
  induction visits generalizing toVisit with
  | zero => rfl
  | succ visits ih =>
    cases toVisit with
    | nil => rfl
    | cons operand toVisit =>
      rw [search, visitOrder, List.find?_cons, ih, donates]
      by_cases hdonates : (isDonorParameter input st operand && operand.shape == root.shape) = true
      · rw [if_pos hdonates, hdonates]
      · rw [if_neg hdonates, Bool.eq_false_iff.mpr hdonates]

/-- An output for which a parameter is looked for. -/
def Open (input : Input) (st : State) (index : ShapeIndex) : Prop :=
  st.aliasConfig.outputHasAlias index = false ∧
    index.any input.temporaryRootIndices.contains = false

theorem setUpParameterAlias_eq_ok {index : ShapeIndex} {i : HloInstruction}
    (h : setUpParameterAlias st index i = ok st') : ∃ n, i.opcode = .parameter n ∧
      st'.aliasConfig.aliases = st.aliasConfig.aliases ++ [(index, n)] := by
  unfold setUpParameterAlias at h
  split at h
  · rename_i n hop
    obtain ⟨config, hconfig, h⟩ := bind_eq_ok.mp h
    obtain rfl := ok.inj h
    exact ⟨n, hop, (setUpAlias_eq_ok.mp hconfig).2⟩
  · cases h

/-- The output gets the nearest parameter that may be donated and has its shape. -/
theorem findBestMatch_eq_ok {index : ShapeIndex} {root : HloInstruction}
    (h : findBestMatch input index root st = ok st') :
    (Open input st index ∧ ∃ i n, (reached input root).find? (donates input st root) = some i ∧
      i.opcode = .parameter n ∧
        st'.aliasConfig.aliases = st.aliasConfig.aliases ++ [(index, n)]) ∨
    ((Open input st index → (reached input root).find? (donates input st root) = none) ∧
      st' = st) := by
  unfold findBestMatch at h
  split at h
  · rename_i haliased
    right
    refine ⟨fun hopen => ?_, (ok.inj h).symm⟩
    rw [hopen.1] at haliased
    cases haliased
  · rename_i hfree
    split at h
    · rename_i htemporary
      right
      refine ⟨fun hopen => ?_, (ok.inj h).symm⟩
      rw [hopen.2] at htemporary
      cases htemporary
    · rename_i hlasting
      have hopen : Open input st index :=
        ⟨Bool.eq_false_iff.mpr hfree, Bool.eq_false_iff.mpr hlasting⟩
      split at h
      · cases h
      · by_cases hroot : isDonorParameter input st root = true
        · rw [if_pos hroot] at h
          have hfind : (reached input root).find? (donates input st root) = some root := by
            simp [reached, donates, hroot]
          obtain ⟨n, hop, haliases⟩ := setUpParameterAlias_eq_ok h
          exact .inl ⟨hopen, root, n, hfind, hop, haliases⟩
        · rw [if_neg hroot, search_eq] at h
          have hfind : (reached input root).find? (donates input st root) =
              (visitOrder input kMaxVisits (operandsOf input root)).find?
                (donates input st root) := by
            rw [reached, List.find?_cons, donates, Bool.eq_false_iff.mpr hroot, Bool.false_and]
          split at h
          · rename_i i hi
            obtain ⟨n, hop, haliases⟩ := setUpParameterAlias_eq_ok h
            exact .inl ⟨hopen, i, n, hfind.trans hi, hop, haliases⟩
          · rename_i hnone
            exact .inr ⟨fun _ => hfind.trans hnone, (ok.inj h).symm⟩

/-- The nearest parameter that an output finds has as many bytes on a device as the output. -/
def NearestFits (input : Input) (st : State) (entry : ShapeIndex × HloInstruction) : Prop :=
  Open input st entry.1 → ∀ i n, (reached input entry.2).find? (donates input st entry.2) = some i →
    i.opcode = .parameter n → EqualSize input (entry.1, n)

/-- Every output does so in the state that those before it leave. -/
def AllNearestFit (input : Input) : List (ShapeIndex × HloInstruction) → State → Prop
  | [], _ => True
  | entry :: rest, st => NearestFits input st entry ∧
      ∀ st', findBestMatch input entry.1 entry.2 st = ok st' → AllNearestFit input rest st'

/-- The outputs one after the other. -/
theorem foldlM_findBestMatch {matched : List (ShapeIndex × HloInstruction)}
    (h : matched.foldlM (fun st entry => findBestMatch input entry.1 entry.2 st) st = ok st') :
    ∃ new, st'.aliasConfig.aliases = st.aliasConfig.aliases ++ new ∧
      ((∀ entry ∈ new, EqualSize input entry) ↔ AllNearestFit input matched st) := by
  induction matched generalizing st with
  | nil =>
    obtain rfl := ok.inj h
    exact ⟨[], by simp, by simp [AllNearestFit]⟩
  | cons entry matched ih =>
    rw [List.foldlM_cons] at h
    obtain ⟨st₁, hstep, h⟩ := bind_eq_ok.mp h
    obtain ⟨new, hnew, hiff⟩ := ih h
    have hrest : (∀ st', findBestMatch input entry.1 entry.2 st = ok st' →
        AllNearestFit input matched st') ↔ AllNearestFit input matched st₁ := by
      constructor
      · intro hall
        exact hall st₁ hstep
      · intro hfit st₂ hst₂
        rw [hstep] at hst₂
        exact ok.inj hst₂ ▸ hfit
    rw [AllNearestFit, hrest, ← hiff]
    rcases findBestMatch_eq_ok hstep with ⟨hopen, i, n, hfind, hop, haliases⟩ | ⟨hnone, rfl⟩
    · refine ⟨(entry.1, n) :: new, ?_, ?_⟩
      · rw [hnew, haliases, List.append_assoc, List.singleton_append]
      · rw [List.forall_mem_cons]
        apply and_congr_left'
        constructor
        · intro hequal _ j m hj hm
          rw [hfind] at hj
          obtain rfl := Option.some.inj hj
          rw [hop] at hm
          cases hm
          exact hequal
        · intro hfits
          exact hfits hopen i n hfind hop
    · refine ⟨new, hnew, ?_⟩
      rw [iff_and_self]
      intro _ hopen i n hfind
      rw [hnone hopen] at hfind
      cases hfind

end bestMatch

/-- All the aliases that a run adds are between buffers of one size if and only if each nearest
parameter that an output finds is. The sorted matchings never add others. -/
theorem run_equalSizes_iff {changed : Bool} (h : run input st = ok (st', changed)) :
    (∀ entry ∈ st'.aliasConfig.aliases, entry ∉ st.aliasConfig.aliases → EqualSize input entry) ↔
      ∀ matched, matchedOutputs input = ok matched → AllNearestFit input matched st := by
  obtain ⟨matched, hmatched, h⟩ := bind_eq_ok.mp h
  obtain ⟨st₁, hnearest, h⟩ := bind_eq_ok.mp h
  obtain ⟨⟨st₂, changed₂⟩, htemps, h⟩ := bind_eq_ok.mp h
  obtain ⟨⟨st₃, changed₃⟩, hparams, h⟩ := bind_eq_ok.mp h
  dsimp only at h
  split at h
  · obtain rfl := congrArg Prod.fst (ok.inj h)
    obtain ⟨new₁, hnew₁, hiff⟩ := foldlM_findBestMatch hnearest
    obtain ⟨new₂, hnew₂, hequal₂⟩ := build_adds htemps
    obtain ⟨new₃, hnew₃, hequal₃⟩ := build_adds hparams
    have hall : st₃.aliasConfig.aliases =
        st.aliasConfig.aliases ++ (new₁ ++ (new₂ ++ new₃)) := by
      rw [hnew₃, hnew₂, hnew₁, List.append_assoc, List.append_assoc]
    have hdisjoint : ∀ entry ∈ new₁, entry ∉ st.aliasConfig.aliases := by
      intro entry hentry hold
      have hnodup := st₃.aliasConfig.outputs_nodup
      rw [hall, List.map_append] at hnodup
      exact (List.nodup_append.mp hnodup).2.2 _ (List.mem_map_of_mem hold) _
        (List.mem_map_of_mem (List.mem_append_left _ hentry)) rfl
    have hmatchedIff : (∀ matched, matchedOutputs input = ok matched →
        AllNearestFit input matched st) ↔ ∀ entry ∈ new₁, EqualSize input entry := by
      rw [hiff, hmatched]
      constructor
      · intro hfit
        exact hfit matched rfl
      · intro hfit matched' hmatched'
        exact ok.inj hmatched' ▸ hfit
    rw [hmatchedIff]
    constructor
    · intro hequal entry hentry
      apply hequal entry _ (hdisjoint entry hentry)
      rw [hall]
      exact List.mem_append_right _ (List.mem_append_left _ hentry)
    · intro hequal entry hentry hnot
      rw [hall] at hentry
      rcases List.mem_append.mp ((List.mem_append.mp hentry).resolve_left hnot) with hnew | hnew
      · exact hequal entry hnew
      · rcases List.mem_append.mp hnew with hnew | hnew
        · exact hequal₂ entry hnew
        · exact hequal₃ entry hnew
  · cases h

theorem run_equalSizes_iff_swapped :
    ∃ st' changed, run swapped { donors := [0, 1] } = ok (st', changed) ∧
      ((∀ entry ∈ st'.aliasConfig.aliases, entry ∉ ([] : List (ShapeIndex × ℕ)) →
        EqualSize swapped entry) ↔
      ∀ matched, matchedOutputs swapped = ok matched →
        AllNearestFit swapped matched { donors := [0, 1] }) := by
  obtain ⟨⟨st', changed⟩, h⟩ :=
    isOk_iff.mp (by decide +kernel : (run swapped { donors := [0, 1] }).isOk = true)
  exact ⟨st', changed, h, run_equalSizes_iff h⟩

/-- A tile has its share of each dimension, rounded up. -/
def tileDimensions (dims : List ℕ) : HloSharding → List ℕ
  | .tiled assignment _ => List.zipWith (fun d t => (d + t - 1) / t) dims assignment.dimensions
  | _ => dims

/-- The final check compares the sizes on all devices together. -/
def globalSizesAgree (entry : HloComputation) (byteSizeOf : Shape → ℕ) (config : AliasConfig) :
    Bool :=
  config.aliases.all fun alias_ =>
    let outputs := ((entry.instruction entry.root).map fun root => match root.shape with
      | .tuple shapes => shapes.map fun shape => Shape.array shape.1 shape.2
      | shape => [shape]).getD []
    (entry.instructions.find? fun i => i.opcode == .parameter alias_.2).map
        (fun i => byteSizeOf i.shape) ==
      outputs[alias_.1.headD 0]?.map byteSizeOf

/-- A parameter that is sharded over two devices, and a replicated output of its shape. -/
def gatheredEntry : HloComputation where
  instructions :=
    [{ parameter 0 0 [8] with sharding := some (.tiled (.array [2] [0, 1]) false) },
    { id := 1, opcode := .other "negate", operands := [0], shape := .array .f32 [8] },
    { id := 2, opcode := .tuple, operands := [1], shape := .tuple [(.f32, [8])] }]
  root := 2

def gathered : Input where
  entry := gatheredEntry
  partitioning :=
    { partitionedDimensions := tileDimensions
      tupleElements := fun id => if id = 2 then some [.replicated] else none }
  byteSizeOf := fun shape => 4 * shape.dimensions.prod
  verify := globalSizesAgree gatheredEntry fun shape => 4 * shape.dimensions.prod

/-- The output of 32 bytes gets the buffer of 16 bytes. -/
theorem gathered_not_equalSizes :
    ∃ st' changed, run gathered { donors := [0] } = ok (st', changed) ∧
      ¬∀ entry ∈ st'.aliasConfig.aliases, entry ∉ ([] : List (ShapeIndex × ℕ)) →
        EqualSize gathered entry := by
  have haliases : (run gathered { donors := [0] }).toOption.map
      (fun result => result.1.aliasConfig.aliases) = some [([0], 0)] := by decide +kernel
  obtain ⟨⟨st', changed⟩, hrun, haliases⟩ := Option.map_eq_some_iff.mp haliases
  have hsizes : ∀ i ∈ gathered.entry.instructions, i.opcode = .parameter 0 →
      gathered.partitioning.getSpmdShape i = ok (.array .f32 [4]) := by decide +kernel
  refine ⟨st', changed, toOption_eq_some.mp hrun, ?_⟩
  intro hequal
  obtain ⟨i, hi, hop, shape, all, hshape, hall, hmem⟩ :=
    hequal ([0], 0) (haliases ▸ List.mem_singleton_self _) (List.not_mem_nil)
  have houtputs : outputs gathered = ok [⟨[0], 32⟩] := by decide +kernel
  rw [hsizes i hi hop] at hshape
  rw [houtputs] at hall
  cases hshape
  cases hall
  revert hmem
  decide +kernel

end InputOutputBufferAlias
end MultiMeshJax
