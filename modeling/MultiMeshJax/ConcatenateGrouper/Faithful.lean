import MultiMeshJax.ConcatenateGrouper.Shapes
import MultiMeshJax.Foundation.Run
import MultiMeshJax.Hlo.Evaluation

/-! Grouping keeps every value but for the order of the elements of the concatenate. -/
namespace MultiMeshJax
namespace ConcatenateGrouper

open StatusOr

/-- An array, or something else, such as a tuple. -/
inductive Value (α β : Type) where
  | array (x : RowMajor α)
  | other (b : β)

/-- What the instructions compute that are no concatenates, by id. -/
structure TensorOps (α β : Type) where
  reducer : ℕ → α → α → α
  operation : ℕ → List (Value α β) → Option (Value α β)

variable {α β : Type}

namespace Value

def array? : Value α β → Option (RowMajor α)
  | array x => some x
  | other _ => none

def hasShape : Value α β → Shape → Bool
  | array x, .array _ dims => decide (x.dims = dims)
  | other _, .tuple _ => true
  | _, _ => false

/-- All elements are reduced to one, from an initial value on. -/
def reduceAll (reducer : α → α → α) (dims : List ℕ) : List (Value α β) → Option (Value α β)
  | [array x, array init] =>
    match init.data with
    | [a] =>
      if h : dims.prod = 1 then some (array ⟨dims, [x.data.foldl reducer a], by simp [h]⟩) else none
    | _ => none
  | _ => none

end Value

namespace TensorOps

def result (ops : TensorOps α β) (dimension : ℕ) (i : HloInstruction) (args : List (Value α β)) :
    Option (Value α β) :=
  if isConcatenate i then do
    let xs ← args.mapM Value.array?
    let x ← RowMajor.concatenate dimension i.shape.dimensions xs
    return .array x
  else if isFullReduce i then Value.reduceAll (ops.reducer i.id) i.shape.dimensions args
  else ops.operation i.id args

/-- A result is of the declared shape. -/
def apply (ops : TensorOps α β) (dimension : ℕ → ℕ) (i : HloInstruction)
    (args : List (Value α β)) : Option (Value α β) :=
  (ops.result (dimension i.id) i args).filter fun v => v.hasShape i.shape

/-- The reducers are commutative and associative. -/
structure Reorderable (ops : TensorOps α β) : Prop where
  comm : ∀ id a b, ops.reducer id a b = ops.reducer id b a
  assoc : ∀ id a b c, ops.reducer id (ops.reducer id a b) c = ops.reducer id a (ops.reducer id b c)

end TensorOps

def Graph.HasValue (g : Graph) (ops : TensorOps α β) (id : ℕ) (v : Value α β) : Prop :=
  g.computation.HasValue (ops.apply g.dimension) id v

/-- The sizes are those of the operands put together, the elements are regrouped, and every other
instruction has the value that it had. -/
structure Faithful (g : Graph) (id : ℕ) (g' : Graph) : Prop where
  sizes : ∀ j ∈ g'.computation.instructions, isConcatenate j = true → ∀ operands,
    j.operands.mapM g'.computation.getInstruction = ok operands →
      sizeAlong (g'.dimension j.id) j = (operands.map (sizeAlong (g'.dimension j.id))).sum
  kept : ∀ (α β : Type) (ops : TensorOps α β), ops.Reorderable → ∀ other ≠ id, ∀ v,
    g.HasValue ops other v → g'.HasValue ops other v
  untouched : ∀ i, g.computation.getInstruction id = ok i → isGroupable g i = ok false → g' = g
  regrouped : ∀ i, g.computation.getInstruction id = ok i → isGroupable g i = ok true →
    ∃ aggregate ∉ g.computation.ids, (∀ user ∈ g.computation.users id,
      redirect id aggregate user ∈ g'.computation.instructions) ∧
        ∀ (α β : Type) (ops : TensorOps α β) (x : RowMajor α), g.HasValue ops id (.array x) →
          ∃ x', g'.HasValue ops aggregate (.array x') ∧ x'.dims = x.dims ∧ x'.data.Perm x.data

section values

variable {g g' : Graph} {i j : HloInstruction} {operands : List HloInstruction}
  {ops : TensorOps α β} {v : Value α β} {dimension : ℕ → ℕ} {args args' : List (Value α β)}

theorem mapM_array?_eq_some {xs : List (RowMajor α)} :
    args.mapM Value.array? = some xs ↔ args = xs.map Value.array := by
  rw [HloComputation.mapM_option_eq_some, ← List.forall₂_eq_eq_eq, List.forall₂_map_right_iff]
  apply Iff.intro <;> intro h <;> apply h.imp <;> intro a x hax
  · cases a with
    | array x' => rw [Option.some.inj hax]
    | other b => cases hax
  · rw [hax]
    rfl

theorem apply_concatenate_eq_some (hconcatenate : isConcatenate i = true)
    (h : ops.apply dimension i args = some v) : ∃ xs x, args = xs.map Value.array ∧
      RowMajor.concatenate (dimension i.id) i.shape.dimensions xs = some x ∧ v = .array x := by
  obtain ⟨hresult, -⟩ := Option.filter_eq_some_iff.mp h
  rw [TensorOps.result, if_pos hconcatenate] at hresult
  obtain ⟨xs, hxs, hresult⟩ := Option.bind_eq_some_iff.mp hresult
  obtain ⟨x, hx, hresult⟩ := Option.bind_eq_some_iff.mp hresult
  exact ⟨xs, x, mapM_array?_eq_some.mp hxs, hx, (Option.some.inj hresult).symm⟩

theorem hasShape_array {x : RowMajor α} {s : Shape} (h : s.isTuple = false) :
    (Value.array x : Value α β).hasShape s = true ↔ x.dims = s.dimensions := by
  cases s with
  | array elementType dims => simp [Value.hasShape, Shape.dimensions]
  | tuple shapes => cases h

theorem apply_concatenate {xs : List (RowMajor α)} {x : RowMajor α}
    (hconcatenate : isConcatenate i = true) (harray : i.shape.isTuple = false)
    (hx : RowMajor.concatenate (dimension i.id) i.shape.dimensions xs = some x) :
    ops.apply dimension i (xs.map Value.array) = some (.array x) := by
  apply Option.filter_eq_some_iff.mpr
  constructor
  · rw [TensorOps.result, if_pos hconcatenate, mapM_array?_eq_some.mpr rfl]
    change (RowMajor.concatenate (dimension i.id) i.shape.dimensions xs >>= _) = _
    rw [hx]
    rfl
  · exact (hasShape_array harray).mpr (RowMajor.concatenate_eq_some hx).2.1

theorem hasShape_of_hasValue (hids : g.computation.ids.Nodup) (hi : i ∈ g.computation.instructions)
    (h : g.HasValue ops i.id v) : v.hasShape i.shape = true := by
  obtain ⟨i', args, hi', -, hv⟩ := HloComputation.hasValue_iff.mp h
  rw [HloComputation.instruction_of_mem hids hi] at hi'
  obtain rfl := Option.some.inj hi'
  exact (Option.filter_eq_some_iff.mp hv).2

/-- In a graph with the right shapes a concatenate of arrays has a value. -/
theorem hasValue_concatenate (hg : Wf g) (hi : i ∈ g.computation.instructions)
    (hconcatenate : isConcatenate i = true)
    (hoperands : i.operands.mapM g.computation.getInstruction = ok operands)
    {xs : List (RowMajor α)}
    (hxs : List.Forall₂ (fun o x => g.HasValue ops o.id (.array x)) operands xs) :
    ∃ x, g.HasValue ops i.id (.array x) ∧ x.dims = i.shape.dimensions ∧
      x.data.Perm (xs.flatMap RowMajor.data) := by
  have hfits := hg.fits i hi hconcatenate operands hoperands
  have hdims : xs.map RowMajor.dims = operands.map fun o => o.shape.dimensions := by
    rw [← List.forall₂_eq_eq_eq, List.forall₂_map_left_iff, List.forall₂_map_right_iff]
    apply (mem_of_forall₂ hxs).flip.imp
    rintro x o ⟨ho, hx⟩
    obtain ⟨_, _, hget⟩ := exists_of_mem_mapM hoperands ho
    exact (hasShape_array (hfits.operandsArray o ho)).mp
      (hasShape_of_hasValue hg.nodup (mem_of_getInstruction hget).1 hx)
  obtain ⟨x, hx⟩ := RowMajor.exists_concatenate (hdims ▸ hfits.fits)
  obtain ⟨-, hxdims, hperm⟩ := RowMajor.concatenate_eq_some hx
  refine ⟨x, ?_, hxdims, hperm⟩
  apply HloComputation.hasValue_iff.mpr
  refine ⟨i, xs.map Value.array, HloComputation.instruction_of_mem hg.nodup hi, ?_,
    apply_concatenate hconcatenate hfits.isArray hx⟩
  rw [List.forall₂_map_right_iff, ← map_id_of_mapM hoperands, List.forall₂_map_left_iff]
  exact hxs

/-- The same value, or the same elements in another order. -/
def Rearranged : Value α β → Value α β → Prop
  | .array x, .array x' => x'.dims = x.dims ∧ x'.data.Perm x.data
  | v, v' => v' = v

theorem Rearranged.refl (v : Value α β) : Rearranged v v := by
  cases v with
  | array x => exact ⟨rfl, .refl _⟩
  | other b => rfl

theorem reduceAll_eq_none {reducer : α → α → α} {dims : List ℕ} {x init : RowMajor α}
    (h : ¬∃ a, init.data = [a]) :
    Value.reduceAll reducer dims [(.array x : Value α β), .array init] = none := by
  unfold Value.reduceAll
  dsimp only
  split
  · rename_i a ha
    exact absurd ⟨a, ha⟩ h
  · rfl

/-- The initial value is one element, so a permutation of it is the same. -/
theorem reduceAll_perm {reducer : α → α → α}
    (hreorder : ∀ z x y, reducer (reducer z x) y = reducer (reducer z y) x) {dims : List ℕ}
    {x x' init init' : RowMajor α} (hx : x'.data.Perm x.data) (hinit : init'.data.Perm init.data) :
    Value.reduceAll reducer dims [(.array x' : Value α β), .array init'] =
      Value.reduceAll reducer dims [.array x, .array init] := by
  by_cases hsingle : ∃ a, init.data = [a]
  · obtain ⟨a, ha⟩ := hsingle
    unfold Value.reduceAll
    rw [ha, List.perm_singleton] at hinit
    have hfold : x'.data.foldl reducer a = x.data.foldl reducer a :=
      hx.foldl_eq' (fun x _ y _ z => hreorder z x y) a
    simp only [ha, hinit, hfold]
  · have hsingle' : ¬∃ a, init'.data = [a] := by
      rintro ⟨a, ha⟩
      rw [ha] at hinit
      exact hsingle ⟨a, (List.singleton_perm.mp hinit).symm⟩
    rw [reduceAll_eq_none hsingle, reduceAll_eq_none hsingle']

theorem reduceAll_rearranged {reducer : α → α → α} (hcomm : ∀ a b, reducer a b = reducer b a)
    (hassoc : ∀ a b c, reducer (reducer a b) c = reducer a (reducer b c)) {dims : List ℕ}
    (h : List.Forall₂ Rearranged args args') :
    Value.reduceAll reducer dims args' = Value.reduceAll reducer dims args := by
  have hreorder : ∀ z x y, reducer (reducer z x) y = reducer (reducer z y) x := by
    intro z x y
    rw [hassoc, hcomm x y, ← hassoc]
  cases h with
  | nil => rfl
  | @cons a a' _ _ hx h =>
    cases h with
    | nil => cases a <;> cases a' <;> rfl
    | @cons b b' _ _ hinit h =>
      cases h with
      | cons _ _ => cases a <;> cases a' <;> cases b <;> cases b' <;> rfl
      | nil =>
        cases a with
        | other => cases hx; rfl
        | array x =>
          cases a' with
          | other => cases hx
          | array x' =>
            cases b with
            | other => cases hinit; rfl
            | array init =>
              cases b' with
              | other => cases hinit
              | array init' =>
                exact reduceAll_perm hreorder hx.2 hinit.2

theorem flatMap_perm {κ : Type} {keys : List κ} {xs : List (RowMajor α)} {f : κ → List α}
    (h : List.Forall₂ (fun k x => x.data.Perm (f k)) keys xs) :
    (xs.flatMap RowMajor.data).Perm (keys.flatMap f) := by
  induction h with
  | nil => exact .refl _
  | cons hx _ ih =>
    rw [List.flatMap_cons, List.flatMap_cons]
    exact hx.append ih

/-- The aggregate has the elements of the operands. -/
theorem Grouped.hasValue_aggregate {aggregate : HloInstruction}
    (h : Grouped g i operands aggregate g') (hg : Wf g) (hg' : Wf g') (hself : i.id ∉ i.operands)
    (hoperands : i.operands.mapM g.computation.getInstruction = ok operands)
    {val : ℕ → RowMajor α} (hval : ∀ o ∈ i.operands, g'.HasValue ops o (.array (val o))) :
    ∃ x, g'.HasValue ops aggregate.id (.array x) ∧ x.dims = i.shape.dimensions ∧
      x.data.Perm (i.operands.flatMap fun o => (val o).data) := by
  obtain ⟨subs, hsubs, hrel⟩ := h.exists_subs
  have heach : List.Forall₂ (fun color sub => ∃ x, g'.HasValue ops sub.id (.array x) ∧
      x.data.Perm ((inputsOf operands color).flatMap fun o => (val o.id).data))
        (colorsOf operands) subs := by
    apply hrel.imp
    rintro color sub ⟨hmem, hsub⟩
    have hinputs : List.Forall₂ (fun o x => g'.HasValue ops o.id (.array x))
        ((inputsOf operands color).map (redirect i.id aggregate.id))
        ((inputsOf operands color).map fun o => val o.id) := by
      rw [List.forall₂_map_left_iff, List.forall₂_map_right_iff, List.forall₂_same]
      intro o ho
      apply hval o.id
      rw [← map_id_of_mapM hoperands]
      exact List.mem_map_of_mem (mem_inputsOf.mp ho).1
    obtain ⟨x, hx, -, hperm⟩ := hasValue_concatenate hg' hmem (isConcatenate_iff.mpr hsub.opcode)
      (by rw [hsub.operands_eq]; exact h.mapM_inputsOf hg hself hoperands color) hinputs
    rw [List.flatMap_map] at hperm
    exact ⟨x, hx, hperm⟩
  obtain ⟨xs, hxs, hdata⟩ := exists_between_forall₂ heach
  obtain ⟨x, hx, hdims, hperm⟩ := hasValue_concatenate hg' h.mem (isConcatenate_iff.mpr h.opcode)
    hsubs hxs
  refine ⟨x, hx, h.shape ▸ hdims, ?_⟩
  have hgroups : ((colorsOf operands).flatMap fun color =>
      (inputsOf operands color).flatMap fun o => (val o.id).data).Perm
        (i.operands.flatMap fun o => (val o).data) := by
    rw [← map_id_of_mapM hoperands, List.flatMap_map, ← List.flatMap_assoc]
    exact (groups_perm colorOrDefault operands).flatMap_right _
  exact hperm.trans ((flatMap_perm hdata).trans hgroups)

theorem apply_redirect {aggregate : ℕ} {dimension' : ℕ → ℕ} {old : ℕ}
    (hdimension : dimension' j.id = dimension j.id) :
    ops.apply dimension' (redirect old aggregate j) args = ops.apply dimension j args := by
  unfold TensorOps.apply
  change Option.filter _ (ops.result (dimension' j.id) _ args) = _
  rw [hdimension]
  rfl

theorem apply_rearranged (hops : ops.Reorderable) (hreduce : isFullReduce j = true)
    (h : List.Forall₂ Rearranged args args') : ops.apply dimension j args' = ops.apply dimension j args := by
  have hnot : ¬isConcatenate j = true := by simp [isConcatenate_of_isFullReduce hreduce]
  unfold TensorOps.apply TensorOps.result
  rw [if_neg hnot, if_neg hnot, if_pos hreduce, if_pos hreduce,
    reduceAll_rearranged (hops.comm j.id) (hops.assoc j.id) h]

/-- What has a value to a depth to which the concatenate has none does not read it. -/
theorem Grouped.hasValue_before {aggregate : HloInstruction}
    (h : Grouped g i operands aggregate g') {depth bound id : ℕ} (hlt : depth < bound)
    (hnone : ∀ d < bound, g.computation.evaluate (ops.apply g.dimension) d i.id = none)
    (hv : g.computation.evaluate (ops.apply g.dimension) depth id = some v) :
    g'.HasValue ops id v := by
  induction depth generalizing id v with
  | zero => cases hv
  | succ depth ih =>
    have hne : id ≠ i.id := by
      rintro rfl
      rw [hnone _ hlt] at hv
      cases hv
    obtain ⟨j, args, hj, hargs, happly⟩ := HloComputation.evaluate_succ.mp hv
    obtain rfl := HloComputation.id_of_instruction hj
    have hmem := HloComputation.mem_of_instruction hj
    have hnot : i.id ∉ j.operands := by
      intro hin
      obtain ⟨a, -, ha⟩ := exists_of_mem_forall₂ hargs hin
      rw [hnone depth (by omega)] at ha
      cases ha
    have hsame : redirect i.id aggregate.id j = j := redirect_eq_self hnot
    have hin := h.kept j hmem hne
    rw [hsame] at hin
    apply HloComputation.hasValue_iff.mpr
    refine ⟨j, args, HloComputation.instruction_of_mem h.nodup hin, ?_, ?_⟩
    · exact hargs.imp fun o a ho => ih (by omega) ho
    · rw [← happly, ← hsame, apply_redirect, hsame]
      exact h.dimension_kept j.id (List.mem_map_of_mem hmem)

/-- The aggregate has the elements of the old concatenate. -/
theorem Grouped.hasValue_regrouped {aggregate : HloInstruction}
    (h : Grouped g i operands aggregate g') (hg : Wf g) (hg' : Wf g')
    (hi : i ∈ g.computation.instructions) (hgroupable : isGroupable g i = ok true)
    (hoperands : i.operands.mapM g.computation.getInstruction = ok operands)
    (hv : g.HasValue ops i.id v) : ∃ x x', v = .array x ∧ g'.HasValue ops aggregate.id (.array x') ∧
      x'.dims = x.dims ∧ x'.data.Perm x.data := by
  obtain ⟨hconcatenate, -⟩ := isGroupable_eq_ok hgroupable
  have hself : i.id ∉ i.operands := notMem_operands_of_isGroupable hgroupable hi hconcatenate
  classical
  -- the least depth to which the concatenate has a value
  have hex : ∃ d, (g.computation.evaluate (ops.apply g.dimension) d i.id).isSome := by
    obtain ⟨d, hd⟩ := hv
    exact ⟨d, by rw [hd]; rfl⟩
  have hnone : ∀ d < Nat.find hex,
      g.computation.evaluate (ops.apply g.dimension) d i.id = none := by
    intro d hd
    simpa using Nat.find_min hex hd
  obtain ⟨w, hw⟩ := Option.isSome_iff_exists.mp (Nat.find_spec hex)
  obtain rfl : v = w := hv.unique ⟨_, hw⟩
  cases hdepth : Nat.find hex with
  | zero =>
    rw [hdepth] at hw
    cases hw
  | succ depth =>
    rw [hdepth] at hw hnone
    obtain ⟨i', args, hi', hargs, happly⟩ := HloComputation.evaluate_succ.mp hw
    rw [HloComputation.instruction_of_mem hg.nodup hi] at hi'
    obtain rfl := Option.some.inj hi'
    obtain ⟨xs, x, rfl, hx, rfl⟩ := apply_concatenate_eq_some hconcatenate happly
    obtain ⟨-, hdims, hdata⟩ := RowMajor.concatenate_eq_some hx
    rw [List.forall₂_map_right_iff] at hargs
    obtain ⟨val, rfl, hval⟩ := exists_map_of_forall₂ (fun o a b ha hb => by
      rw [ha] at hb
      cases hb
      rfl) hargs
    obtain ⟨x', hx', hdims', hdata'⟩ := h.hasValue_aggregate hg hg' hself hoperands fun o ho =>
      h.hasValue_before (Nat.lt_succ_self depth) hnone (hval o ho)
    rw [List.flatMap_map] at hdata
    exact ⟨x, x', rfl, hx', hdims'.trans hdims.symm, hdata'.trans hdata.symm⟩

/-- Every other value is kept. -/
theorem Grouped.hasValue_kept {aggregate : HloInstruction} (h : Grouped g i operands aggregate g')
    (hg : Wf g) (hg' : Wf g') (hi : i ∈ g.computation.instructions)
    (hgroupable : isGroupable g i = ok true)
    (hoperands : i.operands.mapM g.computation.getInstruction = ok operands)
    (hops : ops.Reorderable) {id : ℕ} (hne : id ≠ i.id) (hv : g.HasValue ops id v) :
    g'.HasValue ops id v := by
  revert hne
  apply HloComputation.HasValue.induction (P := fun id v => id ≠ i.id → g'.HasValue ops id v) _ hv
  intro id j args v hj hargs happly hne
  obtain rfl := HloComputation.id_of_instruction hj
  have hmem := HloComputation.mem_of_instruction hj
  have hdimension := h.dimension_kept j.id (List.mem_map_of_mem hmem)
  have hinstruction := HloComputation.instruction_of_mem h.nodup (h.kept j hmem hne)
  apply HloComputation.hasValue_iff.mpr
  by_cases hreads : i.id ∈ j.operands
  · -- the only user is the reduce
    obtain ⟨-, user, husers, hreduce⟩ := isGroupable_eq_ok hgroupable
    have huser : j ∈ g.computation.users i.id := List.mem_filter.mpr ⟨hmem, by simpa using hreads⟩
    rw [husers, List.mem_singleton] at huser
    obtain rfl := huser
    have hnew : List.Forall₂ (fun a o => ∃ a', g'.HasValue ops
        (if o = i.id then aggregate.id else o) a' ∧ Rearranged a a') args j.operands := by
      apply hargs.flip.imp
      rintro a o ⟨ho, hkept⟩
      by_cases heq : o = i.id
      · subst heq
        obtain ⟨x, x', rfl, hx', hdims, hdata⟩ :=
          h.hasValue_regrouped hg hg' hi hgroupable hoperands ho
        rw [if_pos rfl]
        exact ⟨_, hx', hdims, hdata⟩
      · rw [if_neg heq]
        exact ⟨a, hkept heq, .refl a⟩
    obtain ⟨args', hargs', hrearranged⟩ := exists_between_forall₂ hnew
    refine ⟨_, args', hinstruction, List.forall₂_map_left_iff.mpr hargs', ?_⟩
    rw [apply_redirect hdimension, apply_rearranged hops hreduce hrearranged, happly]
  · have hsame : redirect i.id aggregate.id j = j := redirect_eq_self hreads
    refine ⟨_, args, hinstruction, ?_, (apply_redirect hdimension).trans happly⟩
    rw [hsame]
    apply (mem_of_forall₂ hargs).imp
    rintro o a ⟨ho, -, hkept⟩
    apply hkept
    rintro rfl
    exact hreads ho

end values

section run

variable {g g' : Graph} {id : ℕ}

theorem Wf.sizes (hg : Wf g) : ∀ j ∈ g.computation.instructions, isConcatenate j = true →
    ∀ operands, j.operands.mapM g.computation.getInstruction = ok operands →
      sizeAlong (g.dimension j.id) j = (operands.map (sizeAlong (g.dimension j.id))).sum := by
  intro j hj hconcatenate operands hoperands
  have hsize := (hg.fits j hj hconcatenate operands hoperands).fits.size
  rw [List.map_map] at hsize
  exact hsize

theorem Grouped.faithful {i aggregate : HloInstruction} {operands : List HloInstruction}
    (h : Grouped g i operands aggregate g') (hg : Wf g) (hg' : Wf g')
    (hi : i ∈ g.computation.instructions) (hgroupable : isGroupable g i = ok true)
    (hoperands : i.operands.mapM g.computation.getInstruction = ok operands) :
    Faithful g i.id g' where
  sizes := hg'.sizes
  kept α β ops hops other hne v hv := h.hasValue_kept hg hg' hi hgroupable hoperands hops hne hv
  untouched j hj hnot := by
    rw [getInstruction_of_mem hg.nodup hi] at hj
    obtain rfl := ok.inj hj
    rw [hgroupable] at hnot
    cases hnot
  regrouped j hj _ := by
    rw [getInstruction_of_mem hg.nodup hi] at hj
    obtain rfl := ok.inj hj
    refine ⟨aggregate.id, h.fresh, ?_, ?_⟩
    · intro user huser
      have hmem := List.mem_of_mem_filter huser
      apply h.kept user hmem
      rintro heq
      obtain rfl : user = i := List.inj_on_of_nodup_map hg.nodup hmem hi heq
      obtain ⟨hconcatenate, -⟩ := isGroupable_eq_ok hgroupable
      exact notMem_operands_of_isGroupable hgroupable hi hconcatenate
        (by simpa using (List.mem_filter.mp huser).2)
    · intro α β ops x hx
      obtain ⟨x₀, x', heq, hx', hdims, hdata⟩ :=
        h.hasValue_regrouped hg hg' hi hgroupable hoperands hx
      cases heq
      exact ⟨x', hx', hdims, hdata⟩

/-- A visit changes nothing, or groups the operands of a concatenate. -/
theorem step_cases (hg : Wf g) (h : Step g id g') : ∃ i ∈ g.computation.instructions, i.id = id ∧
    (isGroupable g i = ok false ∧ g' = g ∨
      isGroupable g i = ok true ∧ ∃ operands aggregate,
        i.operands.mapM g.computation.getInstruction = ok operands ∧
          Grouped g i operands aggregate g') := by
  obtain ⟨i, hi, h⟩ := bind_eq_ok.mp h
  obtain ⟨groupable, hgroupable, h⟩ := bind_eq_ok.mp h
  obtain ⟨hmem, hid⟩ := mem_of_getInstruction hi
  refine ⟨i, hmem, hid, ?_⟩
  cases groupable with
  | false => exact .inl ⟨hgroupable, (ok.inj h).symm⟩
  | true =>
    obtain ⟨operands, hoperands⟩ := hg.exists_operands hmem
    obtain ⟨hconcatenate, -⟩ := isGroupable_eq_ok hgroupable
    obtain ⟨aggregate, hgrouped⟩ := groupOperands_grouped hg.nodup hmem
      (notMem_operands_of_isGroupable hgroupable hmem hconcatenate) hoperands h
    exact .inr ⟨hgroupable, operands, aggregate, hoperands, hgrouped⟩

/-- One visit. -/
theorem step_iff (hg : Wf g) (h : Step g id g') :
    (Wf g' ∧ Faithful g id g') ↔ Balanced g id := by
  obtain ⟨i, hmem, rfl, hcases⟩ := step_cases hg h
  have hi := getInstruction_of_mem hg.nodup hmem
  rcases hcases with ⟨hgroupable, rfl⟩ | ⟨hgroupable, operands, aggregate, hoperands, hgrouped⟩
  · have hno : ∀ j, g'.computation.getInstruction i.id = ok j → isGroupable g' j ≠ ok true := by
      intro j hj hyes
      rw [hi] at hj
      obtain rfl := ok.inj hj
      rw [hgroupable] at hyes
      cases hyes
    constructor
    · intro _ j operands hj hyes
      exact absurd hyes (hno j hj)
    · intro _
      exact ⟨hg, hg.sizes, fun _ _ _ _ _ _ _ hv => hv, fun _ _ _ => rfl,
        fun j hj hyes => absurd hyes (hno j hj)⟩
  · rw [← hgrouped.wf_iff hg hmem hgroupable hoperands]
    constructor
    · exact And.left
    · intro hg'
      exact ⟨hg', hgrouped.faithful hg hg' hmem hgroupable hoperands⟩

/-- Every visit of the pass is faithful exactly when the sizes of each colour add up at every
visit. -/
theorem eachStep_faithful_iff (hg : Wf g) (postOrder : List ℕ) :
    Run.EachStep Step (fun g id g' => Wf g' ∧ Faithful g id g') g postOrder ↔
      Run.EachStep Step (fun g id _ => Balanced g id) g postOrder := by
  apply Run.eachStep_iff _ hg
  intro g id g' hg h
  exact step_iff hg h

/-- A reduce of the concatenate of arrays of these sizes and colours. -/
def reduceOfParts (sizes : List ℕ) (colors : List String) : Graph where
  computation :=
    { instructions :=
        (sizes.zip colors).zipIdx.map (fun part =>
          { id := part.2, opcode := .parameter part.2, shape := .array .f32 [part.1.1],
            color := some part.1.2 }) ++
        [{ id := sizes.length, opcode := .other "concatenate", operands := List.range sizes.length,
           shape := .array .f32 [sizes.sum] },
         { id := sizes.length + 1, opcode := .constant },
         { id := sizes.length + 2, opcode := .other "reduce",
           operands := [sizes.length, sizes.length + 1] }]
      root := sizes.length + 2 }
  dimension := fun _ => 0

def unequalParts : Graph := reduceOfParts [1, 2] ["A", "A"]

def equalParts : Graph := reduceOfParts [2, 1, 2] ["A", "B", "A"]

theorem wf_of_concatenate (concatenate : HloInstruction) {operands : List HloInstruction}
    (hids : g.computation.ids.Nodup)
    (hclosed : ∀ i ∈ g.computation.instructions, ∀ o ∈ i.operands, o ∈ g.computation.ids)
    (honly : ∀ i ∈ g.computation.instructions, isConcatenate i = true → i = concatenate)
    (hoperands : concatenate.operands.mapM g.computation.getInstruction = ok operands)
    (hfits : FitsOperands (g.dimension concatenate.id) concatenate operands) : Wf g where
  nodup := hids
  closed := hclosed
  fits i hi hconcatenate os hos := by
    obtain rfl := honly i hi hconcatenate
    rw [hoperands] at hos
    obtain rfl := ok.inj hos
    exact hfits

def concatenateOf (operands : List ℕ) (size : ℕ) : HloInstruction where
  id := operands.length
  opcode := .other "concatenate"
  operands := operands
  shape := .array .f32 [size]

theorem unequalParts_wf : Wf unequalParts := by
  apply wf_of_concatenate (concatenateOf [0, 1] 3) (by decide) (by decide) (by decide) rfl
  constructor
  · rfl
  · decide
  · decide

theorem equalParts_wf : Wf equalParts := by
  apply wf_of_concatenate (concatenateOf [0, 1, 2] 5) (by decide) (by decide) (by decide) rfl
  constructor
  · rfl
  · decide
  · decide

theorem eachStep_faithful_iff_equalParts :
    Run.EachStep Step (fun g id g' => Wf g' ∧ Faithful g id g') equalParts [0, 1, 2, 3, 4, 5] ↔
      Run.EachStep Step (fun g id _ => Balanced g id) equalParts [0, 1, 2, 3, 4, 5] :=
  eachStep_faithful_iff equalParts_wf [0, 1, 2, 3, 4, 5]

/-- Two operands of one colour with the sizes 1 and 2 make a concatenate that is declared with
the size 2. -/
theorem unequalParts_not_faithful :
    ¬ Run.EachStep Step (fun g id g' => Wf g' ∧ Faithful g id g') unequalParts [0, 1, 2, 3, 4] := by
  intro h
  obtain ⟨g', hg'⟩ : ∃ g', visit unequalParts 2 = ok g' := isOk_iff.mp (by decide +kernel)
  have hreaches : Run.Reaches Step unequalParts [0, 1] unequalParts :=
    .step rfl (.step rfl (.refl _))
  have hbalanced := (step_iff unequalParts_wf hg').mp (h [0, 1] 2 [3, 4] _ g' rfl hreaches hg')
  have hsizes := hbalanced (concatenateOf [0, 1] 3) _ rfl rfl rfl "A" _ _ rfl
  revert hsizes
  decide

/-- Only concatenates go away. -/
theorem step_kept (hg : Wf g) (h : Step g id g') {j : HloInstruction}
    (hj : j ∈ g.computation.instructions) (hnot : isConcatenate j = false) :
    ∃ j' ∈ g'.computation.instructions, j'.id = j.id ∧ isConcatenate j' = false := by
  obtain ⟨i, hmem, rfl, hcases⟩ := step_cases hg h
  rcases hcases with ⟨-, rfl⟩ | ⟨hgroupable, operands, aggregate, -, hgrouped⟩
  · exact ⟨j, hj, rfl, hnot⟩
  · refine ⟨_, hgrouped.kept j hj ?_, rfl, hnot⟩
    intro heq
    obtain rfl : j = i := List.inj_on_of_nodup_map hg.nodup hj hmem heq
    rw [(isGroupable_eq_ok hgroupable).1] at hnot
    cases hnot

/-- Where the sizes add up, the pass keeps the value of all that is no concatenate. -/
theorem run_hasValue (hg : Wf g) {postOrder : List ℕ} (hrun : run g postOrder = ok g')
    (hbalanced : Run.EachStep Step (fun g id _ => Balanced g id) g postOrder)
    {α β : Type} {ops : TensorOps α β} (hops : ops.Reorderable) {j : HloInstruction}
    (hj : j ∈ g.computation.instructions) (hnot : isConcatenate j = false) {v : Value α β}
    (hv : g.HasValue ops j.id v) : g'.HasValue ops j.id v := by
  induction postOrder generalizing g j with
  | nil =>
    obtain rfl := ok.inj hrun
    exact hv
  | cons id postOrder ih =>
    rw [run, List.foldlM_cons, bind_eq_ok] at hrun
    obtain ⟨g₁, hstep, hrest⟩ := hrun
    obtain ⟨hhead, htail⟩ := Run.eachStep_cons.mp hbalanced g₁ hstep
    obtain ⟨hg₁, hfaithful⟩ := (step_iff hg hstep).mpr hhead
    obtain ⟨j', hj', hid, hnot'⟩ := step_kept hg hstep hj hnot
    have hv₁ : g₁.HasValue ops j.id v := by
      by_cases heq : j.id = id
      · obtain ⟨i, hmem, rfl, hcases⟩ := step_cases hg hstep
        obtain rfl : j = i := List.inj_on_of_nodup_map hg.nodup hj hmem heq
        rcases hcases with ⟨-, rfl⟩ | ⟨hgroupable, -⟩
        · exact hv
        · rw [(isGroupable_eq_ok hgroupable).1] at hnot
          cases hnot
      · exact hfaithful.kept α β ops hops j.id heq v hv
    rw [← hid] at hv₁ ⊢
    exact ih hg₁ hrest htail hj' hnot' hv₁

end run

end ConcatenateGrouper
end MultiMeshJax
