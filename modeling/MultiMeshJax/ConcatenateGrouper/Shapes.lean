import MultiMeshJax.ConcatenateGrouper.Grouped
import MultiMeshJax.Foundation.Related

/-! The shapes of the sub-concatenates and of the aggregate. They are right exactly when the
operands of one colour add up to as many times the size of the first. -/
namespace MultiMeshJax
namespace ConcatenateGrouper

open StatusOr

def sizeAlong (dimension : ℕ) (o : HloInstruction) : ℕ := o.shape.dimensions.getD dimension 0

/-- The declared shape is that of the operands put together. -/
structure FitsOperands (dimension : ℕ) (i : HloInstruction) (operands : List HloInstruction) :
    Prop where
  isArray : i.shape.isTuple = false
  operandsArray : ∀ o ∈ operands, o.shape.isTuple = false
  fits : Fits dimension i.shape.dimensions (operands.map fun o => o.shape.dimensions)

/-- The ids are distinct, the operands there, and every concatenate has the shape of its
operands put together. -/
structure Wf (g : Graph) : Prop where
  nodup : g.computation.ids.Nodup
  closed : ∀ i ∈ g.computation.instructions, ∀ o ∈ i.operands, o ∈ g.computation.ids
  fits : ∀ i ∈ g.computation.instructions, isConcatenate i = true → ∀ operands,
    i.operands.mapM g.computation.getInstruction = ok operands →
      FitsOperands (g.dimension i.id) i operands

/-- The operands of one colour add up to as many times the size of the first. -/
def Balanced (g : Graph) (id : ℕ) : Prop :=
  ∀ i operands, g.computation.getInstruction id = ok i → isGroupable g i = ok true →
    i.operands.mapM g.computation.getInstruction = ok operands → ∀ color front rest,
      inputsOf operands color = front :: rest →
        (rest.map (sizeAlong (g.dimension id))).sum =
          rest.length * sizeAlong (g.dimension id) front

section shapes

variable {g g' : Graph} {i sub aggregate : HloInstruction} {operands : List HloInstruction}
  {dimension : ℕ} {color : String}

theorem subShape_eq_ok {inputs : List HloInstruction} {shape : Shape}
    (h : subShape dimension inputs = ok shape) : ∃ front rest, inputs = front :: rest ∧
      shape.isTuple = false ∧ shape.dimensions =
        front.shape.dimensions.set dimension ((rest.length + 1) * sizeAlong dimension front) := by
  obtain ⟨front, hfront, h⟩ := bind_eq_ok.mp h
  cases inputs with
  | nil => cases elementAt_eq_ok.mp hfront
  | cons front' rest =>
    obtain rfl : front' = front := by simpa using elementAt_eq_ok.mp hfront
    refine ⟨front', rest, rfl, ?_⟩
    split at h
    · cases h
    · rename_i elementType dims hshape
      obtain ⟨size, hsize, h⟩ := bind_eq_ok.mp h
      obtain rfl := ok.inj h
      have hget : dims.getD dimension 0 = size := by
        rw [List.getD_eq_getElem?_getD, elementAt_eq_ok.mp hsize, Option.getD_some]
      constructor
      · rfl
      · rw [sizeAlong, hshape]
        change dims.set dimension _ = dims.set dimension (_ * dims.getD dimension 0)
        rw [hget, List.length_cons]

/-- What a sub-concatenate looks like. -/
theorem IsSubConcatenate.dims (h : IsSubConcatenate g dimension operands color sub)
    (hfits : FitsOperands dimension i operands) : ∃ front rest,
      inputsOf operands color = front :: rest ∧ sub.shape.isTuple = false ∧
        sub.shape.dimensions = i.shape.dimensions.set dimension
          ((rest.length + 1) * sizeAlong dimension front) := by
  obtain ⟨front, rest, hinputs, harray, hdims⟩ := subShape_eq_ok h.shape
  refine ⟨front, rest, hinputs, harray, ?_⟩
  have hfront : front ∈ operands := by
    have hmem : front ∈ inputsOf operands color := hinputs ▸ List.mem_cons_self ..
    exact (mem_inputsOf.mp hmem).1
  have hagree := hfits.fits.agree _ (List.mem_map_of_mem hfront)
  rw [hdims, hagree, List.set_set]

/-- A sub-concatenate has the shape of its operands put together when the sizes add up. -/
theorem IsSubConcatenate.fits_iff (h : IsSubConcatenate g dimension operands color sub)
    (hfits : FitsOperands dimension i operands) {front : HloInstruction}
    {rest : List HloInstruction} (hinputs : inputsOf operands color = front :: rest) :
    FitsOperands dimension sub (inputsOf operands color) ↔
      (rest.map (sizeAlong dimension)).sum = rest.length * sizeAlong dimension front := by
  obtain ⟨front', rest', hinputs', harray, hdims⟩ := h.dims hfits
  obtain ⟨rfl, rfl⟩ := List.cons.inj (hinputs.symm.trans hinputs')
  have hlt : dimension < i.shape.dimensions.length := hfits.fits.axis_lt
  have hsize : sub.shape.dimensions.getD dimension 0 =
      (rest.length + 1) * sizeAlong dimension front := by
    rw [hdims, List.getD_eq_getElem _ _ (by simpa using hlt), List.getElem_set_self]
  have hsum : ((inputsOf operands color).map fun o => o.shape.dimensions.getD dimension 0).sum =
      sizeAlong dimension front + (rest.map (sizeAlong dimension)).sum := by
    rw [hinputs, List.map_cons, List.sum_cons]
    rfl
  constructor
  · intro hsub
    have htotal := hsub.fits.size
    rw [List.map_map] at htotal
    have htotal' : (rest.length + 1) * sizeAlong dimension front =
        sizeAlong dimension front + (rest.map (sizeAlong dimension)).sum :=
      hsize.symm.trans (htotal.trans hsum)
    rw [Nat.succ_mul] at htotal'
    omega
  · intro hbalanced
    constructor
    · exact harray
    · intro o ho
      exact hfits.operandsArray o (mem_inputsOf.mp ho).1
    · constructor
      · rw [hdims, List.length_set]
        exact hlt
      · intro d hd
        obtain ⟨o, ho, rfl⟩ := List.mem_map.mp hd
        have hagree := hfits.fits.agree _ (List.mem_map_of_mem (mem_inputsOf.mp ho).1)
        rw [hdims, List.set_set]
        exact hagree
      · rw [hsize, List.map_map]
        refine Eq.trans ?_ hsum.symm
        rw [hbalanced, Nat.succ_mul]
        omega

/-- The sizes of the groups add up to the sizes of all. -/
theorem sum_groups (operands : List HloInstruction) (f : HloInstruction → ℕ) :
    ((colorsOf operands).map fun color => ((inputsOf operands color).map f).sum).sum =
      (operands.map f).sum := by
  have hperm := ((groups_perm colorOrDefault operands).map f).sum_eq
  rw [List.map_flatMap, List.flatMap_def, List.sum_flatten, List.map_map] at hperm
  exact hperm

theorem FitsOperands.congr {operands' : List HloInstruction} (h : FitsOperands dimension i operands)
    (heq : operands'.map HloInstruction.shape = operands.map HloInstruction.shape) :
    FitsOperands dimension i operands' where
  isArray := h.isArray
  operandsArray o ho := by
    have hmem : o.shape ∈ operands.map HloInstruction.shape := heq ▸ List.mem_map_of_mem ho
    obtain ⟨o', ho', hshape⟩ := List.mem_map.mp hmem
    rw [← hshape]
    exact h.operandsArray o' ho'
  fits := by
    have hdims := congrArg (List.map Shape.dimensions) heq
    rw [List.map_map, List.map_map] at hdims
    have hfits := h.fits
    change Fits _ _ (operands.map (Shape.dimensions ∘ HloInstruction.shape)) at hfits
    rwa [← hdims] at hfits

/-- The sub-concatenates together have the shape of the old concatenate. -/
theorem aggregate_fits {subs : List HloInstruction} (hfits : FitsOperands dimension i operands)
    (hsubs : List.Forall₂ (fun color sub => IsSubConcatenate g dimension operands color sub ∧
      FitsOperands dimension sub (inputsOf operands color)) (colorsOf operands) subs)
    (hshape : aggregate.shape = i.shape) : FitsOperands dimension aggregate subs := by
  have hlt := hfits.fits.axis_lt
  have hdims : List.Forall₂ (fun color sub => sub.shape.isTuple = false ∧ sub.shape.dimensions =
      i.shape.dimensions.set dimension
        (((inputsOf operands color).map (sizeAlong dimension)).sum)) (colorsOf operands) subs := by
    apply hsubs.imp
    rintro color sub ⟨hsub, hsubFits⟩
    obtain ⟨front, rest, hinputs, harray, hdims⟩ := hsub.dims hfits
    have hsum := (hsub.fits_iff hfits hinputs).mp hsubFits
    refine ⟨harray, ?_⟩
    rw [hdims, hinputs, List.map_cons, List.sum_cons, hsum, Nat.succ_mul, Nat.add_comm]
  have hmap : subs.map (fun o => o.shape.dimensions) = (colorsOf operands).map fun color =>
      i.shape.dimensions.set dimension (((inputsOf operands color).map (sizeAlong dimension)).sum) := by
    rw [← List.forall₂_eq_eq_eq, List.forall₂_map_left_iff, List.forall₂_map_right_iff]
    exact hdims.flip.imp fun _ _ hsub => hsub.2
  constructor
  · rw [hshape]
    exact hfits.isArray
  · intro o ho
    obtain ⟨color, -, hsub⟩ := exists_of_mem_forall₂ hdims.flip ho
    exact hsub.1
  · rw [hshape, hmap]
    constructor
    · exact hlt
    · intro d hd
      obtain ⟨color, hcolor, rfl⟩ := List.mem_map.mp hd
      rw [List.getD_eq_getElem _ _ (by simpa using hlt), List.getElem_set_self]
    · rw [List.map_map]
      have hsize := hfits.fits.size
      rw [List.map_map] at hsize
      rw [hsize]
      refine (sum_groups operands (sizeAlong dimension)).symm.trans ?_
      congr 1
      apply List.map_congr_left
      intro color _
      change _ = (i.shape.dimensions.set dimension _).getD dimension 0
      rw [List.getD_eq_getElem _ _ (by simpa using hlt), List.getElem_set_self]

end shapes

/-- A reduce of everything to one element. -/
def isFullReduce (i : HloInstruction) : Bool :=
  isReduce i && !i.shape.isTuple && decide (i.shape.dimensions.prod = 1)

section step

variable {g g' : Graph} {i aggregate : HloInstruction} {operands : List HloInstruction} {id : ℕ}

/-- The only user of a concatenate that is grouped is a reduce of everything. -/
theorem isGroupable_eq_ok (h : isGroupable g i = ok true) : isConcatenate i = true ∧
    ∃ user, g.computation.users i.id = [user] ∧ isFullReduce user = true := by
  unfold isGroupable at h
  split at h
  · rename_i hconcatenate
    refine ⟨hconcatenate, ?_⟩
    split at h
    · rename_i user husers
      split at h
      · rename_i hreduce
        obtain ⟨elements, helements, h⟩ := bind_eq_ok.mp h
        refine ⟨user, husers, ?_⟩
        unfold elementsIn at helements
        split at helements
        · rename_i elementType dims hshape
          obtain rfl := ok.inj helements
          have hone : dims.prod = 1 := by simpa using ok.inj h
          simp [isFullReduce, hreduce, hshape, Shape.isTuple, Shape.dimensions, hone]
        · cases helements
      · cases ok.inj h
    · cases ok.inj h
  · cases ok.inj h

theorem isConcatenate_iff : isConcatenate i = true ↔ i.opcode = .other "concatenate" := by
  simp [isConcatenate]

theorem isConcatenate_of_isFullReduce (h : isFullReduce i = true) :
    isConcatenate i = false := by
  unfold isFullReduce isReduce at h
  simp only [Bool.and_eq_true, decide_eq_true_eq] at h
  simp [isConcatenate, h.1.1]

/-- No concatenate reads one that is grouped. -/
theorem notMem_operands_of_isGroupable (hgroupable : isGroupable g i = ok true)
    {j : HloInstruction} (hj : j ∈ g.computation.instructions) (hconcatenate : isConcatenate j = true) :
    i.id ∉ j.operands := by
  obtain ⟨-, user, husers, hreduce⟩ := isGroupable_eq_ok hgroupable
  intro hmem
  have huser : j ∈ g.computation.users i.id := List.mem_filter.mpr ⟨hj, by simpa using hmem⟩
  rw [husers, List.mem_singleton] at huser
  rw [huser, isConcatenate_of_isFullReduce hreduce] at hconcatenate
  cases hconcatenate

theorem getInstruction_of_mem {c : HloComputation} (hids : c.ids.Nodup) {j : HloInstruction}
    (hj : j ∈ c.instructions) : c.getInstruction j.id = ok j :=
  deref_eq_ok.mpr (HloComputation.instruction_of_mem hids hj)

theorem mem_of_getInstruction {c : HloComputation} {j : HloInstruction}
    (h : c.getInstruction id = ok j) : j ∈ c.instructions ∧ j.id = id :=
  ⟨HloComputation.mem_of_instruction (deref_eq_ok.mp h),
    HloComputation.id_of_instruction (deref_eq_ok.mp h)⟩

theorem Wf.exists_operands (hg : Wf g) (hi : i ∈ g.computation.instructions) :
    ∃ operands, i.operands.mapM g.computation.getInstruction = ok operands := by
  apply exists_mapM_eq_ok
  intro o ho
  obtain ⟨j, hj, rfl⟩ := List.mem_map.mp (hg.closed i hi o ho)
  exact ⟨j, getInstruction_of_mem hg.nodup hj⟩

theorem Grouped.getInstruction (h : Grouped g i operands aggregate g') {j : HloInstruction}
    (hne : id ≠ i.id) (hj : g.computation.getInstruction id = ok j) :
    g'.computation.getInstruction id = ok (redirect i.id aggregate.id j) := by
  obtain ⟨hmem, rfl⟩ := mem_of_getInstruction hj
  exact getInstruction_of_mem h.nodup (h.kept j hmem hne)

/-- The operands are the same ones, redirected. -/
theorem Grouped.mapM (h : Grouped g i operands aggregate g') {ids : List ℕ}
    {os : List HloInstruction} (hnot : i.id ∉ ids) (hos : ids.mapM g.computation.getInstruction = ok os) :
    ids.mapM g'.computation.getInstruction = ok (os.map (redirect i.id aggregate.id)) := by
  rw [mapM_eq_ok, List.forall₂_map_right_iff]
  have hrel := mapM_eq_ok.mp hos
  clear hos
  induction hrel with
  | nil => exact .nil
  | cons ho _ ih =>
    rw [List.mem_cons, not_or] at hnot
    exact .cons (h.getInstruction (Ne.symm hnot.1) ho) (ih hnot.2)

theorem map_shape_redirect (old new : ℕ) (os : List HloInstruction) :
    (os.map (redirect old new)).map HloInstruction.shape = os.map HloInstruction.shape := by
  rw [List.map_map]
  rfl

theorem map_id_inputsOf_subset {color : String} :
    (inputsOf operands color).map HloInstruction.id ⊆ operands.map HloInstruction.id := by
  intro o ho
  obtain ⟨j, hj, rfl⟩ := List.mem_map.mp ho
  exact List.mem_map_of_mem (mem_inputsOf.mp hj).1

/-- The inputs of a sub-concatenate are found in the computation before. -/
theorem mapM_inputsOf {c : HloComputation} {color : String} (hids : c.ids.Nodup)
    (hoperands : i.operands.mapM c.getInstruction = ok operands) :
    ((inputsOf operands color).map HloInstruction.id).mapM c.getInstruction =
      ok (inputsOf operands color) := by
  rw [mapM_eq_ok, List.forall₂_map_left_iff, List.forall₂_same]
  intro o ho
  obtain ⟨_, _, hget⟩ := exists_of_mem_mapM hoperands (mem_inputsOf.mp ho).1
  obtain ⟨hmem, -⟩ := mem_of_getInstruction hget
  exact getInstruction_of_mem hids hmem

theorem Grouped.mapM_inputsOf (h : Grouped g i operands aggregate g') (hg : Wf g)
    (hself : i.id ∉ i.operands) (hoperands : i.operands.mapM g.computation.getInstruction = ok operands)
    (color : String) : ((inputsOf operands color).map HloInstruction.id).mapM
      g'.computation.getInstruction =
        ok ((inputsOf operands color).map (redirect i.id aggregate.id)) := by
  apply h.mapM _ (ConcatenateGrouper.mapM_inputsOf hg.nodup hoperands)
  intro hmem
  apply hself
  rw [← map_id_of_mapM hoperands]
  exact map_id_inputsOf_subset hmem

/-- Each sub-concatenate is found among the operands of the aggregate. -/
theorem Grouped.exists_subs (h : Grouped g i operands aggregate g') : ∃ subs,
    aggregate.operands.mapM g'.computation.getInstruction = ok subs ∧
      List.Forall₂ (fun color sub => sub ∈ g'.computation.instructions ∧
        IsSubConcatenate g' (g.dimension i.id) operands color sub) (colorsOf operands) subs := by
  obtain ⟨subs, hsubs⟩ : ∃ subs, aggregate.operands.mapM g'.computation.getInstruction = ok subs := by
    apply exists_mapM_eq_ok
    intro o ho
    obtain ⟨color, -, j, hj, rfl, -⟩ := exists_of_mem_forall₂ h.subs.flip ho
    exact ⟨j, getInstruction_of_mem h.nodup hj⟩
  refine ⟨subs, hsubs, forall₂_comp ?_ h.subs (mapM_eq_ok.mp hsubs)⟩
  rintro color o sub ⟨j, hj, rfl, -, hsub⟩ hget
  rw [getInstruction_of_mem h.nodup hj] at hget
  obtain rfl := ok.inj hget
  exact ⟨hj, hsub⟩

theorem Grouped.closed (h : Grouped g i operands aggregate g') (hg : Wf g)
    (hi : i ∈ g.computation.instructions) (hself : i.id ∉ i.operands) (hoperands : i.operands.mapM g.computation.getInstruction = ok operands) :
    ∀ j ∈ g'.computation.instructions, ∀ o ∈ j.operands, o ∈ g'.computation.ids := by
  have hkept : ∀ o ∈ g.computation.ids, o ≠ i.id → o ∈ g'.computation.ids := by
    intro o ho hne
    obtain ⟨k, hk, rfl⟩ := List.mem_map.mp ho
    exact List.mem_map.mpr ⟨_, h.kept k hk hne, rfl⟩
  intro j hj o ho
  rcases h.only j hj with rfl | ⟨j₀, hj₀, -, rfl⟩ | ⟨color, -, hsub⟩
  · obtain ⟨color, -, k, hk, rfl, -⟩ := exists_of_mem_forall₂ h.subs.flip ho
    exact List.mem_map_of_mem hk
  · obtain ⟨o₀, ho₀, rfl⟩ := List.mem_map.mp ho
    by_cases heq : o₀ = i.id
    · rw [if_pos heq]
      exact List.mem_map_of_mem h.mem
    · rw [if_neg heq]
      exact hkept o₀ (hg.closed j₀ hj₀ o₀ ho₀) heq
  · rw [hsub.operands_eq] at ho
    have hin : o ∈ i.operands := map_id_of_mapM hoperands ▸ map_id_inputsOf_subset ho
    exact hkept o (hg.closed i hi o hin) fun heq => hself (heq ▸ hin)

/-- The shapes are right after the step when the sizes of each colour add up. -/
theorem Grouped.wf_iff (h : Grouped g i operands aggregate g') (hg : Wf g)
    (hi : i ∈ g.computation.instructions) (hgroupable : isGroupable g i = ok true)
    (hoperands : i.operands.mapM g.computation.getInstruction = ok operands) :
    Wf g' ↔ Balanced g i.id := by
  obtain ⟨hconcatenate, -⟩ := isGroupable_eq_ok hgroupable
  have hself : i.id ∉ i.operands :=
    notMem_operands_of_isGroupable hgroupable hi hconcatenate
  have hfits := hg.fits i hi hconcatenate operands hoperands
  obtain ⟨subs, hsubs, hrel⟩ := h.exists_subs
  constructor
  · intro hg' j operands' hj _ hoperands' color front rest hinputs
    rw [getInstruction_of_mem hg.nodup hi] at hj
    obtain rfl := ok.inj hj
    rw [hoperands] at hoperands'
    obtain rfl := ok.inj hoperands'
    have hcolor : color ∈ colorsOf operands := by
      have hmem : front ∈ inputsOf operands color := hinputs ▸ List.mem_cons_self ..
      exact mem_colorsOf.mpr ⟨front, mem_inputsOf.mp hmem⟩
    obtain ⟨sub, -, hmem, hsub⟩ := exists_of_mem_forall₂ hrel hcolor
    have hsubFits := hg'.fits sub hmem (isConcatenate_iff.mpr hsub.opcode) _
      (by rw [hsub.operands_eq]; exact h.mapM_inputsOf hg hself hoperands color)
    rw [hsub.dimension_eq] at hsubFits
    exact (hsub.fits_iff hfits hinputs).mp (hsubFits.congr (map_shape_redirect ..).symm)
  · intro hbalanced
    have hsubFits : ∀ color sub, IsSubConcatenate g' (g.dimension i.id) operands color sub →
        FitsOperands (g.dimension i.id) sub (inputsOf operands color) := by
      intro color sub hsub
      obtain ⟨front, rest, hinputs, -⟩ := hsub.dims hfits
      exact (hsub.fits_iff hfits hinputs).mpr
        (hbalanced i operands (getInstruction_of_mem hg.nodup hi) hgroupable hoperands color front
          rest hinputs)
    constructor
    · exact h.nodup
    · exact h.closed hg hi hself hoperands
    · intro j hj hjconcatenate os hos
      rcases h.only j hj with rfl | ⟨j₀, hj₀, -, rfl⟩ | ⟨color, -, hsub⟩
      · rw [hsubs] at hos
        obtain rfl := ok.inj hos
        rw [h.dimension_eq]
        apply aggregate_fits (g := g') hfits _ h.shape
        apply hrel.imp
        rintro color sub ⟨-, hsub⟩
        exact ⟨hsub, hsubFits color sub hsub⟩
      · have hnot : i.id ∉ j₀.operands :=
          notMem_operands_of_isGroupable hgroupable hj₀ hjconcatenate
        obtain ⟨os₀, hos₀⟩ := hg.exists_operands hj₀
        rw [redirect_eq_self hnot] at hos ⊢
        rw [h.mapM hnot hos₀] at hos
        obtain rfl := ok.inj hos
        rw [h.dimension_kept _ (List.mem_map_of_mem hj₀)]
        exact (hg.fits j₀ hj₀ hjconcatenate os₀ hos₀).congr (map_shape_redirect ..)
      · rw [hsub.operands_eq, h.mapM_inputsOf hg hself hoperands color] at hos
        obtain rfl := ok.inj hos
        rw [hsub.dimension_eq]
        exact (hsubFits color j hsub).congr (map_shape_redirect ..)

end step

end ConcatenateGrouper
end MultiMeshJax
