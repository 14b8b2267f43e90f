import MultiMeshJax.ConcatenateGrouper.Pass

/-! What the grouping of the operands of one concatenate makes of the computation. -/
namespace MultiMeshJax
namespace ConcatenateGrouper

open StatusOr

/-- The concatenate of the operands of one colour. -/
structure IsSubConcatenate (g : Graph) (dimension : ℕ) (operands : List HloInstruction)
    (color : String) (sub : HloInstruction) : Prop where
  opcode : sub.opcode = .other "concatenate"
  operands_eq : sub.operands = (inputsOf operands color).map HloInstruction.id
  shape : subShape dimension (inputsOf operands color) = ok sub.shape
  dimension_eq : g.dimension sub.id = dimension

/-- The sub-concatenates of some colours have been added. -/
structure Added (g₀ : Graph) (dimension : ℕ) (operands : List HloInstruction) (colors : List String)
    (acc : Graph × List ℕ) : Prop where
  nodup : acc.1.computation.ids.Nodup
  root : acc.1.computation.root = g₀.computation.root
  kept : ∀ j ∈ g₀.computation.instructions, j ∈ acc.1.computation.instructions
  dimension_kept : ∀ id ∈ g₀.computation.ids, acc.1.dimension id = g₀.dimension id
  subs : List.Forall₂ (fun color sub => ∃ j ∈ acc.1.computation.instructions, j.id = sub ∧
    sub ∉ g₀.computation.ids ∧ IsSubConcatenate acc.1 dimension operands color j) colors acc.2
  only : ∀ j ∈ acc.1.computation.instructions, j ∈ g₀.computation.instructions ∨
    j.id ∉ g₀.computation.ids ∧
      ∃ color ∈ colors, IsSubConcatenate acc.1 dimension operands color j

/-- The uses of the old concatenate become uses of the aggregate. -/
def redirect (old aggregate : ℕ) (j : HloInstruction) : HloInstruction :=
  { j with operands := j.operands.map fun o => if o = old then aggregate else o }

/-- The operands of a concatenate have been grouped. -/
structure Grouped (g : Graph) (i : HloInstruction) (operands : List HloInstruction)
    (aggregate : HloInstruction) (g' : Graph) : Prop where
  nodup : g'.computation.ids.Nodup
  fresh : aggregate.id ∉ g.computation.ids
  kept : ∀ j ∈ g.computation.instructions, j.id ≠ i.id →
    redirect i.id aggregate.id j ∈ g'.computation.instructions
  dimension_kept : ∀ id ∈ g.computation.ids, g'.dimension id = g.dimension id
  mem : aggregate ∈ g'.computation.instructions
  opcode : aggregate.opcode = .other "concatenate"
  shape : aggregate.shape = i.shape
  dimension_eq : g'.dimension aggregate.id = g.dimension i.id
  subs : List.Forall₂ (fun color sub => ∃ j ∈ g'.computation.instructions, j.id = sub ∧
    sub ∉ g.computation.ids ∧ IsSubConcatenate g' (g.dimension i.id) operands color j)
      (colorsOf operands) aggregate.operands
  only : ∀ j ∈ g'.computation.instructions, j = aggregate ∨
    (∃ j₀ ∈ g.computation.instructions, j₀.id ≠ i.id ∧ j = redirect i.id aggregate.id j₀) ∨
      ∃ color ∈ colorsOf operands, IsSubConcatenate g' (g.dimension i.id) operands color j

section adding

variable {g g₀ g' : Graph} {dimension dimension' : ℕ} {operands : List HloInstruction}
  {color : String} {colors : List String} {acc acc' : Graph × List ℕ} {shape : Shape}
  {ids : List ℕ} {c : Option String} {j : HloInstruction}

theorem mem_addConcatenate : j ∈ (g.addConcatenate shape ids dimension c).computation.instructions ↔
    j ∈ g.computation.instructions ∨
      j = { id := g.computation.freshId, opcode := .other "concatenate", operands := ids,
            shape := shape, color := c } := by
  simp [Graph.addConcatenate, HloComputation.addInstruction]

theorem nodup_addConcatenate (h : g.computation.ids.Nodup) :
    (g.addConcatenate shape ids dimension c).computation.ids.Nodup :=
  HloComputation.ids_addInstruction_nodup _ h

theorem dimension_addConcatenate {id : ℕ} (h : id ∈ g.computation.ids) :
    (g.addConcatenate shape ids dimension c).dimension id = g.dimension id := by
  apply Function.update_of_ne
  exact (HloComputation.lt_freshId h).ne

theorem dimension_addConcatenate_fresh :
    (g.addConcatenate shape ids dimension c).dimension g.computation.freshId = dimension :=
  Function.update_self ..

/-- What another instruction is does not change. -/
theorem IsSubConcatenate.congr (h : IsSubConcatenate g dimension operands color j)
    (heq : g'.dimension j.id = g.dimension j.id) :
    IsSubConcatenate g' dimension operands color j where
  opcode := h.opcode
  operands_eq := h.operands_eq
  shape := h.shape
  dimension_eq := heq.trans h.dimension_eq

theorem Added.start (h : g.computation.ids.Nodup) : Added g dimension operands [] (g, []) where
  nodup := h
  root := rfl
  kept _ hj := hj
  dimension_kept _ _ := rfl
  subs := .nil
  only _ hj := .inl hj

theorem Added.step (h : Added g₀ dimension operands colors acc)
    (hrun : addSubConcatenate dimension operands acc color = ok acc') :
    Added g₀ dimension operands (colors ++ [color]) acc' := by
  obtain ⟨shape, hshape, hrun⟩ := bind_eq_ok.mp hrun
  obtain rfl := ok.inj hrun
  have hids : ∀ id ∈ g₀.computation.ids, id ∈ acc.1.computation.ids := by
    intro id hid
    obtain ⟨j, hj, rfl⟩ := List.mem_map.mp hid
    exact List.mem_map_of_mem (h.kept j hj)
  have hfresh : acc.1.computation.freshId ∉ g₀.computation.ids := fun hmem =>
    HloComputation.freshId_notMem (hids _ hmem)
  have hsame : ∀ j ∈ acc.1.computation.instructions, ∀ color',
      IsSubConcatenate acc.1 dimension operands color' j →
        IsSubConcatenate (acc.1.addConcatenate shape ((inputsOf operands color).map
          HloInstruction.id) dimension (some color)) dimension operands color' j := by
    intro j hj color' hsub
    exact hsub.congr (dimension_addConcatenate (List.mem_map_of_mem hj))
  constructor
  · exact nodup_addConcatenate h.nodup
  · exact h.root
  · intro j hj
    exact mem_addConcatenate.mpr (.inl (h.kept j hj))
  · intro id hid
    rw [← h.dimension_kept id hid]
    exact dimension_addConcatenate (hids id hid)
  · apply List.rel_append
    · apply h.subs.imp
      rintro color' sub ⟨j, hj, hid, hnot, hsub⟩
      exact ⟨j, mem_addConcatenate.mpr (.inl hj), hid, hnot, hsame j hj color' hsub⟩
    · apply List.Forall₂.cons _ .nil
      exact ⟨_, mem_addConcatenate.mpr (.inr rfl), rfl, hfresh,
        ⟨rfl, rfl, hshape, dimension_addConcatenate_fresh⟩⟩
  · intro j hj
    rcases mem_addConcatenate.mp hj with hold | rfl
    · rcases h.only j hold with hin | ⟨hnot, color', hcolor, hsub⟩
      · exact .inl hin
      · exact .inr ⟨hnot, color', List.mem_append_left _ hcolor, hsame j hold color' hsub⟩
    · exact .inr ⟨hfresh, color, List.mem_append_right _ (List.mem_singleton_self color),
        ⟨rfl, rfl, hshape, dimension_addConcatenate_fresh⟩⟩

theorem Added.run (h : g.computation.ids.Nodup)
    (hrun : colors.foldlM (addSubConcatenate dimension operands) (g, []) = ok acc) :
    Added g dimension operands colors acc := by
  apply foldlM_prefix (fun done acc => Added g dimension operands done acc) hrun (Added.start h)
  intro done color _ acc acc' hadded hstep
  exact hadded.step hstep

end adding

section grouping

variable {g g' : Graph} {i : HloInstruction} {operands : List HloInstruction}

theorem mem_inputsOf {color : String} {o : HloInstruction} :
    o ∈ inputsOf operands color ↔ o ∈ operands ∧ colorOrDefault o = color := by
  simp [inputsOf]

theorem mem_colorsOf {color : String} :
    color ∈ colorsOf operands ↔ ∃ o ∈ operands, colorOrDefault o = color := by
  rw [colorsOf, mem_firstKeys, List.mem_map]

theorem map_id_of_mapM {c : HloComputation} {ids : List ℕ}
    (h : ids.mapM c.getInstruction = ok operands) : operands.map HloInstruction.id = ids := by
  induction mapM_eq_ok.mp h with
  | nil => rfl
  | cons hi hrest ih =>
    rw [List.map_cons, ih (mapM_eq_ok.mpr hrest),
      HloComputation.id_of_instruction (deref_eq_ok.mp hi)]

theorem redirect_eq_self {old aggregate : ℕ} {j : HloInstruction} (h : old ∉ j.operands) :
    redirect old aggregate j = j := by
  have hmap : (j.operands.map fun o => if o = old then aggregate else o) = j.operands := by
    nth_rewrite 2 [← List.map_id j.operands]
    apply List.map_congr_left
    intro o ho
    apply if_neg
    rintro rfl
    exact h ho
  rw [redirect, hmap]

theorem mem_removed {c c' : HloComputation} {j : HloInstruction} {new : ℕ}
    (h : (c.replaceUses i.id new).tryRemoveInstruction i = ok c') : j ∈ c'.instructions ↔
      j.id ≠ i.id ∧ ∃ k ∈ c.instructions, j = if k.id = new then k else redirect i.id new k := by
  obtain ⟨-, rfl⟩ := HloComputation.tryRemoveInstruction_eq_ok.mp h
  rw [HloComputation.mem_removeInstruction, and_comm]
  apply and_congr_right
  intro _
  change j ∈ c.instructions.map _ ↔ _
  rw [List.mem_map]
  apply exists_congr
  intro k
  apply and_congr_right
  intro _
  exact eq_comm

theorem nodup_removed {c c' : HloComputation} {new : ℕ} (hids : c.ids.Nodup)
    (h : (c.replaceUses i.id new).tryRemoveInstruction i = ok c') : c'.ids.Nodup := by
  obtain ⟨-, rfl⟩ := HloComputation.tryRemoveInstruction_eq_ok.mp h
  have hreplaced : (c.replaceUses i.id new).ids.Nodup := by
    change (c.replaceAllUsesWith i.id new).ids.Nodup
    rwa [HloComputation.ids_replaceAllUsesWith]
  exact hreplaced.sublist (List.filter_sublist.map _)

/-- The old concatenate is not among its operands, so the sub-concatenates are not redirected. -/
theorem groupOperands_grouped (hids : g.computation.ids.Nodup) (hi : i ∈ g.computation.instructions)
    (hself : i.id ∉ i.operands) (hoperands : i.operands.mapM g.computation.getInstruction = ok operands)
    (h : groupOperands g i = ok g') : ∃ aggregate, Grouped g i operands aggregate g' := by
  unfold groupOperands at h
  rw [hoperands, ok_bind] at h
  obtain ⟨⟨subs, subConcatenates⟩, hsubs, h⟩ := bind_eq_ok.mp h
  obtain ⟨c, hremove, h⟩ := bind_eq_ok.mp h
  obtain rfl := ok.inj h
  have hadded := Added.run hids hsubs
  have hkeptIds : ∀ id ∈ g.computation.ids, id ∈ subs.computation.ids := by
    intro id hid
    obtain ⟨j, hj, rfl⟩ := List.mem_map.mp hid
    exact List.mem_map_of_mem (hadded.kept j hj)
  have hdimension : ∀ id ∈ subs.computation.ids, (subs.addConcatenate i.shape subConcatenates
      (g.dimension i.id) i.color).dimension id = subs.dimension id := fun _ hid =>
    dimension_addConcatenate hid
  have hmemId : i.id ∈ g.computation.ids := List.mem_map_of_mem hi
  have hne : ∀ j ∈ subs.computation.instructions, j.id ≠ subs.computation.freshId := fun j hj =>
    (HloComputation.lt_freshId (List.mem_map_of_mem hj)).ne
  have hsubKept : ∀ color j, IsSubConcatenate subs (g.dimension i.id) operands color j →
      redirect i.id subs.computation.freshId j = j := by
    intro color j hsub
    apply redirect_eq_self
    rw [hsub.operands_eq]
    intro hin
    obtain ⟨o, ho, hid⟩ := List.mem_map.mp hin
    apply hself
    rw [← map_id_of_mapM hoperands, ← hid]
    exact List.mem_map_of_mem (mem_inputsOf.mp ho).1
  have hsubNew : ∀ color, ∀ j ∈ subs.computation.instructions, j.id ∉ g.computation.ids →
      IsSubConcatenate subs (g.dimension i.id) operands color j →
        j ∈ c.instructions ∧ IsSubConcatenate ({ subs.addConcatenate i.shape subConcatenates
          (g.dimension i.id) i.color with computation := c }) (g.dimension i.id) operands color j := by
    intro color j hj hnot hsub
    constructor
    · apply (mem_removed hremove).mpr
      refine ⟨fun heq => hnot (heq ▸ hmemId), j, mem_addConcatenate.mpr (.inl hj), ?_⟩
      rw [if_neg (hne j hj), hsubKept color j hsub]
    · exact hsub.congr (hdimension j.id (List.mem_map_of_mem hj))
  refine ⟨{ id := subs.computation.freshId, opcode := .other "concatenate",
            operands := subConcatenates, shape := i.shape, color := i.color }, ?_⟩
  constructor
  · exact nodup_removed (nodup_addConcatenate hadded.nodup) hremove
  · exact fun hmem => HloComputation.freshId_notMem (hkeptIds _ hmem)
  · intro j hj hneq
    have hin := hadded.kept j hj
    apply (mem_removed hremove).mpr
    refine ⟨hneq, j, mem_addConcatenate.mpr (.inl hin), ?_⟩
    rw [if_neg (hne j hin)]
  · intro id hid
    rw [← hadded.dimension_kept id hid]
    exact hdimension id (hkeptIds id hid)
  · apply (mem_removed hremove).mpr
    refine ⟨?_, _, mem_addConcatenate.mpr (.inr rfl), ?_⟩
    · exact (HloComputation.lt_freshId (hkeptIds _ hmemId)).ne'
    · rw [if_pos rfl]
  · rfl
  · rfl
  · exact Function.update_self ..
  · apply hadded.subs.imp
    rintro color sub ⟨j, hj, rfl, hnot, hsub⟩
    obtain ⟨hin, hsub'⟩ := hsubNew color j hj hnot hsub
    exact ⟨j, hin, rfl, hnot, hsub'⟩
  · intro j hj
    obtain ⟨hneq, k, hk, rfl⟩ := (mem_removed hremove).mp hj
    rcases mem_addConcatenate.mp hk with hold | rfl
    · rw [if_neg (hne k hold)] at hneq ⊢
      rcases hadded.only k hold with hin | ⟨hnot, color, hcolor, hsub⟩
      · exact .inr (.inl ⟨k, hin, hneq, rfl⟩)
      · obtain ⟨-, hsub'⟩ := hsubNew color k hold hnot hsub
        rw [hsubKept color k hsub]
        exact .inr (.inr ⟨color, hcolor, hsub'⟩)
    · rw [if_pos rfl]
      exact .inl rfl

end grouping

end ConcatenateGrouper
end MultiMeshJax
