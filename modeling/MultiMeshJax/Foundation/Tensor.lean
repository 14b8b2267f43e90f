import Mathlib

/-! Arrays by shape and entries, their windows along an axis, and their concatenation. -/
namespace MultiMeshJax

structure Tensor (α : Type) where
  shape : List ℕ
  get : List ℕ → α

namespace Tensor

variable {α : Type}

/-- A multi-index of the shape. -/
def InRange (shape idx : List ℕ) : Prop := List.Forall₂ (fun i d => i < d) idx shape

/-- `part` holds `size` entries of `whole` along the axis, from `offset` on. -/
structure IsWindow (axis offset size : ℕ) (whole part : Tensor α) : Prop where
  shape : part.shape = whole.shape.set axis size
  get : ∀ idx, InRange part.shape idx → part.get idx = whole.get (idx.modify axis (· + offset))

/-- `whole` is the concatenation of `front` and `back` along the axis. -/
def IsConcat (axis : ℕ) (whole front back : Tensor α) : Prop :=
  ∃ a b, whole.shape[axis]? = some (a + b) ∧ IsWindow axis 0 a whole front ∧
    IsWindow axis a b whole back

/-- The first entries along the axis. -/
def take (axis size : ℕ) (x : Tensor α) : Tensor α := { x with shape := x.shape.set axis size }

theorem modify_add_zero (axis : ℕ) (idx : List ℕ) : idx.modify axis (· + 0) = idx :=
  List.modify_id axis idx

theorem take_isWindow (axis size : ℕ) (x : Tensor α) : IsWindow axis 0 size x (x.take axis size) :=
  ⟨rfl, fun idx _ => by rw [modify_add_zero]; rfl⟩

/-- A window of no entries has none to agree on. -/
theorem isWindow_zero {axis offset : ℕ} {whole part : Tensor α} (haxis : axis < whole.shape.length)
    (hshape : part.shape = whole.shape.set axis 0) : IsWindow axis offset 0 whole part := by
  refine ⟨hshape, fun idx hidx => ?_⟩
  rw [hshape] at hidx
  have hlen := hidx.length_eq
  have hlt := hidx.get (i := axis) (by simp [hlen, haxis]) (by simpa using haxis)
  simp at hlt

/-- A window that follows the first entries extends them. -/
theorem isConcat_take {axis a b : ℕ} {x part : Tensor α} (haxis : axis < x.shape.length)
    (h : IsWindow axis a b x part) :
    IsConcat axis (x.take axis (a + b)) (x.take axis a) part := by
  refine ⟨a, b, by simp [take, haxis], ⟨by simp [take], ?_⟩, ⟨by simp [take, h.shape], h.get⟩⟩
  intro idx _
  rw [modify_add_zero]
  rfl

/-- A tensor is the concatenation of no entries and itself. -/
theorem isConcat_self {axis offset size : ℕ} {x part : Tensor α} (haxis : axis < x.shape.length)
    (h : IsWindow axis offset size x part) : IsConcat axis part (x.take axis 0) part := by
  have hpart : axis < part.shape.length := by simpa [h.shape] using haxis
  refine ⟨0, size, by simp [h.shape, haxis], ?_, ⟨by simp [h.shape], ?_⟩⟩
  · exact isWindow_zero hpart (by simp [take, h.shape])
  · intro idx _
    rw [modify_add_zero]

theorem take_eq_self {axis size : ℕ} {x : Tensor α} (h : x.shape[axis]? = some size) :
    x.take axis size = x := by
  obtain ⟨hlt, rfl⟩ := List.getElem?_eq_some_iff.mp h
  simp [take]

end Tensor

end MultiMeshJax
