import MultiMeshJax.Status

/-! Integers of a width, and the division of C++. -/
namespace MultiMeshJax
namespace StatusOr

/-- A value that the signed integers of a width do not hold would be cut off. -/
def narrow (width : ℕ) (x : ℤ) : StatusOr ℤ :=
  if -2 ^ (width - 1) ≤ x ∧ x < 2 ^ (width - 1) then return x else fatal "integer overflow"

/-- The quotient is cut off towards zero. -/
def divide (x y : ℤ) : StatusOr ℤ :=
  if y = 0 then fatal "division by zero" else return x.tdiv y

def remainder (x y : ℤ) : StatusOr ℤ :=
  if y = 0 then fatal "division by zero" else return x.tmod y

variable {n d : ℕ}

theorem narrow_natCast (h : n < 2 ^ 31) : narrow 32 (n : ℤ) = ok (n : ℤ) := by
  apply if_pos
  constructor
  · have hpos : (0 : ℤ) ≤ n := Int.natCast_nonneg n
    omega
  · exact_mod_cast h

theorem narrow_natCast_wide (h : n < 2 ^ 31) : narrow 64 (n : ℤ) = ok (n : ℤ) := by
  have hlt : (n : ℤ) < 2 ^ 31 := by exact_mod_cast h
  apply if_pos
  constructor
  · have hpos : (0 : ℤ) ≤ n := Int.natCast_nonneg n
    omega
  · omega

theorem divide_natCast (h : 0 < d) : divide (n : ℤ) (d : ℤ) = ok ((n / d : ℕ) : ℤ) := by
  have hne : (d : ℤ) ≠ 0 := by exact_mod_cast h.ne'
  rw [divide, if_neg hne]
  rfl

theorem remainder_natCast (h : 0 < d) : remainder (n : ℤ) (d : ℤ) = ok ((n % d : ℕ) : ℤ) := by
  have hne : (d : ℤ) ≠ 0 := by exact_mod_cast h.ne'
  rw [remainder, if_neg hne]
  rfl

end StatusOr
end MultiMeshJax
