import Ownership.Stop

/-!
# Sizes

Sizes and addresses are natural numbers below `sizeLimit`. `addSize` and
`alignSize` are the sum and the rounding that abort where their result
does not fit.
-/

namespace Ownership

/-- Sizes and addresses are below this number, which takes 65 bits. -/
def sizeLimit : Nat := 0x10000000000000000

/-- No buffer has this many bytes; it is half of `sizeLimit`. -/
def capacityLimit : Nat := 0x8000000000000000

/-- The sum of two sizes. -/
def addSize (a b : Nat) : Except Abort Nat :=
  if a + b < sizeLimit then .ok (a + b) else .error .overflow

/-- The least multiple of `align` at or above `n`. -/
def alignUp (n align : Nat) : Nat := (n + align - 1) / align * align

/-- The same for a power of two: of the 64 bits of a size, those of
`align - 1` are cleared. -/
def maskUp (n align : Nat) : Nat := (n + align - 1) &&& (sizeLimit - 1 - (align - 1))

/-- The size `n` rounded up to a multiple of `align`, a power of two; a
whole `align` must fit behind `n`. -/
def alignSize (n align : Nat) : Except Abort Nat :=
  match addSize n align with
  | .ok _ => .ok (maskUp n align)
  | .error a => .error a

/-! ## Rounding up -/

theorem dvd_alignUp (n align : Nat) : align ∣ alignUp n align := Nat.dvd_mul_left _ _

theorem le_alignUp {align : Nat} (h : 0 < align) (n : Nat) : n ≤ alignUp n align := by
  have h1 := Nat.div_add_mod (n + align - 1) align
  have h2 := Nat.mod_lt (n + align - 1) h
  rw [Nat.mul_comm] at h1
  unfold alignUp
  omega

theorem alignUp_le {n align m : Nat} (h : n ≤ m) (d : align ∣ m) : alignUp n align ≤ m := by
  obtain ⟨k, rfl⟩ := d
  rcases Nat.eq_zero_or_pos align with rfl | pos
  · simp [alignUp]
  · have : (n + align - 1) / align ≤ k := by
      apply Nat.le_of_lt_succ
      rw [Nat.div_lt_iff_lt_mul pos, Nat.succ_mul, Nat.mul_comm k]
      omega
    rw [alignUp, Nat.mul_comm align k]
    exact Nat.mul_le_mul_right _ this

end Ownership
