import Mathlib.Data.Int.ModEq
import Mathlib.Data.Nat.Bitwise
import Mathlib.Tactic.NormNum

/-!
# `size_t` and `intptr_t`

The queues count their operations in `size_t` variables that wrap at `2 ^ 64`, and
compare two counters by the sign of a difference in `intptr_t`.  A `size_t` is a
natural number kept below `sizeT` by the operations that produce it.
-/

namespace ThreadUtils

/-- The number of values of a `size_t`. -/
def sizeT : ℕ := 2 ^ 64

theorem sizeT_eq : sizeT = 18446744073709551616 := by
  norm_num [sizeT]

/-- Addition of `size_t` values. -/
def addSizeT (a b : ℕ) : ℕ := (a + b) % sizeT

theorem addSizeT_of_lt {a b : ℕ} (h : a + b < sizeT) : addSizeT a b = a + b :=
  Nat.mod_eq_of_lt h

/-- Subtraction of `size_t` values. -/
def subSizeT (a b : ℕ) : ℕ := (a + sizeT - b) % sizeT

theorem subSizeT_of_le {a b : ℕ} (hle : b ≤ a) (ha : a < sizeT) : subSizeT a b = a - b := by
  rw [subSizeT, show a + sizeT - b = a - b + sizeT by omega, Nat.add_mod_right,
    Nat.mod_eq_of_lt (by omega)]

/-- `(intptr_t)a - (intptr_t)b`: the signed reading of the difference of two
`size_t` values in two's complement.  The casts of two counters on either side of `2 ^ 63` are far
apart, and their subtraction overflows, which is undefined; here it wraps.  The counters of the ring
get there after `2 ^ 63` tickets. -/
def intptrDiff (a b : ℕ) : ℤ := Int.bmod ((a : ℤ) - b) sizeT

/-- The difference is zero exactly when the two counters agree. -/
theorem intptrDiff_eq_zero_iff {a b : ℕ} (ha : a < sizeT) (hb : b < sizeT) :
    intptrDiff a b = 0 ↔ a = b := by
  rw [sizeT_eq] at ha hb
  rw [intptrDiff, Int.bmod_def, sizeT_eq]
  constructor
  · intro h
    split at h <;> omega
  · rintro rfl
    simp

/-- The difference is negative only when the first counter is behind, unless it is half the
range ahead. -/
theorem lt_of_intptrDiff_neg {a b : ℕ} (hlt : a < b + 2 ^ 63) (hneg : intptrDiff a b < 0) :
    a < b := by
  by_contra hle
  have hdiff : intptrDiff a b = (a : ℤ) - b := by
    unfold intptrDiff
    refine Int.bmod_eq_of_le ?_ ?_
    · rw [sizeT_eq]
      omega
    · rw [sizeT_eq]
      omega
  omega

end ThreadUtils
