import Mathlib.Tactic.Ring
import Mathlib.Data.BitVec

/-! C integer conversions on two's complement hardware: `int` and `uint32_t` are 32 bits wide,
    `uint16_t` is 16. A value of an unsigned type is a natural number, of a signed one an integer;
    a conversion reduces modulo the width. -/

namespace CInt

/-- Conversion to `int`. -/
def toInt32 (x : ℤ) : ℤ := x.bmod (2 ^ 32)

/-- Conversion to `uint32_t`. -/
def toUint32 (x : ℤ) : ℕ := (x % 2 ^ 32).toNat

/-- Conversion to `uint16_t`. -/
def toUint16 (x : ℤ) : ℕ := (x % 2 ^ 16).toNat

theorem toUint32_lt (x : ℤ) : toUint32 x < 2 ^ 32 := by unfold toUint32; omega

theorem toUint16_lt (x : ℤ) : toUint16 x < 2 ^ 16 := by unfold toUint16; omega

/-- A value in the range of `int` is converted to itself. -/
theorem toInt32_of_range {x : ℤ} (lo : -2 ^ 31 ≤ x) (hi : x < 2 ^ 31) : toInt32 x = x :=
  Int.bmod_eq_of_le_mul_two (by push_cast; omega) (by push_cast; omega)

theorem toInt32_eq (x : ℤ) :
    toInt32 x = if x % 2 ^ 32 < 2 ^ 31 then x % 2 ^ 32 else x % 2 ^ 32 - 2 ^ 32 := by
  unfold toInt32
  rw [Int.bmod_def]
  push_cast
  rfl

theorem toInt32_range (x : ℤ) : -2 ^ 31 ≤ toInt32 x ∧ toInt32 x < 2 ^ 31 := by
  rw [toInt32_eq]
  split <;> omega

/-- Converting to `uint32_t` and back gives the `int` of the same bits. -/
theorem toInt32_toUint32 (x : ℤ) : toInt32 (toUint32 x) = toInt32 x := by
  unfold toInt32 toUint32
  rw [Int.toNat_of_nonneg (by omega)]
  exact Int.emod_bmod ..

/-- Two `uint32_t` values with the same `int` conversion are equal. -/
theorem toInt32_inj {a b : ℕ} (ha : a < 2 ^ 32) (hb : b < 2 ^ 32) :
    toInt32 a = toInt32 b ↔ a = b := by
  refine ⟨?_, fun h => by rw [h]⟩
  intro h
  rw [toInt32_eq, toInt32_eq] at h
  split at h <;> split at h <;> omega

/-- A small non-negative `int` keeps its value as a `uint16_t`. -/
theorem toUint16_of_range {x : ℤ} (lo : 0 ≤ x) (hi : x < 2 ^ 16) : (toUint16 x : ℤ) = x := by
  unfold toUint16; omega

end CInt
