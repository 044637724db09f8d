import Mathlib.Data.Nat.Bitwise

/-! Unsigned 64-bit words as numbers.

An operation on words is one on numbers as long as its result fits. Shifts are
divisions and multiplications by powers of two, and a mask of low bits is a
remainder. Words that do not overlap are joined by a sum.
-/

set_option autoImplicit false

namespace BitcoinWasm.Numbers

theorem toNat_add_of_lt {a b : UInt64} (fits : a.toNat + b.toNat < 2 ^ 64) : (a + b).toNat = a.toNat + b.toNat := by
  rw [UInt64.toNat_add, Nat.mod_eq_of_lt fits]

theorem toNat_mul_of_lt {a b : UInt64} (fits : a.toNat * b.toNat < 2 ^ 64) : (a * b).toNat = a.toNat * b.toNat := by
  rw [UInt64.toNat_mul, Nat.mod_eq_of_lt fits]

theorem toNat_sub_of_le {a b : UInt64} (le : b.toNat ≤ a.toNat) : (a - b).toNat = a.toNat - b.toNat := by
  rw [UInt64.toNat_sub_of_le]
  exact UInt64.le_iff_toNat_le.mpr le

theorem toNat_ofNat_of_lt {n : Nat} (fits : n < 2 ^ 64) : (UInt64.ofNat n).toNat = n := by
  rw [UInt64.toNat_ofNat', Nat.mod_eq_of_lt fits]

theorem toNat_shiftRight (a : UInt64) {k : Nat} (small : k < 64) : (a >>> UInt64.ofNat k).toNat = a.toNat / 2 ^ k := by
  rw [UInt64.toNat_shiftRight, toNat_ofNat_of_lt (by omega), Nat.mod_eq_of_lt small, Nat.shiftRight_eq_div_pow]

theorem toNat_shiftLeft (a : UInt64) {k : Nat} (small : k < 64) :
    (a <<< UInt64.ofNat k).toNat = a.toNat * 2 ^ k % 2 ^ 64 := by
  rw [UInt64.toNat_shiftLeft, toNat_ofNat_of_lt (by omega), Nat.mod_eq_of_lt small, Nat.shiftLeft_eq]

/-- What is shifted out is lost. -/
theorem toNat_shiftLeft_mod (a : UInt64) {k : Nat} (small : k < 64) :
    (a <<< UInt64.ofNat k).toNat = a.toNat % 2 ^ (64 - k) * 2 ^ k := by
  have whole : 2 ^ 64 = 2 ^ (64 - k) * 2 ^ k := by
    rw [← Nat.pow_add, Nat.sub_add_cancel (by omega)]
  rw [toNat_shiftLeft a small, whole, Nat.mul_mod_mul_right]

/-- The low `k` bits. -/
theorem toNat_and_mask (a : UInt64) {mask : UInt64} {k : Nat} (ones : mask.toNat = 2 ^ k - 1) :
    (a &&& mask).toNat = a.toNat % 2 ^ k := by
  rw [UInt64.toNat_and, ones, Nat.and_two_pow_sub_one_eq_mod]

/-- A word below the lowest bit of another one is joined to it by a sum. -/
theorem toNat_or_of_lt {low high : UInt64} {k n : Nat} (below : low.toNat < 2 ^ k) (above : high.toNat = n * 2 ^ k) :
    (low ||| high).toNat = low.toNat + high.toNat := by
  rw [UInt64.toNat_or, above, Nat.or_comm, Nat.mul_comm, ← Nat.two_pow_add_eq_or_of_lt below n, Nat.add_comm]

/-- A shift to the left is a product. -/
theorem shiftLeft_eq_mul (a : UInt64) {k : Nat} (small : k < 64) : a <<< UInt64.ofNat k = a * UInt64.ofNat (2 ^ k) := by
  apply UInt64.toNat_inj.mp
  have power : 2 ^ k < 2 ^ 64 := Nat.pow_lt_pow_right (by decide) small
  rw [toNat_shiftLeft a small, UInt64.toNat_mul, toNat_ofNat_of_lt power]

/-- A shift to the right that drops zeros is undone by a product. -/
theorem shiftRight_mul (a : UInt64) {k : Nat} (small : k < 64) (zeros : 2 ^ k ∣ a.toNat) :
    (a >>> UInt64.ofNat k) * UInt64.ofNat (2 ^ k) = a := by
  apply UInt64.toNat_inj.mp
  have power : 2 ^ k < 2 ^ 64 := Nat.pow_lt_pow_right (by decide) small
  rw [UInt64.toNat_mul, toNat_shiftRight a small, toNat_ofNat_of_lt power, Nat.div_mul_cancel zeros,
    Nat.mod_eq_of_lt a.toNat_lt]

end BitcoinWasm.Numbers
