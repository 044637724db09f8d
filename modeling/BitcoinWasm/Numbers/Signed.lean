import Mathlib
import BitcoinWasm.Numbers.Word

/-! Signed machine integers as numbers.

A signed operation whose result does not fit has no meaning, so it has no result here
either. Conversions are in two's complement, and a shift to the right extends the sign.
Between a signed number and an unsigned word only the low bits are the same.
-/

set_option autoImplicit false

namespace BitcoinWasm.Numbers

/-- The result of a signed operation on `bits` bits. -/
def checked (bits : ℕ) (x : ℤ) : Option ℤ :=
  if -2 ^ (bits - 1) ≤ x ∧ x < 2 ^ (bits - 1) then some x else none

def int64 (x : ℤ) : Option ℤ := checked 64 x

def int128 (x : ℤ) : Option ℤ := checked 128 x

/-- The conversion to `int64_t`. -/
def toInt64 (x : ℤ) : ℤ := Int.bmod x (2 ^ 64)

/-- `x >> n`. -/
def shr (x : ℤ) (n : ℕ) : ℤ := x >>> n

theorem checked_eq {bits : ℕ} {x : ℤ} (fits : |x| < 2 ^ (bits - 1)) : checked bits x = some x := by
  obtain ⟨low, high⟩ := abs_lt.mp fits
  rw [checked, if_pos ⟨low.le, high⟩]

theorem int64_eq {x : ℤ} (fits : |x| < 2 ^ 63) : int64 x = some x := checked_eq fits

theorem int128_eq {x : ℤ} (fits : |x| < 2 ^ 127) : int128 x = some x := checked_eq fits

theorem toInt64_eq {x : ℤ} (fits : |x| < 2 ^ 63) : toInt64 x = x := by
  obtain ⟨low, high⟩ := abs_lt.mp fits
  rw [toInt64]
  exact Int.bmod_eq_of_le (by norm_num; omega) (by norm_num; omega)

theorem shr_eq (x : ℤ) (n : ℕ) : shr x n = x / 2 ^ n := by
  rw [shr, Int.shiftRight_eq_div_pow, Nat.cast_pow, Nat.cast_ofNat]

/-- The sign as a mask. -/
theorem shr_sign {x : ℤ} (fits : |x| < 2 ^ 63) : shr x 63 = if x < 0 then -1 else 0 := by
  obtain ⟨low, high⟩ := abs_lt.mp fits
  rw [shr_eq]
  split_ifs <;> omega

theorem abs_shr_le {x : ℤ} {m n : ℕ} (bound : |x| ≤ 2 ^ (m + n)) : |shr x n| ≤ 2 ^ m := by
  have positive : (0 : ℤ) < 2 ^ n := by positivity
  obtain ⟨low, high⟩ := abs_le.mp bound
  rw [shr_eq, abs_le]
  constructor
  · rw [Int.le_ediv_iff_mul_le positive, neg_mul, ← pow_add]
    exact low
  · exact Int.ediv_le_of_le_mul positive (by rwa [← pow_add])

/-! ## Masks -/

theorem land_neg_one (x : ℤ) : Int.land x (-1) = x := by
  cases x with
  | ofNat n =>
    change ((Nat.ldiff n 0 : ℕ) : ℤ) = (n : ℤ)
    rw [Nat.cast_inj]
    exact Nat.eq_of_testBit_eq fun i => by simp [Nat.testBit_ldiff]
  | negSucc n =>
    change Int.negSucc (n ||| 0) = _
    rw [Nat.or_zero]

theorem land_zero (x : ℤ) : Int.land x 0 = 0 := by
  cases x with
  | ofNat n =>
    change ((n &&& 0 : ℕ) : ℤ) = 0
    rw [Nat.and_zero, Nat.cast_zero]
  | negSucc n =>
    change ((Nat.ldiff 0 n : ℕ) : ℤ) = 0
    rw [Nat.cast_eq_zero]
    exact Nat.eq_of_testBit_eq fun i => by simp [Nat.testBit_ldiff]

theorem xor_neg_one (x : ℤ) : Int.xor x (-1) = -x - 1 := by
  cases x with
  | ofNat n =>
    change Int.negSucc (n ^^^ 0) = _
    rw [Nat.xor_zero, Int.ofNat_eq_natCast]
    omega
  | negSucc n =>
    change ((n ^^^ 0 : ℕ) : ℤ) = _
    rw [Nat.xor_zero]
    omega

theorem xor_zero (x : ℤ) : Int.xor x 0 = x := by
  cases x with
  | ofNat n =>
    change ((n ^^^ 0 : ℕ) : ℤ) = _
    rw [Nat.xor_zero, Int.ofNat_eq_natCast]
  | negSucc n =>
    change Int.negSucc (n ^^^ 0) = _
    rw [Nat.xor_zero]

/-- A mask of low bits is a remainder. -/
theorem land_mask (x : ℤ) (k : ℕ) : Int.land x (2 ^ k - 1) = x % 2 ^ k := by
  have ones : (2 : ℤ) ^ k - 1 = ((2 ^ k - 1 : ℕ) : ℤ) := by
    rw [Nat.cast_sub Nat.one_le_two_pow, Nat.cast_pow, Nat.cast_ofNat, Nat.cast_one]
  rw [ones]
  cases x with
  | ofNat n =>
    change ((n &&& (2 ^ k - 1) : ℕ) : ℤ) = _
    rw [Nat.and_two_pow_sub_one_eq_mod, Int.ofNat_eq_natCast, Int.natCast_mod, Nat.cast_pow, Nat.cast_ofNat]
  | negSucc n =>
    change ((Nat.ldiff (2 ^ k - 1) n : ℕ) : ℤ) = _
    have low : n % 2 ^ k < 2 ^ k := Nat.mod_lt _ (by positivity)
    have rest : Nat.ldiff (2 ^ k - 1) n = 2 ^ k - (n % 2 ^ k + 1) := by
      apply Nat.eq_of_testBit_eq
      intro i
      rw [Nat.testBit_two_pow_sub_succ low, Nat.testBit_ldiff, Nat.testBit_two_pow_sub_one, Nat.testBit_mod_two_pow]
      by_cases inside : i < k <;> simp [inside]
    rw [rest, Int.negSucc_emod _ (by positivity), Nat.cast_sub low]
    push_cast
    ring

/-! ## Words -/

theorem natCast_toNat_ofInt (x : ℤ) : ((UInt64.ofInt x).toNat : ℤ) = x % 2 ^ 64 := by
  have low : 0 ≤ x % 2 ^ 64 := Int.emod_nonneg x (by norm_num)
  have high : x % 2 ^ 64 < 2 ^ 64 := Int.emod_lt_of_pos x (by norm_num)
  rw [UInt64.ofInt, toNat_ofNat_of_lt (by omega), Int.toNat_of_nonneg low]

theorem ofInt_natCast (n : ℕ) : UInt64.ofInt n = UInt64.ofNat n := by
  apply UInt64.toNat_inj.mp
  have value := natCast_toNat_ofInt n
  rw [UInt64.toNat_ofNat']
  omega

theorem ofInt_toNat (w : UInt64) : UInt64.ofInt w.toNat = w := by
  apply UInt64.toNat_inj.mp
  have small := w.toNat_lt
  have value := natCast_toNat_ofInt w.toNat
  omega

/-- A number that is converted to `uint64_t` and back. -/
theorem toInt64_ofInt {x : ℤ} (fits : |x| < 2 ^ 63) : toInt64 (UInt64.ofInt x).toNat = x := by
  rw [natCast_toNat_ofInt, toInt64]
  calc (x % 2 ^ 64).bmod (2 ^ 64) = x.bmod (2 ^ 64) := Int.emod_bmod x (2 ^ 64)
    _ = x := toInt64_eq fits

/-- The low `k` bits of a word are those of a number. -/
def Low (k : ℕ) (w : UInt64) (x : ℤ) : Prop := (2 : ℤ) ^ k ∣ w.toNat - x

section
variable {k : ℕ} {v w : UInt64} {x y : ℤ}

theorem low_ofInt (small : k ≤ 64) (x : ℤ) : Low k (UInt64.ofInt x) x := by
  have division := Int.emod_add_mul_ediv x (2 ^ 64)
  have rest : x % 2 ^ 64 - x = 2 ^ 64 * -(x / 2 ^ 64) := by linarith
  rw [Low, natCast_toNat_ofInt, rest]
  exact (pow_dvd_pow 2 small).mul_right _

theorem low_self (k : ℕ) (w : UInt64) : Low k w w.toNat := by
  rw [Low, sub_self]
  exact dvd_zero _

theorem Low.congr (low : Low k w x) (same : (2 : ℤ) ^ k ∣ x - y) : Low k w y := by
  have sum := dvd_add low same
  rwa [sub_add_sub_cancel] at sum

theorem Low.mono {j : ℕ} (low : Low k w x) (fewer : j ≤ k) : Low j w x :=
  (pow_dvd_pow 2 fewer).trans low

theorem Low.add (small : k ≤ 64) (first : Low k v x) (second : Low k w y) : Low k (v + w) (x + y) := by
  have sum : Low k (v + w) (v.toNat + w.toNat) := by
    have converted := low_ofInt small ((v.toNat : ℤ) + w.toNat)
    rwa [UInt64.ofInt_add, ofInt_toNat, ofInt_toNat] at converted
  apply sum.congr
  rw [add_sub_add_comm]
  exact dvd_add first second

theorem Low.mul (small : k ≤ 64) (first : Low k v x) (second : Low k w y) : Low k (v * w) (x * y) := by
  have product : Low k (v * w) (v.toNat * w.toNat) := by
    have converted := low_ofInt small ((v.toNat : ℤ) * w.toNat)
    rwa [UInt64.ofInt_mul, ofInt_toNat, ofInt_toNat] at converted
  apply product.congr
  have rest : (v.toNat : ℤ) * w.toNat - x * y = (v.toNat - x) * w.toNat + x * (w.toNat - y) := by ring
  rw [rest]
  exact dvd_add (first.mul_right _) (second.mul_left _)

theorem Low.neg (small : k ≤ 64) (low : Low k w x) : Low k (-w) (-x) := by
  have negative : Low k (-w) (-w.toNat) := by
    have converted := low_ofInt small (-(w.toNat : ℤ))
    rwa [UInt64.ofInt_neg, ofInt_toNat] at converted
  apply negative.congr
  rw [neg_sub_neg, ← dvd_neg, neg_sub]
  exact low

theorem Low.sub (small : k ≤ 64) (first : Low k v x) (second : Low k w y) : Low k (v - w) (x - y) := by
  rw [UInt64.sub_eq_add_neg, sub_eq_add_neg]
  exact first.add small (second.neg small)

theorem Low.parity (low : Low (k + 1) w x) : (w.toNat : ℤ) % 2 = x % 2 := by
  obtain ⟨n, rest⟩ := low
  rw [pow_succ', mul_assoc] at rest
  omega

/-- A shift to the right that drops zeros. -/
theorem Low.shiftRight {n : ℕ} (small : n < 64) (low : Low (k + n) w (2 ^ n * x)) :
    Low k (w >>> UInt64.ofNat n) x := by
  obtain ⟨m, rest⟩ := low
  have positive : (0 : ℤ) < 2 ^ n := by positivity
  have whole : (w.toNat : ℤ) = 2 ^ n * (x + 2 ^ k * m) := by
    rw [pow_add] at rest
    linear_combination rest
  rw [Low, toNat_shiftRight w small, Int.natCast_ediv, Nat.cast_pow, Nat.cast_ofNat, whole,
    Int.mul_ediv_cancel_left _ positive.ne', add_sub_cancel_left]
  exact dvd_mul_right _ _

end

end BitcoinWasm.Numbers
