import BitcoinWasm.Secp256k1.Signed62

/-! What the operations on signed limbs compute.

A number is reduced if all its limbs but the highest are between 0 and `2 ^ 62`, so that
the sign is that of the highest limb. Every update leaves reduced numbers. Its carries
fit, and the checks of a `VERIFY` build pass, because the numbers stay within bounds.
-/

set_option autoImplicit false

namespace BitcoinWasm.Secp256k1

open Numbers

/-- The number that the limbs stand for. -/
def radix62 : List ℤ → ℤ
  | [] => 0
  | x :: limbs => x + 2 ^ 62 * radix62 limbs

def Signed62.value (a : Signed62) : ℤ := radix62 a.limbs

/-- The limbs are in range, and the highest one is far from its bounds. -/
structure Signed62.Small (a : Signed62) : Prop where
  v0 : |a.v0| < 2 ^ 62
  v1 : |a.v1| < 2 ^ 62
  v2 : |a.v2| < 2 ^ 62
  v3 : |a.v3| < 2 ^ 62
  v4 : |a.v4| ≤ 2 ^ 10

structure Signed62.Reduced (a : Signed62) : Prop where
  v0 : 0 ≤ a.v0 ∧ a.v0 < 2 ^ 62
  v1 : 0 ≤ a.v1 ∧ a.v1 < 2 ^ 62
  v2 : 0 ≤ a.v2 ∧ a.v2 < 2 ^ 62
  v3 : 0 ≤ a.v3 ∧ a.v3 < 2 ^ 62

theorem Signed62.value_eq (a : Signed62) :
    a.value = a.v0 + 2 ^ 62 * a.v1 + 2 ^ 124 * a.v2 + 2 ^ 186 * a.v3 + 2 ^ 248 * a.v4 := by
  simp only [Signed62.value, Signed62.limbs, radix62]
  ring

theorem low62_eq (c : ℤ) : low62 c = c % 2 ^ 62 := by
  rw [low62, mask62, land_mask, toInt64]
  have same := Int.bmod_emod (x := c) (m := 2 ^ 64)
  have divides : (2 : ℤ) ^ 62 ∣ ((2 ^ 64 : ℕ) : ℤ) := ⟨4, by norm_num⟩
  rw [← Int.emod_emod_of_dvd _ divides, same, Int.emod_emod_of_dvd _ divides]

/-- The limbs of a sum of columns, from the lowest one on, which is not kept. -/
def carried (x0 x1 x2 x3 x4 : ℤ) : Signed62 :=
  let c1 := x0 / 2 ^ 62 + x1
  let c2 := c1 / 2 ^ 62 + x2
  let c3 := c2 / 2 ^ 62 + x3
  let c4 := c3 / 2 ^ 62 + x4
  ⟨c1 % 2 ^ 62, c2 % 2 ^ 62, c3 % 2 ^ 62, c4 % 2 ^ 62, c4 / 2 ^ 62⟩

theorem carried_reduced (x0 x1 x2 x3 x4 : ℤ) : (carried x0 x1 x2 x3 x4).Reduced := by
  constructor <;> exact ⟨Int.emod_nonneg _ (by norm_num), Int.emod_lt_of_pos _ (by norm_num)⟩

theorem carried_value {x0 x1 x2 x3 x4 : ℤ} (zero : x0 % 2 ^ 62 = 0) :
    2 ^ 62 * (carried x0 x1 x2 x3 x4).value = radix62 [x0, x1, x2, x3, x4] := by
  simp only [carried, Signed62.value_eq, radix62]
  have first := Int.emod_add_mul_ediv x0 (2 ^ 62)
  generalize x0 / 2 ^ 62 = k0 at first ⊢
  have second := Int.emod_add_mul_ediv (k0 + x1) (2 ^ 62)
  generalize (k0 + x1) / 2 ^ 62 = k1 at second ⊢
  have third := Int.emod_add_mul_ediv (k1 + x2) (2 ^ 62)
  generalize (k1 + x2) / 2 ^ 62 = k2 at third ⊢
  have fourth := Int.emod_add_mul_ediv (k2 + x3) (2 ^ 62)
  generalize (k2 + x3) / 2 ^ 62 = k3 at fourth ⊢
  have fifth := Int.emod_add_mul_ediv (k3 + x4) (2 ^ 62)
  rw [zero] at first
  linear_combination first + 2 ^ 62 * second + 2 ^ 124 * third + 2 ^ 186 * fourth + 2 ^ 248 * fifth

section
variable {a : Signed62}

/-- The sign of a reduced number is that of its highest limb. -/
theorem Signed62.Reduced.neg_iff (reduced : a.Reduced) : a.v4 < 0 ↔ a.value < 0 := by
  obtain ⟨⟨l0, h0⟩, ⟨l1, h1⟩, ⟨l2, h2⟩, l3, h3⟩ := reduced
  rw [Signed62.value_eq]
  omega

/-- A bound on a reduced number is one on its highest limb. -/
theorem Signed62.Reduced.small (reduced : a.Reduced) (bound : |a.value| ≤ 2 ^ 257) : a.Small := by
  obtain ⟨low, high⟩ := abs_le.mp bound
  obtain ⟨⟨l0, h0⟩, ⟨l1, h1⟩, ⟨l2, h2⟩, l3, h3⟩ := reduced
  rw [Signed62.value_eq] at low high
  refine ⟨?_, ?_, ?_, ?_, ?_⟩
  · exact abs_lt.mpr (by omega)
  · exact abs_lt.mpr (by omega)
  · exact abs_lt.mpr (by omega)
  · exact abs_lt.mpr (by omega)
  · exact abs_le.mpr (by omega)

end

/-! ## Rows -/

section
variable {u v x y c : ℤ}

/-- A row of the matrix on limbs. -/
theorem row_bound62 {n : ℕ} (total : |u| + |v| ≤ 2 ^ 62) (left : |x| ≤ 2 ^ n) (right : |y| ≤ 2 ^ n) :
    |u * x| ≤ 2 ^ (62 + n) ∧ |v * y| ≤ 2 ^ (62 + n) ∧ |u * x + v * y| ≤ 2 ^ (62 + n) := by
  have first : |u * x| ≤ |u| * 2 ^ n := by
    rw [abs_mul]
    exact mul_le_mul_of_nonneg_left left (abs_nonneg u)
  have second : |v * y| ≤ |v| * 2 ^ n := by
    rw [abs_mul]
    exact mul_le_mul_of_nonneg_left right (abs_nonneg v)
  have both : |u| * 2 ^ n + |v| * 2 ^ n ≤ 2 ^ (62 + n) := by
    rw [← add_mul, pow_add]
    exact mul_le_mul_of_nonneg_right total (by positivity)
  have sum := abs_add_le (u * x) (v * y)
  have u0 := mul_nonneg (abs_nonneg u) (by positivity : (0 : ℤ) ≤ 2 ^ n)
  have v0 := mul_nonneg (abs_nonneg v) (by positivity : (0 : ℤ) ≤ 2 ^ n)
  exact ⟨by linarith, by linarith, by linarith⟩

theorem row_eq (total : |u| + |v| ≤ 2 ^ 62) (left : |x| ≤ 2 ^ 62) (right : |y| ≤ 2 ^ 62) :
    row u v x y = some (u * x + v * y) := by
  obtain ⟨first, second, sum⟩ := row_bound62 total left right
  simp only [row, int128_eq (show |u * x| < 2 ^ 127 by omega), int128_eq (show |v * y| < 2 ^ 127 by omega),
    int128_eq (show |u * x + v * y| < 2 ^ 127 by omega), Option.bind_eq_bind, Option.bind_some]

theorem addRow_eq (total : |u| + |v| ≤ 2 ^ 62) (left : |x| ≤ 2 ^ 62) (right : |y| ≤ 2 ^ 62) (carry : |c| ≤ 2 ^ 126) :
    addRow c u v x y = some (c + (u * x + v * y)) := by
  obtain ⟨-, -, sum⟩ := row_bound62 total left right
  have both := abs_add_le c (u * x + v * y)
  simp only [addRow, row_eq total left right, int128_eq (show |c + (u * x + v * y)| < 2 ^ 127 by omega),
    Option.bind_eq_bind, Option.bind_some]

/-- What is carried out of a column. -/
theorem carry_bound {c x : ℤ} (carry : |c| ≤ 2 ^ 64) (column : |x| ≤ 2 ^ 125 + 2 ^ 124) :
    |c + x| ≤ 2 ^ 126 ∧ |(c + x) / 2 ^ 62| ≤ 2 ^ 64 := by
  have sum := abs_add_le c x
  have bound : |c + x| ≤ 2 ^ (64 + 62) := by norm_num at *; omega
  exact ⟨bound, by rw [← shr_eq]; exact abs_shr_le bound⟩

end

section
variable {u v x : ℤ} {f g : Signed62}

/-- The columns of a row on two numbers. -/
theorem columns_value (u v : ℤ) (f g : Signed62) :
    radix62 [u * f.v0 + v * g.v0, u * f.v1 + v * g.v1, u * f.v2 + v * g.v2, u * f.v3 + v * g.v3, u * f.v4 + v * g.v4] =
      u * f.value + v * g.value := by
  simp only [Signed62.value_eq, radix62]
  ring

/-- The lowest column is zero in the bits that are dropped if the sum is. -/
theorem lowest_zero {x0 : ℤ} {rest : List ℤ} (whole : radix62 (x0 :: rest) = 2 ^ 62 * x) : x0 % 2 ^ 62 = 0 := by
  rw [radix62] at whole
  omega

/-- What is carried out of the highest column fits, as the highest limbs are small. -/
theorem top_fits {c x : ℤ} (carry : |c| ≤ 2 ^ 64) (column : |x| ≤ 2 ^ 74) : |(c + x) / 2 ^ 62| < 2 ^ 63 := by
  have sum := abs_add_le c x
  have bound : |c + x| ≤ 2 ^ (13 + 62) := by norm_num at *; omega
  have small : |(c + x) / 2 ^ 62| ≤ 2 ^ 13 := by
    rw [← shr_eq]
    exact abs_shr_le bound
  exact small.trans_lt (by norm_num)

theorem updateRow62_spec (total : |u| + |v| ≤ 2 ^ 62) (left : f.Small) (right : g.Small)
    (whole : u * f.value + v * g.value = 2 ^ 62 * x) :
    ∃ r, updateRow62 u v f g = some r ∧ r.value = x ∧ r.Reduced := by
  obtain ⟨f0, f1, f2, f3, f4⟩ := left
  obtain ⟨g0, g1, g2, g3, g4⟩ := right
  rw [← columns_value] at whole
  have zero := lowest_zero whole
  obtain ⟨-, -, b0⟩ := row_bound62 total f0.le g0.le
  obtain ⟨-, -, b1⟩ := row_bound62 total f1.le g1.le
  obtain ⟨-, -, b2⟩ := row_bound62 total f2.le g2.le
  obtain ⟨-, -, b3⟩ := row_bound62 total f3.le g3.le
  obtain ⟨-, -, b4⟩ := row_bound62 total f4 g4
  have k0 : |(u * f.v0 + v * g.v0) / 2 ^ 62| ≤ 2 ^ 64 := by
    rw [← shr_eq]
    exact abs_shr_le (b0.trans (by norm_num))
  obtain ⟨-, k1⟩ := carry_bound k0 (b1.trans (by norm_num))
  obtain ⟨-, k2⟩ := carry_bound k1 (b2.trans (by norm_num))
  obtain ⟨-, k3⟩ := carry_bound k2 (b3.trans (by norm_num))
  have wide : (2 : ℤ) ^ 64 ≤ 2 ^ 126 := by norm_num
  have a1 := addRow_eq total f1.le g1.le (k0.trans wide)
  have a2 := addRow_eq total f2.le g2.le (k1.trans wide)
  have a3 := addRow_eq total f3.le g3.le (k2.trans wide)
  have a4 := addRow_eq total (f4.trans (by norm_num)) (g4.trans (by norm_num)) (k3.trans wide)
  have top := toInt64_eq (top_fits k3 (b4.trans (by norm_num)))
  refine ⟨carried (u * f.v0 + v * g.v0) (u * f.v1 + v * g.v1) (u * f.v2 + v * g.v2) (u * f.v3 + v * g.v3)
    (u * f.v4 + v * g.v4), ?_, ?_, carried_reduced _ _ _ _ _⟩
  · simp only [updateRow62, row_eq total f0.le g0.le, shr_eq, low62_eq, zero, beq_self_eq_true, verifyCheck_eq, a1, a2, a3,
      a4, top, Option.bind_eq_bind, Option.bind_some]
    rfl
  · have scaled := (carried_value zero).trans whole
    omega

end

end BitcoinWasm.Secp256k1
