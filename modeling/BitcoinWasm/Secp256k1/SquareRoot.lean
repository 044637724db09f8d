import BitcoinWasm.Secp256k1.Characteristic
import BitcoinWasm.Secp256k1.Programs

/-! Square roots of field elements.

As `p` is 3 modulo 4, the power `(p + 1) / 4` of a square is a root of it. The
exponent is put together from blocks of ones, which an addition chain computes.
-/

set_option autoImplicit false

namespace BitcoinWasm.Secp256k1

section
variable (inner : Multiplication)

def feMul (a b : Fe) : Fe := inner.mulInner a b

def feSqr (a : Fe) : Fe := inner.sqrInner a

/-- A loop of squarings. -/
def feSqrTimes : Nat → Fe → Fe
  | 0, x => x
  | n + 1, x => feSqrTimes n (feSqr inner x)

/-- The root, and whether it is one. -/
def feSqrt (a : Fe) : Fe × Bool :=
  let x2 := feMul inner (feSqr inner a) a
  let x3 := feMul inner (feSqr inner x2) a
  let x6 := feMul inner (feSqrTimes inner 3 x3) x3
  let x9 := feMul inner (feSqrTimes inner 3 x6) x3
  let x11 := feMul inner (feSqrTimes inner 2 x9) x2
  let x22 := feMul inner (feSqrTimes inner 11 x11) x11
  let x44 := feMul inner (feSqrTimes inner 22 x22) x22
  let x88 := feMul inner (feSqrTimes inner 44 x44) x44
  let x176 := feMul inner (feSqrTimes inner 88 x88) x88
  let x220 := feMul inner (feSqrTimes inner 44 x176) x44
  let x223 := feMul inner (feSqrTimes inner 3 x220) x3
  -- The final result is assembled from the blocks.
  let t1 := feMul inner (feSqrTimes inner 23 x223) x22
  let t1 := feMul inner (feSqrTimes inner 6 t1) x2
  let t1 := feSqr inner t1
  let r := feSqr inner t1
  -- Check that a square root was actually calculated.
  let t1 := feSqr inner r
  (r, feEqual t1 a)

end

/-! ## The chain -/

/-- An element that is a power of another one and can be multiplied again. -/
structure Fe.IsPower (a : Fe) (n : Nat) (x : Fe) : Prop where
  within : x.Within 8
  residue : x.residue = a.residue ^ n

section
variable {inner : Multiplication} {a x y : Fe} {m n : Nat}

theorem isPower_self (within : a.Within 8) : a.IsPower 1 a := ⟨within, (pow_one _).symm⟩

theorem Fe.IsPower.mul (lawful : inner.Lawful) (left : a.IsPower m x) (right : a.IsPower n y) :
    a.IsPower (m + n) (feMul inner x y) where
  within := (lawful.mul_within left.within right.within).mono (by decide)
  residue := by
    rw [feMul, lawful.mul_residue left.within right.within, left.residue, right.residue, pow_add]

theorem sqr_within (lawful : inner.Lawful) (power : a.IsPower n x) : (feSqr inner x).Within 1 :=
  lawful.sqr_within power.within

theorem Fe.IsPower.sqr (lawful : inner.Lawful) (power : a.IsPower n x) : a.IsPower (2 * n) (feSqr inner x) where
  within := (sqr_within lawful power).mono (by decide)
  residue := by
    rw [feSqr, lawful.sqr_residue power.within, power.residue, two_mul, pow_add]

theorem Fe.IsPower.sqrTimes (lawful : inner.Lawful) (k : Nat) (power : a.IsPower n x) :
    a.IsPower (2 ^ k * n) (feSqrTimes inner k x) := by
  induction k generalizing n x with
  | zero =>
    rw [pow_zero, one_mul]
    exact power
  | succ k ih =>
    rw [pow_succ, mul_assoc]
    exact ih (power.sqr lawful)

/-- A block of `n` ones. -/
abbrev ones (n : Nat) : Nat := 2 ^ n - 1

/-- Two blocks are joined by shifting the first one. -/
theorem Fe.IsPower.block (lawful : inner.Lawful) (left : a.IsPower (ones m) x) (right : a.IsPower (ones n) y) :
    a.IsPower (ones (m + n)) (feMul inner (feSqrTimes inner n x) y) := by
  have joined := (left.sqrTimes lawful n).mul lawful right
  have exponent : 2 ^ n * ones m + ones n = ones (m + n) := by
    have first := Nat.one_le_two_pow (n := m)
    have second := Nat.one_le_two_pow (n := n)
    have whole : 2 ^ n ≤ 2 ^ n * 2 ^ m := Nat.le_mul_of_pos_right _ first
    rw [ones, ones, ones, Nat.mul_sub, mul_one, Nat.add_comm m n, pow_add]
    omega
  rw [exponent] at joined
  exact joined

/-- The exponent, from its three blocks. -/
theorem exponent_eq : 2 * (2 * (2 ^ 6 * (2 ^ 23 * ones 223 + ones 22) + ones 2)) = (p + 1) / 4 := by
  unfold p
  decide

theorem feSqrt_isPower (lawful : inner.Lawful) (within : a.Within 8) :
    a.IsPower ((p + 1) / 4) (feSqrt inner a).1 ∧ (feSqrt inner a).1.Within 1 := by
  have x1 : a.IsPower (ones 1) a := isPower_self within
  have x2 := x1.block lawful x1
  have x3 := x2.block lawful x1
  have x6 := x3.block lawful x3
  have x9 := x6.block lawful x3
  have x11 := x9.block lawful x2
  have x22 := x11.block lawful x11
  have x44 := x22.block lawful x22
  have x88 := x44.block lawful x44
  have x176 := x88.block lawful x88
  have x220 := x176.block lawful x44
  have x223 := x220.block lawful x3
  have first := (x223.sqrTimes lawful 23).mul lawful x22
  have second := (first.sqrTimes lawful 6).mul lawful x2
  have third := second.sqr lawful
  have last := third.sqr lawful
  rw [exponent_eq] at last
  exact ⟨last, sqr_within lawful third⟩

/-! ## The root -/

theorem quarter : (p + 1) / 4 + (p + 1) / 4 = p / 2 + 1 := by
  unfold p
  decide

/-- The square of the power is the element, or its negation if the element is no square. -/
theorem root_square (v : ZMod p) :
    (IsSquare v → v ^ ((p + 1) / 4) * v ^ ((p + 1) / 4) = v) ∧
      (¬ IsSquare v → v ^ ((p + 1) / 4) * v ^ ((p + 1) / 4) = -v) := by
  have : Fact p.Prime := ⟨p_prime⟩
  rw [← pow_add, quarter, pow_succ]
  by_cases zero : v = 0
  · simp [zero]
  · constructor
    · intro square
      rw [(ZMod.euler_criterion p zero).mp square, one_mul]
    · intro none
      rcases ZMod.pow_div_two_eq_neg_one_or_one p zero with one | minus
      · exact absurd ((ZMod.euler_criterion p zero).mpr one) none
      · rw [minus, neg_one_mul]

/-- The negation of a number is a different number, except for zero, which is a square. -/
theorem isSquare_of_neg_eq {v : ZMod p} (same : -v = v) : IsSquare v := by
  have zero : v = 0 :=
    calc v = 2⁻¹ * 2 * v := by rw [two_inv_mul_two, one_mul]
      _ = 2⁻¹ * (v + v) := by rw [mul_assoc, two_mul]
      _ = 2⁻¹ * (-v + v) := by rw [same]
      _ = 0 := by rw [neg_add_cancel, mul_zero]
  rw [zero]
  exact IsSquare.zero

/-- The root is right exactly if the element has one, and is a square itself. -/
theorem feSqrt_spec (lawful : inner.Lawful) (within : a.Within 8) :
    (feSqrt inner a).1.Within 1 ∧ IsSquare (feSqrt inner a).1.residue ∧
      ((feSqrt inner a).2 = true ↔ IsSquare a.residue) ∧
      (IsSquare a.residue → (feSqrt inner a).1.residue * (feSqrt inner a).1.residue = a.residue) ∧
      (¬ IsSquare a.residue → (feSqrt inner a).1.residue * (feSqrt inner a).1.residue = -a.residue) := by
  obtain ⟨power, single⟩ := feSqrt_isPower lawful within
  obtain ⟨square, none⟩ := root_square a.residue
  rw [← power.residue] at square none
  refine ⟨single, ?_, ?_, square, none⟩
  · have even : (p + 1) / 4 = (p + 1) / 8 + (p + 1) / 8 := by
      unfold p
      decide
    rw [power.residue, even, pow_add]
    exact ⟨_, rfl⟩
  · have checked : (feSqrt inner a).2 = feEqual (feSqr inner (feSqrt inner a).1) a := rfl
    rw [checked, feEqual_iff (sqr_within lawful power) within (by decide), feSqr, lawful.sqr_residue power.within]
    constructor
    · intro same
      by_contra nonsquare
      rw [none nonsquare] at same
      exact nonsquare (isSquare_of_neg_eq same)
    · exact square

end

theorem feSqrt_spec_four : (feSqrt byValue (feSetInt 4)).2 = true ∧
    (feSqrt byValue (feSetInt 4)).1.residue * (feSqrt byValue (feSetInt 4)).1.residue = (feSetInt 4).residue := by
  have within : (feSetInt 4).Within 8 := (feSetInt_value (by decide) (by decide)).2.within.mono (by decide)
  have square : IsSquare (feSetInt 4).residue := by
    refine ⟨2, ?_⟩
    rw [feSetInt_residue (by decide) (by decide)]
    norm_num
  obtain ⟨_, _, found, root, _⟩ := feSqrt_spec byValue_lawful within
  exact ⟨found.mpr square, root square⟩

end BitcoinWasm.Secp256k1
