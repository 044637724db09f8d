import Mathlib
import BitcoinWasm.Secp256k1.Normalize

/-! What the operations on field elements do, for elements of a known magnitude.

The magnitude bounds the limbs. As long as the magnitude of a result stays within
2048, no limb overflows, and the result is that of the same operation in the field.
-/

set_option autoImplicit false

namespace BitcoinWasm.Secp256k1
open BitcoinWasm.Numbers

/-- The limbs are those of an element of magnitude `m`. -/
structure Fe.Within (a : Fe) (m : Nat) : Prop where
  n0 : a.n0.toNat ≤ 2 * m * (2 ^ 52 - 1)
  n1 : a.n1.toNat ≤ 2 * m * (2 ^ 52 - 1)
  n2 : a.n2.toNat ≤ 2 * m * (2 ^ 52 - 1)
  n3 : a.n3.toNat ≤ 2 * m * (2 ^ 52 - 1)
  n4 : a.n4.toNat ≤ 2 * m * (2 ^ 48 - 1)

/-- The element of the field that the limbs stand for. -/
def Fe.residue (a : Fe) : ZMod p := (a.value : ZMod p)

theorem Fe.Within.mono {a : Fe} {m n : Nat} (within : a.Within m) (le : m ≤ n) : a.Within n := by
  have more : ∀ k, 2 * m * k ≤ 2 * n * k := fun k => Nat.mul_le_mul_right k (Nat.mul_le_mul_left 2 le)
  obtain ⟨n0, n1, n2, n3, n4⟩ := within
  exact ⟨n0.trans (more _), n1.trans (more _), n2.trans (more _), n3.trans (more _), n4.trans (more _)⟩

theorem Fe.Canonical.within {a : Fe} (canonical : a.Canonical) : a.Within 1 := by
  obtain ⟨⟨n0, n1, n2, n3⟩, n4, _⟩ := canonical
  constructor <;> omega

theorem Fe.Passed.within {a : Fe} (passed : a.Passed) : a.Within 1 := by
  obtain ⟨⟨n0, n1, n2, n3⟩, n4⟩ := passed
  constructor <;> omega

/-! ## Normalisation -/

theorem Fe.Within.room {a : Fe} {m : Nat} (within : a.Within m) (bound : m ≤ 2047) : a.Room := by
  obtain ⟨n0, n1, n2, n3, n4⟩ := within
  constructor <;> omega

/-- Below the largest magnitude nothing overflows in the first pass. -/
theorem Fe.Within.folded_lt {a : Fe} {m : Nat} (within : a.Within m) (bound : m ≤ 2047) :
    a.n0.toNat + a.folded < 2 ^ 64 := by
  obtain ⟨n0, n1, n2, n3, n4⟩ := within
  unfold Fe.folded
  omega

theorem Fe.Within.firstPass_residue {a : Fe} {m : Nat} (within : a.Within m) (bound : m ≤ 2047) :
    (firstPass a).residue = a.residue :=
  (ZMod.natCast_eq_natCast_iff _ _ _).mpr
    ((firstPass_residue_iff (within.room bound)).mpr (within.folded_lt bound))

theorem Fe.Within.normalize_value {a : Fe} {m : Nat} (within : a.Within m) (bound : m ≤ 2047) :
    (feNormalize a).value = a.value % p :=
  (feNormalize_residue_iff (within.room bound)).mpr (within.folded_lt bound)

theorem Fe.Within.normalize_residue {a : Fe} {m : Nat} (within : a.Within m) (bound : m ≤ 2047) :
    (feNormalize a).residue = a.residue := by
  rw [Fe.residue, within.normalize_value bound, ZMod.natCast_mod]
  rfl

theorem Fe.Within.normalizesToZero_iff {a : Fe} {m : Nat} (within : a.Within m) (bound : m ≤ 2047) :
    feNormalizesToZero a = true ↔ a.residue = 0 := by
  rw [feNormalizesToZero_iff, ← within.firstPass_residue bound, Fe.residue, ZMod.natCast_eq_zero_iff]

/-! ## Arithmetic -/

theorem toNat_ofInt {a : Int} (low : 0 ≤ a) (high : a < 2 ^ 64) : (UInt64.ofInt a).toNat = a.toNat := by
  rw [UInt64.ofInt, toNat_ofNat_of_lt, Int.emod_eq_of_lt low high]
  rw [Int.emod_eq_of_lt low high]
  omega

/-- The bounds on limbs do not overflow up to the largest magnitude. -/
theorem toNat_limbBound (limb : UInt64) {m : Int} (low : 0 ≤ m) (high : m ≤ 2048) (small : limb.toNat < 2 ^ 52) :
    (limbBound limb m).toNat = 2 * m.toNat * limb.toNat := by
  have times : (UInt64.ofInt m).toNat = m.toNat := toNat_ofInt low (by omega)
  have two : (2 : UInt64).toNat = 2 := rfl
  have double : (limb * 2).toNat = limb.toNat * 2 := by
    rw [toNat_mul_of_lt, two]
    rw [two]
    omega
  have bound : limb.toNat * 2 * m.toNat ≤ limb.toNat * 2 * 2048 := Nat.mul_le_mul_left _ (by omega)
  rw [limbBound, toNat_mul_of_lt, double, times]
  · ring
  · rw [double, times]
    omega

theorem feGetBounds_within {m : Int} (low : 0 ≤ m) (high : m ≤ 2048) : (feGetBounds m).Within m.toNat := by
  have limb := toNat_limbBound mask52 low high (by decide)
  have top := toNat_limbBound mask48 low high (by decide)
  exact ⟨limb.le, limb.le, limb.le, limb.le, top.le⟩

theorem feAdd_value {r a : Fe} {m n : Nat} (left : r.Within m) (right : a.Within n) (bound : m + n ≤ 2048) :
    (feAdd r a).value = r.value + a.value ∧ (feAdd r a).Within (m + n) := by
  obtain ⟨r0, r1, r2, r3, r4⟩ := left
  obtain ⟨a0, a1, a2, a3, a4⟩ := right
  have s0 := toNat_add_of_lt (a := r.n0) (b := a.n0) (by omega)
  have s1 := toNat_add_of_lt (a := r.n1) (b := a.n1) (by omega)
  have s2 := toNat_add_of_lt (a := r.n2) (b := a.n2) (by omega)
  have s3 := toNat_add_of_lt (a := r.n3) (b := a.n3) (by omega)
  have s4 := toNat_add_of_lt (a := r.n4) (b := a.n4) (by omega)
  constructor
  · simp only [feAdd, Fe.value, s0, s1, s2, s3, s4]
    omega
  · constructor <;> simp only [feAdd, s0, s1, s2, s3, s4] <;> omega

/-- One limb times a small number. -/
theorem toNat_mulLimb {limb : UInt64} {a : Int} {m k : Nat} (low : 0 ≤ a) (high : a ≤ 2048)
    (bound : limb.toNat ≤ 2 * m * k) (fits : 2 * (m * a.toNat) * k < 2 ^ 64) :
    (limb * UInt64.ofInt a).toNat = limb.toNat * a.toNat ∧ limb.toNat * a.toNat ≤ 2 * (m * a.toNat) * k := by
  have times : (UInt64.ofInt a).toNat = a.toNat := toNat_ofInt low (by omega)
  have le : limb.toNat * a.toNat ≤ 2 * (m * a.toNat) * k :=
    calc limb.toNat * a.toNat ≤ 2 * m * k * a.toNat := Nat.mul_le_mul_right _ bound
      _ = 2 * (m * a.toNat) * k := by ring
  rw [toNat_mul_of_lt, times]
  · exact ⟨rfl, le⟩
  · rw [times]
    omega

theorem feMulInt_value {r : Fe} {m : Nat} {a : Int} (within : r.Within m) (low : 0 ≤ a) (high : a ≤ 2048)
    (bound : m * a.toNat ≤ 2048) :
    (feMulInt r a).value = r.value * a.toNat ∧ (feMulInt r a).Within (m * a.toNat) := by
  obtain ⟨r0, r1, r2, r3, r4⟩ := within
  have s0 := toNat_mulLimb low high r0 (by omega)
  have s1 := toNat_mulLimb low high r1 (by omega)
  have s2 := toNat_mulLimb low high r2 (by omega)
  have s3 := toNat_mulLimb low high r3 (by omega)
  have s4 := toNat_mulLimb low high r4 (by omega)
  constructor
  · simp only [feMulInt, Fe.value, s0.1, s1.1, s2.1, s3.1, s4.1]
    ring
  · exact ⟨s0.1.trans_le s0.2, s1.1.trans_le s1.2, s2.1.trans_le s2.2, s3.1.trans_le s3.2, s4.1.trans_le s4.2⟩

/-- One limb of a negation: no borrow, as the multiple of `p` has larger limbs. -/
theorem toNat_negateLimb (bound : UInt64) {limb : UInt64} {m : Int} {k : Nat} (low : 0 ≤ m) (high : m ≤ 2047)
    (small : bound.toNat < 2 ^ 52) (le : limb.toNat ≤ 2 * m.toNat * k) (above : m.toNat * k ≤ (m.toNat + 1) * bound.toNat) :
    (limbBound bound (m + 1) - limb).toNat + limb.toNat = 2 * (m.toNat + 1) * bound.toNat := by
  have word := toNat_limbBound bound (m := m + 1) (by omega) (by omega) small
  have next : (m + 1).toNat = m.toNat + 1 := by omega
  rw [next] at word
  have order : limb.toNat ≤ (limbBound bound (m + 1)).toNat := by
    rw [word]
    calc limb.toNat ≤ 2 * m.toNat * k := le
      _ = 2 * (m.toNat * k) := Nat.mul_assoc ..
      _ ≤ 2 * ((m.toNat + 1) * bound.toNat) := Nat.mul_le_mul_left 2 above
      _ = 2 * (m.toNat + 1) * bound.toNat := (Nat.mul_assoc ..).symm
  rw [toNat_sub_of_le order, word]
  rw [word] at order
  omega

theorem feNegate_value {a : Fe} {m : Int} (within : a.Within m.toNat) (low : 0 ≤ m) (high : m ≤ 2047) :
    (feNegate a m).value + a.value = 2 * (m.toNat + 1) * p ∧ (feNegate a m).Within (m.toNat + 1) := by
  obtain ⟨a0, a1, a2, a3, a4⟩ := within
  have bottom : lowest.toNat = 0xFFFFEFFFFFC2F := rfl
  have middle : mask52.toNat = 2 ^ 52 - 1 := rfl
  have top : mask48.toNat = 2 ^ 48 - 1 := rfl
  have s0 := toNat_negateLimb lowest low high (by decide) a0 (by rw [bottom]; omega)
  have s1 := toNat_negateLimb mask52 low high (by decide) a1 (by rw [middle]; omega)
  have s2 := toNat_negateLimb mask52 low high (by decide) a2 (by rw [middle]; omega)
  have s3 := toNat_negateLimb mask52 low high (by decide) a3 (by rw [middle]; omega)
  have s4 := toNat_negateLimb mask48 low high (by decide) a4 (by rw [top]; omega)
  rw [bottom] at s0
  rw [middle] at s1 s2 s3
  rw [top] at s4
  constructor
  · simp only [feNegate, Fe.value]
    unfold p
    omega
  · constructor <;> simp only [feNegate] <;> omega

/-! ## Halving -/

theorem toNat_and_one (a : UInt64) : (a &&& 1).toNat = a.toNat % 2 := toNat_and_mask (k := 1) a rfl

theorem halfMask_eq (a : UInt64) : (0 - (a &&& 1)) >>> 12 = if a.toNat % 2 = 1 then mask52 else 0 := by
  have bit := toNat_and_one a
  by_cases odd : a.toNat % 2 = 1
  · have one : a &&& 1 = 1 := UInt64.toNat_inj.mp (bit.trans odd)
    rw [one, if_pos odd]
    rfl
  · have zero : a &&& 1 = 0 := UInt64.toNat_inj.mp (bit.trans (Nat.mod_two_ne_one.mp odd))
    rw [zero, if_neg odd]
    rfl

/-- Half of a limb, with the lowest bit of the limb above. -/
theorem toNat_halfLimb (t above : UInt64) :
    ((t >>> 1) + ((above &&& 1) <<< 51)).toNat = t.toNat / 2 + above.toNat % 2 * 2 ^ 51 := by
  have bound := t.toNat_lt
  have half : (t >>> 1).toNat = t.toNat / 2 := toNat_shiftRight (k := 1) t (by decide)
  have bit : ((above &&& 1) <<< 51).toNat = above.toNat % 2 * 2 ^ 51 := by
    have shifted : ((above &&& 1) <<< 51).toNat = (above &&& 1).toNat * 2 ^ 51 % 2 ^ 64 := toNat_shiftLeft _ (by decide)
    rw [shifted, toNat_and_one]
    omega
  rw [toNat_add_of_lt, half, bit]
  rw [half, bit]
  omega

/-- The multiple of `p` that makes the element even. -/
def Fe.evened (r : Fe) : Nat := r.value + r.n0.toNat % 2 * p

theorem feHalf_value {r : Fe} {m : Nat} (within : r.Within m) (bound : m < 32) :
    2 * (feHalf r).value = r.evened ∧ (feHalf r).Within (m / 2 + 1) := by
  obtain ⟨r0, r1, r2, r3, r4⟩ := within
  have bottom : lowest.toNat = 0xFFFFEFFFFFC2F := rfl
  have middle : mask52.toNat = 2 ^ 52 - 1 := rfl
  have top : mask48.toNat = 2 ^ 48 - 1 := rfl
  have last : ∀ t : UInt64, (t >>> 1).toNat = t.toNat / 2 := fun t => toNat_shiftRight (k := 1) t (by decide)
  have mask := halfMask_eq r.n0
  by_cases odd : r.n0.toNat % 2 = 1
  · rw [if_pos odd] at mask
    have low : lowest &&& mask52 = lowest := by decide
    have high : mask52 >>> 4 = mask48 := by decide
    have s0 := toNat_add_of_lt (a := r.n0) (b := lowest) (by omega)
    have s1 := toNat_add_of_lt (a := r.n1) (b := mask52) (by omega)
    have s2 := toNat_add_of_lt (a := r.n2) (b := mask52) (by omega)
    have s3 := toNat_add_of_lt (a := r.n3) (b := mask52) (by omega)
    have s4 := toNat_add_of_lt (a := r.n4) (b := mask48) (by omega)
    rw [bottom] at s0
    rw [middle] at s1 s2 s3
    rw [top] at s4
    constructor
    · simp only [feHalf, mask, low, high, Fe.value, toNat_halfLimb, last, s0, s1, s2, s3, s4, Fe.evened, odd]
      unfold p
      omega
    · constructor <;> simp only [feHalf, mask, low, high, toNat_halfLimb, last, s0, s1, s2, s3, s4] <;> omega
  · rw [if_neg odd] at mask
    have even : r.n0.toNat % 2 = 0 := Nat.mod_two_ne_one.mp odd
    have zero : (0 : UInt64) >>> 4 = 0 := by decide
    constructor
    · simp only [feHalf, mask, zero, Fe.value, toNat_halfLimb, last, UInt64.and_zero, UInt64.add_zero, Fe.evened, even]
      omega
    · constructor <;> simp only [feHalf, mask, zero, toNat_halfLimb, last, UInt64.and_zero, UInt64.add_zero] <;> omega

/-! ## Moves -/

theorem cmovLimb_eq (r a : UInt64) (flag : Bool) : cmovLimb r a flag.toInt = if flag then a else r := by
  cases flag with
  | false =>
    have mask : UInt64.ofInt false.toInt + ~~~0 = -1 := by decide
    simp only [cmovLimb, mask]
    simp
  | true =>
    have mask : UInt64.ofInt true.toInt + ~~~0 = 0 := by decide
    simp only [cmovLimb, mask]
    simp

theorem feCmov_eq (r a : Fe) (flag : Bool) : feCmov r a flag.toInt = if flag then a else r := by
  simp only [feCmov, cmovLimb_eq]
  cases flag <;> rfl

theorem feStorageCmov_eq (r a : FeStorage) (flag : Bool) : feStorageCmov r a flag.toInt = if flag then a else r := by
  simp only [feStorageCmov, cmovLimb_eq]
  cases flag <;> rfl

/-! ## In the field -/

section
variable {a r : Fe} {m n : Nat}

theorem feAdd_residue (left : r.Within m) (right : a.Within n) (bound : m + n ≤ 2048) :
    (feAdd r a).residue = r.residue + a.residue := by
  rw [Fe.residue, (feAdd_value left right bound).1, Nat.cast_add]
  rfl

theorem feMulInt_residue {k : Int} (within : r.Within m) (low : 0 ≤ k) (high : k ≤ 2048) (bound : m * k.toNat ≤ 2048) :
    (feMulInt r k).residue = r.residue * k := by
  have factor : (k : ZMod p) = (k.toNat : ZMod p) := by
    rw [← Int.cast_natCast, Int.toNat_of_nonneg low]
  rw [Fe.residue, (feMulInt_value within low high bound).1, Nat.cast_mul, factor]
  rfl

theorem feNegate_residue {k : Int} (within : a.Within k.toNat) (low : 0 ≤ k) (high : k ≤ 2047) :
    (feNegate a k).residue = -a.residue := by
  have sum := congrArg (Nat.cast : Nat → ZMod p) (feNegate_value within low high).1
  rw [Nat.cast_add, Nat.cast_mul, ZMod.natCast_self, mul_zero] at sum
  exact eq_neg_of_add_eq_zero_left sum

theorem feHalf_residue (within : r.Within m) (bound : m < 32) : 2 * (feHalf r).residue = r.residue := by
  have double := congrArg (Nat.cast : Nat → ZMod p) (feHalf_value within bound).1
  rw [Fe.evened, Nat.cast_add, Nat.cast_mul, Nat.cast_mul, ZMod.natCast_self, mul_zero, add_zero] at double
  exact double

/-- Equality of elements is decided by the difference, whatever the representations are. -/
theorem feEqual_iff (left : a.Within 1) (right : r.Within m) (bound : m ≤ 2045) :
    feEqual a r = true ↔ a.residue = r.residue := by
  have negated := feNegate_value (m := 1) left (by decide) (by decide)
  have sum := feAdd_value negated.2 right (by omega)
  have residue : (feAdd (feNegate a 1) r).residue = -a.residue + r.residue := by
    rw [feAdd_residue negated.2 right (by omega), feNegate_residue left (by decide) (by decide)]
  rw [feEqual, sum.2.normalizesToZero_iff (by omega), residue, neg_add_eq_zero]

theorem feEqualVar_eq (a b : Fe) : feEqualVar a b = feEqual a b := feNormalizesToZeroVar_eq _

end

end BitcoinWasm.Secp256k1
