import Mathlib.Data.Int.ModEq
import BitcoinWasm.Secp256k1.Field

/-! Reduction of field elements.

The first pass leaves less than two times `p`, so one conditional subtraction of
`p` is enough. All of this holds for every element; only whether the first pass
keeps the residue depends on the lowest limb, which may overflow.
-/

set_option autoImplicit false

namespace BitcoinWasm.Secp256k1
open BitcoinWasm.Numbers

theorem p_pos : 0 < p := by unfold p; decide

/-- All limbs but the highest have 52 bits. -/
structure Fe.Reduced (t : Fe) : Prop where
  n0 : t.n0.toNat < 2 ^ 52
  n1 : t.n1.toNat < 2 ^ 52
  n2 : t.n2.toNat < 2 ^ 52
  n3 : t.n3.toNat < 2 ^ 52

/-- The representation that `secp256k1_fe_verify` calls normalized. -/
structure Fe.Canonical (r : Fe) : Prop extends r.Reduced where
  n4 : r.n4.toNat < 2 ^ 48
  small : r.value < p

theorem Fe.Reduced.eq_of_value {a b : Fe} (left : a.Reduced) (right : b.Reduced) (same : a.value = b.value) :
    a = b := by
  obtain ⟨a0, a1, a2, a3⟩ := left
  obtain ⟨b0, b1, b2, b3⟩ := right
  unfold Fe.value at same
  have limbs : a.n0.toNat = b.n0.toNat ∧ a.n1.toNat = b.n1.toNat ∧ a.n2.toNat = b.n2.toNat ∧
      a.n3.toNat = b.n3.toNat ∧ a.n4.toNat = b.n4.toNat := by
    omega
  obtain ⟨n0, n1, n2, n3, n4⟩ := limbs
  cases a
  cases b
  simp only [Fe.mk.injEq]
  exact ⟨UInt64.toNat_inj.mp n0, UInt64.toNat_inj.mp n1, UInt64.toNat_inj.mp n2, UInt64.toNat_inj.mp n3,
    UInt64.toNat_inj.mp n4⟩

/-! ## One pass -/

theorem toNat_and_mask52 (a : UInt64) : (a &&& mask52).toNat = a.toNat % 2 ^ 52 := toNat_and_mask a rfl

theorem toNat_and_mask48 (a : UInt64) : (a &&& mask48).toNat = a.toNat % 2 ^ 48 := toNat_and_mask a rfl

theorem toNat_shift52 (a : UInt64) : (a >>> 52).toNat = a.toNat / 2 ^ 52 := toNat_shiftRight a (by decide)

theorem toNat_shift48 (a : UInt64) : (a >>> 48).toNat = a.toNat / 2 ^ 48 := toNat_shiftRight a (by decide)

/-- A limb takes a carry of at most 12 bits. -/
theorem toNat_carried {limb : UInt64} (room : limb.toNat + 2 ^ 12 ≤ 2 ^ 64) (below : UInt64) :
    (limb + (below >>> 52)).toNat = limb.toNat + below.toNat / 2 ^ 52 := by
  have bound := below.toNat_lt
  rw [toNat_add_of_lt, toNat_shift52]
  rw [toNat_shift52]
  omega

theorem carry_reduced (t : Fe) (x : UInt64) : (carry t x).Reduced := by
  have small : ∀ a : UInt64, (a &&& mask52).toNat < 2 ^ 52 := by
    intro a
    rw [toNat_and_mask52]
    exact Nat.mod_lt _ (by decide)
  exact ⟨small _, small _, small _, small _⟩

theorem carry_n4 {t : Fe} (room : t.n4.toNat + 2 ^ 12 ≤ 2 ^ 64) (x : UInt64) :
    (carry t x).n4.toNat < t.n4.toNat + 2 ^ 12 := by
  simp only [carry, toNat_carried room]
  generalize t.n3 + _ = t3
  have bound := t3.toNat_lt
  omega

/-- Only the lowest limb can overflow. -/
theorem carry_value {t : Fe} (n1 : t.n1.toNat + 2 ^ 12 ≤ 2 ^ 64) (n2 : t.n2.toNat + 2 ^ 12 ≤ 2 ^ 64)
    (n3 : t.n3.toNat + 2 ^ 12 ≤ 2 ^ 64) (n4 : t.n4.toNat + 2 ^ 12 ≤ 2 ^ 64) (x : UInt64) :
    (carry t x).value + t.n0.toNat = t.value + (t.n0 + x * fold).toNat := by
  simp only [carry, Fe.value, toNat_and_mask52]
  generalize t.n0 + x * fold = t0
  have s1 := toNat_carried n1 t0
  generalize t.n1 + (t0 >>> 52) = t1 at s1 ⊢
  have s2 := toNat_carried n2 t1
  generalize t.n2 + (t1 >>> 52) = t2 at s2 ⊢
  have s3 := toNat_carried n3 t2
  generalize t.n3 + (t2 >>> 52) = t3 at s3 ⊢
  rw [toNat_carried n4]
  omega

/-- What the first pass leaves: at most one more reduction is to be done. -/
structure Fe.Passed (t : Fe) : Prop extends t.Reduced where
  n4 : t.n4.toNat < 2 ^ 48 + 2 ^ 12

theorem firstPass_passed (r : Fe) : (firstPass r).Passed where
  toReduced := carry_reduced _ _
  n4 := by
    have masked : (r.n4 &&& mask48).toNat < 2 ^ 48 := by
      rw [toNat_and_mask48]
      exact Nat.mod_lt _ (by decide)
    have carried := carry_n4 (t := { r with n4 := r.n4 &&& mask48 }) (by simp only; omega) (r.n4 >>> 48)
    simp only at carried
    unfold firstPass
    omega

theorem Fe.Passed.value_lt {t : Fe} (passed : t.Passed) : t.value < 2 * p := by
  obtain ⟨⟨n0, n1, n2, n3⟩, n4⟩ := passed
  unfold Fe.value p
  omega

/-- In a second pass nothing overflows. -/
theorem Fe.Passed.carry_value {t : Fe} (passed : t.Passed) {x : UInt64} (bit : x.toNat ≤ 1) :
    (carry t x).value = t.value + x.toNat * 0x1000003D1 := by
  obtain ⟨⟨n0, n1, n2, n3⟩, n4⟩ := passed
  have folded : (x * fold).toNat = x.toNat * 0x1000003D1 := by
    have constant : fold.toNat = 0x1000003D1 := rfl
    rw [toNat_mul_of_lt, constant]
    rw [constant]
    omega
  have value := Secp256k1.carry_value (t := t) (by omega) (by omega) (by omega) (by omega) x
  rw [toNat_add_of_lt (by omega), folded] at value
  omega

/-! ## The test for a final reduction -/

theorem flag_and (a b : Bool) : flag a &&& flag b = flag (a && b) := by
  cases a <;> cases b <;> rfl

theorem and_eq_mask52_iff {a b : UInt64} (left : a.toNat < 2 ^ 52) (right : b.toNat < 2 ^ 52) :
    a &&& b = mask52 ↔ a = mask52 ∧ b = mask52 := by
  constructor
  · intro ones
    have both := congrArg UInt64.toNat ones
    rw [UInt64.toNat_and] at both
    have mask : mask52.toNat = 2 ^ 52 - 1 := rfl
    -- The conjunction is below both words, and no word of 52 bits is above the mask.
    have lower : a.toNat &&& b.toNat ≤ a.toNat := Nat.and_le_left
    have upper : a.toNat &&& b.toNat ≤ b.toNat := Nat.and_le_right
    exact ⟨UInt64.toNat_inj.mp (by omega), UInt64.toNat_inj.mp (by omega)⟩
  · rintro ⟨rfl, rfl⟩
    rfl

theorem eq_mask_iff (a : UInt64) : (a = mask52 ↔ a.toNat = 2 ^ 52 - 1) ∧ (a = mask48 ↔ a.toNat = 2 ^ 48 - 1) :=
  ⟨UInt64.toNat_inj.symm, UInt64.toNat_inj.symm⟩

/-- Below bit 256 the limbs are those of `p` or of a larger number. -/
theorem Fe.Passed.limbs_iff {t : Fe} (passed : t.Passed) (below : t.n4.toNat < 2 ^ 48) :
    (t.n4 = mask48 ∧ t.n1 &&& t.n2 &&& t.n3 = mask52) ∧ lowest ≤ t.n0 ↔ p ≤ t.value := by
  obtain ⟨⟨n0, n1, n2, n3⟩, _⟩ := passed
  have pair : (t.n1 &&& t.n2).toNat < 2 ^ 52 := by
    rw [UInt64.toNat_and]
    exact Nat.lt_of_le_of_lt Nat.and_le_left n1
  have bottom : lowest.toNat = 0xFFFFEFFFFFC2F := rfl
  rw [and_eq_mask52_iff pair n3, and_eq_mask52_iff n1 n2, (eq_mask_iff t.n4).2, (eq_mask_iff t.n1).1,
    (eq_mask_iff t.n2).1, (eq_mask_iff t.n3).1, UInt64.le_iff_toNat_le, bottom]
  unfold Fe.value p
  omega

theorem Fe.Passed.finalReduction_toNat {t : Fe} (passed : t.Passed) :
    (finalReduction t).toNat = if p ≤ t.value then 1 else 0 := by
  have bound := passed.n4
  rw [finalReduction, flag_and, flag_and, UInt64.toNat_or, toNat_shift48]
  by_cases below : t.n4.toNat < 2 ^ 48
  · have zero : t.n4.toNat / 2 ^ 48 = 0 := Nat.div_eq_of_lt below
    rw [zero, Nat.zero_or]
    have tests := passed.limbs_iff below
    by_cases large : p ≤ t.value
    · obtain ⟨⟨top, middle⟩, low⟩ := tests.mpr large
      simp [large, top, middle, low, flag]
    · have fails : ¬ ((t.n4 = mask48 ∧ t.n1 &&& t.n2 &&& t.n3 = mask52) ∧ lowest ≤ t.n0) :=
        fun passes => large (tests.mp passes)
      rw [if_neg large]
      simp only [flag, Bool.and_eq_true, beq_iff_eq, decide_eq_true_eq, if_neg fails]
      rfl
  · -- Bit 256 is set, and the limb is not the mask.
    have one : t.n4.toNat / 2 ^ 48 = 1 := by omega
    have other : t.n4 ≠ mask48 := by
      rw [Ne, (eq_mask_iff t.n4).2]
      omega
    have large : p ≤ t.value := by
      unfold Fe.value p
      omega
    rw [one, if_pos large]
    simp [flag, other]

/-! ## Normal forms -/

/-- The highest limb without what is beyond bit 256. -/
theorem Fe.Reduced.value_masked {t : Fe} (reduced : t.Reduced) :
    ({ t with n4 := t.n4 &&& mask48 } : Fe).value = t.value % 2 ^ 256 := by
  obtain ⟨n0, n1, n2, n3⟩ := reduced
  simp only [Fe.value, toNat_and_mask48]
  omega

theorem feNormalize_value (r : Fe) : (feNormalize r).value = (firstPass r).value % p := by
  have passed := firstPass_passed r
  have bit := passed.finalReduction_toNat
  have second := passed.carry_value (x := finalReduction (firstPass r)) (by rw [bit]; split <;> decide)
  have bound := passed.value_lt
  have folded : 0x1000003D1 + p = 2 ^ 256 := by unfold p; rfl
  rw [feNormalize, (carry_reduced _ _).value_masked, second]
  by_cases large : p ≤ (firstPass r).value
  · -- Adding what `2 ^ 256` is worth and dropping `2 ^ 256` takes `p` away.
    have rest : (firstPass r).value % p = (firstPass r).value - p := by
      rw [Nat.mod_eq_sub_mod large, Nat.mod_eq_of_lt (by omega)]
    rw [bit, if_pos large, rest]
    omega
  · rw [bit, if_neg large, Nat.mod_eq_of_lt (Nat.not_le.mp large)]
    omega

theorem feNormalize_canonical (r : Fe) : (feNormalize r).Canonical where
  n0 := (carry_reduced (firstPass r) (finalReduction (firstPass r))).n0
  n1 := (carry_reduced (firstPass r) (finalReduction (firstPass r))).n1
  n2 := (carry_reduced (firstPass r) (finalReduction (firstPass r))).n2
  n3 := (carry_reduced (firstPass r) (finalReduction (firstPass r))).n3
  n4 := by
    rw [feNormalize, toNat_and_mask48]
    exact Nat.mod_lt _ (by decide)
  small := by
    rw [feNormalize_value]
    exact Nat.mod_lt _ p_pos

/-- A canonical element is the only one for its value. -/
theorem Fe.Canonical.eq_of_value {a b : Fe} (left : a.Canonical) (right : b.Canonical) (same : a.value = b.value) :
    a = b :=
  left.toReduced.eq_of_value right.toReduced same

/-- The branch of the variable-time version skips a pass that does nothing. -/
theorem feNormalizeVar_eq (r : Fe) : feNormalizeVar r = feNormalize r := by
  have passed := firstPass_passed r
  have bit := passed.finalReduction_toNat
  by_cases large : p ≤ (firstPass r).value
  · rw [if_pos large] at bit
    have one : finalReduction (firstPass r) = 1 := UInt64.toNat_inj.mp bit
    simp only [feNormalizeVar, feNormalize, one]
    rfl
  · rw [if_neg large] at bit
    have zero : finalReduction (firstPass r) = 0 := UInt64.toNat_inj.mp bit
    apply Eq.trans (b := firstPass r)
    · simp [feNormalizeVar, zero]
    · apply passed.toReduced.eq_of_value (feNormalize_canonical r).toReduced
      rw [feNormalize_value, Nat.mod_eq_of_lt (by omega)]

/-! ## Zero -/

theorem or_eq_zero_iff {a b : UInt64} : a ||| b = 0 ↔ a = 0 ∧ b = 0 := by
  constructor
  · intro none
    have both := congrArg UInt64.toNat none
    rw [UInt64.toNat_or] at both
    exact ⟨UInt64.toNat_inj.mp (Nat.or_eq_zero_iff.mp both).1, UInt64.toNat_inj.mp (Nat.or_eq_zero_iff.mp both).2⟩
  · rintro ⟨rfl, rfl⟩
    rfl

theorem xor_eq_mask52_iff (a c : UInt64) : a ^^^ c = mask52 ↔ a = mask52 ^^^ c := by
  constructor
  · intro ones
    rw [← ones, UInt64.xor_assoc, UInt64.xor_self, UInt64.xor_zero]
  · rintro rfl
    rw [UInt64.xor_assoc, UInt64.xor_self, UInt64.xor_zero]

theorem xor_lt {a c : UInt64} (left : a.toNat < 2 ^ 52) (right : c.toNat < 2 ^ 52) : (a ^^^ c).toNat < 2 ^ 52 := by
  rw [UInt64.toNat_xor]
  exact Nat.xor_lt_two_pow left right

theorem and_lt {a b : UInt64} (left : a.toNat < 2 ^ 52) : (a &&& b).toNat < 2 ^ 52 := by
  rw [UInt64.toNat_and]
  exact Nat.lt_of_le_of_lt Nat.and_le_left left

/-- The two raw values of zero, of all the values that a first pass can leave. -/
theorem Fe.Passed.rawZero_iff {t : Fe} (passed : t.Passed) :
    rawZero (t.n0 ||| t.n1 ||| t.n2 ||| t.n3 ||| t.n4)
        ((t.n0 ^^^ 0x1000003D0) &&& t.n1 &&& t.n2 &&& t.n3 &&& (t.n4 ^^^ 0xF000000000000)) = true ↔
      p ∣ t.value := by
  have bound := passed.value_lt
  obtain ⟨⟨n0, n1, n2, n3⟩, n4⟩ := passed
  have top : t.n4.toNat < 2 ^ 52 := by omega
  have first : (t.n0 ^^^ 0x1000003D0).toNat < 2 ^ 52 := xor_lt n0 (by decide)
  have last : (t.n4 ^^^ 0xF000000000000).toNat < 2 ^ 52 := xor_lt top (by decide)
  have zero : t.n0 ||| t.n1 ||| t.n2 ||| t.n3 ||| t.n4 = 0 ↔ t.value = 0 := by
    rw [or_eq_zero_iff, or_eq_zero_iff, or_eq_zero_iff, or_eq_zero_iff]
    simp only [← UInt64.toNat_inj, UInt64.toNat_zero]
    unfold Fe.value
    omega
  have modulus : (t.n0 ^^^ 0x1000003D0) &&& t.n1 &&& t.n2 &&& t.n3 &&& (t.n4 ^^^ 0xF000000000000) = mask52 ↔
      t.value = p := by
    rw [and_eq_mask52_iff (and_lt (and_lt (and_lt first))) last, and_eq_mask52_iff (and_lt (and_lt first)) n3,
      and_eq_mask52_iff (and_lt first) n2, and_eq_mask52_iff first n1, xor_eq_mask52_iff, xor_eq_mask52_iff,
      (eq_mask_iff t.n1).1, (eq_mask_iff t.n2).1, (eq_mask_iff t.n3).1]
    have bottom : t.n0 = mask52 ^^^ 0x1000003D0 ↔ t.n0.toNat = 0xFFFFEFFFFFC2F := UInt64.toNat_inj.symm
    have high : t.n4 = mask52 ^^^ 0xF000000000000 ↔ t.n4.toNat = 2 ^ 48 - 1 := UInt64.toNat_inj.symm
    rw [bottom, high]
    unfold Fe.value p
    omega
  rw [rawZero, Bool.or_eq_true, beq_iff_eq, beq_iff_eq, zero, modulus]
  constructor
  · rintro (none | whole)
    · rw [none]
      exact Nat.dvd_zero p
    · rw [whole]
  · rintro ⟨times, value⟩
    have few : times < 2 := by
      by_contra many
      have le := Nat.mul_le_mul_left p (Nat.not_lt.mp many)
      omega
    rcases Nat.lt_succ_iff_lt_or_eq.mp few with none | one
    · exact .inl (by rw [value, Nat.lt_one_iff.mp none, Nat.mul_zero])
    · exact .inr (by rw [value, one, Nat.mul_one])

theorem feNormalizesToZero_iff (r : Fe) : feNormalizesToZero r = true ↔ p ∣ (firstPass r).value :=
  (firstPass_passed r).rawZero_iff

/-- The lowest limb of a raw zero. -/
theorem Fe.Passed.lowest_of_rawZero {t : Fe} (passed : t.Passed)
    (zero : rawZero (t.n0 ||| t.n1 ||| t.n2 ||| t.n3 ||| t.n4)
      ((t.n0 ^^^ 0x1000003D0) &&& t.n1 &&& t.n2 &&& t.n3 &&& (t.n4 ^^^ 0xF000000000000)) = true) :
    t.n0 = 0 ∨ t.n0 ^^^ 0x1000003D0 = mask52 := by
  obtain ⟨⟨n0, n1, n2, n3⟩, n4⟩ := passed
  have first : (t.n0 ^^^ 0x1000003D0).toNat < 2 ^ 52 := xor_lt n0 (by decide)
  have last : (t.n4 ^^^ 0xF000000000000).toNat < 2 ^ 52 := xor_lt (by omega) (by decide)
  rw [rawZero, Bool.or_eq_true, beq_iff_eq, beq_iff_eq] at zero
  rcases zero with none | whole
  · rw [or_eq_zero_iff, or_eq_zero_iff, or_eq_zero_iff, or_eq_zero_iff] at none
    exact .inl none.1.1.1.1
  · rw [and_eq_mask52_iff (and_lt (and_lt (and_lt first))) last, and_eq_mask52_iff (and_lt (and_lt first)) n3,
      and_eq_mask52_iff (and_lt first) n2, and_eq_mask52_iff first n1] at whole
    exact .inr whole.1.1.1.1

/-- The fast way out is taken only where the slow one would say the same. -/
theorem feNormalizesToZeroVar_eq (r : Fe) : feNormalizesToZeroVar r = feNormalizesToZero r := by
  have passed := firstPass_passed r
  by_cases early : ((firstPass r).n0 != 0 && (firstPass r).n0 ^^^ 0x1000003D0 != mask52) = true
  · have fast : feNormalizesToZeroVar r = false := if_pos early
    rw [Bool.and_eq_true, bne_iff_ne, bne_iff_ne] at early
    have slow : feNormalizesToZero r ≠ true := by
      intro zero
      rcases passed.lowest_of_rawZero zero with none | whole
      · exact early.1 none
      · exact early.2 whole
    rw [fast, Bool.not_eq_true _ |>.mp slow]
  · exact if_neg early

/-! ## The residue -/

/-- What the first pass adds to the lowest limb. -/
def Fe.folded (r : Fe) : Nat := r.n4.toNat / 2 ^ 48 * 0x1000003D1

/-- The middle limbs leave room for a carry. -/
structure Fe.Room (r : Fe) : Prop where
  n1 : r.n1.toNat + 2 ^ 12 ≤ 2 ^ 64
  n2 : r.n2.toNat + 2 ^ 12 ≤ 2 ^ 64
  n3 : r.n3.toNat + 2 ^ 12 ≤ 2 ^ 64

theorem toNat_folded (r : Fe) : ((r.n4 >>> 48) * fold).toNat = r.folded := by
  have bound := r.n4.toNat_lt
  have constant : fold.toNat = 0x1000003D1 := rfl
  rw [toNat_mul_of_lt, toNat_shift48, constant, Fe.folded]
  rw [toNat_shift48, constant]
  omega

/-- The first pass takes `p` away as often as `2 ^ 256` goes into the highest limb, and what overflows. -/
theorem firstPass_value {r : Fe} (room : r.Room) :
    (firstPass r).value + r.n4.toNat / 2 ^ 48 * p + 2 ^ 64 * ((r.n0.toNat + r.folded) / 2 ^ 64) = r.value := by
  have masked : (r.n4 &&& mask48).toNat = r.n4.toNat % 2 ^ 48 := toNat_and_mask48 _
  have once := carry_value (t := { r with n4 := r.n4 &&& mask48 }) room.n1 room.n2 room.n3
    (by simp only [masked]; omega) (r.n4 >>> 48)
  simp only [Fe.value, masked, UInt64.toNat_add, toNat_folded] at once
  have folded : r.folded = r.n4.toNat / 2 ^ 48 * 0x1000003D1 := rfl
  simp only [Fe.value, firstPass]
  unfold p
  omega

/-- The first pass keeps the residue unless the lowest limb overflows. -/
theorem firstPass_residue_iff {r : Fe} (room : r.Room) :
    (firstPass r).value ≡ r.value [MOD p] ↔ r.n0.toNat + r.folded < 2 ^ 64 := by
  have value := firstPass_value room
  have bound := r.n0.toNat_lt
  have highest := r.n4.toNat_lt
  have folded : r.folded = r.n4.toNat / 2 ^ 48 * 0x1000003D1 := rfl
  have times : (firstPass r).value + r.n4.toNat / 2 ^ 48 * p ≡ (firstPass r).value [MOD p] :=
    Nat.add_mul_modulus_modEq_iff.mpr rfl
  constructor
  · intro same
    by_contra large
    -- The overflow is a power of two, which `p` does not divide.
    have one : (r.n0.toNat + r.folded) / 2 ^ 64 = 1 := by omega
    rw [one, Nat.mul_one] at value
    have lost : (firstPass r).value + r.n4.toNat / 2 ^ 48 * p + 2 ^ 64 ≡
        (firstPass r).value + r.n4.toNat / 2 ^ 48 * p + 0 [MOD p] := by
      rw [value, Nat.add_zero]
      exact (times.trans same).symm
    exact absurd (Nat.ModEq.add_left_cancel' _ lost) (by unfold p; decide)
  · intro small
    rw [Nat.div_eq_of_lt small, Nat.mul_zero, Nat.add_zero] at value
    rw [← value]
    exact times.symm

/-- Normalisation is right on an element exactly if its lowest limb does not overflow. -/
theorem feNormalize_residue_iff {r : Fe} (room : r.Room) :
    (feNormalize r).value = r.value % p ↔ r.n0.toNat + r.folded < 2 ^ 64 := by
  rw [feNormalize_value, ← firstPass_residue_iff room]
  rfl

end BitcoinWasm.Secp256k1
