import BitcoinWasm.Secp256k1.Checked

/-! Programs of field operations pass their checks and compute in the field.

The invariant is that every element is within its magnitude, and reduced if it says
so. A call that the magnitudes allow keeps it. A call that they do not allow fails a
check, so in a `VERIFY` build the magnitudes decide alone.
-/

set_option autoImplicit false

namespace BitcoinWasm.Secp256k1
open BitcoinWasm.Numbers

/-- An element that keeps its promises, up to a magnitude of `limit`. -/
structure CheckedFe.Sound (limit : Int) (a : CheckedFe) : Prop where
  low : 0 ≤ a.magnitude
  high : a.magnitude ≤ limit
  within : a.toFe.Within a.magnitude.toNat
  canonical : a.normalized = true → a.toFe.Canonical
  single : a.normalized = true → a.magnitude ≤ 1

/-! ## The check of one element -/

theorem toNat_magnitudeBound (limb : UInt64) {m : Int} (low : 0 ≤ m) (high : m ≤ 4096) (small : limb.toNat < 2 ^ 52) :
    (limb * UInt64.ofInt m).toNat = m.toNat * limb.toNat := by
  have word : (UInt64.ofInt m).toNat = m.toNat := toNat_ofInt low (by omega)
  have bound : limb.toNat * m.toNat ≤ limb.toNat * 4096 := Nat.mul_le_mul_left _ (by omega)
  rw [toNat_mul_of_lt, word, Nat.mul_comm]
  rw [word]
  omega

theorem Fe.Canonical.lt_lowest {a : Fe} (canonical : a.Canonical) (top : a.n4 = mask48)
    (middle : a.n3 &&& a.n2 &&& a.n1 = mask52) : a.n0 < lowest := by
  have passed : a.Passed := ⟨canonical.toReduced, by have := canonical.n4; omega⟩
  have order : a.n1 &&& a.n2 &&& a.n3 = mask52 := by
    rw [← middle, UInt64.and_comm (a.n1 &&& a.n2), UInt64.and_comm a.n1, UInt64.and_assoc]
  rw [← UInt64.not_le]
  intro large
  have above := (passed.limbs_iff canonical.n4).mp ⟨⟨top, order⟩, large⟩
  have below := canonical.small
  omega

theorem CheckedFe.Sound.verify {a : CheckedFe} (sound : a.Sound 2048) : feVerify a = true := by
  obtain ⟨low, high, ⟨n0, n1, n2, n3, n4⟩, canonical, single⟩ := sound
  have middle : mask52.toNat = 2 ^ 52 - 1 := rfl
  have top : mask48.toNat = 2 ^ 48 - 1 := rfl
  cases flag : a.normalized with
  | false =>
    have limb := toNat_magnitudeBound mask52 (m := 2 * a.magnitude) (by omega) (by omega) (by decide)
    have last := toNat_magnitudeBound mask48 (m := 2 * a.magnitude) (by omega) (by omega) (by decide)
    have double : (2 * a.magnitude).toNat = 2 * a.magnitude.toNat := by omega
    rw [double, middle] at limb
    rw [double, top] at last
    simp only [feVerify, flag, Bool.false_eq_true, if_false, Bool.and_eq_true, decide_eq_true_eq,
      UInt64.le_iff_toNat_le, limb, last]
    exact ⟨⟨⟨⟨⟨⟨n0, n1⟩, n2⟩, n3⟩, n4⟩, low⟩, high⟩
  | true =>
    have reduced := canonical flag
    have one : ∀ limb : UInt64, limb * UInt64.ofInt 1 = limb := by simp
    have limbs : (a.n0 ≤ mask52 && a.n1 ≤ mask52 && a.n2 ≤ mask52 && a.n3 ≤ mask52 && a.n4 ≤ mask48 &&
        0 ≤ a.magnitude && a.magnitude ≤ 2048 && a.magnitude ≤ 1) = true := by
      have s0 := reduced.n0
      have s1 := reduced.n1
      have s2 := reduced.n2
      have s3 := reduced.n3
      have s4 := reduced.n4
      simp only [Bool.and_eq_true, decide_eq_true_eq, UInt64.le_iff_toNat_le, middle, top]
      refine ⟨⟨⟨⟨⟨⟨⟨?_, ?_⟩, ?_⟩, ?_⟩, ?_⟩, low⟩, high⟩, single flag⟩ <;> omega
    simp only [feVerify, flag, if_true, one, limbs, Bool.true_and]
    split
    · next largest =>
      rw [Bool.and_eq_true, beq_iff_eq, beq_iff_eq] at largest
      exact decide_eq_true (reduced.lt_lowest largest.1 largest.2)
    · rfl

theorem feVerify_magnitude {a : CheckedFe} (verified : feVerify a = true) : 0 ≤ a.magnitude ∧ a.magnitude ≤ 2048 := by
  by_contra outside
  have fails : (decide (0 ≤ a.magnitude) && decide (a.magnitude ≤ 2048)) = false := by
    rw [Bool.eq_false_iff, Ne, Bool.and_eq_true, decide_eq_true_eq, decide_eq_true_eq]
    exact outside
  simp only [feVerify, Bool.and_assoc, fails, Bool.and_false, Bool.false_and] at verified
  split at verified <;> simp at verified

theorem verified_of_sound {a : CheckedFe} (sound : a.Sound 2048) :
    verified a.toFe a.magnitude a.normalized = some a := by
  have passes : feVerify ⟨a.toFe, a.magnitude, a.normalized⟩ = true := sound.verify
  simp only [verified, passes, verifyCheck_true_bind]
  rfl

theorem verified_eq_none {r : Fe} {magnitude : Int} {normalized : Bool} (outside : ¬ (0 ≤ magnitude ∧ magnitude ≤ 2048)) :
    verified r magnitude normalized = none := by
  have fails : feVerify ⟨r, magnitude, normalized⟩ = false := by
    rw [Bool.eq_false_iff]
    exact fun passes => outside (feVerify_magnitude passes)
  simp only [verified, fails, verifyCheck_false_bind]

/-! ## Simple elements -/

theorem feClear_within (m : Nat) : feClear.Within m := by
  constructor <;> exact Nat.zero_le _

theorem feClear_residue : feClear.residue = 0 := by
  have value : feClear.value = 0 := rfl
  rw [Fe.residue, value, Nat.cast_zero]

/-- Magnitude 0 is that of zero. -/
theorem Fe.Within.eq_clear {a : Fe} (within : a.Within 0) : a = feClear := by
  obtain ⟨n0, n1, n2, n3, n4⟩ := within
  cases a with
  | mk a0 a1 a2 a3 a4 =>
    simp only at n0 n1 n2 n3 n4
    simp only [feClear, Fe.mk.injEq, ← UInt64.toNat_inj, UInt64.toNat_zero]
    omega

theorem p_odd : p % 2 = 1 := by unfold p; rfl

theorem two_inv_mul_two : (2⁻¹ : ZMod p) * 2 = 1 := by
  have coprime : Nat.Coprime 2 p := Nat.coprime_two_left.mpr (Nat.odd_iff.mpr p_odd)
  have unit := ZMod.coe_mul_inv_eq_one 2 coprime
  rw [Nat.cast_ofNat] at unit
  rw [mul_comm, unit]

/-- Adding `p` to an odd limb makes it even. -/
theorem evened_even (a : UInt64) : (a + (lowest &&& ((0 - (a &&& 1)) >>> 12))) &&& 1 = 0 := by
  rw [halfMask_eq, ← UInt64.toNat_inj, toNat_and_one, UInt64.toNat_zero, UInt64.toNat_add]
  split
  · next odd =>
    have low : (lowest &&& mask52).toNat = 0xFFFFEFFFFFC2F := by decide
    rw [low]
    omega
  · rw [UInt64.and_zero, UInt64.toNat_zero]
    omega

theorem feClear_canonical : feClear.Canonical where
  n0 := by decide
  n1 := by decide
  n2 := by decide
  n3 := by decide
  n4 := by decide
  small := p_pos

theorem clear_sound {limit : Int} (low : 0 ≤ limit) : CheckedFe.clear.Sound limit :=
  ⟨le_rfl, low, feClear_within 0, fun _ => feClear_canonical, fun _ => by decide⟩

theorem feGetBounds_zero : feGetBounds 0 = feClear := by decide

theorem feSetInt_value {a : Int} (low : 0 ≤ a) (high : a ≤ 0x7FFF) :
    (feSetInt a).value = a.toNat ∧ (feSetInt a).Canonical := by
  have word : (UInt64.ofInt a).toNat = a.toNat := toNat_ofInt low (by omega)
  have value : (feSetInt a).value = a.toNat := by simp [feSetInt, Fe.value, word]
  refine ⟨value, ⟨?_, Nat.two_pow_pos _, Nat.two_pow_pos _, Nat.two_pow_pos _⟩, Nat.two_pow_pos _, ?_⟩
  · simp only [feSetInt, word]
    omega
  · rw [value]
    unfold p
    omega

theorem feSetInt_residue {a : Int} (low : 0 ≤ a) (high : a ≤ 0x7FFF) : (feSetInt a).residue = (a : ZMod p) := by
  rw [Fe.residue, (feSetInt_value low high).1, ← Int.cast_natCast, Int.toNat_of_nonneg low]

/-! ## The checks of a normalisation -/

theorem Fe.Passed.no_carry {t : Fe} (passed : t.Passed) : (t.n4 >>> 49 == 0) = true := by
  have top := passed.n4
  have shifted : (t.n4 >>> 49).toNat = t.n4.toNat / 2 ^ 49 := toNat_shiftRight t.n4 (by decide)
  rw [beq_iff_eq, ← UInt64.toNat_inj, shifted, UInt64.toNat_zero]
  omega

/-- Bit 256 is set after the second pass exactly if a reduction was needed. -/
theorem Fe.Passed.carried {t : Fe} (passed : t.Passed) :
    ((carry t (finalReduction t)).n4 >>> 48 == finalReduction t) = true := by
  have bit := passed.finalReduction_toNat
  have second := passed.carry_value (x := finalReduction t) (by rw [bit]; split <;> decide)
  have bound := passed.value_lt
  obtain ⟨n0, n1, n2, n3⟩ := carry_reduced t (finalReduction t)
  rw [beq_iff_eq, ← UInt64.toNat_inj, toNat_shift48]
  generalize carry t (finalReduction t) = s at second n0 n1 n2 n3 ⊢
  unfold Fe.value p at *
  split at bit <;> omega

/-- A canonical element passes the first pass unchanged. -/
theorem Fe.Canonical.firstPass_eq {a : Fe} (canonical : a.Canonical) : firstPass a = a := by
  have value := firstPass_value (canonical.within.room (by decide))
  have top : a.n4.toNat / 2 ^ 48 = 0 := Nat.div_eq_of_lt canonical.n4
  have low := canonical.n0
  have whole : (a.n0.toNat + a.folded) / 2 ^ 64 = 0 := by
    rw [Fe.folded, top]
    omega
  rw [top, whole, Nat.zero_mul, Nat.add_zero, Nat.mul_zero, Nat.add_zero] at value
  exact (carry_reduced _ _).eq_of_value canonical.toReduced value

/-! ## One call -/

/-- An operation keeps to the kind it is given, and fails where it is given none. -/
def Meets (limit : Int) (result : Option CheckedFe) (value : ZMod p) : Option Kind → Prop
  | some kind => ∃ a : CheckedFe, result = some a ∧ a.Sound limit ∧ a.kind = kind ∧
      (limit ≤ 2047 → a.toFe.residue = value)
  | none => limit = 2048 → result = none

section
variable {limit : Int} {a b r : CheckedFe}

theorem CheckedFe.Sound.mono {m : Int} (sound : a.Sound limit) (le : limit ≤ m) : a.Sound m :=
  { sound with high := sound.high.trans le }

theorem meets_demand {holds : Prop} [Decidable holds] {result : Option CheckedFe} {value : ZMod p} {kind : Kind}
    (allowed : holds → Meets limit result value (some kind)) (forbidden : ¬ holds → limit = 2048 → result = none) :
    Meets limit result value (demand holds kind) := by
  by_cases decided : holds
  · rw [demand, if_pos decided]
    exact allowed decided
  · rw [demand, if_neg decided]
    exact forbidden decided

/-- The usual end of an operation. -/
theorem meets_verified {value : ZMod p} (few : limit ≤ 2048) (sound : a.Sound limit)
    (residue : limit ≤ 2047 → a.toFe.residue = value) :
    Meets limit (verified a.toFe a.magnitude a.normalized) value (some a.kind) :=
  ⟨a, verified_of_sound (sound.mono few), sound, rfl, residue⟩

/-- The end of an operation that leaves the element not normalized. -/
theorem meets_loose {limbs : Fe} {magnitude : Int} {value : ZMod p} (few : limit ≤ 2048) (low : 0 ≤ magnitude)
    (high : magnitude ≤ limit) (within : limbs.Within magnitude.toNat) (residue : limit ≤ 2047 → limbs.residue = value) :
    Meets limit (verified limbs magnitude false) value (some ⟨magnitude, false⟩) := by
  have sound : CheckedFe.Sound limit ⟨limbs, magnitude, false⟩ := ⟨low, high, within, nofun, nofun⟩
  exact meets_verified few sound residue

theorem meets_canonical {limbs : Fe} {magnitude : Int} {value : ZMod p} (few : limit ≤ 2048) (low : 0 ≤ magnitude)
    (single : magnitude ≤ 1) (high : magnitude ≤ limit) (within : limbs.Within magnitude.toNat)
    (canonical : limbs.Canonical) (residue : limit ≤ 2047 → limbs.residue = value) :
    Meets limit (verified limbs magnitude true) value (some ⟨magnitude, true⟩) := by
  have sound : CheckedFe.Sound limit ⟨limbs, magnitude, true⟩ :=
    ⟨low, high, within, fun _ => canonical, fun _ => single⟩
  exact meets_verified few sound residue

theorem CheckedFe.normalize_eq (r : CheckedFe) : r.normalize = verified (feNormalize r.toFe) 1 true :=
  have passed := firstPass_passed r.toFe
  (verifyCheck_bind passed.no_carry _).trans (verifyCheck_bind passed.carried _)

theorem CheckedFe.normalizeVar_eq (r : CheckedFe) : r.normalizeVar = r.normalize := by
  have passed := firstPass_passed r.toFe
  have carried := passed.carried
  have bit := passed.finalReduction_toNat
  rw [CheckedFe.normalize_eq, ← feNormalizeVar_eq]
  apply (verifyCheck_bind passed.no_carry _).trans
  by_cases needed : finalReduction (firstPass r.toFe) ≠ 0
  · have one : finalReduction (firstPass r.toFe) = 1 := by
      rw [← UInt64.toNat_inj, bit, UInt64.toNat_one, if_pos]
      by_contra small
      rw [if_neg small] at bit
      exact needed (UInt64.toNat_inj.mp bit)
    have checked : ((carry (firstPass r.toFe) 1).n4 >>> 48 == finalReduction (firstPass r.toFe)) = true := by
      rw [one] at carried ⊢
      exact carried
    exact (if_pos needed).trans (verifyCheck_bind checked _)
  · exact if_neg needed

theorem meets_normalize (few : limit ≤ 2048) (one : 1 ≤ limit) (sound : r.Sound limit) :
    Meets limit r.normalize r.toFe.residue (some ⟨1, true⟩) := by
  have canonical := feNormalize_canonical r.toFe
  have start := sound.low
  have most := sound.high
  rw [CheckedFe.normalize_eq]
  apply meets_canonical few (by decide) (by decide) one canonical.within canonical
  intro fewer
  exact sound.within.normalize_residue (by omega)

theorem meets_normalizeVar (few : limit ≤ 2048) (one : 1 ≤ limit) (sound : r.Sound limit) :
    Meets limit r.normalizeVar r.toFe.residue (some ⟨1, true⟩) := by
  rw [CheckedFe.normalizeVar_eq]
  exact meets_normalize few one sound

theorem meets_normalizeWeak (few : limit ≤ 2048) (one : 1 ≤ limit) (sound : r.Sound limit) :
    Meets limit r.normalizeWeak r.toFe.residue (some ⟨1, r.normalized⟩) := by
  have passed := firstPass_passed r.toFe
  have start := sound.low
  have most := sound.high
  have residue : limit ≤ 2047 → (feNormalizeWeak r.toFe).residue = r.toFe.residue :=
    fun fewer => sound.within.firstPass_residue (by omega)
  simp only [CheckedFe.normalizeWeak, passed.no_carry, verifyCheck_true_bind]
  cases flag : r.normalized with
  | false => exact meets_loose few (by decide) one passed.within residue
  | true =>
    have canonical : (feNormalizeWeak r.toFe).Canonical := by
      rw [feNormalizeWeak, (sound.canonical flag).firstPass_eq]
      exact sound.canonical flag
    exact meets_canonical few (by decide) (by decide) one passed.within canonical residue

theorem meets_getBounds {m : Int} (few : limit ≤ 2048) :
    Meets limit (CheckedFe.getBounds m) (feGetBounds m).residue (demand (0 ≤ m ∧ m ≤ limit) ⟨m, m == 0⟩) := by
  apply meets_demand
  · rintro ⟨low, high⟩
    have most : m ≤ 2048 := high.trans few
    have within := feGetBounds_within low most
    simp only [CheckedFe.getBounds, low, most, decide_true, verifyCheck_true_bind]
    cases zero : m == 0 with
    | false => exact meets_loose few low high within fun _ => rfl
    | true =>
      have canonical : (feGetBounds m).Canonical := by
        rw [beq_iff_eq.mp zero, feGetBounds_zero]
        exact feClear_canonical
      have single : m ≤ 1 := by
        rw [beq_iff_eq.mp zero]
        decide
      exact meets_canonical few low single high within canonical fun _ => rfl
  · rintro outside rfl
    by_cases low : 0 ≤ m
    · have high : ¬ m ≤ 2048 := fun high => outside ⟨low, high⟩
      simp [CheckedFe.getBounds, low, high]
    · simp [CheckedFe.getBounds, low]

theorem meets_setInt {k : Int} (few : limit ≤ 2048) (one : 1 ≤ limit) :
    Meets limit (CheckedFe.setInt k) k (demand (0 ≤ k ∧ k ≤ 0x7FFF) ⟨if k ≠ 0 then 1 else 0, true⟩) := by
  apply meets_demand
  · rintro ⟨low, high⟩
    have canonical := (feSetInt_value low high).2
    have residue := feSetInt_residue low high
    simp only [CheckedFe.setInt, low, high, decide_true, Bool.and_true, verifyCheck_true_bind]
    split
    · exact meets_canonical few (by decide) (by decide) one canonical.within canonical fun _ => residue
    · next zero =>
      have within : (feSetInt k).Within 0 := by
        rw [not_not.mp zero]
        exact feClear_within 0
      exact meets_canonical few (by decide) (by decide) (by omega) within canonical fun _ => residue
  · rintro outside rfl
    have fails : (decide (0 ≤ k) && decide (k ≤ 0x7FFF)) = false := by
      rw [Bool.eq_false_iff, Ne, Bool.and_eq_true, decide_eq_true_eq, decide_eq_true_eq]
      exact outside
    simp only [CheckedFe.setInt, fails, verifyCheck_false_bind]

theorem meets_clear (zero : 0 ≤ limit) : Meets limit (some CheckedFe.clear) 0 (some ⟨0, true⟩) :=
  ⟨CheckedFe.clear, rfl, clear_sound zero, rfl, fun _ => feClear_residue⟩

theorem meets_cmov {flag : Bool} (left : r.Sound limit) (right : a.Sound limit) :
    Meets limit (some (r.cmov a flag.toInt)) (if flag then a.toFe.residue else r.toFe.residue)
      (some (if flag then a.kind else r.kind)) := by
  have moved : r.cmov a flag.toInt = if flag then a else r := by
    rw [CheckedFe.cmov, feCmov_eq]
    cases flag <;> rfl
  rw [moved]
  cases flag with
  | false => exact ⟨r, rfl, left, rfl, fun _ => rfl⟩
  | true => exact ⟨a, rfl, right, rfl, fun _ => rfl⟩

theorem meets_add (few : limit ≤ 2048) (left : r.Sound limit) (right : a.Sound limit) :
    Meets limit (r.add a) (r.toFe.residue + a.toFe.residue)
      (demand (r.magnitude + a.magnitude ≤ limit) ⟨r.magnitude + a.magnitude, false⟩) := by
  have passes := (right.mono few).verify
  have sum : (r.magnitude + a.magnitude).toNat = r.magnitude.toNat + a.magnitude.toNat := by
    have := left.low
    have := right.low
    omega
  simp only [CheckedFe.add, passes, verifyCheck_true_bind]
  apply meets_demand
  · intro le
    have low : 0 ≤ r.magnitude + a.magnitude := Int.add_nonneg left.low right.low
    have added := feAdd_value left.within right.within (by omega)
    apply meets_loose few low le
    · rw [sum]
      exact added.2
    · intro _
      exact feAdd_residue left.within right.within (by omega)
  · rintro large rfl
    exact verified_eq_none fun range => large range.2

theorem meets_negate {m : Int} (few : limit ≤ 2048) (sound : a.Sound limit) :
    Meets limit (a.negate m) (-a.toFe.residue) (demand (a.magnitude ≤ m ∧ m + 1 ≤ limit) ⟨m + 1, false⟩) := by
  have passes := (sound.mono few).verify
  have start := sound.low
  apply meets_demand
  · rintro ⟨le, above⟩
    have low : 0 ≤ m := start.trans le
    have bottom : lowest.toNat = 0xFFFFEFFFFFC2F := rfl
    have next : (m + 1).toNat = m.toNat + 1 := by omega
    have middle : mask52.toNat = 2 ^ 52 - 1 := rfl
    have top : mask48.toNat = 2 ^ 48 - 1 := rfl
    have s0 := toNat_limbBound lowest (m := m + 1) (by omega) (by omega) (by decide)
    have s1 := toNat_limbBound mask52 (m := m + 1) (by omega) (by omega) (by decide)
    have s2 := toNat_limbBound mask48 (m := m + 1) (by omega) (by omega) (by decide)
    have s3 := toNat_limbBound mask52 (m := m) low (by omega) (by decide)
    have s4 := toNat_limbBound mask48 (m := m) low (by omega) (by decide)
    have checks : limbBound mask52 m ≤ limbBound lowest (m + 1) ∧ limbBound mask52 m ≤ limbBound mask52 (m + 1) ∧
        limbBound mask48 m ≤ limbBound mask48 (m + 1) := by
      simp only [UInt64.le_iff_toNat_le, s0, s1, s2, s3, s4, bottom, middle, top, next]
      omega
    have within : a.toFe.Within m.toNat := sound.within.mono (by omega)
    have negated := feNegate_value within low (by omega)
    simp only [CheckedFe.negate, passes, le, checks, decide_true, verifyCheck_true_bind]
    apply meets_loose few (by omega) above
    · rw [next]
      exact negated.2
    · intro _
      exact feNegate_residue within low (by omega)
  · rintro outside rfl
    by_cases le : a.magnitude ≤ m
    · have failed : verified (feNegate a.toFe m) (m + 1) false = none :=
        verified_eq_none fun range => outside ⟨le, range.2⟩
      simp only [CheckedFe.negate, passes, le, decide_true, verifyCheck_true_bind, failed]
      simp
    · simp [CheckedFe.negate, le]

theorem meets_mulInt {k : Int} (few : limit ≤ 2048) (sound : r.Sound limit) :
    Meets limit (r.mulInt k) (r.toFe.residue * k)
      (demand (0 ≤ r.magnitude * k ∧ r.magnitude * k ≤ limit) ⟨r.magnitude * k, false⟩) := by
  apply meets_demand
  · rintro ⟨low, high⟩
    by_cases zero : r.magnitude = 0
    · -- Nothing is multiplied, whatever the factor is.
      have within := sound.within
      rw [zero, Int.toNat_zero] at within
      have clear := within.eq_clear
      have product : feMulInt r.toFe k = feClear := by simp [clear, feMulInt, feClear]
      apply meets_loose few low high
      · rw [product]
        exact feClear_within _
      · intro _
        rw [product, clear, feClear_residue, zero_mul]
    · have positive : 0 < r.magnitude := by
        have := sound.low
        omega
      have factor : 0 ≤ k := nonneg_of_mul_nonneg_right low positive
      have bound : k ≤ 2048 :=
        calc k = 1 * k := (one_mul k).symm
          _ ≤ r.magnitude * k := mul_le_mul_of_nonneg_right positive factor
          _ ≤ 2048 := high.trans few
      have magnitude : (r.magnitude * k).toNat = r.magnitude.toNat * k.toNat := Int.toNat_mul sound.low factor
      have few' : r.magnitude.toNat * k.toNat ≤ 2048 := by
        rw [← magnitude]
        omega
      apply meets_loose few low high
      · rw [magnitude]
        exact (feMulInt_value sound.within factor bound few').2
      · intro _
        exact feMulInt_residue sound.within factor bound few'
  · rintro outside rfl
    exact verified_eq_none outside

theorem meets_half (few : limit ≤ 2048) (two : 2 ≤ limit) (sound : r.Sound limit) :
    Meets limit r.half (r.toFe.residue * 2⁻¹) (demand (r.magnitude < 32) ⟨r.magnitude / 2 + 1, false⟩) := by
  have passes := (sound.mono few).verify
  have start := sound.low
  have most := sound.high
  apply meets_demand
  · intro small
    have halved := feHalf_value sound.within (by omega)
    have magnitude : (r.magnitude / 2 + 1).toNat = r.magnitude.toNat / 2 + 1 := by omega
    have shifted : r.magnitude >>> (1 : Nat) = r.magnitude / 2 := by
      rw [Int.shiftRight_eq_div_pow]
      rfl
    simp only [CheckedFe.half, passes, small, evened_even, beq_self_eq_true, decide_true, verifyCheck_true_bind, shifted]
    apply meets_loose few (by omega) (by omega)
    · rw [magnitude]
      exact halved.2
    · intro _
      rw [← feHalf_residue sound.within (by omega), mul_comm, ← mul_assoc, two_inv_mul_two, one_mul]
  · rintro large rfl
    simp [CheckedFe.half, passes, large]

theorem meets_mul (inner : Multiplication) (lawful : inner.Lawful) (few : limit ≤ 2048) (one : 1 ≤ limit)
    {apart : Prop} [Decidable apart] (left : a.Sound limit) (right : b.Sound limit) :
    Meets limit (if apart then a.mul inner b else none) (a.toFe.residue * b.toFe.residue)
      (demand (apart ∧ a.magnitude ≤ 8 ∧ b.magnitude ≤ 8) ⟨1, false⟩) := by
  have first := (left.mono few).verify
  have second := (right.mono few).verify
  apply meets_demand
  · rintro ⟨distinct, small, small'⟩
    have within : a.toFe.Within 8 := left.within.mono (by omega)
    have within' : b.toFe.Within 8 := right.within.mono (by omega)
    simp only [CheckedFe.mul, distinct, first, second, small, small', decide_true, verifyCheck_true_bind, if_true]
    exact meets_loose few (by decide) one (lawful.mul_within within within')
      fun _ => lawful.mul_residue within within'
  · rintro outside rfl
    by_cases distinct : apart
    · rw [if_pos distinct]
      by_cases small : a.magnitude ≤ 8
      · have large : ¬ b.magnitude ≤ 8 := fun small' => outside ⟨distinct, small, small'⟩
        simp [CheckedFe.mul, small, large]
      · simp [CheckedFe.mul, small]
    · exact if_neg distinct

theorem meets_sqr (inner : Multiplication) (lawful : inner.Lawful) (few : limit ≤ 2048) (one : 1 ≤ limit)
    (sound : a.Sound limit) :
    Meets limit (a.sqr inner) (a.toFe.residue * a.toFe.residue) (demand (a.magnitude ≤ 8) ⟨1, false⟩) := by
  have passes := (sound.mono few).verify
  apply meets_demand
  · intro small
    have within : a.toFe.Within 8 := sound.within.mono (by omega)
    simp only [CheckedFe.sqr, passes, small, decide_true, verifyCheck_true_bind]
    exact meets_loose few (by decide) one (lawful.sqr_within within) fun _ => lawful.sqr_residue within
  · rintro large rfl
    simp [CheckedFe.sqr, large]

/-! ## Programs -/

/-- What the magnitudes say of a call is so. -/
theorem call_meets (inner : Multiplication) (lawful : inner.Lawful) (few : limit ≤ 2048) (two : 2 ≤ limit)
    {elements : Elements} (sound : ∀ i, (elements i).Sound limit) (call : FieldCall) :
    Meets limit (call.result inner elements) (call.meaning fun i => (elements i).toFe.residue)
      (call.kind limit fun i => (elements i).kind) := by
  have one : 1 ≤ limit := by omega
  cases call with
  | getBounds r m => exact meets_getBounds few
  | normalize r => exact meets_normalize few one (sound r)
  | normalizeWeak r => exact meets_normalizeWeak few one (sound r)
  | normalizeVar r => exact meets_normalizeVar few one (sound r)
  | setInt r a => exact meets_setInt few one
  | clear r => exact meets_clear (by omega)
  | copy r a => exact ⟨elements a, rfl, sound a, rfl, fun _ => rfl⟩
  | negate r a m => exact meets_negate few (sound a)
  | mulInt r a => exact meets_mulInt few (sound r)
  | add r a => exact meets_add few (sound r) (sound a)
  | mul r a b => exact meets_mul inner lawful few one (sound a) (sound b)
  | sqr r a => exact meets_sqr inner lawful few one (sound a)
  | cmov r a flag => exact meets_cmov (sound r) (sound a)
  | half r => exact meets_half few two (sound r)

theorem step_meets (inner : Multiplication) (lawful : inner.Lawful) (few : limit ≤ 2048) (two : 2 ≤ limit)
    {elements : Elements} (sound : ∀ i, (elements i).Sound limit) {call : FieldCall} {kind : Kind}
    (allowed : call.kind limit (fun i => (elements i).kind) = some kind) :
    ∃ after, call.step inner elements = some after ∧ (∀ i, (after i).Sound limit) ∧
      (fun i => (after i).kind) = Function.update (fun i => (elements i).kind) call.target kind ∧
      (limit ≤ 2047 → (fun i => (after i).toFe.residue) =
        Function.update (fun i => (elements i).toFe.residue) call.target
          (call.meaning fun i => (elements i).toFe.residue)) := by
  have meets := call_meets inner lawful few two sound call
  rw [allowed] at meets
  obtain ⟨a, result, soundAfter, kindAfter, residue⟩ := meets
  refine ⟨Function.update elements call.target a, ?_, ?_, ?_, ?_⟩
  · rw [FieldCall.step, result, Option.map_some]
  · intro i
    by_cases written : i = call.target
    · rw [written, Function.update_self]
      exact soundAfter
    · rw [Function.update_of_ne written]
      exact sound i
  · funext i
    by_cases written : i = call.target
    · rw [written, Function.update_self, Function.update_self]
      exact kindAfter
    · rw [Function.update_of_ne written, Function.update_of_ne written]
  · intro fewer
    funext i
    by_cases written : i = call.target
    · rw [written, Function.update_self, Function.update_self]
      exact residue fewer
    · rw [Function.update_of_ne written, Function.update_of_ne written]

/-- A program whose magnitudes stay within the limit passes all its checks. -/
theorem run_meets (inner : Multiplication) (lawful : inner.Lawful) (few : limit ≤ 2048) (two : 2 ≤ limit)
    (calls : List FieldCall) {elements : Elements} (sound : ∀ i, (elements i).Sound limit) {kinds : Kinds}
    (allowed : kindsAfter limit calls (fun i => (elements i).kind) = some kinds) :
    ∃ after, runCalls inner calls elements = some after ∧ (∀ i, (after i).Sound limit) ∧
      (fun i => (after i).kind) = kinds ∧
      (limit ≤ 2047 → (fun i => (after i).toFe.residue) = valuesAfter calls fun i => (elements i).toFe.residue) := by
  induction calls generalizing elements with
  | nil => exact ⟨elements, rfl, sound, Option.some.inj allowed, fun _ => rfl⟩
  | cons call rest ih =>
    obtain ⟨kind, first, others⟩ := Option.bind_eq_some_iff.mp allowed
    obtain ⟨next, step, soundNext, kindsNext, valuesNext⟩ := step_meets inner lawful few two sound first
    rw [← kindsNext] at others
    obtain ⟨after, run, soundAfter, kindsAre, valuesAre⟩ := ih soundNext others
    refine ⟨after, ?_, soundAfter, kindsAre, ?_⟩
    · rw [runCalls, step]
      exact run
    · intro fewer
      rw [valuesAre fewer, valuesNext fewer, valuesAfter]

/-- A program that goes beyond the largest magnitude fails a check. -/
theorem run_fails (inner : Multiplication) (lawful : inner.Lawful) (whole : limit = 2048) (calls : List FieldCall)
    {elements : Elements} (sound : ∀ i, (elements i).Sound limit)
    (forbidden : kindsAfter limit calls (fun i => (elements i).kind) = none) :
    runCalls inner calls elements = none := by
  have few : limit ≤ 2048 := by omega
  have two : 2 ≤ limit := by omega
  induction calls generalizing elements with
  | nil => exact absurd forbidden nofun
  | cons call rest ih =>
    have meets := call_meets inner lawful few two sound call
    rw [runCalls]
    cases first : call.kind limit fun i => (elements i).kind with
    | none =>
      rw [first] at meets
      rw [FieldCall.step, meets whole]
      rfl
    | some kind =>
      obtain ⟨next, step, soundNext, kindsNext, _⟩ := step_meets inner lawful few two sound first
      rw [kindsAfter, first, Option.bind_some, ← kindsNext] at forbidden
      rw [step]
      exact ih soundNext forbidden

end

/-! ## A multiplication by value -/

def Fe.ofNat (n : Nat) : Fe :=
  ⟨UInt64.ofNat (n % 2 ^ 52), UInt64.ofNat (n / 2 ^ 52 % 2 ^ 52), UInt64.ofNat (n / 2 ^ 104 % 2 ^ 52),
    UInt64.ofNat (n / 2 ^ 156 % 2 ^ 52), UInt64.ofNat (n / 2 ^ 208 % 2 ^ 48)⟩

theorem Fe.ofNat_canonical {n : Nat} (small : n < p) : (Fe.ofNat n).Canonical ∧ (Fe.ofNat n).value = n := by
  have s0 := toNat_ofNat_of_lt (n := n % 2 ^ 52) (by omega)
  have s1 := toNat_ofNat_of_lt (n := n / 2 ^ 52 % 2 ^ 52) (by omega)
  have s2 := toNat_ofNat_of_lt (n := n / 2 ^ 104 % 2 ^ 52) (by omega)
  have s3 := toNat_ofNat_of_lt (n := n / 2 ^ 156 % 2 ^ 52) (by omega)
  have s4 := toNat_ofNat_of_lt (n := n / 2 ^ 208 % 2 ^ 48) (by omega)
  have value : (Fe.ofNat n).value = n := by
    unfold p at small
    simp only [Fe.value, Fe.ofNat, s0, s1, s2, s3, s4]
    omega
  refine ⟨⟨⟨?_, ?_, ?_, ?_⟩, ?_, ?_⟩, value⟩
  · simp only [Fe.ofNat, s0]
    omega
  · simp only [Fe.ofNat, s1]
    omega
  · simp only [Fe.ofNat, s2]
    omega
  · simp only [Fe.ofNat, s3]
    omega
  · simp only [Fe.ofNat, s4]
    omega
  · rw [value]
    exact small

/-- A multiplication that reduces all the way. -/
def byValue : Multiplication where
  mulInner a b := Fe.ofNat (a.value * b.value % p)
  sqrInner a := Fe.ofNat (a.value * a.value % p)

theorem byValue_lawful : byValue.Lawful := by
  have product (a b : Fe) := Fe.ofNat_canonical (Nat.mod_lt (a.value * b.value) p_pos)
  have residue (a b : Fe) : (Fe.ofNat (a.value * b.value % p)).residue = a.residue * b.residue := by
    rw [Fe.residue, (product a b).2, ZMod.natCast_mod, Nat.cast_mul]
    rfl
  exact ⟨fun _ _ => (product _ _).1.within, fun _ _ => residue _ _, fun _ => (product _ _).1.within, fun _ => residue _ _⟩

/-! ## Main results -/

/-- In a `VERIFY` build the magnitudes alone decide whether a program passes its checks. -/
theorem magnitudes_decide (inner : Multiplication) (lawful : inner.Lawful) (calls : List FieldCall)
    (elements : Elements) (sound : ∀ i, (elements i).Sound 2048) :
    runCalls inner calls elements = none ↔ kindsAfter 2048 calls (fun i => (elements i).kind) = none := by
  constructor
  · intro failed
    cases allowed : kindsAfter 2048 calls fun i => (elements i).kind with
    | none => rfl
    | some kinds =>
      obtain ⟨after, run, _⟩ := run_meets inner lawful le_rfl (by decide) calls sound allowed
      rw [failed] at run
      exact absurd run nofun
  · exact run_fails inner lawful rfl calls sound

/-- A program that stays below the largest magnitude computes in the field. -/
theorem programs_compute (inner : Multiplication) (lawful : inner.Lawful) (calls : List FieldCall)
    (elements : Elements) (sound : ∀ i, (elements i).Sound 2047) {kinds : Kinds}
    (allowed : kindsAfter 2047 calls (fun i => (elements i).kind) = some kinds) :
    ∃ after, runCalls inner calls elements = some after ∧ (∀ i, (after i).Sound 2047) ∧
      (fun i => (after i).kind) = kinds ∧
      (fun i => (after i).toFe.residue) = valuesAfter calls fun i => (elements i).toFe.residue := by
  obtain ⟨after, run, soundAfter, kindsAre, valuesAre⟩ := run_meets inner lawful (by decide) (by decide) calls sound allowed
  exact ⟨after, run, soundAfter, kindsAre, valuesAre le_rfl⟩

/-- Two, three, their product and the negation of that, normalized. -/
def demoCalls : List FieldCall := [.setInt 0 2, .setInt 1 3, .mul 2 0 1, .add 2 0, .negate 3 2 2, .normalize 3]

theorem magnitudes_decide_demo :
    runCalls byValue (demoCalls ++ [.negate 3 2 1]) (fun _ => CheckedFe.clear) = none ↔
      kindsAfter 2048 (demoCalls ++ [.negate 3 2 1]) (fun _ => CheckedFe.clear.kind) = none :=
  magnitudes_decide byValue byValue_lawful _ _ fun _ => clear_sound (by decide)

theorem programs_compute_demo : ∃ after, runCalls byValue demoCalls (fun _ => CheckedFe.clear) = some after ∧
    (after 3).toFe.residue = -(2 * 3 + 2) := by
  obtain ⟨after, run, _, _, values⟩ := programs_compute byValue byValue_lawful demoCalls
    (fun _ => CheckedFe.clear) (fun _ => clear_sound (by decide)) rfl
  refine ⟨after, run, (congrFun values 3).trans ?_⟩
  simp [demoCalls, valuesAfter, FieldCall.meaning, FieldCall.target, Function.update]

end BitcoinWasm.Secp256k1
