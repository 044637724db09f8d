import Mathlib
import BitcoinWasm.Encoding.Positional
import BitcoinWasm.Secp256k1.Magnitude

/-! Field elements as 32 big-endian bytes and as four words. -/

set_option autoImplicit false

namespace BitcoinWasm.Secp256k1
open BitcoinWasm.Numbers BitcoinWasm.Encoding

/-! ## The source -/

/-- The element of 32 bytes, and whether they are those of a number below `p`. -/
def feSetB32 (a : Fin 32 → UInt8) : Fe × Bool :=
  let wide (x : UInt8) : UInt64 := x.toUInt64
  let n0 := wide (a 31) ||| (wide (a 30) <<< 8) ||| (wide (a 29) <<< 16) ||| (wide (a 28) <<< 24) |||
    (wide (a 27) <<< 32) ||| (wide (a 26) <<< 40) ||| (wide (a 25 &&& 0xF) <<< 48)
  let n1 := wide ((a 25 >>> 4) &&& 0xF) ||| (wide (a 24) <<< 4) ||| (wide (a 23) <<< 12) ||| (wide (a 22) <<< 20) |||
    (wide (a 21) <<< 28) ||| (wide (a 20) <<< 36) ||| (wide (a 19) <<< 44)
  let n2 := wide (a 18) ||| (wide (a 17) <<< 8) ||| (wide (a 16) <<< 16) ||| (wide (a 15) <<< 24) |||
    (wide (a 14) <<< 32) ||| (wide (a 13) <<< 40) ||| (wide (a 12 &&& 0xF) <<< 48)
  let n3 := wide ((a 12 >>> 4) &&& 0xF) ||| (wide (a 11) <<< 4) ||| (wide (a 10) <<< 12) ||| (wide (a 9) <<< 20) |||
    (wide (a 8) <<< 28) ||| (wide (a 7) <<< 36) ||| (wide (a 6) <<< 44)
  let n4 := wide (a 5) ||| (wide (a 4) <<< 8) ||| (wide (a 3) <<< 16) ||| (wide (a 2) <<< 24) |||
    (wide (a 1) <<< 32) ||| (wide (a 0) <<< 40)
  (⟨n0, n1, n2, n3, n4⟩, !(n4 == mask48 && (n3 &&& n2 &&& n1) == mask52 && lowest ≤ n0))

/-- A byte of a limb. -/
def byteAt (x : UInt64) : UInt8 := UInt64.toUInt8 (x &&& 0xFF)

/-- A byte of the highest bits of one limb and the lowest bits of the next. -/
def byteAcross (low high : UInt64) : UInt8 := UInt64.toUInt8 (((low >>> 48) &&& (0xF : UInt64)) ||| ((high &&& (0xF : UInt64)) <<< 4))

def feGetB32 (a : Fe) : Fin 32 → UInt8 :=
  ![byteAt (a.n4 >>> 40), byteAt (a.n4 >>> 32), byteAt (a.n4 >>> 24), byteAt (a.n4 >>> 16), byteAt (a.n4 >>> 8),
    byteAt a.n4,
    byteAt (a.n3 >>> 44), byteAt (a.n3 >>> 36), byteAt (a.n3 >>> 28), byteAt (a.n3 >>> 20), byteAt (a.n3 >>> 12),
    byteAt (a.n3 >>> 4), byteAcross a.n2 a.n3,
    byteAt (a.n2 >>> 40), byteAt (a.n2 >>> 32), byteAt (a.n2 >>> 24), byteAt (a.n2 >>> 16), byteAt (a.n2 >>> 8),
    byteAt a.n2,
    byteAt (a.n1 >>> 44), byteAt (a.n1 >>> 36), byteAt (a.n1 >>> 28), byteAt (a.n1 >>> 20), byteAt (a.n1 >>> 12),
    byteAt (a.n1 >>> 4), byteAcross a.n0 a.n1,
    byteAt (a.n0 >>> 40), byteAt (a.n0 >>> 32), byteAt (a.n0 >>> 24), byteAt (a.n0 >>> 16), byteAt (a.n0 >>> 8),
    byteAt a.n0]

def feToStorage (a : Fe) : FeStorage :=
  ⟨a.n0 ||| (a.n1 <<< 52), (a.n1 >>> 12) ||| (a.n2 <<< 40), (a.n2 >>> 24) ||| (a.n3 <<< 28),
    (a.n3 >>> 36) ||| (a.n4 <<< 16)⟩

def feFromStorage (a : FeStorage) : Fe :=
  ⟨a.n0 &&& mask52, (a.n0 >>> 52) ||| ((a.n1 <<< 12) &&& mask52), (a.n1 >>> 40) ||| ((a.n2 <<< 24) &&& mask52),
    (a.n2 >>> 28) ||| ((a.n3 <<< 36) &&& mask52), a.n3 >>> 16⟩

/-! ## Bytes to limbs -/

/-- The number that the bytes write. -/
def bytesValue (a : Fin 32 → UInt8) : Nat := numeral 256 ((List.ofFn a).map UInt8.toNat)

/-- A byte is joined above the bits of a word. -/
theorem toNat_or_byte {w : UInt64} {x : UInt8} {k : Nat} (small : k ≤ 48) (below : w.toNat < 2 ^ k) :
    (w ||| (x.toUInt64 <<< UInt64.ofNat k)).toNat = w.toNat + x.toNat * 2 ^ k ∧
      w.toNat + x.toNat * 2 ^ k < 2 ^ (k + 8) := by
  have bound := x.toNat_lt
  have top : x.toNat * 2 ^ k < 2 ^ 8 * 2 ^ k := Nat.mul_lt_mul_of_pos_right bound (Nat.two_pow_pos k)
  have word : 2 ^ 8 * 2 ^ k ≤ 2 ^ 64 := by
    rw [← pow_add]
    exact Nat.pow_le_pow_right (by decide) (by omega)
  have shifted : (x.toUInt64 <<< UInt64.ofNat k).toNat = x.toNat * 2 ^ k := by
    rw [toNat_shiftLeft _ (by omega), UInt8.toNat_toUInt64, Nat.mod_eq_of_lt (by omega)]
  have next : (x.toNat + 1) * 2 ^ k ≤ 2 ^ 8 * 2 ^ k := Nat.mul_le_mul_right _ bound
  rw [toNat_or_of_lt below shifted, shifted]
  refine ⟨rfl, ?_⟩
  rw [Nat.add_comm k 8, pow_add]
  rw [Nat.add_mul, Nat.one_mul] at next
  omega

/-- Six bytes from bit `k` on above a word of `k` bits; the last one may have fewer bits. -/
theorem toNat_limb {w : UInt64} (x1 x2 x3 x4 x5 x6 : UInt8) {k j : Nat} (small : k ≤ 8) (below : w.toNat < 2 ^ k)
    (last : x6.toNat < 2 ^ j) :
    (w ||| (x1.toUInt64 <<< UInt64.ofNat k) ||| (x2.toUInt64 <<< UInt64.ofNat (k + 8)) |||
        (x3.toUInt64 <<< UInt64.ofNat (k + 16)) ||| (x4.toUInt64 <<< UInt64.ofNat (k + 24)) |||
        (x5.toUInt64 <<< UInt64.ofNat (k + 32)) ||| (x6.toUInt64 <<< UInt64.ofNat (k + 40))).toNat =
      w.toNat + x1.toNat * 2 ^ k + x2.toNat * 2 ^ (k + 8) + x3.toNat * 2 ^ (k + 16) + x4.toNat * 2 ^ (k + 24) +
        x5.toNat * 2 ^ (k + 32) + x6.toNat * 2 ^ (k + 40) ∧
      w.toNat + x1.toNat * 2 ^ k + x2.toNat * 2 ^ (k + 8) + x3.toNat * 2 ^ (k + 16) + x4.toNat * 2 ^ (k + 24) +
        x5.toNat * 2 ^ (k + 32) + x6.toNat * 2 ^ (k + 40) < 2 ^ (k + 40 + j) := by
  obtain ⟨s1, b1⟩ := toNat_or_byte (x := x1) (by omega) below
  rw [← s1] at b1
  obtain ⟨s2, b2⟩ := toNat_or_byte (x := x2) (by omega) b1
  rw [← s2] at b2
  obtain ⟨s3, b3⟩ := toNat_or_byte (x := x3) (by omega) b2
  rw [← s3] at b3
  obtain ⟨s4, b4⟩ := toNat_or_byte (x := x4) (by omega) b3
  rw [← s4] at b4
  obtain ⟨s5, b5⟩ := toNat_or_byte (x := x5) (by omega) b4
  rw [← s5] at b5
  obtain ⟨s6, _⟩ := toNat_or_byte (x := x6) (by omega) b5
  simp only [Nat.add_assoc, Nat.reduceAdd] at s1 s2 s3 s4 s5 s6 b5
  have next : (x6.toNat + 1) * 2 ^ (k + 40) ≤ 2 ^ j * 2 ^ (k + 40) := Nat.mul_le_mul_right _ last
  rw [← pow_add, Nat.add_comm j, Nat.add_mul, Nat.one_mul] at next
  constructor
  · rw [s6, s5, s4, s3, s2, s1]
  · rw [← s1, ← s2, ← s3, ← s4, ← s5]
    omega

theorem toNat_nibble (x : UInt8) : (x &&& 0xF).toNat = x.toNat % 16 ∧ ((x >>> 4) &&& 0xF).toNat = x.toNat / 16 := by
  have low : ∀ y : UInt8, (y &&& 0xF).toNat = y.toNat % 2 ^ 4 := by
    intro y
    have ones : (0xF : UInt8).toNat = 2 ^ 4 - 1 := rfl
    rw [UInt8.toNat_and, ones, Nat.and_two_pow_sub_one_eq_mod]
  have shifted : (x >>> 4).toNat = x.toNat / 2 ^ 4 := by
    rw [UInt8.toNat_shiftRight]
    exact Nat.shiftRight_eq_div_pow ..
  have bound := x.toNat_lt
  refine ⟨low x, ?_⟩
  rw [low, shifted]
  omega

theorem feSetB32_value (a : Fin 32 → UInt8) :
    (feSetB32 a).1.value = bytesValue a ∧ (feSetB32 a).1.Reduced ∧ (feSetB32 a).1.n4.toNat < 2 ^ 48 := by
  have word : ∀ x : UInt8, x.toUInt64.toNat = x.toNat := UInt8.toNat_toUInt64
  have small : ∀ x : UInt8, x.toNat < 2 ^ 8 := UInt8.toNat_lt
  have nibble : ∀ x : UInt8, ((x >>> 4) &&& 0xF).toUInt64.toNat < 2 ^ 4 := by
    intro x
    have bound := small x
    rw [word, (toNat_nibble x).2]
    omega
  have byte : ∀ x : UInt8, x.toUInt64.toNat < 2 ^ 8 := fun x => (word x).trans_lt (small x)
  have low : ∀ x : UInt8, (x &&& 0xF).toNat < 2 ^ 4 := by
    intro x
    rw [(toNat_nibble x).1]
    exact Nat.mod_lt _ (by decide)
  obtain ⟨s0, b0⟩ : (feSetB32 a).1.n0.toNat = _ ∧ _ :=
    toNat_limb (a 30) (a 29) (a 28) (a 27) (a 26) (a 25 &&& 0xF) le_rfl (byte (a 31)) (low (a 25))
  obtain ⟨s1, b1⟩ : (feSetB32 a).1.n1.toNat = _ ∧ _ :=
    toNat_limb (a 24) (a 23) (a 22) (a 21) (a 20) (a 19) (by decide) (nibble (a 25)) (small (a 19))
  obtain ⟨s2, b2⟩ : (feSetB32 a).1.n2.toNat = _ ∧ _ :=
    toNat_limb (a 17) (a 16) (a 15) (a 14) (a 13) (a 12 &&& 0xF) le_rfl (byte (a 18)) (low (a 12))
  obtain ⟨s3, b3⟩ : (feSetB32 a).1.n3.toNat = _ ∧ _ :=
    toNat_limb (a 11) (a 10) (a 9) (a 8) (a 7) (a 6) (by decide) (nibble (a 12)) (small (a 6))
  -- The highest limb has one byte less.
  obtain ⟨s4, b4⟩ : ((feSetB32 a).1.n4 ||| ((0 : UInt8).toUInt64 <<< UInt64.ofNat 48)).toNat = _ ∧ _ :=
    toNat_limb (j := 0) (a 4) (a 3) (a 2) (a 1) (a 0) 0 le_rfl (byte (a 5)) (by decide)
  have none : (0 : UInt8).toUInt64 <<< UInt64.ofNat 48 = 0 := by decide
  rw [none, UInt64.or_zero] at s4
  rw [← s0] at b0
  rw [← s1] at b1
  rw [← s2] at b2
  rw [← s3] at b3
  rw [← s4] at b4
  rw [word, (toNat_nibble (a 25)).1] at s0
  rw [word, (toNat_nibble (a 25)).2] at s1
  rw [word, (toNat_nibble (a 12)).1] at s2
  rw [word, (toNat_nibble (a 12)).2] at s3
  rw [word, UInt8.toNat_zero] at s4
  have digits : bytesValue a = numeral 256 [(a 0).toNat, (a 1).toNat, (a 2).toNat, (a 3).toNat, (a 4).toNat,
      (a 5).toNat, (a 6).toNat, (a 7).toNat, (a 8).toNat, (a 9).toNat, (a 10).toNat, (a 11).toNat, (a 12).toNat,
      (a 13).toNat, (a 14).toNat, (a 15).toNat, (a 16).toNat, (a 17).toNat, (a 18).toNat, (a 19).toNat, (a 20).toNat,
      (a 21).toNat, (a 22).toNat, (a 23).toNat, (a 24).toNat, (a 25).toNat, (a 26).toNat, (a 27).toNat, (a 28).toNat,
      (a 29).toNat, (a 30).toNat, (a 31).toNat] := rfl
  simp only [Nat.reduceAdd] at s0 s1 s2 s3 s4
  refine ⟨?_, ⟨b0, b1, b2, b3⟩, b4⟩
  rw [digits, Fe.value]
  simp only [numeral, List.foldl]
  have b12 := small (a 12)
  have b25 := small (a 25)
  omega

theorem bytesValue_inj {a b : Fin 32 → UInt8} (same : bytesValue a = bytesValue b) : a = b := by
  have digits : ∀ c : Fin 32 → UInt8, ∀ digit ∈ ((List.ofFn c).map UInt8.toNat).reverse, digit < 256 := by
    intro c digit member
    obtain ⟨byte, _, rfl⟩ := List.mem_map.mp (List.mem_reverse.mp member)
    exact byte.toNat_lt
  have length : ((List.ofFn a).map UInt8.toNat).reverse.length = ((List.ofFn b).map UInt8.toNat).reverse.length := by
    simp
  rw [bytesValue, bytesValue, numeral_eq_ofDigits, numeral_eq_ofDigits] at same
  have lists := Nat.ofDigits_inj_of_len_eq (by decide) length (digits a) (digits b) same
  exact List.ofFn_injective (List.map_injective_iff.mpr (fun _ _ => UInt8.toNat_inj.mp) (List.reverse_injective lists))

/-- Bytes are accepted exactly if they write a number below `p`, and then the element is canonical. -/
theorem feSetB32_accepts (a : Fin 32 → UInt8) :
    ((feSetB32 a).2 = true ↔ bytesValue a < p) ∧ ((feSetB32 a).2 = true → (feSetB32 a).1.Canonical) := by
  obtain ⟨value, reduced, top⟩ := feSetB32_value a
  have passed : (feSetB32 a).1.Passed := ⟨reduced, by omega⟩
  have tests := passed.limbs_iff top
  have order : (feSetB32 a).1.n3 &&& (feSetB32 a).1.n2 &&& (feSetB32 a).1.n1 =
      (feSetB32 a).1.n1 &&& (feSetB32 a).1.n2 &&& (feSetB32 a).1.n3 := by
    rw [UInt64.and_comm, UInt64.and_comm (feSetB32 a).1.n3, UInt64.and_assoc]
  have result : (feSetB32 a).2 = !((feSetB32 a).1.n4 == mask48 &&
      ((feSetB32 a).1.n3 &&& (feSetB32 a).1.n2 &&& (feSetB32 a).1.n1) == mask52 &&
      lowest ≤ (feSetB32 a).1.n0) := rfl
  have accepted : (feSetB32 a).2 = true ↔ bytesValue a < p := by
    rw [result, order, Bool.not_eq_true', Bool.eq_false_iff, Ne, Bool.and_eq_true, Bool.and_eq_true, beq_iff_eq,
      beq_iff_eq, decide_eq_true_eq, tests, value, not_le]
  refine ⟨accepted, fun accept => ⟨reduced, top, ?_⟩⟩
  rw [value]
  exact accepted.mp accept

/-! ## Limbs to bytes -/

theorem toNat_byteAt (x : UInt64) : (byteAt x).toNat = x.toNat % 256 := by
  have mask : (x &&& 0xFF).toNat = x.toNat % 2 ^ 8 := toNat_and_mask x rfl
  rw [byteAt, UInt64.toNat_toUInt8, mask]
  omega

theorem toNat_byteAcross (low high : UInt64) :
    (byteAcross low high).toNat = low.toNat / 2 ^ 48 % 16 + high.toNat % 16 * 16 := by
  have four : ∀ x : UInt64, (x &&& 0xF).toNat = x.toNat % 2 ^ 4 := fun x => toNat_and_mask x rfl
  have below : ((low >>> 48) &&& (0xF : UInt64)).toNat = low.toNat / 2 ^ 48 % 16 := by
    rw [four, toNat_shift48]
    rfl
  have above : ((high &&& (0xF : UInt64)) <<< 4).toNat = high.toNat % 16 * 2 ^ 4 := by
    have shifted : ((high &&& (0xF : UInt64)) <<< 4).toNat = (high &&& (0xF : UInt64)).toNat * 2 ^ 4 % 2 ^ 64 :=
      toNat_shiftLeft _ (by decide)
    rw [shifted, four]
    omega
  rw [byteAcross, UInt64.toNat_toUInt8, toNat_or_of_lt (k := 4) _ above, below, above]
  · omega
  · rw [below]
    omega

/-- A limb from its bytes, the highest of them with four bits. -/
theorem limb_of_bytes {x : Nat} (small : x < 2 ^ 52) :
    x % 256 + x / 2 ^ 8 % 256 * 2 ^ 8 + x / 2 ^ 16 % 256 * 2 ^ 16 + x / 2 ^ 24 % 256 * 2 ^ 24 +
      x / 2 ^ 32 % 256 * 2 ^ 32 + x / 2 ^ 40 % 256 * 2 ^ 40 + x / 2 ^ 48 % 16 * 2 ^ 48 = x := by
  omega

/-- A limb from its bytes, the lowest of them with four bits. -/
theorem limb_of_nibble {x : Nat} (small : x < 2 ^ 52) :
    x % 16 + x / 2 ^ 4 % 256 * 2 ^ 4 + x / 2 ^ 12 % 256 * 2 ^ 12 + x / 2 ^ 20 % 256 * 2 ^ 20 +
      x / 2 ^ 28 % 256 * 2 ^ 28 + x / 2 ^ 36 % 256 * 2 ^ 36 + x / 2 ^ 44 % 256 * 2 ^ 44 = x := by
  omega

theorem bytesValue_feGetB32 {a : Fe} (reduced : a.Reduced) (top : a.n4.toNat < 2 ^ 48) :
    bytesValue (feGetB32 a) = a.value := by
  have shift : ∀ (x : UInt64) {k : Nat}, k < 64 → (byteAt (x >>> UInt64.ofNat k)).toNat = x.toNat / 2 ^ k % 256 := by
    intro x k small
    rw [toNat_byteAt, toNat_shiftRight x small]
  have s4 : ∀ x : UInt64, (byteAt (x >>> 4)).toNat = x.toNat / 2 ^ 4 % 256 := fun x => shift x (by decide)
  have s8 : ∀ x : UInt64, (byteAt (x >>> 8)).toNat = x.toNat / 2 ^ 8 % 256 := fun x => shift x (by decide)
  have s12 : ∀ x : UInt64, (byteAt (x >>> 12)).toNat = x.toNat / 2 ^ 12 % 256 := fun x => shift x (by decide)
  have s16 : ∀ x : UInt64, (byteAt (x >>> 16)).toNat = x.toNat / 2 ^ 16 % 256 := fun x => shift x (by decide)
  have s20 : ∀ x : UInt64, (byteAt (x >>> 20)).toNat = x.toNat / 2 ^ 20 % 256 := fun x => shift x (by decide)
  have s24 : ∀ x : UInt64, (byteAt (x >>> 24)).toNat = x.toNat / 2 ^ 24 % 256 := fun x => shift x (by decide)
  have s28 : ∀ x : UInt64, (byteAt (x >>> 28)).toNat = x.toNat / 2 ^ 28 % 256 := fun x => shift x (by decide)
  have s32 : ∀ x : UInt64, (byteAt (x >>> 32)).toNat = x.toNat / 2 ^ 32 % 256 := fun x => shift x (by decide)
  have s36 : ∀ x : UInt64, (byteAt (x >>> 36)).toNat = x.toNat / 2 ^ 36 % 256 := fun x => shift x (by decide)
  have s40 : ∀ x : UInt64, (byteAt (x >>> 40)).toNat = x.toNat / 2 ^ 40 % 256 := fun x => shift x (by decide)
  have s44 : ∀ x : UInt64, (byteAt (x >>> 44)).toNat = x.toNat / 2 ^ 44 % 256 := fun x => shift x (by decide)
  have bytes : (List.ofFn (feGetB32 a)).map UInt8.toNat =
      [(byteAt (a.n4 >>> 40)).toNat, (byteAt (a.n4 >>> 32)).toNat, (byteAt (a.n4 >>> 24)).toNat,
        (byteAt (a.n4 >>> 16)).toNat, (byteAt (a.n4 >>> 8)).toNat, (byteAt a.n4).toNat,
        (byteAt (a.n3 >>> 44)).toNat, (byteAt (a.n3 >>> 36)).toNat, (byteAt (a.n3 >>> 28)).toNat,
        (byteAt (a.n3 >>> 20)).toNat, (byteAt (a.n3 >>> 12)).toNat, (byteAt (a.n3 >>> 4)).toNat,
        (byteAcross a.n2 a.n3).toNat,
        (byteAt (a.n2 >>> 40)).toNat, (byteAt (a.n2 >>> 32)).toNat, (byteAt (a.n2 >>> 24)).toNat,
        (byteAt (a.n2 >>> 16)).toNat, (byteAt (a.n2 >>> 8)).toNat, (byteAt a.n2).toNat,
        (byteAt (a.n1 >>> 44)).toNat, (byteAt (a.n1 >>> 36)).toNat, (byteAt (a.n1 >>> 28)).toNat,
        (byteAt (a.n1 >>> 20)).toNat, (byteAt (a.n1 >>> 12)).toNat, (byteAt (a.n1 >>> 4)).toNat,
        (byteAcross a.n0 a.n1).toNat,
        (byteAt (a.n0 >>> 40)).toNat, (byteAt (a.n0 >>> 32)).toNat, (byteAt (a.n0 >>> 24)).toNat,
        (byteAt (a.n0 >>> 16)).toNat, (byteAt (a.n0 >>> 8)).toNat, (byteAt a.n0).toNat] := rfl
  rw [bytesValue, bytes]
  simp only [numeral, List.foldl, s4, s8, s12, s16, s20, s24, s28, s32, s36, s40, s44, toNat_byteAt, toNat_byteAcross]
  have l0 := limb_of_bytes reduced.n0
  have l1 := limb_of_nibble reduced.n1
  have l2 := limb_of_bytes reduced.n2
  have l3 := limb_of_nibble reduced.n3
  have l4 := limb_of_bytes (Nat.lt_trans top (by decide))
  have none : a.n4.toNat / 2 ^ 48 % 16 = 0 := by omega
  rw [none] at l4
  rw [Fe.value]
  linarith

/-- Elements and accepted bytes are the same. -/
theorem bytes_round_trip :
    (∀ a : Fin 32 → UInt8, feGetB32 (feSetB32 a).1 = a) ∧
      (∀ a : Fin 32 → UInt8, (feSetB32 a).2 = true ↔ bytesValue a < p) ∧
      (∀ r : Fe, r.Canonical → feSetB32 (feGetB32 r) = (r, true)) := by
  refine ⟨?_, fun a => (feSetB32_accepts a).1, ?_⟩
  · intro a
    obtain ⟨value, reduced, top⟩ := feSetB32_value a
    apply bytesValue_inj
    rw [bytesValue_feGetB32 reduced top, value]
  · intro r canonical
    obtain ⟨value, reduced, _⟩ := feSetB32_value (feGetB32 r)
    have bytes := bytesValue_feGetB32 canonical.toReduced canonical.n4
    have element : (feSetB32 (feGetB32 r)).1 = r := by
      apply reduced.eq_of_value canonical.toReduced
      rw [value, bytes]
    have accepted : (feSetB32 (feGetB32 r)).2 = true := by
      rw [(feSetB32_accepts _).1, bytes]
      exact canonical.small
    exact Prod.ext element accepted

/-! ## Storage -/

/-- The number in four words. -/
def FeStorage.value (s : FeStorage) : Nat :=
  s.n0.toNat + s.n1.toNat * 2 ^ 64 + s.n2.toNat * 2 ^ 128 + s.n3.toNat * 2 ^ 192

theorem FeStorage.eq_of_value {s t : FeStorage} (same : s.value = t.value) : s = t := by
  cases s with
  | mk s0 s1 s2 s3 =>
    cases t with
    | mk t0 t1 t2 t3 =>
      have b0 := s0.toNat_lt
      have b1 := s1.toNat_lt
      have b2 := s2.toNat_lt
      have c0 := t0.toNat_lt
      have c1 := t1.toNat_lt
      have c2 := t2.toNat_lt
      simp only [FeStorage.value] at same
      simp only [FeStorage.mk.injEq, ← UInt64.toNat_inj]
      omega

/-- The low bits of one word above the high bits of another. -/
theorem toNat_or_shiftLeft (low high : UInt64) {k : Nat} (small : k < 64) (below : low.toNat < 2 ^ k) :
    (low ||| (high <<< UInt64.ofNat k)).toNat = low.toNat + high.toNat % 2 ^ (64 - k) * 2 ^ k := by
  have above := toNat_shiftLeft_mod high small
  rw [toNat_or_of_lt below above, above]

theorem feToStorage_value {a : Fe} (reduced : a.Reduced) (top : a.n4.toNat < 2 ^ 48) :
    (feToStorage a).value = a.value := by
  obtain ⟨n0, n1, n2, n3⟩ := reduced
  have h1 : (a.n1 >>> 12).toNat = a.n1.toNat / 2 ^ 12 := toNat_shiftRight a.n1 (by decide)
  have h2 : (a.n2 >>> 24).toNat = a.n2.toNat / 2 ^ 24 := toNat_shiftRight a.n2 (by decide)
  have h3 : (a.n3 >>> 36).toNat = a.n3.toNat / 2 ^ 36 := toNat_shiftRight a.n3 (by decide)
  have s0 : (feToStorage a).n0.toNat = _ := toNat_or_shiftLeft a.n0 a.n1 (k := 52) (by decide) n0
  have s1 : (feToStorage a).n1.toNat = _ :=
    toNat_or_shiftLeft (a.n1 >>> 12) a.n2 (k := 40) (by decide) (by rw [h1]; omega)
  have s2 : (feToStorage a).n2.toNat = _ :=
    toNat_or_shiftLeft (a.n2 >>> 24) a.n3 (k := 28) (by decide) (by rw [h2]; omega)
  have s3 : (feToStorage a).n3.toNat = _ :=
    toNat_or_shiftLeft (a.n3 >>> 36) a.n4 (k := 16) (by decide) (by rw [h3]; omega)
  rw [FeStorage.value, Fe.value, s0, s1, s2, s3, h1, h2, h3]
  omega

theorem toNat_or_masked (low high : UInt64) {k : Nat} (small : k ≤ 52) (below : low.toNat < 2 ^ k) :
    (low ||| ((high <<< UInt64.ofNat k) &&& mask52)).toNat = low.toNat + high.toNat % 2 ^ (52 - k) * 2 ^ k := by
  have limb : 2 ^ 52 = 2 ^ (52 - k) * 2 ^ k := by
    rw [← pow_add, Nat.sub_add_cancel small]
  have above : ((high <<< UInt64.ofNat k) &&& mask52).toNat = high.toNat % 2 ^ (52 - k) * 2 ^ k := by
    rw [toNat_and_mask52, toNat_shiftLeft_mod high (by omega), limb, Nat.mul_mod_mul_right,
      Nat.mod_mod_of_dvd _ (pow_dvd_pow 2 (by omega))]
  rw [toNat_or_of_lt below above, above]

theorem feFromStorage_value (s : FeStorage) :
    (feFromStorage s).value = s.value ∧ (feFromStorage s).Reduced ∧ (feFromStorage s).n4.toNat < 2 ^ 48 := by
  have b0 := s.n0.toNat_lt
  have b1 := s.n1.toNat_lt
  have b2 := s.n2.toNat_lt
  have b3 := s.n3.toNat_lt
  have h0 : (s.n0 >>> 52).toNat = s.n0.toNat / 2 ^ 52 := toNat_shift52 s.n0
  have h1 : (s.n1 >>> 40).toNat = s.n1.toNat / 2 ^ 40 := toNat_shiftRight s.n1 (by decide)
  have h2 : (s.n2 >>> 28).toNat = s.n2.toNat / 2 ^ 28 := toNat_shiftRight s.n2 (by decide)
  have s0 : (feFromStorage s).n0.toNat = _ := toNat_and_mask52 s.n0
  have s1 : (feFromStorage s).n1.toNat = _ :=
    toNat_or_masked (s.n0 >>> 52) s.n1 (k := 12) (by decide) (by rw [h0]; omega)
  have s2 : (feFromStorage s).n2.toNat = _ :=
    toNat_or_masked (s.n1 >>> 40) s.n2 (k := 24) (by decide) (by rw [h1]; omega)
  have s3 : (feFromStorage s).n3.toNat = _ :=
    toNat_or_masked (s.n2 >>> 28) s.n3 (k := 36) (by decide) (by rw [h2]; omega)
  have s4 : (feFromStorage s).n4.toNat = s.n3.toNat / 2 ^ 16 := toNat_shiftRight s.n3 (by decide)
  rw [h0] at s1
  rw [h1] at s2
  rw [h2] at s3
  refine ⟨?_, ⟨?_, ?_, ?_, ?_⟩, ?_⟩
  · rw [Fe.value, FeStorage.value, s0, s1, s2, s3, s4]
    omega
  all_goals omega

/-- Storing and loading are inverse to each other, and storage is the plain number. -/
theorem storage_round_trip :
    (∀ r : Fe, r.Canonical → (feToStorage r).value = r.value ∧ feFromStorage (feToStorage r) = r) ∧
      (∀ s : FeStorage, feToStorage (feFromStorage s) = s) := by
  constructor
  · intro r canonical
    have stored := feToStorage_value canonical.toReduced canonical.n4
    obtain ⟨value, reduced, _⟩ := feFromStorage_value (feToStorage r)
    exact ⟨stored, reduced.eq_of_value canonical.toReduced (value.trans stored)⟩
  · intro s
    obtain ⟨value, reduced, top⟩ := feFromStorage_value s
    exact FeStorage.eq_of_value ((feToStorage_value reduced top).trans value)

/-! ## Order -/

/-- The loop compares the numbers that the limbs write, the highest limb first. -/
theorem cmpLimbs_eq {base : Nat} (large : 1 < base) (limbs : List (UInt64 × UInt64))
    (bounded : ∀ limb ∈ limbs, limb.1.toNat < base ∧ limb.2.toNat < base) :
    cmpLimbs limbs = compare (numeral base (limbs.map fun limb => limb.1.toNat))
      (numeral base (limbs.map fun limb => limb.2.toNat)) := by
  induction limbs with
  | nil => rfl
  | cons limb rest ih =>
    have others := fun other member => bounded other (List.mem_cons_of_mem limb member)
    have left := numeral_lt base (rest.map fun limb => limb.1.toNat) large (by
      intro digit member
      obtain ⟨other, listed, rfl⟩ := List.mem_map.mp member
      exact (others other listed).1)
    have right := numeral_lt base (rest.map fun limb => limb.2.toNat) large (by
      intro digit member
      obtain ⟨other, listed, rfl⟩ := List.mem_map.mp member
      exact (others other listed).2)
    rw [List.length_map] at left right
    rw [cmpLimbs, ih others, List.map_cons, List.map_cons, numeral_cons, numeral_cons, List.length_map, List.length_map]
    generalize base ^ rest.length = weight at left right ⊢
    simp only [UInt64.lt_iff_toNat_lt]
    split
    · next above =>
      have more := Nat.mul_le_mul_right weight (Nat.succ_le_of_lt above)
      rw [Nat.succ_mul] at more
      exact (compare_gt_iff_gt.mpr (by omega)).symm
    · split
      · next below =>
        have more := Nat.mul_le_mul_right weight (Nat.succ_le_of_lt below)
        rw [Nat.succ_mul] at more
        exact (compare_lt_iff_lt.mpr (by omega)).symm
      · have same : limb.1.toNat = limb.2.toNat := by omega
        rw [same]
        simp only [compare, compareOfLessAndEq, Nat.add_lt_add_iff_left, Nat.add_left_cancel_iff]

/-- On canonical elements the comparison is that of the numbers. -/
theorem feCmpVar_eq {a b : Fe} (left : a.Canonical) (right : b.Canonical) :
    feCmpVar a b = compare a.value b.value := by
  have value : ∀ r : Fe, r.value =
      numeral (2 ^ 52) [r.n4.toNat, r.n3.toNat, r.n2.toNat, r.n1.toNat, r.n0.toNat] := by
    intro r
    simp only [Fe.value, numeral, List.foldl]
    omega
  obtain ⟨⟨a0, a1, a2, a3⟩, a4, _⟩ := left
  obtain ⟨⟨b0, b1, b2, b3⟩, b4, _⟩ := right
  rw [feCmpVar, value a, value b]
  apply cmpLimbs_eq (by decide)
  simp only [List.forall_mem_cons, List.not_mem_nil, false_imp_iff, implies_true, and_true]
  omega

theorem feIsOdd_iff (a : Fe) : feIsOdd a = true ↔ a.value % 2 = 1 := by
  rw [feIsOdd, beq_iff_eq, ← UInt64.toNat_inj, toNat_and_one, UInt64.toNat_one, Fe.value]
  omega

theorem feIsZero_iff {a : Fe} (canonical : a.Canonical) : feIsZero a = true ↔ a.residue = 0 := by
  have small := canonical.small
  have zero : feIsZero a = true ↔ a.value = 0 := by
    rw [feIsZero, beq_iff_eq, or_eq_zero_iff, or_eq_zero_iff, or_eq_zero_iff, or_eq_zero_iff]
    simp only [← UInt64.toNat_inj, UInt64.toNat_zero, Fe.value]
    omega
  rw [zero, Fe.residue, ZMod.natCast_eq_zero_iff]
  constructor
  · intro none
    rw [none]
    exact dvd_zero p
  · exact fun divides => Nat.eq_zero_of_dvd_of_lt divides small

end BitcoinWasm.Secp256k1
