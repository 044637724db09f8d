import BitcoinWasm.Assembly.Meaning

/-! Hexadecimal literals at every length.

Up to eight digits a literal is a number, read by `stoi` into an `int`. From
nine digits on it is data, read in pairs from the front. Both readers lose
something: the first one the top bit, the second one the place of a last digit
that has no partner.
-/

set_option autoImplicit false

namespace BitcoinWasm.Assembly
open BitcoinWasm.Encoding BitcoinWasm.Script BitcoinWasm.CLibrary BitcoinWasm.Bridge

/-- The operand has the value of the digits: as a script number up to four
bytes, as big-endian data above. -/
def Denotes (digits operand : Bytes) : Prop :=
  if digits.length ≤ 8 then operand = SignMagnitude.encode (digitsValue 16 digits)
  else numeral 256 (operand.map UInt8.toNat) = digitsValue 16 digits

/-- Whatever the token adds is a push of its value, and whole bytes are accepted. -/
def KeepsValue (library : Library) (text : CString) (digits : Bytes) : Prop :=
  (∀ c script, encodeOp library c text = .ok script → ∃ operation : Operation,
    operation.isPush ∧ script = c ++ format.encode operation ∧ Denotes digits operation.operand) ∧
  (Even digits.length → ∀ c, ∃ script, encodeOp library c text = .ok script)

theorem digitValue_eq_zero_iff {letter : UInt8} : digitValue letter = 0 ↔ letter = 0x30 := by
  constructor
  · intro zero
    have decimal : letter.toNat = 0x30 := by
      unfold digitValue at zero
      split_ifs at zero
      omega
    exact UInt8.toNat_inj.mp decimal
  · rintro rfl
    rfl

theorem digitsValue_eq_zero_iff (base : Nat) (positive : 0 < base) (digits : Bytes) :
    digitsValue base digits = 0 ↔ ∀ letter ∈ digits, letter = 0x30 := by
  rw [digitsValue, numeral_eq_zero_iff base positive]
  simp [digitValue_eq_zero_iff]

theorem hexBytes_value (digits : Bytes) (hex : ∀ letter ∈ digits, isDigit 16 letter) :
    numeral 256 ((hexBytes digits).map UInt8.toNat) =
      numeral (16 * 16) (pairDigits 16 (digits.map digitValue)) := by
  have bounded := pairDigits_lt 16 (digits.map digitValue) (by simpa [isDigit] using hex)
  have same : (hexBytes digits).map UInt8.toNat = pairDigits 16 (digits.map digitValue) := by
    rw [hexBytes, List.map_map]
    conv_rhs => rw [← List.map_id (pairDigits 16 _)]
    apply List.map_congr_left
    intro pair member
    exact UInt8.toNat_ofNat_of_lt' (bounded pair member)
  rw [same]

/-- Pairs keep the value of an even number of digits. Of an odd number they keep
it only if there is nothing in front of the last digit. -/
theorem hexBytes_denotes_iff (digits : Bytes) (hex : ∀ letter ∈ digits, isDigit 16 letter) :
    numeral 256 ((hexBytes digits).map UInt8.toNat) = digitsValue 16 digits ↔
      Even digits.length ∨ ∀ letter ∈ digits.dropLast, letter = 0x30 := by
  rw [hexBytes_value digits hex]
  by_cases even : Even digits.length
  · apply iff_of_true
    · exact numeral_pairDigits_even 16 _ (by simpa using even)
    · exact .inl even
  · have nonempty : digits ≠ [] := by
      rintro rfl
      exact even ⟨0, rfl⟩
    -- The last digit is read as a byte, so everything in front of it is shifted once too often.
    obtain ⟨front, last, rfl⟩ := (List.eq_nil_or_concat' digits).resolve_left nonempty
    have frontEven : Even front.length := by
      simpa [Nat.even_add_one] using even
    have paired := numeral_pairDigits_odd 16 (front.map digitValue) (digitValue last) (by simpa using frontEven)
    rw [← digitsValue_eq_zero_iff 16 (by decide), List.dropLast_concat, or_iff_right even, List.map_append,
      List.map_singleton, paired, digitsValue, List.map_append, List.map_singleton, numeral_concat]
    change digitsValue 16 front * (16 * 16) + _ = digitsValue 16 front * 16 + _ ↔ _
    omega

section
variable {library : Library} {text : CString} {digits : Bytes}
  (shape : text.chars = 0x30 :: 0x58 :: digits) (hex : ∀ letter ∈ digits, isDigit 16 letter)
include shape hex

theorem hexLiteral (nonempty : digits ≠ []) : IntegerLiteral text.chars (digitsValue 16 digits) :=
  ⟨[], false, 0x30 :: 0x58 :: digits, _, shape, .absent, .hexadecimal (.inr rfl) nonempty hex, rfl⟩

omit hex in
theorem encodeOp_short (short : digits.length ≤ 8) (c : Bytes) :
    encodeOp library c text = (stoi text.chars 0).map (library.pushNum c) := by
  apply encodeOp_number library c
  · simp [shape]
  · simp [IsOpName, shape]
  · simp only [IsDataName, shape, List.length_cons]
    omega

/-- Up to eight digits a literal is accepted if an `int` holds it. -/
theorem short_accepted_iff (nonempty : digits ≠ []) (short : digits.length ≤ 8) (c : Bytes) :
    (∃ script, encodeOp library c text = .ok script) ↔ digitsValue 16 digits < 2 ^ 31 := by
  have literal := hexLiteral shape hex nonempty
  rw [encodeOp_short shape short]
  constructor
  · intro ⟨script, encoded⟩
    cases read : stoi text.chars 0 with
    | error thrown =>
      rw [read] at encoded
      cases encoded
    | ok num =>
      obtain ⟨leading, fits⟩ := (stoi_eq_ok_iff text.chars num).mp read
      have value := leading.unique literal.leading
      have upper := fits.2
      omega
  · intro small
    have fits : FitsInt (digitsValue 16 digits) := by
      constructor <;> omega
    rw [literal.stoi fits]
    exact ⟨_, rfl⟩

omit shape in
/-- An odd number of digits is at most seven, and seven digits fit. -/
theorem digitsValue_lt_of_odd (odd : ¬ Even digits.length) (short : digits.length ≤ 8) :
    digitsValue 16 digits < 2 ^ 31 := by
  have seven : digits.length ≤ 7 := by
    by_contra eight
    have exact : digits.length = 8 := by omega
    exact odd (exact ▸ by decide)
  have bounded := digitsValue_lt 16 digits (by decide) hex
  have small : 16 ^ digits.length ≤ 16 ^ 7 := Nat.pow_le_pow_right (by decide) seven
  omega

theorem keepsValue_short (appends : library.AppendsFormat) (nonempty : digits ≠ [])
    (short : digits.length ≤ 8) : KeepsValue library text digits ↔ digitsValue 16 digits < 2 ^ 31 := by
  constructor
  · intro ⟨_, accepts⟩
    by_cases even : Even digits.length
    · exact (short_accepted_iff shape hex nonempty short []).mp (accepts even [])
    · exact digitsValue_lt_of_odd hex even short
  · intro small
    have fits : FitsInt (digitsValue 16 digits) := by
      constructor <;> omega
    have addressable : (SignMagnitude.encode (digitsValue 16 digits)).length < 2 ^ 32 :=
      Nat.lt_of_le_of_lt (encode_length_of_fitsInt fits) (by decide)
    have encoded : ∀ c, encodeOp library c text = .ok (c ++ format.encode (.pushOf _ addressable)) := by
      intro c
      rw [encodeOp_short shape short, (hexLiteral shape hex nonempty).stoi fits, Except.map,
        appends.pushNum_eq c _ fits.1 fits.2, appends.pushVector_eq c _ addressable]
    constructor
    · intro c script returned
      rw [encoded c, Except.ok.injEq] at returned
      refine ⟨_, Operation.pushOf_isPush _ addressable, returned.symm, ?_⟩
      rw [Operation.pushOf_operand, Denotes, if_pos short]
    · intro _ c
      exact ⟨_, encoded c⟩

theorem keepsValue_long (appends : library.AppendsFormat) (long : 8 < digits.length) :
    KeepsValue library text digits ↔ Even digits.length ∨ ∀ letter ∈ digits.dropLast, letter = 0x30 := by
  have addressable : (hexBytes digits).length < 2 ^ 32 := hexBytes_addressable shape
  have encoded := encodeOp_hex appends shape long hex addressable
  have denotes : Denotes digits (hexBytes digits) ↔
      numeral 256 ((hexBytes digits).map UInt8.toNat) = digitsValue 16 digits := by
    rw [Denotes, if_neg (Nat.not_le.mpr long)]
  rw [← hexBytes_denotes_iff digits hex, ← denotes]
  constructor
  · intro ⟨keeps, _⟩
    obtain ⟨operation, _, added, value⟩ := keeps [] _ (encoded [])
    have streams : format.encode (.pushOf _ addressable) ++ [] = format.encode operation ++ [] := by
      simpa using added
    have same := format.encode_append_inj streams
    rw [← same.1, Operation.pushOf_operand] at value
    exact value
  · intro value
    refine ⟨?_, fun _ c => ⟨_, encoded c⟩⟩
    intro c script returned
    rw [encoded c, Except.ok.injEq] at returned
    refine ⟨_, Operation.pushOf_isPush _ addressable, returned.symm, ?_⟩
    rw [Operation.pushOf_operand]
    exact value

end

theorem keepsValue_iff {library : Library} (appends : library.AppendsFormat) (text : CString) (digits : Bytes)
    (shape : text.chars = 0x30 :: 0x58 :: digits) (nonempty : digits ≠ [])
    (hex : ∀ letter ∈ digits, isDigit 16 letter) :
    KeepsValue library text digits ↔
      if digits.length ≤ 8 then digitsValue 16 digits < 2 ^ 31
      else Even digits.length ∨ ∀ letter ∈ digits.dropLast, letter = 0x30 := by
  split
  next short => exact keepsValue_short shape hex appends nonempty short
  next long => exact keepsValue_long shape hex appends (Nat.lt_of_not_le long)

theorem keepsValue_small : KeepsValue Standard.library (.literal "0X7f") (ascii "7f") := by
  have hex := List.all_eq_true.mp (show (ascii "7f").all (isDigit 16) by decide)
  apply (keepsValue_iff Standard.appendsFormat (.literal "0X7f") (ascii "7f") rfl (by decide) hex).mpr
  rw [if_pos (by decide)]
  decide

/-- Four bytes with the top bit set do not fit an `int`, and the ninth digit is read as a byte. -/
theorem hexLiteral_changed :
    ¬ KeepsValue Standard.library (.literal "0XFFFFFFFF") (ascii "FFFFFFFF") ∧
    ¬ KeepsValue Standard.library (.literal "0X123456789") (ascii "123456789") := by
  have hexShort := List.all_eq_true.mp (show (ascii "FFFFFFFF").all (isDigit 16) by decide)
  have hexLong := List.all_eq_true.mp (show (ascii "123456789").all (isDigit 16) by decide)
  constructor
  · rw [keepsValue_short rfl hexShort Standard.appendsFormat (by decide) (by decide)]
    decide
  · rw [keepsValue_long rfl hexLong Standard.appendsFormat (by decide)]
    rintro (even | zeros)
    · exact absurd even (by decide)
    · exact absurd (zeros 0x31 (by decide)) (by decide)

end BitcoinWasm.Assembly
