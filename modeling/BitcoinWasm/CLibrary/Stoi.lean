import Mathlib.Data.List.TakeWhile
import BitcoinWasm.Encoding.Positional

/-! `std::stoi` of the C++ standard library, over the bytes of a C string.

`int` and `long` are 32 bits wide, as on wasm32. The two exceptions are the
ones the bridge can let through to its caller.
-/

set_option autoImplicit false

namespace BitcoinWasm.CLibrary
open BitcoinWasm.Encoding

/-- A C string in a 32-bit address space, without its terminator. -/
structure CString where
  chars : List UInt8
  noNul : 0 ∉ chars
  addressable : chars.length < 2 ^ 32
  deriving DecidableEq

def ascii (text : String) : List UInt8 :=
  text.toList.map fun letter => UInt8.ofNat letter.toNat

/-- The C string of a text that is known in full. -/
def CString.literal (text : String) (noNul : 0 ∉ ascii text := by decide)
    (addressable : (ascii text).length < 2 ^ 32 := by decide) : CString :=
  ⟨ascii text, noNul, addressable⟩

inductive StdException where
  | invalidArgument
  | outOfRange
  deriving DecidableEq, Repr

def isspace (letter : UInt8) : Bool :=
  letter = 0x20 || (0x09 ≤ letter && letter ≤ 0x0d)

/-- The value of a digit up to base 36; anything else exceeds every base. -/
def digitValue (letter : UInt8) : Nat :=
  if 0x30 ≤ letter.toNat ∧ letter.toNat ≤ 0x39 then letter.toNat - 0x30
  else if 0x61 ≤ letter.toNat ∧ letter.toNat ≤ 0x7a then letter.toNat - 0x61 + 10
  else if 0x41 ≤ letter.toNat ∧ letter.toNat ≤ 0x5a then letter.toNat - 0x41 + 10
  else 255

def isDigit (base : Nat) (letter : UInt8) : Bool := digitValue letter < base

/-- The number written by digits of a base. -/
def digitsValue (base : Nat) (digits : List UInt8) : Nat :=
  numeral base (digits.map digitValue)

def takeSign : List UInt8 → Bool × List UInt8
  | [] => (false, [])
  | letter :: rest =>
    if letter = 0x2d then (true, rest)
    else if letter = 0x2b then (false, rest)
    else (false, letter :: rest)

/-- `0x` or `0X` with a hexadecimal digit behind it. -/
def hasHexPrefix : List UInt8 → Bool
  | zero :: x :: digit :: _ => zero = 0x30 && (x = 0x78 || x = 0x58) && isDigit 16 digit
  | _ => false

/-- The base that `strtol` settles on, and the text its digits start at. -/
def takeBase (base : Nat) (text : List UInt8) : Nat × List UInt8 :=
  -- In base 16 the prefix is optional; without a digit behind it, it is a zero and garbage.
  if (base = 0 ∨ base = 16) ∧ hasHexPrefix text then (16, text.drop 2)
  else if base = 0 then (if text.head? = some 0x30 then 8 else 10, text)
  else (base, text)

/-- The digits that `strtol` converts, and the base they are read in. -/
def scanDigits (base : Nat) (text : List UInt8) : Nat × List UInt8 :=
  ((takeBase base text).1, (takeBase base text).2.takeWhile (isDigit (takeBase base text).1))

def applySign (negative : Bool) (magnitude : Nat) : Int :=
  if negative then -(magnitude : Int) else magnitude

def FitsInt (value : Int) : Prop := -2 ^ 31 ≤ value ∧ value < 2 ^ 31

instance (value : Int) : Decidable (FitsInt value) := inferInstanceAs (Decidable (_ ∧ _))

def stoi (text : List UInt8) (base : Nat) : Except StdException Int :=
  let signed := takeSign (text.dropWhile isspace)
  let scanned := scanDigits base signed.2
  if scanned.2 = [] then .error .invalidArgument
  else
    let value := applySign signed.1 (digitsValue scanned.1 scanned.2)
    -- What is left of the text does not matter.
    if FitsInt value then .ok value else .error .outOfRange

/-- The canonical decimal text of an integer. -/
def decimalText (value : Int) : List UInt8 :=
  (if value < 0 then [0x2d] else []) ++
    (canonicalDigits 10 value.natAbs).map fun digit => UInt8.ofNat (0x30 + digit)

theorem digitsValue_lt (base : Nat) (digits : List UInt8) (large : 1 < base)
    (all : ∀ letter ∈ digits, isDigit base letter) : digitsValue base digits < base ^ digits.length := by
  have bounded := numeral_lt base (digits.map digitValue) large (by simpa [isDigit] using all)
  simpa [digitsValue] using bounded

theorem decimalDigit_toNat {digit : Nat} (decimal : digit < 10) :
    (UInt8.ofNat (0x30 + digit)).toNat = 0x30 + digit := by
  rw [UInt8.toNat_ofNat']
  omega

theorem digitValue_decimalDigit {digit : Nat} (decimal : digit < 10) :
    digitValue (UInt8.ofNat (0x30 + digit)) = digit := by
  rw [digitValue, decimalDigit_toNat decimal, if_pos (by omega)]
  omega

theorem digitsValue_decimal (digits : List Nat) (decimal : ∀ digit ∈ digits, digit < 10) (base : Nat) :
    digitsValue base (digits.map fun digit => UInt8.ofNat (0x30 + digit)) = numeral base digits := by
  have same : (digits.map fun digit => UInt8.ofNat (0x30 + digit)).map digitValue = digits := by
    rw [List.map_map]
    conv_rhs => rw [← List.map_id digits]
    exact List.map_congr_left fun digit member => digitValue_decimalDigit (decimal digit member)
  rw [digitsValue, same]

theorem isDigit_ten {letter : UInt8} :
    isDigit 10 letter ↔ 0x30 ≤ letter.toNat ∧ letter.toNat ≤ 0x39 := by
  rw [isDigit, decide_eq_true_eq, digitValue]
  split_ifs <;> omega

/-! ## Base 16 behind `0x` -/

/-- Behind `0x`, base 16 reads the hexadecimal digits and ignores what follows
them. Without any, the `0` in front is the whole number. -/
theorem stoi_hex (tail : List UInt8) (short : tail.length ≤ 7) :
    stoi (0x30 :: 0x78 :: tail) 16 = .ok (digitsValue 16 (tail.takeWhile (isDigit 16))) := by
  have signed : takeSign ((0x30 :: 0x78 :: tail).dropWhile isspace) = (false, 0x30 :: 0x78 :: tail) := rfl
  by_cases marked : hasHexPrefix (0x30 :: 0x78 :: tail)
  · have scanned : scanDigits 16 (0x30 :: 0x78 :: tail) = (16, tail.takeWhile (isDigit 16)) := by
      simp [scanDigits, takeBase, marked]
    have nonempty : tail.takeWhile (isDigit 16) ≠ [] := by
      cases tail with
      | nil => cases marked
      | cons first rest =>
        have hex : isDigit 16 first := by simpa [hasHexPrefix] using marked
        simp [hex]
    have bounded := digitsValue_lt 16 (tail.takeWhile (isDigit 16)) (by decide)
      fun letter member => List.mem_takeWhile_imp member
    have length := (List.takeWhile_prefix (l := tail) (isDigit 16)).length_le
    have small : 16 ^ (tail.takeWhile (isDigit 16)).length ≤ 16 ^ 7 :=
      Nat.pow_le_pow_right (by decide) (Nat.le_trans length short)
    have fits : FitsInt (digitsValue 16 (tail.takeWhile (isDigit 16))) := by
      constructor <;> omega
    simp only [stoi, signed, scanned, applySign, if_neg nonempty, if_pos fits, Bool.false_eq_true, if_false]
  · have scanned : scanDigits 16 (0x30 :: 0x78 :: tail) = (16, [0x30]) := by
      simp only [scanDigits, takeBase, marked, Bool.false_eq_true, and_false, if_false]
      rfl
    have empty : tail.takeWhile (isDigit 16) = [] := by
      cases tail with
      | nil => rfl
      | cons first rest =>
        have garbage : ¬ isDigit 16 first := by simpa [hasHexPrefix] using marked
        simp [garbage]
    have zero : applySign false (digitsValue 16 [0x30]) = 0 := rfl
    have fits : FitsInt 0 := by decide
    simp only [stoi, signed, scanned, zero, if_neg (List.cons_ne_nil _ _), if_pos fits, empty]
    rfl

example : stoi (ascii "0X7f") 0 = .ok 127 := by decide

example : stoi (ascii " -12abc") 0 = .ok (-12) := by decide

end BitcoinWasm.CLibrary
