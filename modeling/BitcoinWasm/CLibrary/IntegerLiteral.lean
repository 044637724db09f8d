import BitcoinWasm.CLibrary.Stoi

/-! Integer literals as a grammar, and `stoi` in base 0 as its longest match.

The scanner decides from two letters in which base it reads on. The grammar
has no scanner: it says which texts are literals and what they denote. The
theorem at the end connects them, so that a rejected text can be described
without running `stoi`.
-/

set_option autoImplicit false

namespace BitcoinWasm.CLibrary
open BitcoinWasm.Encoding

inductive Sign : List UInt8 → Bool → Prop where
  | absent : Sign [] false
  | plus : Sign [0x2b] false
  | minus : Sign [0x2d] true

/-- An unsigned literal: decimal, octal behind a zero, or hexadecimal. -/
inductive Magnitude : List UInt8 → Nat → Prop where
  | decimal {digits : List UInt8} : digits ≠ [] → digits.head? ≠ some 0x30 →
      (∀ letter ∈ digits, isDigit 10 letter) → Magnitude digits (digitsValue 10 digits)
  | octal {digits : List UInt8} : digits.head? = some 0x30 →
      (∀ letter ∈ digits, isDigit 8 letter) → Magnitude digits (digitsValue 8 digits)
  | hexadecimal {x : UInt8} {digits : List UInt8} : x = 0x78 ∨ x = 0x58 → digits ≠ [] →
      (∀ letter ∈ digits, isDigit 16 letter) → Magnitude (0x30 :: x :: digits) (digitsValue 16 digits)

/-- The text is, in its entirety, a literal of the value. -/
def IntegerLiteral (text : List UInt8) (value : Int) : Prop :=
  ∃ sign negative digits magnitude, text = sign ++ digits ∧ Sign sign negative ∧
    Magnitude digits magnitude ∧ value = applySign negative magnitude

/-- The longest literal that starts the text, behind any white space, has the value. -/
def LeadingLiteral (text : List UInt8) (value : Int) : Prop :=
  ∃ space literal rest, text = space ++ (literal ++ rest) ∧ (∀ letter ∈ space, isspace letter) ∧
    IntegerLiteral literal value ∧
    ∀ longer other otherValue, literal ++ rest = longer ++ other → IntegerLiteral longer otherValue →
      longer.length ≤ literal.length

theorem length_le_takeWhile {α : Type} (accept : α → Bool) (front back : List α)
    (all : ∀ letter ∈ front, accept letter) :
    front.length ≤ ((front ++ back).takeWhile accept).length := by
  rw [List.takeWhile_append_of_pos all, List.length_append]
  exact Nat.le_add_right _ _

theorem not_octal_x {x : UInt8} (marker : x = 0x78 ∨ x = 0x58) : isDigit 8 x = false := by
  rcases marker with rfl | rfl <;> rfl

theorem hasHexPrefix_iff {text : List UInt8} : hasHexPrefix text ↔
    ∃ x digit rest, text = 0x30 :: x :: digit :: rest ∧ (x = 0x78 ∨ x = 0x58) ∧ isDigit 16 digit := by
  constructor
  · intro marked
    match text, marked with
    | zero :: x :: digit :: rest, marked =>
      simp only [hasHexPrefix, Bool.and_eq_true, decide_eq_true_eq, Bool.or_eq_true] at marked
      exact ⟨x, digit, rest, by rw [marked.1.1], marked.1.2, marked.2⟩
  · rintro ⟨x, digit, rest, rfl, marker, hex⟩
    simp [hasHexPrefix, marker, hex]

theorem Magnitude.unique {digits : List UInt8} {first second : Nat} (left : Magnitude digits first)
    (right : Magnitude digits second) : first = second := by
  cases left with
  | decimal _ nonzero _ =>
    cases right with
    | decimal => rfl
    | octal zero => exact absurd zero nonzero
    | hexadecimal => exact absurd rfl nonzero
  | octal zero octal =>
    cases right with
    | decimal _ nonzero => exact absurd zero nonzero
    | octal => rfl
    | hexadecimal marker =>
      have notOctal := not_octal_x marker
      simp [notOctal] at octal
  | hexadecimal marker =>
    cases right with
    | decimal _ nonzero => exact absurd rfl nonzero
    | octal _ octal =>
      have notOctal := not_octal_x marker
      simp [notOctal] at octal
    | hexadecimal => rfl

/-- A magnitude starts with a decimal digit, so neither a sign nor a space can start it. -/
theorem Magnitude.head {digits : List UInt8} {magnitude : Nat} (literal : Magnitude digits magnitude) :
    ∃ first rest, digits = first :: rest ∧ isDigit 10 first := by
  cases literal with
  | decimal nonempty _ decimal =>
    obtain ⟨first, rest, rfl⟩ := List.exists_cons_of_ne_nil nonempty
    exact ⟨first, rest, rfl, decimal first (by simp)⟩
  | octal zero =>
    obtain ⟨rest, rfl⟩ := List.head?_eq_some_iff.mp zero
    exact ⟨0x30, rest, rfl, rfl⟩
  | hexadecimal => exact ⟨0x30, _, rfl, rfl⟩

/-! ## The scanner finds the longest magnitude -/

theorem scanDigits_hex {x digit : UInt8} {rest : List UInt8} (marker : x = 0x78 ∨ x = 0x58)
    (hex : isDigit 16 digit) : scanDigits 0 (0x30 :: x :: digit :: rest) =
      (16, (digit :: rest).takeWhile (isDigit 16)) := by
  have marked := hasHexPrefix_iff.mpr ⟨x, digit, rest, rfl, marker, hex⟩
  simp [scanDigits, takeBase, marked]

theorem scanDigits_plain {text : List UInt8} (unmarked : ¬ hasHexPrefix text) :
    scanDigits 0 text = if text.head? = some 0x30 then (8, text.takeWhile (isDigit 8))
      else (10, text.takeWhile (isDigit 10)) := by
  simp only [scanDigits, takeBase, unmarked, and_false, if_false, if_true, Bool.false_eq_true]
  split <;> rfl

/-- Nothing is scanned only if no magnitude starts the text. -/
theorem Magnitude.scan_ne_nil {digits rest : List UInt8} {magnitude : Nat}
    (literal : Magnitude digits magnitude) : (scanDigits 0 (digits ++ rest)).2 ≠ [] := by
  obtain ⟨first, tail, rfl, decimal⟩ := literal.head
  by_cases marked : hasHexPrefix (first :: tail ++ rest)
  · obtain ⟨x, digit, other, shape, marker, hex⟩ := hasHexPrefix_iff.mp marked
    rw [shape, scanDigits_hex marker hex]
    simp [hex]
  · rw [scanDigits_plain marked]
    split
    next zero =>
      have firstZero : first = 0x30 := by simpa using zero
      have octal : isDigit 8 first := by rw [firstZero]; rfl
      simp [octal]
    next => simp [decimal]

/-- The text starts with digits of the magnitude, and with no longer ones of any magnitude. -/
def LongestMagnitude (text digits : List UInt8) (magnitude : Nat) : Prop :=
  Magnitude digits magnitude ∧ (∃ rest, text = digits ++ rest) ∧
    ∀ longer other otherMagnitude, text = longer ++ other → Magnitude longer otherMagnitude →
      longer.length ≤ digits.length

theorem longest_hexadecimal {x : UInt8} {text : List UInt8} (marker : x = 0x78 ∨ x = 0x58)
    (nonempty : text.takeWhile (isDigit 16) ≠ []) :
    LongestMagnitude (0x30 :: x :: text) (0x30 :: x :: text.takeWhile (isDigit 16))
      (digitsValue 16 (text.takeWhile (isDigit 16))) := by
  have all : ∀ letter ∈ text.takeWhile (isDigit 16), isDigit 16 letter :=
    fun letter member => List.mem_takeWhile_imp member
  refine ⟨.hexadecimal marker nonempty all, ⟨text.dropWhile (isDigit 16), ?_⟩, ?_⟩
  · simp [List.takeWhile_append_dropWhile]
  · intro longer other magnitude shape literal
    cases literal with
    | decimal nonempty nonzero =>
      obtain ⟨first, rest, rfl⟩ := List.exists_cons_of_ne_nil nonempty
      obtain ⟨rfl, _⟩ := List.cons.inj shape
      exact absurd rfl nonzero
    | octal zero octal =>
      -- An octal literal cannot go on past the `x`.
      obtain ⟨rest, rfl⟩ := List.head?_eq_some_iff.mp zero
      cases rest with
      | nil => simp
      | cons second rest =>
        obtain ⟨rfl, _⟩ := List.cons.inj (List.cons.inj shape).2
        have notOctal := not_octal_x marker
        simp [notOctal] at octal
    | @hexadecimal _ digits _ _ all =>
      have back : text = digits ++ other := (List.cons.inj (List.cons.inj shape).2).2
      have bound := length_le_takeWhile (isDigit 16) digits other all
      rw [← back] at bound
      simpa using bound

theorem longest_octal {text : List UInt8} (zero : text.head? = some 0x30) (unmarked : ¬ hasHexPrefix text) :
    LongestMagnitude text (text.takeWhile (isDigit 8)) (digitsValue 8 (text.takeWhile (isDigit 8))) := by
  obtain ⟨tail, rfl⟩ := List.head?_eq_some_iff.mp zero
  have octalZero : isDigit 8 0x30 := rfl
  have all : ∀ letter ∈ (0x30 :: tail).takeWhile (isDigit 8), isDigit 8 letter :=
    fun letter member => List.mem_takeWhile_imp member
  refine ⟨.octal (by simp [octalZero]) all, ⟨_, List.takeWhile_append_dropWhile.symm⟩, ?_⟩
  intro longer other magnitude shape literal
  cases literal with
  | decimal nonempty nonzero =>
    obtain ⟨first, rest, rfl⟩ := List.exists_cons_of_ne_nil nonempty
    obtain ⟨rfl, _⟩ := List.cons.inj shape
    exact absurd rfl nonzero
  | octal _ octal => exact shape ▸ length_le_takeWhile (isDigit 8) longer other octal
  | @hexadecimal x digits marker nonempty all =>
    -- The scanner would have seen the prefix.
    obtain ⟨digit, rest, rfl⟩ := List.exists_cons_of_ne_nil nonempty
    exact absurd (hasHexPrefix_iff.mpr ⟨x, digit, rest ++ other, shape, marker, all digit (by simp)⟩) unmarked

theorem longest_decimal {text : List UInt8} (nonzero : text.head? ≠ some 0x30)
    (nonempty : text.takeWhile (isDigit 10) ≠ []) :
    LongestMagnitude text (text.takeWhile (isDigit 10)) (digitsValue 10 (text.takeWhile (isDigit 10))) := by
  have all : ∀ letter ∈ text.takeWhile (isDigit 10), isDigit 10 letter :=
    fun letter member => List.mem_takeWhile_imp member
  have head : (text.takeWhile (isDigit 10)).head? ≠ some 0x30 := by
    cases text with
    | nil => simp
    | cons first tail =>
      rw [List.takeWhile_cons]
      split <;> simp_all
  refine ⟨.decimal nonempty head all, ⟨_, List.takeWhile_append_dropWhile.symm⟩, ?_⟩
  intro longer other magnitude shape literal
  -- Every other magnitude starts with a zero.
  cases literal with
  | decimal _ _ decimal => exact shape ▸ length_le_takeWhile (isDigit 10) longer other decimal
  | octal leading =>
    obtain ⟨rest, rfl⟩ := List.head?_eq_some_iff.mp leading
    exact absurd (by rw [shape]; rfl) nonzero
  | hexadecimal => exact absurd (by rw [shape]; rfl) nonzero

/-- What is scanned is the longest magnitude that starts the text. -/
theorem scan_longest (text : List UInt8) (scanned : (scanDigits 0 text).2 ≠ []) :
    ∃ digits, LongestMagnitude text digits (digitsValue (scanDigits 0 text).1 (scanDigits 0 text).2) := by
  by_cases marked : hasHexPrefix text
  · obtain ⟨x, digit, tail, rfl, marker, hex⟩ := hasHexPrefix_iff.mp marked
    rw [scanDigits_hex marker hex] at scanned ⊢
    exact ⟨_, longest_hexadecimal marker scanned⟩
  · rw [scanDigits_plain marked] at scanned ⊢
    by_cases zero : text.head? = some 0x30
    · rw [if_pos zero]
      exact ⟨_, longest_octal zero marked⟩
    · rw [if_neg zero] at scanned ⊢
      exact ⟨_, longest_decimal zero scanned⟩

/-! ## `stoi` on literals -/

theorem takeSign_split (text : List UInt8) :
    ∃ sign, Sign sign (takeSign text).1 ∧ text = sign ++ (takeSign text).2 := by
  cases text with
  | nil => exact ⟨[], .absent, rfl⟩
  | cons letter rest =>
    rw [takeSign]
    split
    next minus => exact ⟨[0x2d], .minus, by rw [minus]; rfl⟩
    next =>
      split
      next plus => exact ⟨[0x2b], .plus, by rw [plus]; rfl⟩
      next => exact ⟨[], .absent, rfl⟩

theorem takeSign_literal {sign digits : List UInt8} {negative : Bool} {magnitude : Nat}
    (signed : Sign sign negative) (literal : Magnitude digits magnitude) (rest : List UInt8) :
    takeSign (sign ++ (digits ++ rest)) = (negative, digits ++ rest) := by
  cases signed with
  | plus => rfl
  | minus => rfl
  | absent =>
    obtain ⟨first, tail, rfl, decimal⟩ := literal.head
    have range := isDigit_ten.mp decimal
    have notMinus : first ≠ 0x2d := by rintro rfl; exact absurd range (by decide)
    have notPlus : first ≠ 0x2b := by rintro rfl; exact absurd range (by decide)
    simp [takeSign, notMinus, notPlus]

theorem IntegerLiteral.unique {text : List UInt8} {first second : Int}
    (left : IntegerLiteral text first) (right : IntegerLiteral text second) : first = second := by
  obtain ⟨sign, negative, digits, magnitude, shape, signed, literal, rfl⟩ := left
  obtain ⟨otherSign, otherNegative, otherDigits, otherMagnitude, otherShape, otherSigned, otherLiteral, rfl⟩ :=
    right
  have split := takeSign_literal signed literal []
  have otherSplit := takeSign_literal otherSigned otherLiteral []
  simp only [List.append_nil, ← shape, ← otherShape] at split otherSplit
  obtain ⟨rfl, rfl⟩ := Prod.mk.inj (split.symm.trans otherSplit)
  rw [literal.unique otherLiteral]

theorem IntegerLiteral.head {text : List UInt8} {value : Int} (literal : IntegerLiteral text value) :
    ∃ first rest, text = first :: rest ∧ isspace first = false := by
  obtain ⟨sign, negative, digits, magnitude, rfl, signed, unsigned, rfl⟩ := literal
  cases signed with
  | plus => exact ⟨0x2b, digits, rfl, rfl⟩
  | minus => exact ⟨0x2d, digits, rfl, rfl⟩
  | absent =>
    obtain ⟨first, tail, rfl, decimal⟩ := unsigned.head
    have range := isDigit_ten.mp decimal
    refine ⟨first, tail, rfl, ?_⟩
    simp only [isspace, Bool.or_eq_false_iff, decide_eq_false_iff_not, Bool.and_eq_false_iff,
      UInt8.le_iff_toNat_le, ← UInt8.toNat_inj, UInt8.reduceToNat]
    omega

/-- White space in front of a literal is all the white space the text starts with. -/
theorem dropWhile_literal {space literal : List UInt8} {value : Int}
    (blank : ∀ letter ∈ space, isspace letter) (found : IntegerLiteral literal value) (rest : List UInt8) :
    (space ++ (literal ++ rest)).dropWhile isspace = literal ++ rest := by
  obtain ⟨first, tail, rfl, visible⟩ := found.head
  rw [List.dropWhile_append_of_pos blank, List.cons_append, List.dropWhile_cons, visible]
  rfl

theorem LeadingLiteral.unique {text : List UInt8} {first second : Int}
    (left : LeadingLiteral text first) (right : LeadingLiteral text second) : first = second := by
  obtain ⟨space, literal, rest, shape, blank, found, longest⟩ := left
  obtain ⟨otherSpace, other, otherRest, otherShape, otherBlank, otherFound, otherLongest⟩ := right
  have tails : literal ++ rest = other ++ otherRest := by
    rw [← dropWhile_literal blank found rest, ← dropWhile_literal otherBlank otherFound otherRest,
      ← shape, ← otherShape]
  have length : literal.length = other.length :=
    Nat.le_antisymm (otherLongest _ _ _ tails.symm found) (longest _ _ _ tails otherFound)
  obtain ⟨rfl, -⟩ := List.append_inj tails length
  exact found.unique otherFound

/-- A text that is a literal leads with itself. -/
theorem IntegerLiteral.leading {text : List UInt8} {value : Int} (literal : IntegerLiteral text value) :
    LeadingLiteral text value := by
  refine ⟨[], text, [], by simp, by simp, literal, ?_⟩
  intro longer other otherValue shape _
  have lengths := congrArg List.length shape
  simp only [List.append_nil, List.length_append] at lengths
  omega

theorem LeadingLiteral.scan_ne_nil {text : List UInt8} {value : Int} (leading : LeadingLiteral text value) :
    (scanDigits 0 (takeSign (text.dropWhile isspace)).2).2 ≠ [] := by
  obtain ⟨space, literal, rest, rfl, blank, found, -⟩ := leading
  rw [dropWhile_literal blank found rest]
  obtain ⟨sign, negative, digits, magnitude, rfl, signed, unsigned, rfl⟩ := found
  rw [List.append_assoc, takeSign_literal signed unsigned rest]
  exact unsigned.scan_ne_nil

theorem leadingLiteral_of_scan (text : List UInt8)
    (scanned : (scanDigits 0 (takeSign (text.dropWhile isspace)).2).2 ≠ []) :
    LeadingLiteral text (applySign (takeSign (text.dropWhile isspace)).1
      (digitsValue (scanDigits 0 (takeSign (text.dropWhile isspace)).2).1
        (scanDigits 0 (takeSign (text.dropWhile isspace)).2).2)) := by
  obtain ⟨sign, signed, signShape⟩ := takeSign_split (text.dropWhile isspace)
  obtain ⟨literal, found, ⟨rest, shape⟩, longest⟩ := scan_longest _ scanned
  have body : text.dropWhile isspace = sign ++ literal ++ rest := by
    rw [List.append_assoc, ← shape, ← signShape]
  refine ⟨text.takeWhile isspace, sign ++ literal, rest, ?_, fun letter => List.mem_takeWhile_imp,
    ⟨sign, _, literal, _, rfl, signed, found, rfl⟩, ?_⟩
  · rw [← body, List.takeWhile_append_dropWhile]
  · intro longer other otherValue split otherFound
    obtain ⟨otherSign, negative, digits, magnitude, rfl, otherSigned, unsigned, rfl⟩ := otherFound
    have resigned := takeSign_literal otherSigned unsigned other
    rw [← List.append_assoc, ← split, ← body] at resigned
    have unsignedShape : (takeSign (text.dropWhile isspace)).2 = digits ++ other := congrArg Prod.snd resigned
    have tails : sign ++ (takeSign (text.dropWhile isspace)).2 =
        otherSign ++ (takeSign (text.dropWhile isspace)).2 := by
      rw [← signShape, unsignedShape, body, split, List.append_assoc]
    have bound := longest digits other magnitude unsignedShape unsigned
    rw [List.append_cancel_right tails, List.length_append, List.length_append]
    omega

/-- `stoi` in base 0 returns the longest leading literal, if an `int` holds it. -/
theorem stoi_eq_ok_iff (text : List UInt8) (value : Int) :
    stoi text 0 = .ok value ↔ LeadingLiteral text value ∧ FitsInt value := by
  constructor
  · intro returned
    unfold stoi at returned
    dsimp only at returned
    split at returned
    next => cases returned
    next scanned =>
      split at returned
      next fits =>
        cases returned
        exact ⟨leadingLiteral_of_scan text scanned, fits⟩
      next => cases returned
  · rintro ⟨leading, fits⟩
    have scanned := leading.scan_ne_nil
    have same := leading.unique (leadingLiteral_of_scan text scanned)
    unfold stoi
    dsimp only
    rw [if_neg scanned, ← same, if_pos fits]

/-- `stoi` in base 0 throws exactly on texts without a leading literal that fits. -/
theorem stoi_throws_iff (text : List UInt8) :
    (∃ thrown, stoi text 0 = .error thrown) ↔ ¬ ∃ value, LeadingLiteral text value ∧ FitsInt value := by
  simp only [← stoi_eq_ok_iff]
  cases stoi text 0 <;> simp

theorem IntegerLiteral.stoi {text : List UInt8} {value : Int} (literal : IntegerLiteral text value)
    (fits : FitsInt value) : stoi text 0 = .ok value :=
  (stoi_eq_ok_iff text value).mpr ⟨literal.leading, fits⟩

theorem decimalText_literal (value : Int) : IntegerLiteral (decimalText value) value := by
  have decimal := canonicalDigits_lt 10 value.natAbs (by decide)
  have unsigned : Magnitude ((canonicalDigits 10 value.natAbs).map fun digit => UInt8.ofNat (0x30 + digit))
      value.natAbs := by
    by_cases zero : value.natAbs = 0
    · rw [zero]
      exact .octal rfl (List.all_eq_true.mp rfl)
    · obtain ⟨first, rest, shape, nonzero⟩ := canonicalDigits_head 10 value.natAbs zero
      have denoted := digitsValue_decimal _ decimal 10
      rw [numeral_canonicalDigits] at denoted
      rw [shape] at denoted decimal ⊢
      conv => rhs; rw [← denoted]
      refine .decimal (by simp) ?_ ?_
      · intro head
        have small := decimal first (by simp)
        have code := congrArg UInt8.toNat (Option.some.inj head)
        rw [decimalDigit_toNat small] at code
        exact nonzero (by simpa using code)
      · intro letter member
        obtain ⟨digit, digitMember, rfl⟩ := List.mem_map.mp member
        have small := decimal digit digitMember
        rw [isDigit_ten, decimalDigit_toNat small]
        omega
  by_cases negative : value < 0
  · refine ⟨[0x2d], true, _, value.natAbs, by simp [decimalText, negative], .minus, unsigned, ?_⟩
    simp only [applySign, if_true]
    omega
  · refine ⟨[], false, _, value.natAbs, by simp [decimalText, negative], .absent, unsigned, ?_⟩
    simp only [applySign, Bool.false_eq_true, if_false]
    omega

theorem decimalText_letters (value : Int) :
    ∀ letter ∈ decimalText value, letter = 0x2d ∨ isDigit 10 letter := by
  intro letter member
  rcases List.mem_append.mp member with sign | digits
  · split at sign
    next => exact .inl (List.mem_singleton.mp sign)
    next => cases sign
  · obtain ⟨digit, digitMember, rfl⟩ := List.mem_map.mp digits
    have small := canonicalDigits_lt 10 value.natAbs (by decide) digit digitMember
    apply Or.inr
    rw [isDigit_ten, decimalDigit_toNat small]
    omega

theorem decimalText_ne_nil (value : Int) : decimalText value ≠ [] := by
  have digits := canonicalDigits_ne_nil 10 value.natAbs
  simp [decimalText, digits]

end BitcoinWasm.CLibrary
