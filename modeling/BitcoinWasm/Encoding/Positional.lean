import Mathlib.Data.Nat.Digits.Lemmas
import Mathlib.Algebra.Order.Ring.Nat

/-! Positional numerals: most-significant-first digit sequences over any base,
their regrouping in pairs, and words of a fixed number of little-endian bytes.
-/

set_option autoImplicit false

namespace BitcoinWasm.Encoding

/-- The number denoted by digits written most significant first. -/
def numeral (base : Nat) (digits : List Nat) : Nat :=
  digits.foldl (fun value digit => value * base + digit) 0

@[simp] theorem numeral_nil (base : Nat) : numeral base [] = 0 := rfl

theorem numeral_concat (base : Nat) (digits : List Nat) (digit : Nat) :
    numeral base (digits ++ [digit]) = numeral base digits * base + digit := by
  simp [numeral, List.foldl_append]

theorem numeral_eq_ofDigits (base : Nat) (digits : List Nat) :
    numeral base digits = Nat.ofDigits base digits.reverse := by
  induction digits using List.reverseRecOn with
  | nil => rfl
  | append_singleton front digit ih =>
    rw [numeral_concat, ih, List.reverse_append, List.reverse_singleton, List.singleton_append,
      Nat.ofDigits_cons, Nat.mul_comm, Nat.add_comm]

theorem numeral_append (base : Nat) (front back : List Nat) :
    numeral base (front ++ back) = numeral base front * base ^ back.length + numeral base back := by
  simp only [numeral_eq_ofDigits, List.reverse_append, Nat.ofDigits_append, List.length_reverse]
  rw [Nat.add_comm, Nat.mul_comm]

theorem numeral_cons (base digit : Nat) (rest : List Nat) :
    numeral base (digit :: rest) = digit * base ^ rest.length + numeral base rest := by
  simpa [numeral] using numeral_append base [digit] rest

theorem numeral_lt (base : Nat) (digits : List Nat) (large : 1 < base)
    (bounded : ∀ digit ∈ digits, digit < base) : numeral base digits < base ^ digits.length := by
  rw [numeral_eq_ofDigits, ← List.length_reverse]
  exact Nat.ofDigits_lt_base_pow_length large (by simpa using bounded)

/-- The canonical digits of a number, most significant first; zero is one digit. -/
def canonicalDigits (base value : Nat) : List Nat :=
  if value = 0 then [0] else (Nat.digits base value).reverse

@[simp] theorem numeral_canonicalDigits (base value : Nat) :
    numeral base (canonicalDigits base value) = value := by
  unfold canonicalDigits
  split
  next zero => simp [numeral, zero]
  next => rw [numeral_eq_ofDigits, List.reverse_reverse, Nat.ofDigits_digits]

theorem canonicalDigits_ne_nil (base value : Nat) : canonicalDigits base value ≠ [] := by
  unfold canonicalDigits
  split
  next => simp
  next nonzero => simpa [Nat.digits_eq_nil_iff_eq_zero] using nonzero

theorem canonicalDigits_lt (base value : Nat) (large : 1 < base) :
    ∀ digit ∈ canonicalDigits base value, digit < base := by
  intro digit member
  unfold canonicalDigits at member
  split at member
  next => simp only [List.mem_singleton] at member; omega
  next => exact Nat.digits_lt_base large (List.mem_reverse.mp member)

/-- A canonical numeral starts with a nonzero digit, unless it is the numeral of zero. -/
theorem canonicalDigits_head (base value : Nat) (nonzero : value ≠ 0) :
    ∃ first rest, canonicalDigits base value = first :: rest ∧ first ≠ 0 := by
  have nonempty : Nat.digits base value ≠ [] := Nat.digits_ne_nil_iff_ne_zero.mpr nonzero
  refine ⟨(Nat.digits base value).getLast nonempty, (Nat.digits base value).dropLast.reverse, ?_,
    Nat.getLast_digit_ne_zero base nonzero⟩
  rw [canonicalDigits, if_neg nonzero]
  conv_lhs => rw [← List.dropLast_append_getLast nonempty]
  simp

/-- Group digits two by two into digits of the squared base. A last digit
without a partner stays alone, with its own value. -/
def pairDigits (base : Nat) : List Nat → List Nat
  | first :: second :: rest => (first * base + second) :: pairDigits base rest
  | [single] => [single]
  | [] => []

theorem pairDigits_length (base : Nat) (digits : List Nat) :
    (pairDigits base digits).length = (digits.length + 1) / 2 := by
  induction digits using pairDigits.induct with
  | case1 first second rest ih => simp only [pairDigits, List.length_cons, ih]; omega
  | case2 single => simp [pairDigits]
  | case3 => rfl

theorem pairDigits_lt (base : Nat) (digits : List Nat) (bounded : ∀ digit ∈ digits, digit < base) :
    ∀ pair ∈ pairDigits base digits, pair < base * base := by
  induction digits using pairDigits.induct with
  | case1 first second rest ih =>
    have firstBound := bounded first (by simp)
    have secondBound := bounded second (by simp)
    rw [pairDigits, List.forall_mem_cons]
    refine ⟨?_, ih fun digit member => bounded digit (by simp [member])⟩
    calc first * base + second < first * base + base := Nat.add_lt_add_left secondBound _
      _ = (first + 1) * base := (Nat.succ_mul first base).symm
      _ ≤ base * base := Nat.mul_le_mul_right base firstBound
  | case2 single =>
    have bound := bounded single (by simp)
    simp only [pairDigits, List.mem_singleton, forall_eq]
    exact Nat.lt_of_lt_of_le bound (Nat.le_mul_of_pos_left base (Nat.zero_lt_of_lt bound))
  | case3 => simp [pairDigits]

/-- Regrouping an even number of digits keeps the number they denote. -/
theorem numeral_pairDigits_even (base : Nat) (digits : List Nat) (even : Even digits.length) :
    numeral (base * base) (pairDigits base digits) = numeral base digits := by
  induction digits using pairDigits.induct with
  | case1 first second rest ih =>
    have restEven : Even rest.length := by
      simpa [Nat.even_add_one] using even
    -- There are half as many pairs as digits, and a pair weighs the square of the base.
    have half : (pairDigits base rest).length + (pairDigits base rest).length = rest.length := by
      obtain ⟨count, twice⟩ := restEven
      rw [pairDigits_length]
      omega
    rw [pairDigits, numeral_cons, ih restEven, numeral_cons, numeral_cons, ← half, List.length_cons,
      ← half, mul_pow, ← pow_add, pow_succ]
    ring
  | case2 single => simp at even
  | case3 => rfl

/-- Over an odd number of digits the last one is weighted as a whole pair. -/
theorem numeral_pairDigits_odd (base : Nat) (front : List Nat) (last : Nat) (even : Even front.length) :
    numeral (base * base) (pairDigits base (front ++ [last])) =
      numeral base front * (base * base) + last := by
  have split : pairDigits base (front ++ [last]) = pairDigits base front ++ [last] := by
    induction front using pairDigits.induct with
    | case1 first second rest ih =>
      have restEven : Even rest.length := by
        simpa [Nat.even_add_one] using even
      simp only [List.cons_append, pairDigits, ih restEven]
    | case2 single => simp at even
    | case3 => rfl
  rw [split, numeral_concat, numeral_pairDigits_even base front even]

theorem numeral_eq_zero_iff (base : Nat) (positive : 0 < base) (digits : List Nat) :
    numeral base digits = 0 ↔ ∀ digit ∈ digits, digit = 0 := by
  induction digits with
  | nil => simp
  | cons first rest ih =>
    have weight : base ^ rest.length ≠ 0 := (Nat.pow_pos positive).ne'
    rw [numeral_cons, Nat.add_eq_zero_iff, ih, Nat.mul_eq_zero, or_iff_left weight, List.forall_mem_cons]

/-! ## Little-endian words -/

/-- The `width` low-order bytes of a value, least significant first. -/
def wordLE : Nat → Nat → List UInt8
  | 0, _ => []
  | width + 1, value => UInt8.ofNat value :: wordLE width (value / 256)

/-- The value of bytes written least significant first. -/
def valueOfLE (bytes : List UInt8) : Nat :=
  Nat.ofDigits 256 (bytes.map UInt8.toNat)

@[simp] theorem valueOfLE_nil : valueOfLE [] = 0 := rfl

theorem valueOfLE_cons (byte : UInt8) (rest : List UInt8) :
    valueOfLE (byte :: rest) = byte.toNat + 256 * valueOfLE rest := by
  simp [valueOfLE, Nat.ofDigits_cons]

@[simp] theorem wordLE_length (width value : Nat) : (wordLE width value).length = width := by
  induction width generalizing value with
  | zero => rfl
  | succ width ih => rw [wordLE, List.length_cons, ih]

theorem valueOfLE_wordLE (width value : Nat) (fits : value < 256 ^ width) :
    valueOfLE (wordLE width value) = value := by
  induction width generalizing value with
  | zero => simp at fits; simp [wordLE, fits]
  | succ width ih =>
    have quotient : value / 256 < 256 ^ width :=
      Nat.div_lt_of_lt_mul (by rwa [Nat.pow_succ, Nat.mul_comm] at fits)
    rw [wordLE, valueOfLE_cons, ih _ quotient, UInt8.toNat_ofNat']
    exact Nat.mod_add_div value 256

theorem wordLE_valueOfLE (bytes : List UInt8) : wordLE bytes.length (valueOfLE bytes) = bytes := by
  induction bytes with
  | nil => rfl
  | cons byte rest ih =>
    have bounded : byte.toNat < 256 := byte.toNat_lt
    have quotient : (byte.toNat + 256 * valueOfLE rest) / 256 = valueOfLE rest := by omega
    have low : UInt8.ofNat (byte.toNat + 256 * valueOfLE rest) = byte := by
      apply UInt8.toNat_inj.mp
      rw [UInt8.toNat_ofNat']
      omega
    rw [List.length_cons, valueOfLE_cons, wordLE, quotient, low, ih]

theorem valueOfLE_lt (bytes : List UInt8) : valueOfLE bytes < 256 ^ bytes.length := by
  have bounded := Nat.ofDigits_lt_base_pow_length (b := 256) (l := bytes.map UInt8.toNat) (by decide)
    (by simpa using fun byte (_ : byte ∈ bytes) => byte.toNat_lt)
  simpa [valueOfLE] using bounded

end BitcoinWasm.Encoding
