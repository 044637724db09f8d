import Mathlib

/-! Division steps on integers.

A division step halves the second of two numbers, after a multiple of the first one,
which is odd, has been added to it. A counter decides when the two change places. The
steps are linear: after `n` of them `2 ^ n` times the numbers are a combination of
those at the start, and its coefficients stay below `2 ^ n`.

There are two counters in use, which differ in what a change of places does to them.
-/

set_option autoImplicit false

namespace BitcoinWasm.Numbers

/-- A state of the iteration. -/
@[ext] structure DivState where
  eta : ℤ
  f : ℤ
  g : ℤ
  odd : f % 2 = 1

/-- One step. At a change of places the counter becomes `-eta - turn`. -/
def divstep (turn : ℤ) (s : DivState) : DivState :=
  if change : s.g % 2 = 1 then
    if s.eta < 0 then ⟨-s.eta - turn, s.g, (s.g - s.f) / 2, change⟩
    else ⟨s.eta - 1, s.f, (s.g + s.f) / 2, s.odd⟩
  else ⟨s.eta - 1, s.f, s.g / 2, s.odd⟩

def divsteps (turn : ℤ) : ℕ → DivState → DivState
  | 0, s => s
  | n + 1, s => divsteps turn n (divstep turn s)

theorem divsteps_add (turn : ℤ) (m n : ℕ) (s : DivState) :
    divsteps turn (m + n) s = divsteps turn n (divsteps turn m s) := by
  induction m generalizing s with
  | zero => rw [Nat.zero_add, divsteps]
  | succ m ih => rw [Nat.succ_add, divsteps, divsteps, ih]

/-! ## Transitions -/

/-- Coefficients of a combination of two numbers. -/
@[ext] structure Transition where
  u : ℤ
  v : ℤ
  q : ℤ
  r : ℤ

/-- First one transition, then another one. -/
def Transition.after (later earlier : Transition) : Transition where
  u := later.u * earlier.u + later.v * earlier.q
  v := later.u * earlier.v + later.v * earlier.r
  q := later.q * earlier.u + later.r * earlier.q
  r := later.q * earlier.v + later.r * earlier.r

/-- `n` steps lead from `s` to `t` by this transition. -/
structure Follows (s : DivState) (n : ℕ) (m : Transition) (t : DivState) : Prop where
  f : 2 ^ n * t.f = m.u * s.f + m.v * s.g
  g : 2 ^ n * t.g = m.q * s.f + m.r * s.g
  top : |m.u| + |m.v| ≤ 2 ^ n
  bottom : |m.q| + |m.r| ≤ 2 ^ n
  det : m.u * m.r - m.v * m.q = 2 ^ n

theorem Follows.refl (s : DivState) : Follows s 0 ⟨1, 0, 0, 1⟩ s := by
  constructor <;> simp

/-- The coefficients of a row after a transition. -/
theorem row_bound {a b : ℤ} {m : Transition} {n k : ℕ} (row : |a| + |b| ≤ 2 ^ k) (top : |m.u| + |m.v| ≤ 2 ^ n)
    (bottom : |m.q| + |m.r| ≤ 2 ^ n) : |a * m.u + b * m.q| + |a * m.v + b * m.r| ≤ 2 ^ (n + k) :=
  calc |a * m.u + b * m.q| + |a * m.v + b * m.r|
      ≤ (|a * m.u| + |b * m.q|) + (|a * m.v| + |b * m.r|) := add_le_add (abs_add_le _ _) (abs_add_le _ _)
    _ = |a| * (|m.u| + |m.v|) + |b| * (|m.q| + |m.r|) := by simp only [abs_mul]; ring
    _ ≤ |a| * 2 ^ n + |b| * 2 ^ n :=
        add_le_add (mul_le_mul_of_nonneg_left top (abs_nonneg a)) (mul_le_mul_of_nonneg_left bottom (abs_nonneg b))
    _ = (|a| + |b|) * 2 ^ n := by ring
    _ ≤ 2 ^ k * 2 ^ n := mul_le_mul_of_nonneg_right row (by positivity)
    _ = 2 ^ (n + k) := by rw [pow_add, mul_comm]

theorem Follows.trans {s t w : DivState} {n k : ℕ} {m l : Transition} (first : Follows s n m t)
    (second : Follows t k l w) : Follows s (n + k) (l.after m) w where
  f := by
    have one := first.f
    have two := first.g
    have three := second.f
    calc 2 ^ (n + k) * w.f = 2 ^ n * (2 ^ k * w.f) := by rw [pow_add, mul_assoc]
      _ = l.u * (2 ^ n * t.f) + l.v * (2 ^ n * t.g) := by rw [three]; ring
      _ = _ := by rw [one, two, Transition.after]; ring
  g := by
    have one := first.f
    have two := first.g
    have three := second.g
    calc 2 ^ (n + k) * w.g = 2 ^ n * (2 ^ k * w.g) := by rw [pow_add, mul_assoc]
      _ = l.q * (2 ^ n * t.f) + l.r * (2 ^ n * t.g) := by rw [three]; ring
      _ = _ := by rw [one, two, Transition.after]; ring
  top := row_bound second.top first.top first.bottom
  bottom := row_bound second.bottom first.top first.bottom
  det := by
    have one := first.det
    have two := second.det
    calc (l.after m).u * (l.after m).r - (l.after m).v * (l.after m).q
        = (m.u * m.r - m.v * m.q) * (l.u * l.r - l.v * l.q) := by simp only [Transition.after]; ring
      _ = 2 ^ (n + k) := by rw [one, two, pow_add]

/-- The start is a combination of the end. -/
theorem Follows.inverse {s t : DivState} {n : ℕ} {m : Transition} (follows : Follows s n m t) :
    s.f = m.r * t.f - m.v * t.g ∧ s.g = m.u * t.g - m.q * t.f := by
  have one := follows.f
  have two := follows.g
  have three := follows.det
  have nonzero : (2 : ℤ) ^ n ≠ 0 := by positivity
  constructor
  · apply mul_left_cancel₀ nonzero
    calc 2 ^ n * s.f = (m.u * m.r - m.v * m.q) * s.f := by rw [three]
      _ = m.r * (m.u * s.f + m.v * s.g) - m.v * (m.q * s.f + m.r * s.g) := by ring
      _ = 2 ^ n * (m.r * t.f - m.v * t.g) := by rw [← one, ← two]; ring
  · apply mul_left_cancel₀ nonzero
    calc 2 ^ n * s.g = (m.u * m.r - m.v * m.q) * s.g := by rw [three]
      _ = m.u * (m.q * s.f + m.r * s.g) - m.q * (m.u * s.f + m.v * s.g) := by ring
      _ = 2 ^ n * (m.u * t.g - m.q * t.f) := by rw [← one, ← two]; ring

/-- The numbers change places. -/
theorem Follows.exchange {s t : DivState} {n : ℕ} {m : Transition} (follows : Follows s n m t) (eta : ℤ)
    (odd : t.g % 2 = 1) : Follows s n ⟨m.q, m.r, -m.u, -m.v⟩ ⟨eta, t.g, -t.f, odd⟩ where
  f := follows.g
  g := by
    have row := follows.f
    linear_combination -row
  top := follows.bottom
  bottom := by simpa only [abs_neg] using follows.top
  det := by
    have det := follows.det
    linear_combination det

/-! ## One step -/

section
variable (turn : ℤ) (s : DivState)

theorem divstep_change (change : s.g % 2 = 1) (negative : s.eta < 0) :
    divstep turn s = ⟨-s.eta - turn, s.g, (s.g - s.f) / 2, change⟩ := by
  rw [divstep, dif_pos change, if_pos negative]

theorem divstep_add (odd : s.g % 2 = 1) (nonnegative : 0 ≤ s.eta) :
    divstep turn s = ⟨s.eta - 1, s.f, (s.g + s.f) / 2, s.odd⟩ := by
  rw [divstep, dif_pos odd, if_neg (not_lt.mpr nonnegative)]

theorem divstep_even (even : s.g % 2 = 0) : divstep turn s = ⟨s.eta - 1, s.f, s.g / 2, s.odd⟩ := by
  rw [divstep, dif_neg (by omega)]

/-- The transition of one step. -/
def stepTransition : Transition :=
  if s.g % 2 = 1 then
    if s.eta < 0 then ⟨0, 2, -1, 1⟩ else ⟨2, 0, 1, 1⟩
  else ⟨2, 0, 0, 1⟩

theorem follows_divstep : Follows s 1 (stepTransition s) (divstep turn s) := by
  have odd := s.odd
  by_cases change : s.g % 2 = 1
  · by_cases negative : s.eta < 0
    · rw [divstep_change turn s change negative, stepTransition, if_pos change, if_pos negative]
      constructor <;> simp only [pow_one] <;> first | omega | norm_num
    · rw [divstep_add turn s change (not_lt.mp negative), stepTransition, if_pos change, if_neg negative]
      constructor <;> simp only [pow_one] <;> first | omega | norm_num
  · rw [divstep_even turn s (by omega), stepTransition, if_neg change]
    constructor <;> simp only [pow_one] <;> first | omega | norm_num

/-- Every run has a transition. -/
theorem exists_follows (n : ℕ) : ∃ m, Follows s n m (divsteps turn n s) := by
  induction n generalizing s with
  | zero => exact ⟨⟨1, 0, 0, 1⟩, Follows.refl s⟩
  | succ n ih =>
    obtain ⟨m, follows⟩ := ih (divstep turn s)
    have run := (follows_divstep turn s).trans follows
    rw [Nat.add_comm] at run
    exact ⟨m.after (stepTransition s), run⟩

/-! ## Many steps at once -/

/-- Steps that only halve. -/
theorem divsteps_even (n : ℕ) (g : ℤ) (whole : s.g = 2 ^ n * g) :
    divsteps turn n s = ⟨s.eta - n, s.f, g, s.odd⟩ ∧ Follows s n ⟨2 ^ n, 0, 0, 1⟩ (divsteps turn n s) := by
  have run : divsteps turn n s = ⟨s.eta - n, s.f, g, s.odd⟩ := by
    induction n generalizing s with
    | zero =>
      rw [pow_zero, one_mul] at whole
      ext <;> simp [divsteps, whole]
    | succ n ih =>
      rw [pow_succ', mul_assoc] at whole
      have half : s.g / 2 = 2 ^ n * g := by omega
      have even : s.g % 2 = 0 := by omega
      rw [divsteps, divstep_even turn s even, ih _ half]
      ext
      · simp only [Nat.cast_succ]
        ring
      · rfl
      · rfl
  refine ⟨run, ?_⟩
  rw [run]
  have positive : (0 : ℤ) < 2 ^ n := by positivity
  constructor
  · simp
  · rw [whole]
    simp
  · simp [abs_of_pos positive]
  · simpa using Int.add_one_le_of_lt positive
  · simp

/-- Steps before the counter is negative: bit by bit the same multiple of `f` is added. -/
theorem divsteps_cancel (n : ℕ) (w g : ℤ) (counter : n ≤ s.eta + 1) (low : 0 ≤ w) (high : w < 2 ^ n)
    (whole : s.g + w * s.f = 2 ^ n * g) :
    divsteps turn n s = ⟨s.eta - n, s.f, g, s.odd⟩ ∧ Follows s n ⟨2 ^ n, 0, w, 1⟩ (divsteps turn n s) := by
  have run : divsteps turn n s = ⟨s.eta - n, s.f, g, s.odd⟩ := by
    induction n generalizing s w with
    | zero =>
      have zero : w = 0 := by omega
      rw [zero, zero_mul, add_zero, pow_zero, one_mul] at whole
      ext <;> simp [divsteps, whole]
    | succ n ih =>
      have odd := s.odd
      rw [pow_succ'] at high whole
      rw [mul_assoc] at whole
      rw [Nat.cast_succ] at counter
      -- The lowest bit of the multiple is the lowest bit of `g`.
      have bit : s.g % 2 = w % 2 := by
        have sum : (s.g + w * s.f) % 2 = 0 := by
          rw [whole]
          omega
        rw [Int.add_emod, Int.mul_emod, odd] at sum
        omega
      have next : divstep turn s = ⟨s.eta - 1, s.f, (s.g + w % 2 * s.f) / 2, s.odd⟩ := by
        by_cases add : s.g % 2 = 1
        · rw [divstep_add turn s add (by omega), ← bit, add, one_mul]
        · rw [divstep_even turn s (by omega), ← bit]
          have zero : s.g % 2 = 0 := by omega
          simp [zero]
      have rest : (s.g + w % 2 * s.f) / 2 + w / 2 * s.f = 2 ^ n * g := by
        have split : w * s.f = w % 2 * s.f + 2 * (w / 2 * s.f) := by
          rw [← mul_assoc, ← add_mul, Int.emod_add_mul_ediv]
        omega
      rw [divsteps, next, ih _ _ (by simp only; omega) (by omega) (by omega) rest]
      ext
      · simp only [Nat.cast_succ]
        ring
      · rfl
      · rfl
  refine ⟨run, ?_⟩
  rw [run]
  have positive : (0 : ℤ) < 2 ^ n := by positivity
  constructor
  · simp
  · rw [← whole]
    ring
  · simp [abs_of_pos positive]
  · simp only [abs_of_nonneg low, abs_one]
    omega
  · simp

/-- A multiple of the first number is added before the steps that it is for are made. -/
def DivState.added (s : DivState) (w : ℤ) : DivState := ⟨s.eta, s.f, s.g + w * s.f, s.odd⟩

def Transition.added (m : Transition) (w : ℤ) : Transition := ⟨m.u, m.v, m.q + w * m.u, m.r + w * m.v⟩

/-- The multiple may be chosen for fewer bits than turn out to be zero then. -/
theorem divsteps_cancel_more {n z : ℕ} (less : n ≤ z) (w g : ℤ) (counter : 0 < n → n ≤ s.eta + 1) (low : 0 ≤ w)
    (high : w < 2 ^ n) (whole : s.g + w * s.f = 2 ^ z * g) :
    divsteps turn z s = ⟨s.eta - z, s.f, g, s.odd⟩ ∧ Follows s z ⟨2 ^ z, 0, w, 1⟩ (divsteps turn z s) := by
  obtain ⟨rest, rfl⟩ := Nat.exists_eq_add_of_le less
  rcases Nat.eq_zero_or_pos n with rfl | some
  · have zero : w = 0 := by omega
    rw [zero, zero_mul, add_zero] at whole
    rw [zero]
    exact divsteps_even turn s _ g whole
  · rw [pow_add, mul_assoc] at whole
    obtain ⟨first, follows⟩ := divsteps_cancel turn s n w _ (counter some) low high whole
    obtain ⟨second, later⟩ := divsteps_even turn ⟨s.eta - n, s.f, 2 ^ rest * g, s.odd⟩ rest g rfl
    have run : divsteps turn (n + rest) s = ⟨s.eta - (n + rest : ℕ), s.f, g, s.odd⟩ := by
      rw [divsteps_add, first, second]
      ext
      · simp only [Nat.cast_add]
        ring
      · rfl
      · rfl
    refine ⟨run, ?_⟩
    rw [first] at follows
    rw [divsteps_add, first]
    have both := follows.trans later
    rwa [show Transition.after ⟨2 ^ rest, 0, 0, 1⟩ ⟨2 ^ n, 0, w, 1⟩ = ⟨2 ^ (n + rest), 0, w, 1⟩ by
      simp [Transition.after, pow_add, mul_comm]] at both

/-- At a change of places the numbers may be exchanged first. -/
theorem divstep_exchange (change : s.g % 2 = 1) (negative : s.eta < 0) (room : 0 ≤ -s.eta - turn + 1) :
    divstep turn s = divstep turn ⟨-s.eta - turn + 1, s.g, -s.f, change⟩ := by
  have odd := s.odd
  rw [divstep_change turn s change negative]
  rw [divstep_add turn _ (by simp only; omega) (by simpa using room)]
  ext
  · simp only
    ring
  · rfl
  · simp only
    omega

/-! ## Bounds -/

/-- The counter changes by one at most, apart from its sign. -/
theorem divstep_counter (low : 0 ≤ turn) (high : turn ≤ 2) : |(divstep turn s).eta| ≤ |s.eta| + 1 := by
  by_cases change : s.g % 2 = 1
  · by_cases negative : s.eta < 0
    · rw [divstep_change turn s change negative]
      rw [abs_of_neg negative, abs_le]
      constructor <;> simp only <;> omega
    · rw [divstep_add turn s change (not_lt.mp negative)]
      exact (abs_sub _ _).trans_eq (by rw [abs_one])
  · rw [divstep_even turn s (by omega)]
    exact (abs_sub _ _).trans_eq (by rw [abs_one])

theorem divsteps_counter (low : 0 ≤ turn) (high : turn ≤ 2) (n : ℕ) : |(divsteps turn n s).eta| ≤ |s.eta| + n := by
  induction n generalizing s with
  | zero => simp [divsteps]
  | succ n ih =>
    have first := divstep_counter turn s low high
    have rest := ih (divstep turn s)
    rw [divsteps]
    push_cast
    omega

/-- The numbers stay within those at the start. -/
structure DivState.Below (modulus : ℤ) (s : DivState) : Prop where
  f_low : -modulus < s.f
  f_high : s.f ≤ modulus
  g_low : -modulus < s.g
  g_high : s.g < modulus

variable {s}

theorem DivState.Below.divstep {modulus : ℤ} (below : s.Below modulus) : (divstep turn s).Below modulus := by
  obtain ⟨f_low, f_high, g_low, g_high⟩ := below
  have odd := s.odd
  by_cases change : s.g % 2 = 1
  · by_cases negative : s.eta < 0
    · rw [divstep_change turn s change negative]
      constructor <;> simp only <;> omega
    · rw [divstep_add turn s change (not_lt.mp negative)]
      constructor <;> simp only <;> omega
  · rw [divstep_even turn s (by omega)]
    constructor <;> simp only <;> omega

theorem DivState.Below.divsteps {modulus : ℤ} (below : s.Below modulus) (n : ℕ) :
    (divsteps turn n s).Below modulus := by
  induction n generalizing s with
  | zero => exact below
  | succ n ih => exact ih (below.divstep turn)

/-- Once the second number is zero, nothing but the counter changes. -/
theorem divsteps_zero (zero : s.g = 0) (n : ℕ) : divsteps turn n s = ⟨s.eta - n, s.f, 0, s.odd⟩ :=
  (divsteps_even turn s n 0 (by rw [zero, mul_zero])).1

end

end BitcoinWasm.Numbers
