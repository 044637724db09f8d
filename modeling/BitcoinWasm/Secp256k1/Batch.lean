import BitcoinWasm.Numbers.Divstep
import BitcoinWasm.Secp256k1.Signed62

/-! A batch of division steps in constant time.

The steps work on the lowest limbs of two numbers alone, from which as many bits are
known as steps are made, and leave the transition matrix for the whole numbers. The
branches of a step are masks. In a `VERIFY` build every round checks its words.
-/

set_option autoImplicit false

namespace BitcoinWasm.Secp256k1

open Numbers

/-- The variables of the loops. The entries of the matrix are unsigned while it is built. -/
structure Batch where
  eta : ℤ
  f : UInt64
  g : UInt64
  u : UInt64
  v : UInt64
  q : UInt64
  r : UInt64
  deriving DecidableEq, Repr

/-- The words are what the matrix makes of the words at the start, up to the shift. -/
def Batch.checkWords (s : Batch) (f0 g0 : UInt64) (i : ℕ) : Option Unit := do
  verifyCheck (s.u * f0 + s.v * g0 == s.f <<< UInt64.ofNat i)
  verifyCheck (s.q * f0 + s.r * g0 == s.g <<< UInt64.ofNat i)

/-- The matrix at the end. Its determinant is checked. -/
def Batch.result (s : Batch) (bits : ℕ) : Option (ℤ × Trans2x2) := do
  let t : Trans2x2 := ⟨toInt64 s.u.toNat, toInt64 s.v.toNat, toInt64 s.q.toNat, toInt64 s.r.toNat⟩
  verifyCheck ((← int128 ((← int128 (t.u * t.r)) - (← int128 (t.v * t.q)))) == 2 ^ bits)
  return (s.eta, t)

/-- A round of the constant-time loop, where the counter is called `zeta`. -/
def divstep59 (f0 g0 : UInt64) (i : ℕ) (s : Batch) : Option Batch := do
  verifyCheck (s.f &&& 1 == 1)
  s.checkWords f0 g0 i
  let c1 := UInt64.ofInt (shr s.eta 63)
  let c2 := -(s.g &&& 1)
  let x := (s.f ^^^ c1) - c1
  let y := (s.u ^^^ c1) - c1
  let z := (s.v ^^^ c1) - c1
  let g := s.g + (x &&& c2)
  let q := s.q + (y &&& c2)
  let r := s.r + (z &&& c2)
  let c1 := c1 &&& c2
  let zeta := toInt64 ((UInt64.ofInt s.eta ^^^ c1) - 1).toNat
  let f := s.f + (g &&& c1)
  let u := s.u + (q &&& c1)
  let v := s.v + (r &&& c1)
  verifyCheck (-591 ≤ zeta && zeta ≤ 591)
  return ⟨zeta, f, g >>> 1, u <<< 1, v <<< 1, q, r⟩

/-- `rounds` rounds of the loop are left. -/
def divstepsLoop59 (f0 g0 : UInt64) : ℕ → Batch → Option Batch
  | 0, s => some s
  | rounds + 1, s => do divstepsLoop59 f0 g0 rounds (← divstep59 f0 g0 (62 - (rounds + 1)) s)

def divsteps59 (zeta : ℤ) (f0 g0 : UInt64) : Option (ℤ × Trans2x2) := do
  (← divstepsLoop59 f0 g0 59 ⟨zeta, f0, g0, 8, 0, 0, 8⟩).result 65

/-! ## Masks -/

theorem signMask_eq {x : ℤ} (fits : |x| < 2 ^ 63) : UInt64.ofInt (shr x 63) = if x < 0 then -1 else 0 := by
  rw [shr_sign fits]
  split <;> rfl

theorem oddMask_eq (g : UInt64) : -(g &&& 1) = if g.toNat % 2 = 1 then -1 else 0 := by
  split
  case isTrue odd =>
    have one : g &&& 1 = 1 := UInt64.toNat_inj.mp ((toNat_and_one g).trans odd)
    rw [one]
  case isFalse even =>
    have zero : g &&& 1 = 0 := UInt64.toNat_inj.mp ((toNat_and_one g).trans (Nat.mod_two_ne_one.mp even))
    rw [zero]
    rfl

theorem negated_eq (x : UInt64) : (x ^^^ -1) - -1 = -x := by
  rw [UInt64.xor_neg_one, UInt64.not_eq_neg_sub]
  grind

/-- The branches that the masks stand for. -/
def Batch.step (s : Batch) : Batch :=
  if s.g.toNat % 2 = 1 then
    if s.eta < 0 then ⟨-s.eta - 2, s.g, (s.g - s.f) >>> 1, s.q <<< 1, s.r <<< 1, s.q - s.u, s.r - s.v⟩
    else ⟨s.eta - 1, s.f, (s.g + s.f) >>> 1, s.u <<< 1, s.v <<< 1, s.q + s.u, s.r + s.v⟩
  else ⟨s.eta - 1, s.f, s.g >>> 1, s.u <<< 1, s.v <<< 1, s.q, s.r⟩

/-- The relation that every round checks. -/
structure Batch.Words (s : Batch) (f0 g0 : UInt64) (i : ℕ) : Prop where
  f : s.u * f0 + s.v * g0 = s.f * UInt64.ofNat (2 ^ i)
  g : s.q * f0 + s.r * g0 = s.g * UInt64.ofNat (2 ^ i)

section
variable {s : Batch} {f0 g0 : UInt64} {i : ℕ}

theorem Batch.Words.check (words : s.Words f0 g0 i) (small : i < 64) : s.checkWords f0 g0 i = some () := by
  have first : (s.u * f0 + s.v * g0 == s.f <<< UInt64.ofNat i) = true := by
    rw [shiftLeft_eq_mul _ small, beq_iff_eq, words.f]
  have second : (s.q * f0 + s.r * g0 == s.g <<< UInt64.ofNat i) = true := by
    rw [shiftLeft_eq_mul _ small, beq_iff_eq, words.g]
  rw [Batch.checkWords, first, second]
  rfl

theorem divstep59_eq (odd : s.f.toNat % 2 = 1) (words : s.Words f0 g0 i) (small : i < 64) (counter : |s.eta| < 591) :
    divstep59 f0 g0 i s = some s.step := by
  obtain ⟨low, high⟩ := abs_lt.mp counter
  have fits : |s.eta| < 2 ^ 63 := counter.trans (by norm_num)
  have fOdd : (s.f &&& 1 == 1) = true := by
    rw [beq_iff_eq]
    exact UInt64.toNat_inj.mp ((toNat_and_one s.f).trans odd)
  have bounds : (-591 ≤ s.eta - 1 && s.eta - 1 ≤ 591) = true := by
    rw [Bool.and_eq_true, decide_eq_true_eq, decide_eq_true_eq]
    omega
  have decremented : toInt64 (UInt64.ofInt s.eta - 1).toNat = s.eta - 1 := by
    have one : UInt64.ofInt s.eta - 1 = UInt64.ofInt (s.eta - 1) := by
      rw [sub_eq_add_neg s.eta, UInt64.ofInt_add, UInt64.ofInt_neg_one, UInt64.sub_eq_add_neg]
    rw [one, toInt64_ofInt (abs_lt.mpr (by omega))]
  rw [divstep59, fOdd, words.check small, signMask_eq fits, oddMask_eq, Batch.step]
  by_cases add : s.g.toNat % 2 = 1
  · by_cases negative : s.eta < 0
    · have turned : toInt64 ((UInt64.ofInt s.eta ^^^ -1) - 1).toNat = -s.eta - 2 := by
        have two : (UInt64.ofInt s.eta ^^^ -1) - 1 = UInt64.ofInt (-s.eta - 2) := by
          rw [UInt64.xor_neg_one, UInt64.not_eq_neg_sub, sub_eq_add_neg (-s.eta), UInt64.ofInt_add, UInt64.ofInt_neg,
            show UInt64.ofInt (-2) = -2 from rfl]
          grind
        rw [two, toInt64_ofInt (abs_lt.mpr (by omega))]
      have turnedBounds : (-591 ≤ -s.eta - 2 && -s.eta - 2 ≤ 591) = true := by
        rw [Bool.and_eq_true, decide_eq_true_eq, decide_eq_true_eq]
        omega
      -- The second sum takes back the difference that was added to the first one.
      have back (x y : UInt64) : y + (x - y) = x := by grind
      simp only [if_pos add, if_pos negative, negated_eq, UInt64.and_neg_one, turned, turnedBounds,
        ← UInt64.sub_eq_add_neg, back, verifyCheck_true_bind, Option.pure_def, Option.bind_eq_bind, Option.bind_some]
    · simp only [if_pos add, if_neg negative, UInt64.and_zero, UInt64.xor_zero, UInt64.and_neg_one,
        UInt64.sub_zero, UInt64.add_zero, decremented, bounds, verifyCheck_true_bind, Option.pure_def, Option.bind_eq_bind,
        Option.bind_some]
  · simp only [if_neg add, UInt64.and_zero, UInt64.add_zero, UInt64.xor_zero, decremented, bounds, verifyCheck_true_bind,
      Option.pure_def, Option.bind_eq_bind, Option.bind_some]

theorem shiftLeft_one (x : UInt64) : x <<< 1 = x * 2 := shiftLeft_eq_mul (k := 1) x (by decide)

theorem half_mul_two {x : UInt64} (even : x.toNat % 2 = 0) : (x >>> 1) * 2 = x :=
  shiftRight_mul (k := 1) x (by decide) (Nat.dvd_of_mod_eq_zero even)

theorem Batch.Words.step (words : s.Words f0 g0 i) (odd : s.f.toNat % 2 = 1) : s.step.Words f0 g0 (i + 1) := by
  obtain ⟨first, second⟩ := words
  have fits := s.f.toNat_lt
  have power : UInt64.ofNat (2 ^ (i + 1)) = UInt64.ofNat (2 ^ i) * 2 := by
    rw [pow_succ, UInt64.ofNat_mul]
    rfl
  rw [Batch.step]
  split
  case isTrue add =>
    split
    case isTrue =>
      have half : ((s.g - s.f) >>> 1) * 2 = s.g - s.f := half_mul_two (by rw [UInt64.toNat_sub]; omega)
      constructor <;> simp only [shiftLeft_one, power] <;> grind
    case isFalse =>
      have half : ((s.g + s.f) >>> 1) * 2 = s.g + s.f := half_mul_two (by rw [UInt64.toNat_add]; omega)
      constructor <;> simp only [shiftLeft_one, power] <;> grind
  case isFalse even =>
    have half : (s.g >>> 1) * 2 = s.g := half_mul_two (by omega)
    constructor <;> simp only [shiftLeft_one, power] <;> grind

end

/-! ## The steps that a batch makes -/

/-- So many low bits of the words are those of the numbers, and the matrix is the transition so far. -/
structure Batch.Tracks (b : Batch) (scale : ℤ) (bits : ℕ) (s : DivState) (m : Transition) : Prop where
  eta : b.eta = s.eta
  f : Low bits b.f s.f
  g : Low bits b.g s.g
  u : b.u = UInt64.ofInt (scale * m.u)
  v : b.v = UInt64.ofInt (scale * m.v)
  q : b.q = UInt64.ofInt (scale * m.q)
  r : b.r = UInt64.ofInt (scale * m.r)

/-- From one state to another one, with 62 factors of two. -/
structure Trans2x2.Leads (t : Trans2x2) (s s' : DivState) : Prop where
  f : 2 ^ 62 * s'.f = t.u * s.f + t.v * s.g
  g : 2 ^ 62 * s'.g = t.q * s.f + t.r * s.g
  top : |t.u| + |t.v| ≤ 2 ^ 62
  bottom : |t.q| + |t.r| ≤ 2 ^ 62

section
variable {b : Batch} {scale : ℤ} {bits : ℕ} {s : DivState} {m : Transition}

theorem Batch.Tracks.f_odd (tracks : b.Tracks scale (bits + 1) s m) : b.f.toNat % 2 = 1 := by
  have parity := tracks.f.parity
  have odd := s.odd
  omega

theorem Batch.Tracks.g_parity (tracks : b.Tracks scale (bits + 1) s m) : (b.g.toNat : ℤ) % 2 = s.g % 2 :=
  tracks.g.parity

theorem ofInt_double (x : ℤ) : UInt64.ofInt (x * 2) = UInt64.ofInt x * 2 := UInt64.ofInt_mul x 2

theorem ofInt_sub (x y : ℤ) : UInt64.ofInt (x - y) = UInt64.ofInt x - UInt64.ofInt y := by
  rw [sub_eq_add_neg, UInt64.ofInt_add, UInt64.ofInt_neg, UInt64.sub_eq_add_neg]

theorem Batch.Tracks.step (tracks : b.Tracks scale (bits + 1) s m) (few : bits < 64) :
    b.step.Tracks scale bits (divstep 2 s) ((stepTransition s).after m) := by
  obtain ⟨eta, f, g, u, v, q, r⟩ := tracks
  have parity := g.parity
  have fLess := f.mono (Nat.le_add_right bits 1)
  have gLess := g.mono (Nat.le_add_right bits 1)
  have odd := s.odd
  rw [Batch.step, stepTransition]
  by_cases add : s.g % 2 = 1
  · have wordOdd : b.g.toNat % 2 = 1 := by omega
    by_cases negative : s.eta < 0
    · rw [divstep_change 2 s add negative, if_pos wordOdd, eta, if_pos negative, if_pos add, if_pos negative]
      have difference : Low (bits + 1) (b.g - b.f) (2 ^ 1 * ((s.g - s.f) / 2)) := by
        have sum := g.add (by omega) (f.neg (by omega))
        rwa [← UInt64.sub_eq_add_neg, show s.g + -s.f = 2 ^ 1 * ((s.g - s.f) / 2) by omega] at sum
      refine ⟨rfl, gLess, difference.shiftRight (by decide), ?_, ?_, ?_, ?_⟩
      all_goals
        simp only [Transition.after, shiftLeft_one, u, v, q, r, ← ofInt_double, ← ofInt_sub]
        congr 1
        ring
    · rw [divstep_add 2 s add (not_lt.mp negative), if_pos wordOdd, eta, if_neg negative, if_pos add, if_neg negative]
      have sum : Low (bits + 1) (b.g + b.f) (2 ^ 1 * ((s.g + s.f) / 2)) := by
        have sum := g.add (by omega) f
        rwa [show s.g + s.f = 2 ^ 1 * ((s.g + s.f) / 2) by omega] at sum
      refine ⟨rfl, fLess, sum.shiftRight (by decide), ?_, ?_, ?_, ?_⟩
      all_goals
        simp only [Transition.after, shiftLeft_one, u, v, q, r, ← ofInt_double, ← UInt64.ofInt_add]
        congr 1
        ring
  · rw [divstep_even 2 s (by omega), if_neg (by omega), if_neg add]
    have whole : Low (bits + 1) b.g (2 ^ 1 * (s.g / 2)) := by
      rwa [show s.g = 2 ^ 1 * (s.g / 2) by omega] at g
    refine ⟨by rw [eta], fLess, whole.shiftRight (by decide), ?_, ?_, ?_, ?_⟩
    all_goals
      simp only [Transition.after, shiftLeft_one, u, v, q, r, ← ofInt_double]
      congr 1
      ring

/-- The loop makes the steps that are left. -/
theorem divstepsLoop59_spec {f0 g0 : UInt64} {start : DivState} {n rounds : ℕ}
    (tracks : b.Tracks 8 (rounds + 3) s m) (follows : Follows start n m s) (words : b.Words f0 g0 (62 - rounds))
    (few : rounds ≤ 59) (counter : |s.eta| + rounds ≤ 591) :
    ∃ b' m', divstepsLoop59 f0 g0 rounds b = some b' ∧ b'.Tracks 8 3 (divsteps 2 rounds s) m' ∧
      Follows start (n + rounds) m' (divsteps 2 rounds s) := by
  induction rounds generalizing b s m n with
  | zero => exact ⟨b, m, rfl, tracks, follows⟩
  | succ rounds ih =>
    have next : 62 - (rounds + 1) + 1 = 62 - rounds := by omega
    have round : divstep59 f0 g0 (62 - (rounds + 1)) b = some b.step := by
      apply divstep59_eq tracks.f_odd words (by omega)
      rw [tracks.eta]
      push_cast at counter
      omega
    have later := words.step tracks.f_odd
    rw [next] at later
    have bound := divstep_counter 2 s (by decide) (by decide)
    obtain ⟨b', m', run, tracks', follows'⟩ := ih (tracks.step (by omega)) (follows.trans (follows_divstep 2 s)) later
      (by omega) (by push_cast at counter; omega)
    rw [Nat.add_right_comm, Nat.add_assoc] at follows'
    refine ⟨b', m', ?_, tracks', follows'⟩
    rw [divstepsLoop59, round]
    exact run

/-- The matrix fits, and its determinant is as it should be. -/
theorem Batch.Tracks.result {start : DivState} {n k : ℕ} (tracks : b.Tracks (2 ^ k) bits s m)
    (follows : Follows start n m s) (total : k + n = 62) :
    ∃ t : Trans2x2, b.result (k + 62) = some (s.eta, t) ∧ t.Leads start s := by
  obtain ⟨eta, -, -, u, v, q, r⟩ := tracks
  obtain ⟨fRow, gRow, top, bottom, det⟩ := follows
  have scaled : (2 : ℤ) ^ 62 = 2 ^ k * 2 ^ n := by rw [← pow_add, total]
  have row (x y : ℤ) (small : |x| + |y| ≤ 2 ^ n) : |2 ^ k * x| + |2 ^ k * y| ≤ 2 ^ 62 := by
    rw [abs_mul, abs_mul, abs_of_pos (by positivity : (0 : ℤ) < 2 ^ k), ← mul_add, scaled]
    exact mul_le_mul_of_nonneg_left small (by positivity)
  have topRow := row m.u m.v top
  have bottomRow := row m.q m.r bottom
  have first : ∀ {x y : ℤ}, |x| + |y| ≤ 2 ^ 62 → |x| < 2 ^ 63 ∧ |y| < 2 ^ 63 := by
    intro x y small
    have x0 := abs_nonneg x
    have y0 := abs_nonneg y
    omega
  obtain ⟨uFits, vFits⟩ := first topRow
  obtain ⟨qFits, rFits⟩ := first bottomRow
  have product : ∀ {x y : ℤ}, |x| < 2 ^ 63 → |y| < 2 ^ 63 → int128 (x * y) = some (x * y) := by
    intro x y left right
    apply int128_eq
    rw [abs_mul]
    calc |x| * |y| ≤ 2 ^ 63 * 2 ^ 63 := mul_le_mul left.le right.le (abs_nonneg y) (by positivity)
      _ < 2 ^ 127 := by norm_num
  have determinant : 2 ^ k * m.u * (2 ^ k * m.r) - 2 ^ k * m.v * (2 ^ k * m.q) = 2 ^ (k + 62) := by
    rw [pow_add, scaled]
    linear_combination 2 ^ k * 2 ^ k * det
  have fits : int128 (2 ^ (k + 62)) = some (2 ^ (k + 62)) := by
    apply int128_eq
    rw [abs_of_pos (by positivity)]
    exact pow_lt_pow_right₀ (by norm_num) (by omega)
  refine ⟨⟨2 ^ k * m.u, 2 ^ k * m.v, 2 ^ k * m.q, 2 ^ k * m.r⟩, ?_, ?_, ?_, topRow, bottomRow⟩
  · rw [Batch.result, u, v, q, r, toInt64_ofInt uFits, toInt64_ofInt vFits, toInt64_ofInt qFits, toInt64_ofInt rFits,
      product uFits rFits, product vFits qFits]
    simp only [Option.bind_eq_bind, Option.bind_some, determinant, fits, beq_self_eq_true, eta]
    rfl
  · rw [scaled]
    linear_combination 2 ^ k * fRow
  · rw [scaled]
    linear_combination 2 ^ k * gRow

/-- A batch makes 59 steps, and all its checks pass. -/
theorem divsteps59_spec {f0 g0 : UInt64} (f : Low 62 f0 s.f) (g : Low 62 g0 s.g) (counter : |s.eta| ≤ 532) :
    ∃ t, divsteps59 s.eta f0 g0 = some ((divsteps 2 59 s).eta, t) ∧ t.Leads s (divsteps 2 59 s) := by
  have tracks : Batch.Tracks ⟨s.eta, f0, g0, 8, 0, 0, 8⟩ (2 ^ 3) (59 + 3) s ⟨1, 0, 0, 1⟩ :=
    ⟨rfl, f, g, rfl, rfl, rfl, rfl⟩
  have words : Batch.Words ⟨s.eta, f0, g0, 8, 0, 0, 8⟩ f0 g0 (62 - 59) := by
    constructor <;> simp only [Nat.reduceSub, Nat.reducePow] <;> grind
  obtain ⟨b, m, run, tracks', follows⟩ := divstepsLoop59_spec tracks (Follows.refl s) words le_rfl (by norm_num; omega)
  rw [Nat.zero_add] at follows
  obtain ⟨t, result, leads⟩ := tracks'.result (k := 3) follows rfl
  refine ⟨t, ?_, leads⟩
  simp only [Nat.reduceAdd] at result
  rw [divsteps59, run, Option.bind_eq_bind, Option.bind_some, result]

end

end BitcoinWasm.Secp256k1
