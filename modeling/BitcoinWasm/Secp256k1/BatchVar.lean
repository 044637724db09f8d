import BitcoinWasm.Secp256k1.Batch

/-! A batch of division steps in variable time.

All zeros at the end of the second number are shifted out at once, and then a multiple
of the first number is chosen from a formula that cancels several bits.
-/

set_option autoImplicit false

namespace BitcoinWasm.Secp256k1

open Numbers

/-- The trailing zeros among the lowest `bits` bits. -/
def trailingZeros : ℕ → ℕ → ℕ
  | 0, _ => 0
  | bits + 1, x => if x % 2 = 1 then 0 else trailingZeros bits (x / 2) + 1

/-- What `__builtin_ctzll` is documented to return. -/
def ctz64Var (x : UInt64) : Option ℕ := do
  verifyCheck (x != 0)
  return trailingZeros 64 x.toNat

/-- `((int)eta + 1) > i ? i : ((int)eta + 1)`. -/
def batchLimit (eta : ℤ) (i : ℕ) : Option ℤ := do
  let next ← checked 32 (Int.bmod eta (2 ^ 32) + 1)
  return if i < next then i else next

/-- The multiple that cancels up to six bits. -/
def cancelSix (f g m : UInt64) : UInt32 := ((f * g * (f * f - 2)) &&& m).toUInt32

/-- The multiple that cancels up to four bits. -/
def cancelFour (f g m : UInt64) : UInt32 :=
  let w := (f + (((f + 1) &&& 4) <<< 1)).toUInt32
  ((-w).toUInt64 * g &&& m).toUInt32

/-- A mask for the bottom bits. -/
def bottomMask (limit : ℤ) (bits : UInt64) : Option UInt64 := do
  verifyCheck (0 < limit && limit ≤ 62)
  return (0xFFFFFFFFFFFFFFFF >>> UInt64.ofInt (64 - limit)) &&& bits

/-- The end of a round of the variable-time loop: the multiple is added. -/
def Batch.cancel (s : Batch) (m : UInt64) (w : UInt32) : Option Batch := do
  let g := s.g + s.f * w.toUInt64
  verifyCheck (g &&& m == 0)
  return { s with g := g, q := s.q + s.u * w.toUInt64, r := s.r + s.v * w.toUInt64 }

/-- The middle of a round: the multiple is chosen, after a change of places if it is time for one. -/
def Batch.turn (s : Batch) (i : ℕ) : Option Batch := do
  if s.eta < 0 then
    let eta ← int64 (-s.eta)
    let s : Batch := ⟨eta, s.g, -s.f, s.q, s.r, -s.u, -s.v⟩
    let m ← bottomMask (← batchLimit s.eta i) 63
    s.cancel m (cancelSix s.f s.g m)
  else
    let m ← bottomMask (← batchLimit s.eta i) 15
    s.cancel m (cancelFour s.f s.g m)

/-- `i` steps are left. The sentinel keeps the zeros from being more than these. -/
def divstepsLoop62 (f0 g0 : UInt64) : (fuel : ℕ) → ℕ → Batch → Option Batch
  | 0, _, _ => none
  | fuel + 1, i, s => do
    let zeros ← ctz64Var (s.g ||| (0xFFFFFFFFFFFFFFFF <<< UInt64.ofNat i))
    let shift := UInt64.ofNat zeros
    let eta ← int64 (s.eta - zeros)
    let s : Batch := { s with eta := eta, g := s.g >>> shift, u := s.u <<< shift, v := s.v <<< shift }
    let i := i - zeros
    if i = 0 then return s
    verifyCheck (s.f &&& 1 == 1)
    verifyCheck (s.g &&& 1 == 1)
    s.checkWords f0 g0 (62 - i)
    verifyCheck (-745 ≤ s.eta && s.eta ≤ 745)
    divstepsLoop62 f0 g0 fuel i (← s.turn i)

/-- No round but the first can be without a step, so there are no more than 63. -/
def divsteps62Var (eta : ℤ) (f0 g0 : UInt64) : Option (ℤ × Trans2x2) := do
  (← divstepsLoop62 f0 g0 63 62 ⟨eta, f0, g0, 1, 0, 0, 1⟩).result 62

/-! ## Zeros -/

theorem trailingZeros_spec {bits x : ℕ} (nonzero : x ≠ 0) (small : x < 2 ^ bits) :
    trailingZeros bits x < bits ∧ 2 ^ trailingZeros bits x ∣ x ∧ x / 2 ^ trailingZeros bits x % 2 = 1 := by
  induction bits generalizing x with
  | zero => exact absurd (Nat.lt_one_iff.mp small) nonzero
  | succ bits ih =>
    rw [trailingZeros]
    split
    case isTrue odd =>
      rw [pow_zero, Nat.div_one]
      exact ⟨Nat.succ_pos bits, one_dvd x, odd⟩
    case isFalse even =>
      rw [pow_succ'] at small
      obtain ⟨low, divides, odd⟩ := ih (x := x / 2) (by omega) (by omega)
      refine ⟨Nat.succ_lt_succ low, ?_, ?_⟩
      · obtain ⟨rest, whole⟩ := divides
        refine ⟨rest, ?_⟩
        rw [pow_succ', mul_assoc, ← whole]
        omega
      · rwa [pow_succ', ← Nat.div_div_eq_div_mul]

/-- The sentinel is the bit `i`. -/
theorem ctz64Var_sentinel (g : UInt64) {i : ℕ} (few : i ≤ 62) :
    ∃ z, ctz64Var (g ||| (0xFFFFFFFFFFFFFFFF <<< UInt64.ofNat i)) = some z ∧ z ≤ i ∧ 2 ^ z ∣ g.toNat ∧
      (z < i → g.toNat / 2 ^ z % 2 = 1) := by
  have sentinel := toNat_shiftLeft_mod 0xFFFFFFFFFFFFFFFF (k := i) (by omega)
  have ones : (0xFFFFFFFFFFFFFFFF : UInt64).toNat % 2 ^ (64 - i) % 2 = 1 := by
    rw [Nat.mod_mod_of_dvd _ (dvd_pow_self 2 (by omega))]
    rfl
  have low : (g ||| (0xFFFFFFFFFFFFFFFF <<< UInt64.ofNat i)).toNat % 2 ^ i = g.toNat % 2 ^ i := by
    rw [UInt64.toNat_or, Nat.or_mod_two_pow, sentinel, Nat.mul_mod_left, Nat.or_zero]
  have bit : (g ||| (0xFFFFFFFFFFFFFFFF <<< UInt64.ofNat i)).toNat / 2 ^ i % 2 = 1 := by
    rw [UInt64.toNat_or, Nat.or_div_two_pow, sentinel, Nat.mul_div_cancel _ (by positivity), Nat.or_mod_two_eq_one]
    exact Or.inr ones
  generalize g ||| (0xFFFFFFFFFFFFFFFF <<< UInt64.ofNat i) = x at low bit
  have nonzero : x.toNat ≠ 0 := by
    intro zero
    rw [zero, Nat.zero_div] at bit
    exact absurd bit (by decide)
  obtain ⟨-, divides, odd⟩ := trailingZeros_spec nonzero x.toNat_lt
  generalize zeros : trailingZeros 64 x.toNat = z at divides odd
  have few : z ≤ i := by
    by_contra more
    have even : 2 * 2 ^ i ∣ x.toNat := by
      rw [← pow_succ']
      exact (pow_dvd_pow 2 (by omega)).trans divides
    obtain ⟨rest, whole⟩ := even
    rw [whole, mul_assoc, mul_left_comm, Nat.mul_div_cancel_left _ (by positivity)] at bit
    omega
  have same {k : ℕ} (below : k ≤ i) : x.toNat % 2 ^ k = g.toNat % 2 ^ k := by
    rw [← Nat.mod_mod_of_dvd x.toNat (pow_dvd_pow 2 below), low, Nat.mod_mod_of_dvd _ (pow_dvd_pow 2 below)]
  refine ⟨z, ?_, few, ?_, ?_⟩
  · have passes : (x != 0) = true := by
      rw [bne_iff_ne]
      rintro rfl
      exact nonzero rfl
    rw [ctz64Var, verifyCheck_bind passes, zeros]
    rfl
  · rw [Nat.dvd_iff_mod_eq_zero, ← same few]
    exact Nat.mod_eq_zero_of_dvd divides
  · intro more
    rw [← Nat.mod_mul_right_div_self, ← pow_succ, ← same (k := z + 1) (by omega), pow_succ,
      Nat.mod_mul_right_div_self]
    exact odd

/-! ## Multiples -/

/-- The mask keeps the bits below the limit, and no more than it had. -/
theorem bottomMask_spec (limit : ℕ) (bits : UInt64) {c : ℕ} (some : 0 < limit) (few : limit ≤ 62)
    (ones : bits.toNat = 2 ^ c - 1) :
    ∃ m, bottomMask limit bits = Option.some m ∧ m.toNat = 2 ^ min limit c - 1 := by
  have passes : (decide (0 < (limit : ℤ)) && decide ((limit : ℤ) ≤ 62)) = true := by
    rw [Bool.and_eq_true, decide_eq_true_eq, decide_eq_true_eq]
    omega
  refine ⟨_, verifyCheck_bind passes _, ?_⟩
  have shift : UInt64.ofInt (64 - (limit : ℤ)) = UInt64.ofNat (64 - limit) := by
    apply UInt64.toNat_inj.mp
    have value := natCast_toNat_ofInt (64 - (limit : ℤ))
    rw [toNat_ofNat_of_lt (by omega)]
    omega
  have split : (2 : ℕ) ^ 64 = 2 ^ (64 - limit) * 2 ^ limit := by
    rw [← pow_add, Nat.sub_add_cancel (by omega)]
  have high : (0xFFFFFFFFFFFFFFFF : UInt64).toNat / 2 ^ (64 - limit) = 2 ^ limit - 1 := by
    have whole : (0xFFFFFFFFFFFFFFFF : UInt64).toNat = 2 ^ (64 - limit) * 2 ^ limit - (0 + 1) := by
      rw [← split]
      rfl
    rw [whole, Nat.mul_sub_div _ _ _ (by positivity), Nat.zero_div]
  rw [shift, toNat_and_mask _ ones, toNat_shiftRight _ (by omega), high]
  rcases le_total limit c with le | le
  · rw [min_eq_left le, Nat.mod_eq_of_lt]
    have more := Nat.pow_le_pow_right (n := 2) (by decide) le
    have positive : 0 < 2 ^ limit := by positivity
    omega
  · obtain ⟨d, rfl⟩ := Nat.exists_eq_add_of_le le
    have low : 0 < 2 ^ c := by positivity
    have rest : 0 < 2 ^ d := by positivity
    have parts : 2 ^ (c + d) - 1 = 2 ^ c - 1 + 2 ^ c * (2 ^ d - 1) := by
      have product := Nat.le_mul_of_pos_right (2 ^ c) rest
      rw [pow_add, Nat.mul_sub, mul_one]
      omega
    rw [min_eq_right le, parts, Nat.add_mul_mod_self_left, Nat.mod_eq_of_lt (by omega)]

/-- The square of an odd number is 1 modulo 8. -/
theorem cancelSix_divides {f : ℤ} (odd : f % 2 = 1) (g : ℤ) : 2 ^ 6 ∣ g + f * (f * g * (f * f - 2)) := by
  obtain ⟨n, rfl⟩ : ∃ n, f = 2 * n + 1 := ⟨f / 2, by omega⟩
  obtain ⟨m, half⟩ : ∃ m, n * (n + 1) = 2 * m := by
    obtain ⟨m, half⟩ := Int.even_mul_succ_self n
    exact ⟨m, by omega⟩
  have square : g + (2 * n + 1) * ((2 * n + 1) * g * ((2 * n + 1) * (2 * n + 1) - 2)) = (4 * (n * (n + 1))) ^ 2 * g := by
    ring
  rw [square, half]
  exact ⟨m ^ 2 * g, by ring⟩

theorem toUInt64_toUInt32_and {x m : UInt64} (small : m.toNat < 2 ^ 32) :
    (x &&& m).toUInt32.toUInt64 = x &&& m := by
  apply UInt64.toNat_inj.mp
  rw [UInt32.toNat_toUInt64, UInt64.toNat_toUInt32, UInt64.toNat_and]
  exact Nat.mod_eq_of_lt (Nat.and_le_right.trans_lt small)

theorem toNat_and_four (x : UInt64) : (x &&& 4).toNat = 4 * (x.toNat / 4 % 2) := by
  have residues : ∀ r < 8, r &&& 4 = 4 * (r / 4) := by decide
  have small : x.toNat &&& 4 < 2 ^ 3 := Nat.and_le_right.trans_lt (by decide)
  have low := Nat.and_mod_two_pow (a := x.toNat) (b := 4) (n := 3)
  rw [Nat.mod_eq_of_lt small, residues (x.toNat % 2 ^ 3) (Nat.mod_lt _ (by decide))] at low
  rw [UInt64.toNat_and]
  exact low.trans (by omega)

/-- The formula for the inverse of an odd number modulo 16. -/
theorem inverse_sixteen {f : UInt64} (odd : f.toNat % 2 = 1) :
    f.toNat * (f + (((f + 1) &&& 4) <<< 1)).toUInt32.toNat % 16 = 1 := by
  have residues : ∀ r < 16, r % 2 = 1 → r * (r + 8 * ((r + 1) / 4 % 2)) % 16 = 1 := by decide
  have four : (((f + 1) &&& 4) <<< 1).toNat = 8 * ((f.toNat + 1) / 4 % 2) := by
    have shift := toNat_shiftLeft ((f + 1) &&& 4) (k := 1) (by decide)
    rw [toNat_and_four, UInt64.toNat_add, UInt64.toNat_one] at shift
    exact shift.trans (by omega)
  have low : (f + (((f + 1) &&& 4) <<< 1)).toUInt32.toNat % 16 =
      (f.toNat % 16 + 8 * ((f.toNat % 16 + 1) / 4 % 2)) % 16 := by
    rw [UInt64.toNat_toUInt32, UInt64.toNat_add, four]
    omega
  rw [Nat.mul_mod, low, ← Nat.mul_mod_mod, Nat.mod_mod, Nat.mul_mod_mod]
  exact residues (f.toNat % 16) (Nat.mod_lt _ (by decide)) (by omega)

/-- The negative of the inverse, in the shorter word. -/
theorem negative_inverse {f : UInt64} (odd : f.toNat % 2 = 1) :
    (2 : ℤ) ^ 4 ∣ 1 + f.toNat * (-(f + (((f + 1) &&& 4) <<< 1)).toUInt32).toUInt64.toNat := by
  have inverse := inverse_sixteen odd
  generalize (f + (((f + 1) &&& 4) <<< 1)).toUInt32 = w at inverse ⊢
  have fits := w.toNat_lt
  have negative : ((-w).toUInt64.toNat : ℤ) % 16 = -(w.toNat : ℤ) % 16 := by
    rw [UInt32.toNat_toUInt64, UInt32.toNat_neg, UInt32.size]
    omega
  have product : ((f.toNat : ℤ) * w.toNat) % 16 = 1 := by exact_mod_cast inverse
  apply Int.dvd_of_emod_eq_zero
  have sum : ((f.toNat : ℤ) * (-w).toUInt64.toNat) % 16 = -1 % 16 := by
    rw [Int.mul_emod, negative, ← Int.mul_emod, mul_neg, Int.neg_emod_eq_sub_emod]
    omega
  omega

/-! ## Rounds -/

/-- Nothing below the mask is lost by it. -/
theorem masked_divides {x m : UInt64} {n : ℕ} (ones : m.toNat = 2 ^ n - 1) {f g y : ℤ} (low : Low n x y)
    (cancels : (2 : ℤ) ^ n ∣ g + f * y) : (2 : ℤ) ^ n ∣ g + (x &&& m).toNat * f := by
  have cut : (2 : ℤ) ^ n ∣ x.toNat - (x &&& m).toNat := by
    rw [toNat_and_mask x ones, Int.natCast_mod, Nat.cast_pow, Nat.cast_ofNat]
    exact Int.dvd_self_sub_emod
  obtain ⟨a, first⟩ := low
  obtain ⟨b, second⟩ := cut
  obtain ⟨c, third⟩ := cancels
  exact ⟨c + f * a - f * b, by linear_combination third + f * first - f * second⟩

section
variable {b : Batch} {f0 g0 : UInt64} {i n : ℕ} {s : DivState} {m : Transition}

theorem cancel_spec (tracks : b.Tracks 1 i s m) (words : b.Words f0 g0 (62 - i)) (few : i ≤ 62) (less : n ≤ i)
    {mask : UInt64} (ones : mask.toNat = 2 ^ n - 1) {w : UInt32}
    (cancels : (2 : ℤ) ^ n ∣ s.g + w.toUInt64.toNat * s.f) :
    ∃ b', b.cancel mask w = some b' ∧ b'.Tracks 1 i (s.added w.toUInt64.toNat) (m.added w.toUInt64.toNat) ∧
      b'.Words f0 g0 (62 - i) := by
  obtain ⟨eta, f, g, u, v, q, r⟩ := tracks
  have sum : Low i (b.g + b.f * w.toUInt64) (s.added w.toUInt64.toNat).g := by
    rw [DivState.added, mul_comm (w.toUInt64.toNat : ℤ)]
    exact g.add (by omega) (f.mul (by omega) (low_self i _))
  have passes : ((b.g + b.f * w.toUInt64) &&& mask == 0) = true := by
    rw [beq_iff_eq]
    apply UInt64.toNat_inj.mp
    rw [toNat_and_mask _ ones, UInt64.toNat_zero]
    have divides : (2 : ℤ) ^ n ∣ (b.g + b.f * w.toUInt64).toNat := by
      have both := dvd_add (sum.mono less) cancels
      rwa [DivState.added, sub_add_cancel] at both
    exact Nat.mod_eq_zero_of_dvd (by exact_mod_cast divides)
  have entry (x y : ℤ) : UInt64.ofInt (1 * x) + UInt64.ofInt (1 * y) * w.toUInt64 =
      UInt64.ofInt (1 * (x + w.toUInt64.toNat * y)) := by
    rw [one_mul, one_mul, one_mul, UInt64.ofInt_add, UInt64.ofInt_mul, ofInt_toNat, UInt64.mul_comm]
  refine ⟨_, verifyCheck_bind passes _, ⟨eta, f, sum, u, v, ?_, ?_⟩, words.f, ?_⟩
  · simp only [q, u, entry, Transition.added]
  · simp only [r, v, entry, Transition.added]
  · have first := words.f
    have second := words.g
    simp only
    grind

/-- Before a round, `n` bits of the second number have been cancelled and not been shifted out yet. -/
structure Batch.Ready (b : Batch) (start : DivState) (f0 g0 : UInt64) (i n : ℕ) (s : DivState) (m : Transition)
    (w : ℤ) : Prop where
  tracks : b.Tracks 1 i (s.added w) (m.added w)
  follows : Follows start (62 - i) m s
  words : b.Words f0 g0 (62 - i)
  ahead : ∀ k, n ≤ k → divsteps 1 k s = divsteps 1 (62 - i + k) start
  few : i ≤ 62
  less : n ≤ i
  counter : 0 < n → n ≤ s.eta + 1
  low : 0 ≤ w
  high : w < 2 ^ n
  cancels : (2 : ℤ) ^ n ∣ s.g + w * s.f

theorem batchLimit_spec (eta : ℤ) (low : 0 ≤ eta) (high : eta ≤ 745) (i : ℕ) :
    batchLimit eta i = some ((min (eta.toNat + 1) i : ℕ) : ℤ) := by
  have same : Int.bmod eta (2 ^ 32) = eta := Int.bmod_eq_of_le (by norm_num; omega) (by norm_num; omega)
  have fits : checked 32 (eta + 1) = some (eta + 1) := checked_eq (abs_lt.mpr (by omega))
  rw [batchLimit, same, fits, Option.bind_eq_bind, Option.bind_some]
  refine congrArg some ?_
  split <;> omega

variable {start : DivState}

/-- A multiple that cancels some bits makes the state ready for the next round. -/
theorem cancel_ready (tracks : b.Tracks 1 i s m) (words : b.Words f0 g0 (62 - i)) (follows : Follows start (62 - i) m s)
    (few : i ≤ 62) (less : n ≤ i) (counter : n ≤ s.eta + 1)
    (ahead : ∀ k, n ≤ k → divsteps 1 k s = divsteps 1 (62 - i + k) start)
    {mask x : UInt64} {w : UInt32} (ones : mask.toNat = 2 ^ n - 1) (masked : w.toUInt64 = x &&& mask)
    {y : ℤ} (low : Low n x y) (cancels : (2 : ℤ) ^ n ∣ s.g + s.f * y) :
    ∃ b', b.cancel mask w = some b' ∧ b'.Ready start f0 g0 i n s m w.toUInt64.toNat := by
  have divides := masked_divides ones low cancels
  rw [← masked] at divides
  obtain ⟨b', run, tracks', words'⟩ := cancel_spec tracks words few less ones divides
  refine ⟨b', run, tracks', follows, words', ahead, few, less, fun _ => counter, by positivity, ?_, divides⟩
  rw [masked, toNat_and_mask x ones]
  exact_mod_cast Nat.mod_lt x.toNat (by positivity : 0 < 2 ^ n)

theorem turn_spec (tracks : b.Tracks 1 i s m) (words : b.Words f0 g0 (62 - i)) (follows : Follows start (62 - i) m s)
    (some : 0 < i) (few : i ≤ 62) (odd : s.g % 2 = 1) (counter : |s.eta| ≤ 745)
    (state : s = divsteps 1 (62 - i) start) :
    ∃ b' n s' m' w, b.turn i = Option.some b' ∧ b'.Ready start f0 g0 i n s' m' w ∧ 0 < n ∧ |s'.eta| ≤ 745 := by
  obtain ⟨counterLow, counterHigh⟩ := abs_le.mp counter
  obtain ⟨eta, f, g, u, v, q, r⟩ := tracks
  by_cases negative : s.eta < 0
  · have limit := batchLimit_spec (-s.eta) (by omega) (by omega) i
    obtain ⟨mask, masked, ones⟩ := bottomMask_spec (min ((-s.eta).toNat + 1) i) 63 (c := 6) (by omega) (by omega) rfl
    generalize bits : min (min ((-s.eta).toNat + 1) i) 6 = n at ones
    have power : 2 ^ n ≤ 2 ^ 6 := Nat.pow_le_pow_right (by decide) (by omega)
    have low : Low n (b.g * -b.f * (b.g * b.g - 2)) (s.g * -s.f * (s.g * s.g - 2)) := by
      have gLow := g.mono (show n ≤ i by omega)
      have fLow := (f.mono (show n ≤ i by omega)).neg (by omega)
      exact (gLow.mul (by omega) fLow).mul (by omega)
        ((gLow.mul (by omega) gLow).sub (by omega) (low_ofInt (by omega) 2))
    have tracks : Batch.Tracks ⟨-s.eta, b.g, -b.f, b.q, b.r, -b.u, -b.v⟩ 1 i ⟨-s.eta, s.g, -s.f, odd⟩
        ⟨m.q, m.r, -m.u, -m.v⟩ := by
      refine ⟨rfl, g, f.neg (by omega), q, r, ?_, ?_⟩
      · rw [u, ← UInt64.ofInt_neg, mul_neg]
      · rw [v, ← UInt64.ofInt_neg, mul_neg]
    have exchangedWords : Batch.Words ⟨-s.eta, b.g, -b.f, b.q, b.r, -b.u, -b.v⟩ f0 g0 (62 - i) := by
      have first := words.f
      exact ⟨words.g, by simp only; grind⟩
    have ahead (k : ℕ) (more : n ≤ k) :
        divsteps 1 k ⟨-s.eta, s.g, -s.f, odd⟩ = divsteps 1 (62 - i + k) start := by
      obtain ⟨k, rfl⟩ := Nat.exists_eq_add_of_le' (show 1 ≤ k by omega)
      have exchange := divstep_exchange 1 s odd negative (by omega)
      rw [sub_add_cancel] at exchange
      rw [divsteps_add 1 (62 - i), ← state, divsteps, divsteps, exchange]
    obtain ⟨b', run, ready⟩ := cancel_ready (w := cancelSix b.g (-b.f) mask) tracks exchangedWords
      (follows.exchange _ odd) few (by omega) (by simp only; omega) ahead ones (toUInt64_toUInt32_and (by omega)) low
      ((pow_dvd_pow 2 (by omega)).trans (cancelSix_divides odd (-s.f)))
    refine ⟨b', n, _, _, _, ?_, ready, by omega, (abs_neg s.eta).trans_le counter⟩
    have negated : int64 (-s.eta) = Option.some (-s.eta) := int64_eq (abs_lt.mpr (by omega))
    simp only [Batch.turn, eta, if_pos negative, negated, limit, masked, Option.bind_eq_bind, Option.bind_some, run]
  · have limit := batchLimit_spec s.eta (not_lt.mp negative) counterHigh i
    obtain ⟨mask, masked, ones⟩ := bottomMask_spec (min (s.eta.toNat + 1) i) 15 (c := 4) (by omega) (by omega) rfl
    generalize bits : min (min (s.eta.toNat + 1) i) 4 = n at ones
    have power : 2 ^ n ≤ 2 ^ 4 := Nat.pow_le_pow_right (by decide) (by omega)
    have fOdd : b.f.toNat % 2 = 1 := by
      have parity := (f.mono (show 0 + 1 ≤ i by omega)).parity
      have odd := s.odd
      omega
    have inverse := (pow_dvd_pow 2 (show n ≤ 4 by omega)).trans (negative_inverse fOdd)
    have low := (low_self n (-(b.f + (((b.f + 1) &&& 4) <<< 1)).toUInt32).toUInt64).mul (by omega)
      (g.mono (show n ≤ i by omega))
    have fLow := f.mono (show n ≤ i by omega)
    have masked' : (cancelFour b.f b.g mask).toUInt64 = _ := toUInt64_toUInt32_and (by omega)
    generalize (-(b.f + (((b.f + 1) &&& 4) <<< 1)).toUInt32).toUInt64 = x at inverse low masked'
    have cancels : (2 : ℤ) ^ n ∣ s.g + s.f * (x.toNat * s.g) := by
      obtain ⟨k, first⟩ := inverse
      obtain ⟨l, second⟩ := fLow
      exact ⟨s.g * (k - l * x.toNat), by linear_combination s.g * first - s.g * x.toNat * second⟩
    obtain ⟨b', run, ready⟩ := cancel_ready ⟨eta, f, g, u, v, q, r⟩ words follows few (by omega) (by omega)
      (fun k _ => by rw [state, ← divsteps_add]) ones masked' low cancels
    refine ⟨b', n, s, m, _, ?_, ready, by omega, counter⟩
    simp only [Batch.turn, eta, if_neg negative, limit, masked, Option.bind_eq_bind, Option.bind_some, run]

/-- The zeros that there are include the bits that have been cancelled. -/
theorem Batch.Ready.zeros {w : ℤ} (ready : b.Ready start f0 g0 i n s m w) {z : ℕ} (less : z ≤ i)
    (divides : 2 ^ z ∣ b.g.toNat) (odd : z < i → b.g.toNat / 2 ^ z % 2 = 1) :
    n ≤ z ∧ ∃ g, s.g + w * s.f = 2 ^ z * g := by
  have low : Low i b.g (s.g + w * s.f) := ready.tracks.g
  constructor
  · by_contra more
    have few := ready.less
    have whole : (2 : ℤ) ^ n ∣ b.g.toNat := by
      have both := dvd_add (low.mono few) ready.cancels
      rwa [sub_add_cancel] at both
    have natural : 2 * 2 ^ z ∣ b.g.toNat := by
      rw [← pow_succ']
      exact (pow_dvd_pow 2 (show z + 1 ≤ n by omega)).trans (by exact_mod_cast whole)
    obtain ⟨rest, split⟩ := natural
    have bit := odd (by omega)
    rw [split, mul_assoc, mul_left_comm, Nat.mul_div_cancel_left _ (by positivity)] at bit
    omega
  · have integer : (2 : ℤ) ^ z ∣ b.g.toNat := by exact_mod_cast divides
    have difference := dvd_sub integer (low.mono less)
    rwa [sub_sub_cancel] at difference

/-- A round shifts the zeros out. -/
theorem Batch.Ready.shift {w : ℤ} (ready : b.Ready start f0 g0 i n s m w) {z : ℕ} (more : n ≤ z) (less : z ≤ i)
    {g : ℤ} (whole : s.g + w * s.f = 2 ^ z * g) (divides : 2 ^ z ∣ b.g.toNat) :
    ∃ b' : Batch, b' = ⟨b.eta - z, b.f, b.g >>> UInt64.ofNat z, b.u <<< UInt64.ofNat z, b.v <<< UInt64.ofNat z, b.q, b.r⟩ ∧
      b'.Tracks 1 (i - z) (divsteps 1 (62 - (i - z)) start) (Transition.after ⟨2 ^ z, 0, w, 1⟩ m) ∧
      Follows start (62 - (i - z)) (Transition.after ⟨2 ^ z, 0, w, 1⟩ m) (divsteps 1 (62 - (i - z)) start) ∧
      b'.Words f0 g0 (62 - (i - z)) := by
  have few := ready.few
  have steps : 62 - (i - z) = 62 - i + z := by omega
  obtain ⟨run, follows⟩ := divsteps_cancel_more 1 s more w g ready.counter ready.low ready.high whole
  have all := ready.follows.trans follows
  rw [ready.ahead z more] at run all
  rw [steps]
  obtain ⟨eta, f, gLow, u, v, q, r⟩ := ready.tracks
  have power : UInt64.ofNat (2 ^ (62 - i + z)) = UInt64.ofNat (2 ^ (62 - i)) * UInt64.ofNat (2 ^ z) := by
    rw [pow_add, UInt64.ofNat_mul]
  have entry (x : ℤ) : UInt64.ofInt (1 * x) * UInt64.ofNat (2 ^ z) = UInt64.ofInt (1 * (2 ^ z * x)) := by
    rw [← ofInt_natCast, ← UInt64.ofInt_mul, Nat.cast_pow, Nat.cast_ofNat, mul_assoc, mul_comm x]
  have shifted (x : UInt64) : x <<< UInt64.ofNat z = x * UInt64.ofNat (2 ^ z) := shiftLeft_eq_mul x (by omega)
  refine ⟨_, rfl, ⟨?_, ?_, ?_, ?_, ?_, ?_, ?_⟩, all, ?_, ?_⟩
  · rw [run]
    exact congrArg (· - (z : ℤ)) eta
  · rw [run]
    exact f.mono (Nat.sub_le i z)
  · rw [run]
    apply Low.shiftRight (by omega)
    rw [Nat.sub_add_cancel less, ← whole]
    exact gLow
  · simp only [shifted, u, entry, Transition.added, Transition.after, zero_mul, add_zero]
  · simp only [shifted, v, entry, Transition.added, Transition.after, zero_mul, add_zero]
  · simp only [q, Transition.added, Transition.after, one_mul, add_comm]
  · simp only [r, Transition.added, Transition.after, one_mul, add_comm]
  · have first := ready.words.f
    simp only [shifted, power]
    grind
  · have second := ready.words.g
    have back := shiftRight_mul b.g (show z < 64 by omega) divides
    simp only [power]
    grind

/-- Every round but the first has a bit to shift out, so the rounds suffice. -/
theorem divstepsLoop62_spec (fuel : ℕ) {w : ℤ} (ready : b.Ready start f0 g0 i n s m w) (some : 0 < i)
    (enough : i + 1 ≤ fuel + min n 1) (counter : |start.eta| ≤ 683) (bound : |s.eta| ≤ 745) :
    ∃ b' m', divstepsLoop62 f0 g0 fuel i b = Option.some b' ∧ b'.Tracks 1 0 (divsteps 1 62 start) m' ∧
      Follows start 62 m' (divsteps 1 62 start) := by
  induction fuel generalizing b i n s m w with
  | zero => omega
  | succ fuel ih =>
    have few := ready.few
    obtain ⟨z, zeros, less, divides, odd⟩ := ctz64Var_sentinel b.g few
    obtain ⟨more, g, whole⟩ := ready.zeros less divides odd
    obtain ⟨_, rfl, tracks, follows, words⟩ := ready.shift more less whole divides
    have eta : b.eta = s.eta := ready.tracks.eta
    have counted : int64 (b.eta - z) = Option.some (b.eta - z) := by
      apply int64_eq
      rw [eta]
      obtain ⟨low, high⟩ := abs_le.mp bound
      exact abs_lt.mpr (by omega)
    rw [divstepsLoop62, zeros, Option.bind_eq_bind, Option.bind_some, counted, Option.bind_eq_bind, Option.bind_some]
    simp only
    split
    case isTrue last =>
      rw [last] at tracks follows
      exact ⟨_, _, rfl, tracks, follows⟩
    case isFalse rest =>
      obtain ⟨k, left⟩ := Nat.exists_eq_add_of_le' (show 1 ≤ i - z by omega)
      have state := divsteps_counter 1 (s := start) (by decide) (by decide) (62 - (i - z))
      have small : |(divsteps 1 (62 - (i - z)) start).eta| ≤ 745 := by omega
      have wordOdd := odd (by omega)
      rw [← toNat_shiftRight b.g (by omega)] at wordOdd
      have gOdd : (divsteps 1 (62 - (i - z)) start).g % 2 = 1 := by
        have low := tracks.g
        rw [left] at low
        have parity := low.parity
        simp only at parity
        rw [left]
        omega
      have fOdd : b.f.toNat % 2 = 1 := by
        rw [left] at tracks
        exact tracks.f_odd
      have fPasses : (b.f &&& 1 == 1) = true := by
        rw [beq_iff_eq]
        exact UInt64.toNat_inj.mp ((toNat_and_one b.f).trans fOdd)
      have gPasses : (b.g >>> UInt64.ofNat z &&& 1 == 1) = true := by
        rw [beq_iff_eq]
        exact UInt64.toNat_inj.mp ((toNat_and_one _).trans wordOdd)
      have counterPasses : (-745 ≤ b.eta - (z : ℤ) && b.eta - (z : ℤ) ≤ 745) = true := by
        have same : b.eta - (z : ℤ) = _ := tracks.eta
        rw [same, Bool.and_eq_true, decide_eq_true_eq, decide_eq_true_eq]
        exact abs_le.mp small
      obtain ⟨b', n', s', m', w', turned, ready', some', bound'⟩ := turn_spec tracks words follows (by omega) (by omega)
        gOdd small rfl
      simp only [verifyCheck_eq fPasses, verifyCheck_eq gPasses, words.check (show 62 - (i - z) < 64 by omega),
        verifyCheck_eq counterPasses, turned, Option.bind_eq_bind, Option.bind_some]
      exact ih ready' (by omega) (by omega) bound'

/-- A batch makes 62 steps, and all its checks pass. -/
theorem divsteps62Var_spec (f : Low 62 f0 start.f) (g : Low 62 g0 start.g) (counter : |start.eta| ≤ 683) :
    ∃ t, divsteps62Var start.eta f0 g0 = some ((divsteps 1 62 start).eta, t) ∧ t.Leads start (divsteps 1 62 start) := by
  have ready : Batch.Ready ⟨start.eta, f0, g0, 1, 0, 0, 1⟩ start f0 g0 62 0 start ⟨1, 0, 0, 1⟩ 0 := by
    have added : start.added 0 = start := by
      ext <;> simp [DivState.added]
    have one : Transition.added ⟨1, 0, 0, 1⟩ 0 = ⟨1, 0, 0, 1⟩ := by simp [Transition.added]
    refine ⟨?_, Follows.refl start, ?_, fun k _ => by rw [Nat.sub_self, Nat.zero_add], le_rfl, Nat.zero_le 62, ?_, le_rfl,
      by decide, ?_⟩
    · rw [added, one]
      exact ⟨rfl, f, g, rfl, rfl, rfl, rfl⟩
    · constructor <;> simp only [Nat.sub_self, pow_zero] <;> grind
    · exact fun some => absurd some (lt_irrefl 0)
    · rw [pow_zero]
      exact one_dvd _
  obtain ⟨b, m, run, tracks, follows⟩ := divstepsLoop62_spec 63 ready (by decide) le_rfl counter (by omega)
  have scaled : b.Tracks (2 ^ 0) 0 (divsteps 1 62 start) m := by
    rw [pow_zero]
    exact tracks
  obtain ⟨t, result, leads⟩ := scaled.result follows rfl
  refine ⟨t, ?_, leads⟩
  simp only [Nat.zero_add] at result
  rw [divsteps62Var, run, Option.bind_eq_bind, Option.bind_some, result]

end

end BitcoinWasm.Secp256k1
