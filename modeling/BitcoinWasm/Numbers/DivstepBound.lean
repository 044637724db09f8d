import BitcoinWasm.Numbers.Divstep

/-! How many division steps it takes until the second number is zero.

From one time the counter is back at its start to the next, the steps are an excursion:
the second number loses `k` factors of two, the numbers change places, and a multiple
is added that cancels as many bits again. A polygon around the origin is scaled down
by every excursion, by a fixed rate for each of its steps. So the polygon around the
numbers at the start, and the smallest ones that are not zero, bound the number of
steps. That an excursion does this to a polygon is a finite check.
-/

set_option autoImplicit false

namespace BitcoinWasm.Numbers

/-! ## Excursions -/

/-- The numbers without their factors of two. -/
theorem exists_odd_part {g : ℤ} (nonzero : g ≠ 0) : ∃ (k : ℕ) (odd : ℤ), odd % 2 = 1 ∧ g = 2 ^ k * odd := by
  have finite : FiniteMultiplicity 2 g := Int.finiteMultiplicity_iff.mpr ⟨by decide, nonzero⟩
  obtain ⟨odd, whole, rest⟩ := finite.exists_eq_pow_mul_and_not_dvd
  exact ⟨multiplicity 2 g, odd, Int.emod_two_ne_zero.mp fun even => rest (Int.dvd_of_emod_eq_zero even), whole⟩

/-- The multiple of an odd number that cancels the low bits of another odd number. -/
theorem exists_cancelling {f g : ℤ} (fOdd : f % 2 = 1) (gOdd : g % 2 = 1) {n : ℕ} (some : 1 ≤ n) :
    ∃ w h : ℤ, 0 < w ∧ w < 2 ^ n ∧ w % 2 = 1 ∧ -f + w * g = 2 ^ n * h := by
  have positive : (0 : ℤ) < 2 ^ n := by positivity
  obtain ⟨m, rfl⟩ := Nat.exists_eq_add_of_le' some
  have coprime : IsCoprime g (2 ^ (m + 1)) := by
    apply IsCoprime.pow_right
    exact ⟨1, -(g / 2), by omega⟩
  obtain ⟨x, y, one⟩ := coprime
  -- `x` is an inverse of `g`, so `x f` is what is wanted, up to a multiple of the modulus.
  have low := Int.emod_nonneg (x * f) positive.ne'
  have high := Int.emod_lt_of_pos (x * f) positive
  have division := Int.emod_add_mul_ediv (x * f) (2 ^ (m + 1))
  have whole : -f + x * f % 2 ^ (m + 1) * g = 2 ^ (m + 1) * (-(y * f) - x * f / 2 ^ (m + 1) * g) := by
    have rest : x * f % 2 ^ (m + 1) = x * f - 2 ^ (m + 1) * (x * f / 2 ^ (m + 1)) := by linarith
    rw [rest]
    linear_combination f * one
  have odd : x * f % 2 ^ (m + 1) % 2 = 1 := by
    have even : (-f + x * f % 2 ^ (m + 1) * g) % 2 = 0 := by
      rw [whole, pow_succ', mul_assoc]
      omega
    rw [Int.add_emod, Int.mul_emod, gOdd] at even
    omega
  exact ⟨_, _, by omega, high, odd, whole⟩

/-- The counter starts at `-1`, and an excursion has `2 k + extra` steps, where `extra` is 1 or 2. -/
theorem excursion {turn : ℤ} {extra : ℕ} (counter : turn + extra = 3) (some : 1 ≤ extra) {s : DivState}
    (start : s.eta = -1) (nonzero : s.g ≠ 0) :
    ∃ (k : ℕ) (w : ℤ) (t : DivState), divsteps turn (2 * k + extra) s = t ∧ t.eta = -1 ∧
      s.g = 2 ^ k * t.f ∧ 2 ^ (k + extra) * t.g = w * t.f - s.f ∧ 0 < w ∧ w < 2 ^ (k + extra) ∧ w % 2 = 1 := by
  obtain ⟨k, g, odd, whole⟩ := exists_odd_part nonzero
  obtain ⟨w, h, low, high, wOdd, cancelled⟩ := exists_cancelling s.odd odd (n := k + extra) (by omega)
  have halved := (divsteps_even turn s k g whole).1
  -- After the change of places the counter allows as many steps as bits are to be cancelled.
  have exchanged := divstep_exchange turn ⟨s.eta - k, s.f, g, s.odd⟩ odd (by simp only; omega) (by simp only; omega)
  have rest := (divsteps_cancel turn ⟨-(s.eta - k) - turn + 1, g, -s.f, odd⟩ (k + extra) w h (by simp only; omega)
    (by omega) high cancelled).1
  obtain ⟨m, length⟩ := Nat.exists_eq_add_of_le' (show 1 ≤ k + extra by omega)
  refine ⟨k, w, ⟨-1, g, h, odd⟩, ?_, rfl, whole, ?_, low, high, wOdd⟩
  · have split : 2 * k + extra = k + (m + 1) := by omega
    rw [length] at rest
    rw [split, divsteps_add, halved, divsteps, exchanged]
    apply rest.trans
    ext
    · simp only
      push_cast
      omega
    · rfl
    · rfl
  · rw [← cancelled]
    ring

/-! ## Polygons -/

/-- A linear form on pairs of numbers. -/
structure Face where
  a : ℤ
  b : ℤ
  deriving DecidableEq, Repr

def Face.at (l : Face) (f g : ℤ) : ℤ := l.a * f + l.b * g

def Face.det (l m : Face) : ℤ := l.a * m.b - l.b * m.a

/-- The pairs inside a polygon of the size `size`, which has these faces and their opposites. -/
def Inside (faces : List Face) (size : ℚ) (f g : ℤ) : Prop := ∀ l ∈ faces, |(l.at f g : ℚ)| ≤ size

/-- Between two faces a form is a combination of them. Are its coefficients at most `den / num`? -/
def Face.between (num den : ℕ) (m l r : Face) : Bool :=
  l.det r ≠ 0 && num * ((m.det r).natAbs + (l.det m).natAbs) ≤ den * (l.det r).natAbs

/-- The form lies between two faces next to each other. -/
def covered (faces : List Face) (num den : ℕ) (m : Face) : Bool :=
  (faces.zip (faces.rotate 1)).any fun pair => m.between num den pair.1 pair.2

section
variable {faces : List Face} {size : ℚ} {f g : ℤ}

theorem between_bound {num den : ℕ} {m l r : Face} (between : m.between num den l r = true)
    (left : |(l.at f g : ℚ)| ≤ size) (right : |(r.at f g : ℚ)| ≤ size) : num * |(m.at f g : ℚ)| ≤ den * size := by
  rw [Face.between, Bool.and_eq_true, decide_eq_true_eq, decide_eq_true_eq] at between
  obtain ⟨nonzero, small⟩ := between
  have positive : (0 : ℚ) < |(l.det r : ℚ)| := abs_pos.mpr (by exact_mod_cast nonzero)
  have coefficients : (num : ℚ) * (|(m.det r : ℚ)| + |(l.det m : ℚ)|) ≤ den * |(l.det r : ℚ)| := by
    have cast : ((num * ((m.det r).natAbs + (l.det m).natAbs) : ℕ) : ℚ) ≤ ((den * (l.det r).natAbs : ℕ) : ℚ) := by
      exact_mod_cast small
    simpa only [Nat.cast_mul, Nat.cast_add, Nat.cast_natAbs, Int.cast_abs] using cast
  -- Cramer's rule.
  have combination : (l.det r : ℚ) * m.at f g = m.det r * l.at f g + l.det m * r.at f g := by
    have integers : l.det r * m.at f g = m.det r * l.at f g + l.det m * r.at f g := by
      simp only [Face.det, Face.at]
      ring
    exact_mod_cast integers
  have scaled : |(l.det r : ℚ)| * |(m.at f g : ℚ)| ≤ (|(m.det r : ℚ)| + |(l.det m : ℚ)|) * size :=
    calc |(l.det r : ℚ)| * |(m.at f g : ℚ)| = |(m.det r : ℚ) * l.at f g + l.det m * r.at f g| := by
          rw [← abs_mul, combination]
      _ ≤ |(m.det r : ℚ)| * |(l.at f g : ℚ)| + |(l.det m : ℚ)| * |(r.at f g : ℚ)| := by
          rw [← abs_mul, ← abs_mul]
          exact abs_add_le _ _
      _ ≤ |(m.det r : ℚ)| * size + |(l.det m : ℚ)| * size :=
          add_le_add (mul_le_mul_of_nonneg_left left (abs_nonneg _)) (mul_le_mul_of_nonneg_left right (abs_nonneg _))
      _ = (|(m.det r : ℚ)| + |(l.det m : ℚ)|) * size := by ring
  have nonnegative : 0 ≤ size := (abs_nonneg _).trans left
  apply le_of_mul_le_mul_left _ positive
  calc |(l.det r : ℚ)| * (num * |(m.at f g : ℚ)|) = num * (|(l.det r : ℚ)| * |(m.at f g : ℚ)|) := by ring
    _ ≤ num * ((|(m.det r : ℚ)| + |(l.det m : ℚ)|) * size) := mul_le_mul_of_nonneg_left scaled (Nat.cast_nonneg num)
    _ = num * (|(m.det r : ℚ)| + |(l.det m : ℚ)|) * size := by ring
    _ ≤ den * |(l.det r : ℚ)| * size := mul_le_mul_of_nonneg_right coefficients nonnegative
    _ = |(l.det r : ℚ)| * (den * size) := by ring

theorem covered_bound {num den : ℕ} {m : Face} (cover : covered faces num den m = true)
    (inside : Inside faces size f g) : num * |(m.at f g : ℚ)| ≤ den * size := by
  obtain ⟨⟨l, r⟩, listed, between⟩ := List.any_eq_true.mp cover
  obtain ⟨left, right⟩ := List.of_mem_zip listed
  exact between_bound between (inside l left) (inside r (List.mem_rotate.mp right))

/-- A form that depends linearly on a number is bounded between two of its values. -/
theorem affine_bound {x y bound : ℚ} {first w last : ℤ} (low : first ≤ w) (high : w ≤ last)
    (left : |x + first * y| ≤ bound) (right : |x + last * y| ≤ bound) : |x + w * y| ≤ bound := by
  have low' : (first : ℚ) ≤ w := by exact_mod_cast low
  have high' : (w : ℚ) ≤ last := by exact_mod_cast high
  rw [abs_le] at left right ⊢
  rcases le_total 0 y with positive | negative
  · have below := mul_le_mul_of_nonneg_right low' positive
    have above := mul_le_mul_of_nonneg_right high' positive
    constructor <;> linarith [left.1, right.2]
  · have below := mul_le_mul_of_nonpos_right low' negative
    have above := mul_le_mul_of_nonpos_right high' negative
    constructor <;> linarith [left.2, right.1]

end

/-! ## Certificates -/

/-- A polygon, and the rate `num / den` at which it shrinks. -/
structure Certificate where
  /-- The steps of the shortest excursion. -/
  extra : ℕ
  faces : List Face
  num : ℕ
  den : ℕ
  /-- Excursions that halve so often or more are treated together. -/
  long : ℕ
  /-- The size is at least these multiples of the two numbers. -/
  fUnit : ℕ
  gUnit : ℕ
  /-- A bound on the faces at the start. -/
  start : ℕ
  /-- The size at which the last excursion would have to end, as a fraction. -/
  stopNum : ℕ
  stopDen : ℕ

namespace Certificate

/-- The form whose value before an excursion is `2 ^ (2 k + extra)` times that of `l` after it. -/
def image (c : Certificate) (k : ℕ) (w : ℤ) (l : Face) : Face where
  a := -l.b * 2 ^ k
  b := l.a * 2 ^ (k + c.extra) + l.b * w

/-- The number of steps of an excursion. -/
def steps (c : Certificate) (k : ℕ) : ℕ := 2 * k + c.extra

/-- The excursion scales a face down. -/
def shrinks (c : Certificate) (k : ℕ) (w : ℤ) (l : Face) : Bool :=
  covered c.faces (c.num ^ c.steps k) ((2 * c.den) ^ c.steps k) (c.image k w l)

/-- So do the long ones, for which the multiple is a multiple of `2 ^ k` between these two. -/
def shrinksLong (c : Certificate) (w : ℤ) (l : Face) : Bool :=
  covered c.faces (2 ^ c.long * c.num ^ c.steps c.long) ((2 * c.den) ^ c.steps c.long) (c.image 0 w l)

/-- An excursion to zero began with a face that was large enough. -/
def stops (c : Certificate) (k w : ℕ) : Bool :=
  c.faces.any fun l => c.num ^ c.steps k * c.stopNum ≤ c.den ^ c.steps k * c.stopDen * (l.at w (2 ^ k)).natAbs

/-- What has to be checked of a certificate. -/
structure Valid (c : Certificate) : Prop where
  some : 1 ≤ c.extra
  positive : 0 < c.den
  slow : c.den < c.num
  rate : c.num ^ 2 ≤ 2 * c.den ^ 2
  unit : 0 < c.fUnit
  short : ∀ l ∈ c.faces, ∀ k < c.long, c.shrinks k 1 l = true ∧ c.shrinks k (2 ^ (k + c.extra) - 1) l = true
  longs : ∀ l ∈ c.faces, c.shrinksLong 0 l = true ∧ c.shrinksLong (2 ^ c.extra) l = true
  f : covered c.faces c.fUnit 1 ⟨1, 0⟩ = true
  g : covered c.faces c.gUnit 1 ⟨0, 1⟩ = true
  ends : ∀ k < c.long, ∀ w < 2 ^ (k + c.extra), w % 2 = 1 → c.stops k w = true
  tail : c.num ^ c.steps c.long * c.stopNum ≤ c.den ^ c.steps c.long * c.stopDen * (c.gUnit * 2 ^ c.long)
  begins : ∀ l ∈ c.faces, l.a.natAbs ≤ c.start ∧ (l.a + l.b).natAbs ≤ c.start

/-- What a polygon shrinks by in one step. -/
def factor (c : Certificate) : ℚ := c.den / c.num

section
variable {c : Certificate}

theorem Valid.num_pos (valid : c.Valid) : (0 : ℚ) < c.num := by
  have natural := valid.positive.trans valid.slow
  exact_mod_cast natural

theorem Valid.factor_pos (valid : c.Valid) : 0 < c.factor :=
  div_pos (by exact_mod_cast valid.positive) valid.num_pos

theorem Valid.factor_lt (valid : c.Valid) : c.factor < 1 := by
  rw [factor, div_lt_one valid.num_pos]
  exact_mod_cast valid.slow

theorem Valid.factor_sq (valid : c.Valid) : 1 ≤ 2 * c.factor ^ 2 := by
  have rate : (c.num : ℚ) ^ 2 ≤ 2 * (c.den : ℚ) ^ 2 := by exact_mod_cast valid.rate
  rw [factor, div_pow, ← mul_div_assoc, le_div_iff₀ (pow_pos valid.num_pos 2), one_mul]
  exact rate

/-- A bound with powers of the numerator and the denominator, as one with the factor. -/
theorem Valid.factor_bound (valid : c.Valid) {n : ℕ} {x y : ℚ} (bound : c.num ^ n * x ≤ c.den ^ n * y) :
    x ≤ c.factor ^ n * y := by
  rw [factor, div_pow, div_mul_eq_mul_div, le_div_iff₀ (pow_pos valid.num_pos n), mul_comm]
  exact bound

/-- Two halvings more scale by more than a factor of two. -/
theorem Valid.longer (valid : c.Valid) {k : ℕ} (long : c.long ≤ k) :
    c.factor ^ c.steps c.long * 2 ^ c.long ≤ c.factor ^ c.steps k * 2 ^ k := by
  obtain ⟨m, rfl⟩ := Nat.exists_eq_add_of_le long
  have power : (1 : ℚ) ≤ (2 * c.factor ^ 2) ^ m := one_le_pow₀ valid.factor_sq
  have steps : c.steps (c.long + m) = c.steps c.long + 2 * m := by
    simp only [Certificate.steps]
    ring
  have nonnegative : 0 ≤ c.factor ^ c.steps c.long * 2 ^ c.long :=
    mul_nonneg (pow_nonneg valid.factor_pos.le _) (by positivity)
  calc c.factor ^ c.steps c.long * 2 ^ c.long
      ≤ c.factor ^ c.steps c.long * 2 ^ c.long * (2 * c.factor ^ 2) ^ m := le_mul_of_one_le_right nonnegative power
    _ = c.factor ^ c.steps (c.long + m) * 2 ^ (c.long + m) := by
        rw [steps, pow_add, pow_add, pow_mul, mul_pow]
        ring

variable {size : ℚ} {f g : ℤ}

theorem Valid.f_unit (valid : c.Valid) (inside : Inside c.faces size f g) : c.fUnit * |(f : ℚ)| ≤ size := by
  simpa [Face.at] using covered_bound valid.f inside

theorem Valid.g_unit (valid : c.Valid) (inside : Inside c.faces size f g) : c.gUnit * |(g : ℚ)| ≤ size := by
  simpa [Face.at] using covered_bound valid.g inside

/-- A face before an excursion. -/
theorem image_at (c : Certificate) {k : ℕ} {w f' g' : ℤ} (l : Face) (first : g = 2 ^ k * f')
    (second : 2 ^ (k + c.extra) * g' = w * f' - f) :
    2 ^ c.steps k * l.at f' g' = (c.image k w l).at f g := by
  have steps : c.steps k = k + (k + c.extra) := by
    simp only [Certificate.steps]
    ring
  calc 2 ^ c.steps k * l.at f' g' = 2 ^ k * (2 ^ (k + c.extra) * (l.a * f') + l.b * (2 ^ (k + c.extra) * g')) := by
        rw [steps, pow_add, Face.at]
        ring
    _ = (c.image k w l).at f g := by
        rw [second, first, Face.at, image]
        ring

theorem Valid.shrinks_bound (valid : c.Valid) {k : ℕ} {w : ℤ} {l : Face} (shrinks : c.shrinks k w l = true)
    (inside : Inside c.faces size f g) :
    |((c.image k w l).at f g : ℚ)| ≤ 2 ^ c.steps k * (c.factor ^ c.steps k * size) := by
  have bound := covered_bound shrinks inside
  push_cast at bound
  rw [mul_pow, mul_assoc] at bound
  calc _ ≤ c.factor ^ c.steps k * (2 ^ c.steps k * size) := valid.factor_bound (by linarith)
    _ = _ := by ring

theorem Valid.shrinksLong_bound (valid : c.Valid) {k : ℕ} (long : c.long ≤ k) {w : ℤ} {l : Face}
    (shrinks : c.shrinksLong w l = true) (inside : Inside c.faces size f g) :
    2 ^ k * |((c.image 0 w l).at f g : ℚ)| ≤ 2 ^ c.steps k * (c.factor ^ c.steps k * size) := by
  have nonnegative : 0 ≤ size := (by positivity : (0 : ℚ) ≤ c.fUnit * |(f : ℚ)|).trans (valid.f_unit inside)
  have bound := covered_bound shrinks inside
  push_cast at bound
  rw [mul_pow] at bound
  have least : 2 ^ c.long * |((c.image 0 w l).at f g : ℚ)| ≤ c.factor ^ c.steps c.long * (2 ^ c.steps c.long * size) :=
    valid.factor_bound (by linarith)
  have split (j : ℕ) : (2 : ℚ) ^ c.steps j = 2 ^ j * 2 ^ (j + c.extra) := by
    rw [← pow_add, Certificate.steps]
    ring
  have positive : (0 : ℚ) < 2 ^ c.long := by positivity
  apply le_of_mul_le_mul_left _ positive
  calc 2 ^ c.long * (2 ^ k * |((c.image 0 w l).at f g : ℚ)|)
      = 2 ^ k * (2 ^ c.long * |((c.image 0 w l).at f g : ℚ)|) := by ring
    _ ≤ 2 ^ k * (c.factor ^ c.steps c.long * (2 ^ c.steps c.long * size)) :=
        mul_le_mul_of_nonneg_left least (by positivity)
    _ = c.factor ^ c.steps c.long * 2 ^ c.long * (2 ^ k * 2 ^ (c.long + c.extra) * size) := by
        rw [split]
        ring
    _ ≤ c.factor ^ c.steps k * 2 ^ k * (2 ^ k * 2 ^ (c.long + c.extra) * size) :=
        mul_le_mul_of_nonneg_right (valid.longer long) (by positivity)
    _ = 2 ^ c.long * (2 ^ c.steps k * (c.factor ^ c.steps k * size)) := by
        rw [split, pow_add, pow_add]
        ring

theorem abs_scaled (k : ℕ) (x : ℚ) : |2 ^ k * x| = 2 ^ k * |x| := by
  rw [abs_mul, abs_of_pos (by positivity)]

/-- An excursion scales the polygon down. -/
theorem Valid.excursion_inside (valid : c.Valid) {k : ℕ} {w f' g' : ℤ} (inside : Inside c.faces size f g)
    (first : g = 2 ^ k * f') (second : 2 ^ (k + c.extra) * g' = w * f' - f) (low : 0 < w)
    (high : w < 2 ^ (k + c.extra)) : Inside c.faces (c.factor ^ c.steps k * size) f' g' := by
  intro l listed
  have positive : (0 : ℚ) < 2 ^ c.steps k := by positivity
  apply le_of_mul_le_mul_left _ positive
  have before : (2 : ℚ) ^ c.steps k * l.at f' g' = (c.image k w l).at f g := by
    exact_mod_cast image_at c l first second
  have affine (v : ℤ) : ((c.image k v l).at f g : ℚ) = (c.image k 0 l).at f g + v * (l.b * g : ℤ) := by
    simp only [Face.at, image]
    push_cast
    ring
  rw [← abs_scaled, before, affine]
  rcases lt_or_ge k c.long with short | long
  · -- The multiple lies between the least and the greatest one there is.
    obtain ⟨least, greatest⟩ := valid.short l listed k short
    have left := valid.shrinks_bound least inside
    have right := valid.shrinks_bound greatest inside
    rw [affine] at left right
    exact affine_bound (by omega) (by omega) left right
  · have scaled (v : ℤ) : ((c.image k (2 ^ k * v) l).at f g : ℚ) = 2 ^ k * (c.image 0 v l).at f g := by
      simp only [Face.at, image]
      push_cast
      ring
    obtain ⟨least, greatest⟩ := valid.longs l listed
    have left := valid.shrinksLong_bound long least inside
    have right := valid.shrinksLong_bound long greatest inside
    rw [← abs_scaled, ← scaled, affine] at left right
    exact affine_bound (by omega) (by rw [← pow_add]; omega) left right

/-- If an excursion leads to zero, then the polygon before it was not too small. -/
theorem Valid.excursion_zero (valid : c.Valid) {k : ℕ} {w f' : ℤ} (inside : Inside c.faces size f g)
    (odd : f' % 2 = 1) (first : g = 2 ^ k * f') (second : 0 = w * f' - f) (low : 0 < w)
    (high : w < 2 ^ (k + c.extra)) (wOdd : w % 2 = 1) :
    c.stopNum ≤ c.factor ^ c.steps k * (c.stopDen * size) := by
  have unit : (1 : ℚ) ≤ |(f' : ℚ)| := by
    have nonzero : f' ≠ 0 := by
      rintro rfl
      exact absurd odd (by decide)
    exact_mod_cast Int.one_le_abs nonzero
  have factor := pow_nonneg valid.factor_pos.le (c.steps k)
  rcases lt_or_ge k c.long with short | long
  · obtain ⟨v, rfl⟩ := Int.eq_ofNat_of_zero_le low.le
    have ends := valid.ends k short v (by exact_mod_cast high) (by omega)
    obtain ⟨l, listed, large⟩ := List.any_eq_true.mp ends
    rw [decide_eq_true_eq] at large
    have bound : (c.num : ℚ) ^ c.steps k * c.stopNum ≤
        c.den ^ c.steps k * (c.stopDen * |(l.at v (2 ^ k) : ℚ)|) := by
      have cast : ((c.num ^ c.steps k * c.stopNum : ℕ) : ℚ) ≤
          ((c.den ^ c.steps k * c.stopDen * (l.at v (2 ^ k)).natAbs : ℕ) : ℚ) := by exact_mod_cast large
      simpa only [Nat.cast_mul, Nat.cast_pow, Nat.cast_natAbs, Int.cast_abs, mul_assoc] using cast
    have multiple : |(l.at f g : ℚ)| = |(f' : ℚ)| * |(l.at v (2 ^ k) : ℚ)| := by
      have same : l.at f g = f' * l.at v (2 ^ k) := by
        rw [first, show f = v * f' by omega, Face.at, Face.at]
        ring
      rw [same, Int.cast_mul, abs_mul]
    have reached : |(l.at v (2 ^ k) : ℚ)| ≤ size :=
      calc |(l.at v (2 ^ k) : ℚ)| ≤ |(f' : ℚ)| * |(l.at v (2 ^ k) : ℚ)| := le_mul_of_one_le_left (abs_nonneg _) unit
        _ = |(l.at f g : ℚ)| := multiple.symm
        _ ≤ size := inside l listed
    calc (c.stopNum : ℚ) ≤ c.factor ^ c.steps k * (c.stopDen * |(l.at v (2 ^ k) : ℚ)|) := valid.factor_bound bound
      _ ≤ c.factor ^ c.steps k * (c.stopDen * size) :=
          mul_le_mul_of_nonneg_left (mul_le_mul_of_nonneg_left reached (Nat.cast_nonneg _)) factor
  · have tail : (c.num : ℚ) ^ c.steps c.long * c.stopNum ≤
        c.den ^ c.steps c.long * (c.stopDen * (c.gUnit * 2 ^ c.long)) := by
      rw [← mul_assoc]
      exact_mod_cast valid.tail
    have reached : c.gUnit * (2 : ℚ) ^ k ≤ size :=
      calc c.gUnit * (2 : ℚ) ^ k ≤ c.gUnit * (2 ^ k * |(f' : ℚ)|) := by
            apply mul_le_mul_of_nonneg_left _ (Nat.cast_nonneg _)
            exact le_mul_of_one_le_right (by positivity) unit
        _ = c.gUnit * |(g : ℚ)| := by
            rw [first, Int.cast_mul, Int.cast_pow, Int.cast_ofNat, abs_scaled]
        _ ≤ size := valid.g_unit inside
    calc (c.stopNum : ℚ) ≤ c.factor ^ c.steps c.long * (c.stopDen * (c.gUnit * 2 ^ c.long)) := valid.factor_bound tail
      _ = c.factor ^ c.steps c.long * 2 ^ c.long * (c.stopDen * c.gUnit) := by ring
      _ ≤ c.factor ^ c.steps k * 2 ^ k * (c.stopDen * c.gUnit) :=
          mul_le_mul_of_nonneg_right (valid.longer long) (by positivity)
      _ = c.factor ^ c.steps k * (c.stopDen * (c.gUnit * 2 ^ k)) := by ring
      _ ≤ c.factor ^ c.steps k * (c.stopDen * size) :=
          mul_le_mul_of_nonneg_left (mul_le_mul_of_nonneg_left reached (Nat.cast_nonneg _)) factor

/-- By induction on a bound for the number of excursions. -/
theorem Valid.exists_zero (valid : c.Valid) {turn : ℤ} (counter : turn + c.extra = 3) (m : ℕ) {size : ℚ}
    {s : DivState} (start : s.eta = -1) (nonzero : s.g ≠ 0) (inside : Inside c.faces size s.f s.g)
    (small : c.factor ^ m * size < c.fUnit) :
    ∃ n, (divsteps turn n s).g = 0 ∧ c.stopNum ≤ c.factor ^ n * (c.stopDen * size) := by
  induction m generalizing s size with
  | zero =>
    have unit : (1 : ℚ) ≤ |(s.f : ℚ)| := by
      have odd := s.odd
      exact_mod_cast Int.one_le_abs (show s.f ≠ 0 by omega)
    have least : (c.fUnit : ℚ) ≤ c.fUnit * |(s.f : ℚ)| := le_mul_of_one_le_right (Nat.cast_nonneg _) unit
    rw [pow_zero, one_mul] at small
    exact absurd (least.trans (valid.f_unit inside)) (not_le.mpr small)
  | succ m ih =>
    obtain ⟨k, w, t, run, again, first, second, low, high, wOdd⟩ := excursion counter valid.some start nonzero
    by_cases zero : t.g = 0
    · rw [zero, mul_zero] at second
      refine ⟨c.steps k, ?_, valid.excursion_zero inside t.odd first second low high wOdd⟩
      rw [Certificate.steps, run, zero]
    · have within := valid.excursion_inside inside first second low high
      have nonnegative : 0 ≤ size := (by positivity : (0 : ℚ) ≤ c.fUnit * |(s.f : ℚ)|).trans (valid.f_unit inside)
      have fewer : c.factor ^ m * (c.factor ^ c.steps k * size) < c.fUnit := by
        have some := valid.some
        calc c.factor ^ m * (c.factor ^ c.steps k * size) = c.factor ^ (m + c.steps k) * size := by
              rw [pow_add, mul_assoc]
          _ ≤ c.factor ^ (m + 1) * size := by
              apply mul_le_mul_of_nonneg_right _ nonnegative
              exact pow_le_pow_of_le_one valid.factor_pos.le valid.factor_lt.le (by simp only [Certificate.steps]; omega)
          _ < c.fUnit := small
      obtain ⟨n, reached, stop⟩ := ih again zero within fewer
      refine ⟨c.steps k + n, ?_, ?_⟩
      · rw [divsteps_add, Certificate.steps, run, reached]
      · calc (c.stopNum : ℚ) ≤ c.factor ^ n * (c.stopDen * (c.factor ^ c.steps k * size)) := stop
          _ = c.factor ^ (c.steps k + n) * (c.stopDen * size) := by
              rw [pow_add]
              ring

/-- The numbers at the start are inside a polygon. -/
theorem Valid.start_inside (valid : c.Valid) {bits : ℕ} (positive : 0 < f) (modulus : f ≤ 2 ^ bits) (low : 0 ≤ g)
    (high : g ≤ f) : Inside c.faces (c.start * 2 ^ bits) f g := by
  intro l listed
  have scaled (a : ℤ) (small : a.natAbs ≤ c.start) : |(f : ℚ) * a| ≤ c.start * 2 ^ bits := by
    have left : |(f : ℚ)| ≤ 2 ^ bits := by
      have cast : (f : ℚ) ≤ 2 ^ bits := by exact_mod_cast modulus
      rw [abs_of_pos (by exact_mod_cast positive)]
      exact cast
    have right : |(a : ℚ)| ≤ c.start := by
      rw [← Int.cast_abs, ← Nat.cast_natAbs]
      exact_mod_cast small
    rw [abs_mul, mul_comm]
    exact mul_le_mul right left (abs_nonneg _) (Nat.cast_nonneg _)
  obtain ⟨one, both⟩ := valid.begins l listed
  have left : |(f * l.a + (0 : ℤ) * l.b : ℚ)| ≤ c.start * 2 ^ bits := by simpa using scaled l.a one
  have right : |(f * l.a + f * l.b : ℚ)| ≤ c.start * 2 ^ bits := by simpa [mul_add] using scaled (l.a + l.b) both
  have between := affine_bound low high left right
  rw [Face.at, mul_comm l.a, mul_comm l.b]
  push_cast
  exact between

/-- A run that starts with a modulus reaches zero within so many steps. -/
theorem Valid.divsteps_end (valid : c.Valid) {turn : ℤ} (counter : turn + c.extra = 3) {bits total : ℕ}
    (enough : c.den ^ (total + 1) * (c.stopDen * (c.start * 2 ^ bits)) < c.num ^ (total + 1) * c.stopNum)
    {s : DivState} (start : s.eta = -1) (positive : 0 < s.f) (modulus : s.f ≤ 2 ^ bits) (low : 0 ≤ s.g)
    (high : s.g ≤ s.f) : (divsteps turn total s).g = 0 := by
  by_cases zero : s.g = 0
  · rw [divsteps_zero turn zero]
  have inside := valid.start_inside positive modulus low high
  have unit : (0 : ℚ) < c.fUnit := by exact_mod_cast valid.unit
  have size : (0 : ℚ) < c.start * 2 ^ bits := by
    have one : (0 : ℚ) < |(s.f : ℚ)| := abs_pos.mpr (by exact_mod_cast positive.ne')
    exact (mul_pos unit one).trans_le (valid.f_unit inside)
  obtain ⟨m, small⟩ := exists_pow_lt_of_lt_one (div_pos unit size) valid.factor_lt
  obtain ⟨n, reached, stop⟩ := valid.exists_zero counter m start zero inside ((lt_div_iff₀ size).mp small)
  rcases le_or_gt n total with early | late
  · obtain ⟨rest, rfl⟩ := Nat.exists_eq_add_of_le early
    rw [divsteps_add, divsteps_zero turn reached]
  · -- The polygon would have become too small.
    have room : (0 : ℚ) ≤ c.stopDen * (c.start * 2 ^ bits) := mul_nonneg (Nat.cast_nonneg _) size.le
    have power : c.factor ^ n ≤ c.factor ^ (total + 1) :=
      pow_le_pow_of_le_one valid.factor_pos.le valid.factor_lt.le late
    have bound := stop.trans (mul_le_mul_of_nonneg_right power room)
    rw [factor, div_pow, div_mul_eq_mul_div, le_div_iff₀ (pow_pos valid.num_pos _)] at bound
    have contrary : c.num ^ (total + 1) * c.stopNum ≤ c.den ^ (total + 1) * (c.stopDen * (c.start * 2 ^ bits)) := by
      rw [mul_comm]
      exact_mod_cast bound
    exact absurd contrary (not_le.mpr enough)

end

/-! ## The two counters -/

/-- For the counter that starts half a step away from the change of places. -/
def half : Certificate where
  extra := 1
  faces := [⟨6717, 169⟩, ⟨6563, 1024⟩, ⟨6149, 2616⟩, ⟨5351, 4182⟩, ⟨4701, 5199⟩, ⟨4493, 5507⟩, ⟨3274, 6726⟩,
    ⟨2848, 7132⟩, ⟨1746, 7958⟩, ⟨-114, 9189⟩, ⟨-692, 9559⟩, ⟨-2578, 10464⟩, ⟨-3205, 10603⟩, ⟨-3404, 10633⟩,
    ⟨-3754, 10491⟩, ⟨-4397, 10106⟩, ⟨-4906, 9512⟩, ⟨-5665, 8356⟩, ⟨-5893, 7986⟩, ⟨-6557, 6214⟩, ⟨-6783, 5311⟩,
    ⟨-6940, 4620⟩, ⟨-7163, 2833⟩, ⟨-7183, 2584⟩]
  num := 13509
  den := 10000
  long := 5
  fUnit := 6745
  gUnit := 9113
  start := 10000
  stopNum := 100000000
  stopDen := 13509

theorem half_valid : half.Valid where
  some := by decide
  positive := by decide
  slow := by decide
  rate := by decide
  unit := by decide
  short := by decide +kernel
  longs := by decide +kernel
  f := by decide +kernel
  g := by decide +kernel
  ends := by decide +kernel
  tail := by decide +kernel
  begins := by decide +kernel

/-- For the counter that starts a whole step away. -/
def whole : Certificate where
  extra := 2
  faces := [⟨309, 0⟩, ⟨195, 227⟩, ⟨76, 424⟩, ⟨-92, 592⟩, ⟨-185, 645⟩, ⟨-217, 659⟩, ⟨-261, 483⟩, ⟨-309, 187⟩]
  num := 1271
  den := 1000
  long := 3
  fUnit := 309
  gUnit := 500
  start := 500
  stopNum := 500000000
  stopDen := 1615441

theorem whole_valid : whole.Valid where
  some := by decide
  positive := by decide
  slow := by decide
  rate := by decide
  unit := by decide
  short := by decide +kernel
  longs := by decide +kernel
  f := by decide +kernel
  g := by decide +kernel
  ends := by decide +kernel
  tail := by decide +kernel
  begins := by decide +kernel

end Certificate

section
variable {s : DivState} (start : s.eta = -1) (positive : 0 < s.f) (modulus : s.f ≤ 2 ^ 256) (low : 0 ≤ s.g)
  (high : s.g ≤ s.f)

include start positive modulus low high

theorem divsteps_half : (divsteps 2 590 s).g = 0 :=
  Certificate.half_valid.divsteps_end rfl (by decide +kernel) start positive modulus low high

theorem divsteps_whole : (divsteps 1 744 s).g = 0 :=
  Certificate.whole_valid.divsteps_end rfl (by decide +kernel) start positive modulus low high

end

end BitcoinWasm.Numbers
