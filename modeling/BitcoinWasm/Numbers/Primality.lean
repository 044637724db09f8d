import Mathlib.NumberTheory.LucasPrimality
import Mathlib.Data.List.Prime

/-! The test of Lucas, as a function to evaluate.

A number is prime if some element has the order of the whole multiplicative group.
The test takes the prime factors of that order and raises the element to as many
powers, each by repeated squaring.
-/

set_option autoImplicit false

namespace BitcoinWasm.Numbers

/-- A power modulo `n`. The exponent has at most `bits` bits. -/
def powMod (n a : Nat) : Nat → Nat → Nat
  | 0, _ => 1 % n
  | bits + 1, e =>
    let square := powMod n a bits (e / 2)
    if e % 2 = 1 then square * square % n * a % n else square * square % n

theorem powMod_eq (n a bits e : Nat) (fits : e < 2 ^ bits) : powMod n a bits e = a ^ e % n := by
  induction bits generalizing e with
  | zero =>
    have zero : e = 0 := by omega
    rw [zero, powMod, pow_zero]
  | succ bits ih =>
    have half : e / 2 < 2 ^ bits := by omega
    have square : a ^ (e / 2) % n * (a ^ (e / 2) % n) % n = a ^ (2 * (e / 2)) % n := by
      rw [← Nat.mul_mod, two_mul, pow_add]
    rw [powMod, ih _ half, square]
    split
    · next odd =>
      have whole : e = 2 * (e / 2) + 1 := by omega
      rw [Nat.mod_mul_mod, ← pow_succ, ← whole]
    · next even =>
      have whole : e = 2 * (e / 2) := by omega
      rw [← whole]

/-- The test of `n` with the element `a`. The factors are those of `n - 1`, with repetitions. -/
def lucasTest (n a bits : Nat) (factors : List Nat) : Bool :=
  1 < n && n ≤ 2 ^ bits && factors.prod + 1 == n && powMod n a bits (n - 1) == 1 &&
    factors.all fun q => powMod n a bits ((n - 1) / q) != 1

theorem cast_pow_eq_one_iff {n : Nat} (large : 1 < n) (a e : Nat) : (a : ZMod n) ^ e = 1 ↔ a ^ e % n = 1 := by
  have one : 1 % n = 1 := Nat.mod_eq_of_lt large
  rw [← Nat.cast_pow, ← Nat.cast_one, ZMod.natCast_eq_natCast_iff, Nat.ModEq, one]

theorem prime_of_lucasTest {n : Nat} (a bits : Nat) (factors : List Nat) (primes : ∀ q ∈ factors, q.Prime)
    (passes : lucasTest n a bits factors = true) : n.Prime := by
  simp only [lucasTest, Bool.and_eq_true, decide_eq_true_eq, beq_iff_eq, List.all_eq_true, bne_iff_ne] at passes
  obtain ⟨⟨⟨⟨large, fits⟩, product⟩, whole⟩, proper⟩ := passes
  have power : ∀ e, e ≤ n - 1 → (powMod n a bits e = 1 ↔ (a : ZMod n) ^ e = 1) := by
    intro e le
    rw [powMod_eq n a bits e (by omega), cast_pow_eq_one_iff large]
  apply lucas_primality n (a : ZMod n) ((power _ le_rfl).mp whole)
  intro q prime divides
  -- A prime that divides the product is one of the factors.
  have listed : q ∈ factors := by
    have order : n - 1 = factors.prod := by omega
    rw [order] at divides
    exact mem_list_primes_of_dvd_prod prime.prime (fun r member => (primes r member).prime) divides
  exact fun one => proper q listed ((power _ (Nat.div_le_self ..)).mpr one)

end BitcoinWasm.Numbers
