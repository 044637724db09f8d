import Mathlib
import BitcoinWasm.Numbers.Primality
import BitcoinWasm.Secp256k1.Field

/-! The characteristic of the field is a prime number. -/

set_option autoImplicit false

namespace BitcoinWasm.Secp256k1
open BitcoinWasm.Numbers

theorem prime_58 : Nat.Prime 173378833005251801 := by
  apply prime_of_lucasTest 6 58 [2, 2, 2, 5, 5, 2621, 24809, 13331831]
  · simp only [List.forall_mem_cons, List.not_mem_nil, false_imp_iff, implies_true, and_true]
    norm_num
  · decide +kernel

theorem prime_75 : Nat.Prime 22149492674086928081353 := by
  apply prime_of_lucasTest 5 75 [2, 2, 2, 3, 5323, 173378833005251801]
  · simp only [List.forall_mem_cons, List.not_mem_nil, false_imp_iff, implies_true, and_true, prime_58]
    norm_num
  · decide +kernel

theorem prime_77 : Nat.Prime 132896956044521568488119 := by
  apply prime_of_lucasTest 6 77 [2, 3, 22149492674086928081353]
  · simp only [List.forall_mem_cons, List.not_mem_nil, false_imp_iff, implies_true, and_true, prime_75]
    norm_num
  · decide +kernel

theorem prime_128 : Nat.Prime 255515944373312847190720520512484175977 := by
  apply prime_of_lucasTest 3 128 [2, 2, 2, 7, 7, 11, 1627, 2657, 4423, 41201, 96557, 7240687, 107590001]
  · simp only [List.forall_mem_cons, List.not_mem_nil, false_imp_iff, implies_true, and_true]
    norm_num
  · decide +kernel

theorem prime_237 : Nat.Prime 205115282021455665897114700593932402728804164701536103180137503955397371 := by
  apply prime_of_lucasTest 10 237
    [2, 3, 5, 29, 29, 31, 7723, 132896956044521568488119, 255515944373312847190720520512484175977]
  · simp only [List.forall_mem_cons, List.not_mem_nil, false_imp_iff, implies_true, and_true, prime_77, prime_128]
    norm_num
  · decide +kernel

theorem p_prime : p.Prime := by
  unfold p
  apply prime_of_lucasTest 3 256
    [2, 3, 7, 13441, 205115282021455665897114700593932402728804164701536103180137503955397371]
  · simp only [List.forall_mem_cons, List.not_mem_nil, false_imp_iff, implies_true, and_true, prime_237]
    norm_num
  · decide +kernel

end BitcoinWasm.Secp256k1
