import Mathlib.Data.Nat.Digits.Lemmas
import Mathlib.Algebra.Order.Ring.Nat

/-! Minimal little-endian sign-magnitude integers of unbounded width.

The sign is the top bit of the last byte. Zero is the empty string, and every
other integer gets the shortest string that denotes it.
-/

set_option autoImplicit false

namespace BitcoinWasm.Encoding.SignMagnitude

/-- Bytes of a magnitude whose last byte also carries the sign bit. -/
def signedBytes (negative : Bool) (magnitude : Nat) : List UInt8 :=
  -- The last byte has seven bits for the magnitude.
  if magnitude < 128 then [UInt8.ofNat (magnitude + if negative then 128 else 0)]
  else UInt8.ofNat magnitude :: signedBytes negative (magnitude / 256)
termination_by magnitude

def encode (value : Int) : List UInt8 :=
  if value = 0 then [] else signedBytes (decide (value < 0)) value.natAbs

/-- The sign bit and the magnitude of a byte string. -/
def parts : List UInt8 → Bool × Nat
  | [] => (false, 0)
  | [top] => (decide (128 ≤ top.toNat), top.toNat % 128)
  | byte :: rest => ((parts rest).1, byte.toNat + 256 * (parts rest).2)

def decode (bytes : List UInt8) : Int :=
  if (parts bytes).1 then -((parts bytes).2 : Int) else (parts bytes).2

theorem signedBytes_ne_nil (negative : Bool) (magnitude : Nat) : signedBytes negative magnitude ≠ [] := by
  unfold signedBytes
  split <;> simp

theorem parts_cons (byte : UInt8) (rest : List UInt8) (nonempty : rest ≠ []) :
    parts (byte :: rest) = ((parts rest).1, byte.toNat + 256 * (parts rest).2) := by
  cases rest with
  | nil => contradiction
  | cons next tail => rfl

theorem parts_signedBytes (negative : Bool) (magnitude : Nat) :
    parts (signedBytes negative magnitude) = (negative, magnitude) := by
  induction magnitude using signedBytes.induct with
  | case1 magnitude small =>
    rw [signedBytes, if_pos small, parts, UInt8.toNat_ofNat']
    cases negative with
    | false => simp; omega
    | true => simp; omega
  | case2 magnitude large ih =>
    rw [signedBytes, if_neg large, parts_cons _ _ (signedBytes_ne_nil _ _), ih, UInt8.toNat_ofNat']
    exact congrArg (Prod.mk negative) (Nat.mod_add_div magnitude 256)

@[simp] theorem encode_zero : encode 0 = [] := rfl

@[simp] theorem decode_encode (value : Int) : decode (encode value) = value := by
  unfold encode
  split
  next zero => simp [decode, parts, zero]
  next nonzero =>
    simp only [decode, parts_signedBytes, decide_eq_true_eq]
    split <;> omega

theorem map_decode_map_encode (values : List Int) : (values.map encode).map decode = values := by
  rw [List.map_map]
  conv_rhs => rw [← List.map_id values]
  exact List.map_congr_left fun value _ => decode_encode value

theorem signedBytes_length_le (negative : Bool) (magnitude width : Nat)
    (bounded : magnitude < 128 * 256 ^ width) : (signedBytes negative magnitude).length ≤ width + 1 := by
  induction width generalizing magnitude with
  | zero =>
    rw [signedBytes, if_pos (by simpa using bounded)]
    exact le_rfl
  | succ width ih =>
    unfold signedBytes
    split
    next => simp
    next =>
      have quotient : magnitude / 256 < 128 * 256 ^ width := by
        apply Nat.div_lt_of_lt_mul
        calc magnitude < 128 * 256 ^ (width + 1) := bounded
          _ = 256 * (128 * 256 ^ width) := by ring
      rw [List.length_cons]
      exact Nat.succ_le_succ (ih _ quotient)

/-- `width + 1` bytes are enough for every magnitude below the sign bit of the last one. -/
theorem encode_length_le (value : Int) (width : Nat) (bounded : value.natAbs < 128 * 256 ^ width) :
    (encode value).length ≤ width + 1 := by
  unfold encode
  split
  next => simp
  next => exact signedBytes_length_le _ _ _ bounded

theorem parts_lt (bytes : List UInt8) (nonempty : bytes ≠ []) :
    (parts bytes).2 < 128 * 256 ^ (bytes.length - 1) := by
  induction bytes with
  | nil => contradiction
  | cons byte rest ih =>
    cases rest with
    | nil => simpa [parts] using Nat.mod_lt byte.toNat (by decide : 0 < 128)
    | cons next tail =>
      have bounded := ih (by simp)
      have byteBounded : byte.toNat < 256 := byte.toNat_lt
      rw [parts_cons _ _ (by simp)]
      simp only [List.length_cons, Nat.add_sub_cancel] at bounded ⊢
      calc byte.toNat + 256 * (parts (next :: tail)).2
          < 256 * (128 * 256 ^ tail.length) := by omega
        _ = 128 * 256 ^ (tail.length + 1) := by ring

/-- No byte string denotes an integer with fewer bytes than its encoding. -/
theorem encode_minimal (bytes : List UInt8) : (encode (decode bytes)).length ≤ bytes.length := by
  cases bytes with
  | nil => simp [decode, parts]
  | cons byte rest =>
    have magnitude : (decode (byte :: rest)).natAbs = (parts (byte :: rest)).2 := by
      unfold decode
      split <;> simp
    -- What these bytes can denote is below the bound of the encoding with as many bytes.
    have bounded := parts_lt (byte :: rest) (by simp)
    rw [List.length_cons, Nat.add_sub_cancel] at bounded
    exact encode_length_le _ rest.length (magnitude ▸ bounded)

example : encode (-255) = [0xff, 0x80] := by simp [encode, signedBytes]

end BitcoinWasm.Encoding.SignMagnitude
