import BitcoinWasm.Encoding.Positional
import BitcoinWasm.Encoding.PrefixCode

/-! The byte format of script operations.

An opcode above `OP_PUSHDATA4` stands alone. Every other opcode pushes an
operand, whose length is the opcode itself or a little-endian field after it.
The bounds carried by an operation are exactly what its own form can express.
-/

set_option autoImplicit false

namespace BitcoinWasm.Script
open BitcoinWasm.Encoding

abbrev Bytes := List UInt8

def opPushdata1 : UInt8 := 0x4c
def opPushdata2 : UInt8 := 0x4d
def opPushdata4 : UInt8 := 0x4e
def opInvalidopcode : UInt8 := 0xff

/-- The explicit operand length fields. -/
inductive LengthField where
  | one
  | two
  | four
  deriving DecidableEq, Repr

def LengthField.opcode : LengthField → UInt8
  | .one => opPushdata1
  | .two => opPushdata2
  | .four => opPushdata4

def LengthField.width : LengthField → Nat
  | .one => 1
  | .two => 2
  | .four => 4

def LengthField.ofOpcode (opcode : UInt8) : LengthField :=
  if opcode = opPushdata1 then .one else if opcode = opPushdata2 then .two else .four

@[simp] theorem LengthField.ofOpcode_opcode (field : LengthField) : ofOpcode field.opcode = field := by
  cases field <;> rfl

theorem LengthField.opcode_ofOpcode {opcode : UInt8} (lower : ¬ opcode < opPushdata1)
    (upper : ¬ opPushdata4 < opcode) : (ofOpcode opcode).opcode = opcode := by
  have cases : opcode = opPushdata1 ∨ opcode = opPushdata2 ∨ opcode = opPushdata4 := by
    simp only [UInt8.lt_iff_toNat_lt, ← UInt8.toNat_inj] at lower upper ⊢
    simp only [opPushdata1, opPushdata2, opPushdata4, UInt8.reduceToNat] at lower upper ⊢
    omega
  rcases cases with rfl | rfl | rfl <;> rfl

inductive Operation where
  | plain (opcode : UInt8) (standalone : opPushdata4 < opcode)
  | direct (operand : Bytes) (bound : operand.length < opPushdata1.toNat)
  | sized (field : LengthField) (operand : Bytes) (bound : operand.length < 256 ^ field.width)
  deriving DecidableEq, Repr

namespace Operation

def opcode : Operation → UInt8
  | .plain opcode _ => opcode
  | .direct operand _ => UInt8.ofNat operand.length
  | .sized field _ _ => field.opcode

def operand : Operation → Bytes
  | .plain _ _ => []
  | .direct operand _ | .sized _ operand _ => operand

/-- What stands between the opcode and the operand. -/
def lengthBytes : Operation → Bytes
  | .plain _ _ | .direct _ _ => []
  | .sized field operand _ => wordLE field.width operand.length

def encode (operation : Operation) : Bytes :=
  operation.opcode :: (operation.lengthBytes ++ operation.operand)

def isPush (operation : Operation) : Prop := operation.opcode ≤ opPushdata4

instance (operation : Operation) : Decidable operation.isPush :=
  inferInstanceAs (Decidable (_ ≤ _))

theorem direct_opcode_toNat (operand : Bytes) (bound : operand.length < opPushdata1.toNat) :
    (direct operand bound).opcode.toNat = operand.length := by
  have small : operand.length < 76 := bound
  rw [opcode, UInt8.toNat_ofNat']
  omega

theorem direct_opcode_lt (operand : Bytes) (bound : operand.length < opPushdata1.toNat) :
    (direct operand bound).opcode < opPushdata1 := by
  rw [UInt8.lt_iff_toNat_lt, direct_opcode_toNat]
  exact bound

/-- Split an operand of a known length off the front of a stream. -/
def parseDirect (opcode : UInt8) (small : opcode < opPushdata1) (rest : Bytes) :
    Option (Operation × Bytes) :=
  if fits : opcode.toNat ≤ rest.length then
    some (.direct (rest.take opcode.toNat)
      (by rw [List.length_take_of_le fits]; exact UInt8.lt_iff_toNat_lt.mp small), rest.drop opcode.toNat)
  else none

def parseSized (field : LengthField) (rest : Bytes) : Option (Operation × Bytes) :=
  if whole : field.width ≤ rest.length then
    if fits : valueOfLE (rest.take field.width) ≤ (rest.drop field.width).length then
      some (.sized field ((rest.drop field.width).take (valueOfLE (rest.take field.width)))
          (by rw [List.length_take_of_le fits]
              simpa [List.length_take_of_le whole] using valueOfLE_lt (rest.take field.width)),
        (rest.drop field.width).drop (valueOfLE (rest.take field.width)))
    else none
  else none

def parse : Bytes → Option (Operation × Bytes)
  | [] => none
  | opcode :: rest =>
    if standalone : opPushdata4 < opcode then some (.plain opcode standalone, rest)
    else if small : opcode < opPushdata1 then parseDirect opcode small rest
    -- Three opcodes are left, each with a field of its own width.
    else parseSized (LengthField.ofOpcode opcode) rest

theorem parse_encode (operation : Operation) (rest : Bytes) :
    parse (operation.encode ++ rest) = some (operation, rest) := by
  cases operation with
  | plain opcode standalone => simp [encode, parse, Operation.opcode, lengthBytes, operand, standalone]
  | direct operand bound =>
    have small := direct_opcode_lt operand bound
    have length := direct_opcode_toNat operand bound
    have notPlain : ¬ opPushdata4 < (direct operand bound).opcode := by
      rw [UInt8.not_lt]
      exact UInt8.le_trans (UInt8.le_of_lt small) (by decide)
    simp only [encode, List.cons_append, parse, notPlain, small, dite_true, dite_false, parseDirect, length]
    simp [lengthBytes, Operation.operand]
  | sized field operand bound =>
    have notPlain : ¬ opPushdata4 < field.opcode := by cases field <;> decide
    have notDirect : ¬ field.opcode < opPushdata1 := by cases field <;> decide
    have field_length := wordLE_length field.width operand.length
    have front : (wordLE field.width operand.length ++ (operand ++ rest)).take field.width =
        wordLE field.width operand.length := List.take_left' field_length
    have back : (wordLE field.width operand.length ++ (operand ++ rest)).drop field.width =
        operand ++ rest := List.drop_left' field_length
    have value := valueOfLE_wordLE field.width operand.length bound
    simp only [encode, opcode, lengthBytes, Operation.operand, List.cons_append, List.append_assoc, parse,
      notPlain, notDirect, dite_false, LengthField.ofOpcode_opcode, parseSized, front, back, value]
    simp

theorem encode_of_parse {stream : Bytes} {operation : Operation} {rest : Bytes}
    (parsed : parse stream = some (operation, rest)) : stream = operation.encode ++ rest := by
  cases stream with
  | nil => cases parsed
  | cons opcode tail =>
    rw [parse] at parsed
    split at parsed
    next standalone =>
      cases parsed
      rfl
    next notPlain =>
      split at parsed
      next small =>
        unfold parseDirect at parsed
        split at parsed
        next fits =>
          cases parsed
          simp [encode, Operation.opcode, lengthBytes, operand, List.length_take_of_le fits]
        next => cases parsed
      next notDirect =>
        unfold parseSized at parsed
        split at parsed
        next whole =>
          split at parsed
          next fits =>
            cases parsed
            -- The field holds exactly the length that an encoder would write for the operand.
            have field := LengthField.opcode_ofOpcode notDirect notPlain
            have word := wordLE_valueOfLE (tail.take (LengthField.ofOpcode opcode).width)
            rw [List.length_take_of_le whole] at word
            simp only [encode, Operation.opcode, field, lengthBytes, operand, List.length_take_of_le fits, word,
              List.cons_append, List.append_assoc, List.take_append_drop]
          next => cases parsed
        next => cases parsed

theorem encode_ne_nil (operation : Operation) : operation.encode ≠ [] := List.cons_ne_nil _ _

end Operation

/-- Operations in a script follow each other without a frame. -/
def format : PrefixCode Operation UInt8 where
  encode := Operation.encode
  parse := Operation.parse
  parse_encode := Operation.parse_encode
  encode_of_parse := Operation.encode_of_parse
  encode_ne_nil := Operation.encode_ne_nil

end BitcoinWasm.Script
