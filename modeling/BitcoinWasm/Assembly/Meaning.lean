import BitcoinWasm.Bridge.Disassembler
import BitcoinWasm.Script.Standard

/-! What the tokens of the assembler mean, and that scripts say so.

Operations are appended to a stream without frames. Each token of the language
adds one whole operation or nothing, whatever the script before it is, so a
reader finds the operations of all tokens at their own boundaries.
-/

set_option autoImplicit false

namespace BitcoinWasm.Assembly
open BitcoinWasm.Encoding BitcoinWasm.Script BitcoinWasm.CLibrary BitcoinWasm.Bridge

inductive Token where
  | blank
  | opcode (opcode : UInt8)
  | number (value : Int)
  | data (bytes : Bytes)
  deriving DecidableEq

/-- The texts of the assembler's language, with their meaning. -/
inductive Spells (library : Library) : CString → Token → Prop where
  | blank {text : CString} : text.chars = [] → Spells library text .blank
  | opcode {text : CString} {opcode : UInt8} : IsOpName text.chars →
      library.getOpName opcode = text.chars →
      (∀ other, library.getOpName other = text.chars → other = opcode) →
      0x4f ≤ opcode → opcode ≤ 0xfe → Spells library text (.opcode opcode)
  | number {text : CString} {value : Int} : text.chars = decimalText value → FitsInt value →
      Spells library text (.number value)
  | data {text : CString} {digits : Bytes} : text.chars = 0x30 :: 0x58 :: digits →
      Even digits.length → 10 ≤ digits.length → (∀ letter ∈ digits, isDigit 16 letter) →
      Spells library text (.data (hexBytes digits))

/-- A step of `GetOp`, as the opcode and the operand it reads, carries out the token. -/
inductive Token.Reads : Token → UInt8 × Bytes → Prop where
  | opcode {opcode : UInt8} : Reads (.opcode opcode) (opcode, [])
  | number {value : Int} {opcode : UInt8} : opcode ≤ opPushdata4 →
      Reads (.number value) (opcode, SignMagnitude.encode value)
  | data {bytes : Bytes} {opcode : UInt8} : opcode ≤ opPushdata4 → Reads (.data bytes) (opcode, bytes)

theorem Token.Reads.of_number {value : Int} {step : UInt8 × Bytes} (reads : Token.Reads (.number value) step) :
    step.1 ≤ opPushdata4 ∧ step.2 = SignMagnitude.encode value := by
  cases reads with
  | number push => exact ⟨push, rfl⟩

theorem Token.Reads.of_data {bytes : Bytes} {step : UInt8 × Bytes} (reads : Token.Reads (.data bytes) step) :
    step.2 = bytes := by
  cases reads with
  | data => rfl

theorem decimalText_not_op (value : Int) : ¬ IsOpName (decimalText value) := by
  rintro ⟨-, letter, -⟩
  rcases decimalText_letters value _ (List.mem_of_getElem? letter) with sign | digit
  · cases sign
  · cases digit

theorem decimalText_not_data (value : Int) : ¬ IsDataName (decimalText value) := by
  rintro ⟨-, -, letter⟩
  rcases decimalText_letters value _ (List.mem_of_getElem? letter) with sign | digit
  · cases sign
  · cases digit

/-- An `int` takes at most five bytes. -/
theorem encode_length_of_fitsInt {value : Int} (fits : FitsInt value) :
    (SignMagnitude.encode value).length ≤ 5 := by
  obtain ⟨lower, upper⟩ := fits
  apply SignMagnitude.encode_length_le value 4
  omega

theorem hexBytes_addressable {text : CString} {digits : Bytes} (shape : text.chars = 0x30 :: 0x58 :: digits) :
    (hexBytes digits).length < 2 ^ 32 := by
  have bound := text.addressable
  rw [shape] at bound
  simp only [List.length_cons] at bound
  rw [hexBytes_length]
  omega

section
variable {library : Library} (appends : library.AppendsFormat)
include appends

theorem encodeOp_opcode {text : CString} {opcode : UInt8} (op : IsOpName text.chars)
    (named : library.getOpName opcode = text.chars)
    (unique : ∀ other, library.getOpName other = text.chars → other = opcode)
    (valid : opcode ≠ opInvalidopcode) (c : Bytes) : encodeOp library c text = .ok (c ++ [opcode]) := by
  rw [encodeOp_op library c op, opStringToOpCode_unique library named unique, if_pos valid, appends.pushOpcode_eq]

theorem encodeOp_decimal {text : CString} {value : Int} (decimal : text.chars = decimalText value)
    (fits : FitsInt value) (addressable : (SignMagnitude.encode value).length < 2 ^ 32) (c : Bytes) :
    encodeOp library c text =
      .ok (c ++ format.encode (.pushOf (SignMagnitude.encode value) addressable)) := by
  have nonempty : text.chars ≠ [] := decimal ▸ decimalText_ne_nil value
  have notOp : ¬ IsOpName text.chars := decimal ▸ decimalText_not_op value
  have notData : ¬ IsDataName text.chars := decimal ▸ decimalText_not_data value
  rw [encodeOp_number library c nonempty notOp notData, decimal,
    (decimalText_literal value).stoi fits, Except.map, appends.pushNum_eq c value fits.1 fits.2,
    appends.pushVector_eq c _ addressable]

theorem encodeOp_hex {text : CString} {digits : Bytes} (shape : text.chars = 0x30 :: 0x58 :: digits)
    (long : 8 < digits.length) (hex : ∀ letter ∈ digits, isDigit 16 letter)
    (addressable : (hexBytes digits).length < 2 ^ 32) (c : Bytes) :
    encodeOp library c text = .ok (c ++ format.encode (.pushOf (hexBytes digits) addressable)) := by
  have data : IsDataName text.chars := by
    rw [shape]
    refine ⟨?_, rfl, rfl⟩
    simp only [List.length_cons]
    omega
  rw [encodeOp_data library c data, shape]
  change (byteString digits).map (library.pushVector c) = _
  rw [byteString_hex digits hex, Except.map, appends.pushVector_eq c _ addressable]

/-- A token that is not blank adds one operation, the same one behind every script. -/
theorem encodeOp_spelled {text : CString} {token : Token} (spelled : Spells library text token) :
    (token = .blank ∧ ∀ c, encodeOp library c text = .ok c) ∨
      (token ≠ .blank ∧ ∃ operation : Operation, token.Reads (operation.opcode, operation.operand) ∧
        ∀ c, encodeOp library c text = .ok (c ++ format.encode operation)) := by
  cases spelled with
  | blank empty => exact .inl ⟨rfl, fun c => encodeOp_empty library c empty⟩
  | @opcode opcode op named unique lower upper =>
    -- Above the pushes an opcode is an operation of its own.
    have standalone : opPushdata4 < opcode := UInt8.lt_of_lt_of_le (by decide) lower
    have valid : opcode ≠ opInvalidopcode := by
      rintro rfl
      exact absurd upper (by decide)
    exact .inr ⟨Token.noConfusion, .plain opcode standalone, .opcode,
      encodeOp_opcode appends op named unique valid⟩
  | @number value decimal fits =>
    have addressable : (SignMagnitude.encode value).length < 2 ^ 32 :=
      Nat.lt_of_le_of_lt (encode_length_of_fitsInt fits) (by decide)
    refine .inr ⟨Token.noConfusion, .pushOf _ addressable, ?_, encodeOp_decimal appends decimal fits addressable⟩
    rw [Operation.pushOf_operand]
    exact .number (Operation.pushOf_isPush _ addressable)
  | @data digits shape even long hex =>
    have addressable := hexBytes_addressable shape
    refine .inr ⟨Token.noConfusion, .pushOf _ addressable, ?_,
      encodeOp_hex appends shape (by omega) hex addressable⟩
    rw [Operation.pushOf_operand]
    exact .data (Operation.pushOf_isPush _ addressable)

/-- The run of the loop: the operations of the tokens, behind the script it started from. -/
theorem foldlM_spelled {texts : List CString} {tokens : List Token}
    (spelled : List.Forall₂ (Spells library) texts tokens) :
    ∃ operations : List Operation,
      List.Forall₂ Token.Reads (tokens.filter (· ≠ .blank))
        (operations.map fun operation => (operation.opcode, operation.operand)) ∧
      operations.length = (texts.filter (·.chars ≠ [])).length ∧
      ∀ c, texts.foldlM (encodeOp library) c = .ok (c ++ format.encodeAll operations) := by
  induction spelled with
  | nil =>
    refine ⟨[], .nil, rfl, fun c => ?_⟩
    rw [PrefixCode.encodeAll_nil, List.append_nil]
    rfl
  | @cons text token texts tokens first rest ih =>
    obtain ⟨operations, read, count, encoded⟩ := ih
    have emptyIff : text.chars = [] ↔ token = .blank := by
      cases first with
      | blank empty => simp [empty]
      | opcode op => simp [List.ne_nil_of_length_pos (Nat.lt_of_lt_of_le (by decide) op.1)]
      | number decimal => simp [decimal, decimalText_ne_nil]
      | data shape => simp [shape]
    -- The token either leaves the script alone or puts one operation in front of the rest.
    rcases encodeOp_spelled appends first with ⟨rfl, kept⟩ | ⟨notBlank, operation, reads, added⟩
    · refine ⟨operations, by simpa using read, ?_, ?_⟩
      · simpa [emptyIff.mpr rfl] using count
      · intro c
        rw [List.foldlM_cons, kept]
        exact encoded c
    · refine ⟨operation :: operations, ?_, ?_, ?_⟩
      · simpa [notBlank] using List.Forall₂.cons reads read
      · simpa [emptyIff, notBlank] using count
      · intro c
        rw [List.foldlM_cons, added, PrefixCode.encodeAll_cons, ← List.append_assoc]
        exact encoded _

theorem encodeOps_spelled {texts : List CString} {tokens : List Token}
    (spelled : List.Forall₂ (Spells library) texts tokens) :
    ∃ operations : List Operation,
      List.Forall₂ Token.Reads (tokens.filter (· ≠ .blank))
        (operations.map fun operation => (operation.opcode, operation.operand)) ∧
      operations.length = (texts.filter (·.chars ≠ [])).length ∧
      encodeOps library texts = .ok (format.encodeAll operations) := by
  obtain ⟨operations, read, count, encoded⟩ := foldlM_spelled appends spelled
  exact ⟨operations, read, count, encoded []⟩

end

variable {library : Library}

theorem assembler_meaning (reads : library.ReadsFormat) (appends : library.AppendsFormat)
    (scripts : Scripts) (texts : List CString) (tokens : List Token)
    (spelled : List.Forall₂ (Spells library) texts tokens) :
    ∃ script steps,
      stringCompile library scripts texts = (.ok (Int32.ofNat scripts.length), scripts ++ [script]) ∧
      library.walk script = some steps ∧
      List.Forall₂ Token.Reads (tokens.filter (· ≠ .blank)) steps ∧
      scriptCount library script = (texts.filter (·.chars ≠ [])).length := by
  obtain ⟨operations, read, count, encoded⟩ := encodeOps_spelled appends spelled
  refine ⟨_, _, stringCompile_of_encoded encoded scripts, reads.walk_encodeAll operations, read, ?_⟩
  rw [scriptCount_encodeAll reads, count]

/-- The tokens of the demo, whose script is documented to print as `1 2 OP_ADD`. -/
def demo : List CString := [.literal "1", .literal "2", .literal "OP_ADD"]

def demoTokens : List Token := [.number 1, .number 2, .opcode 0x93]

theorem demo_spelled : List.Forall₂ (Spells Standard.library) demo demoTokens := by
  have unique := Standard.getOpName_unique (ascii "OP_ADD") 0x93 (by decide +kernel)
  refine .cons ?_ (.cons ?_ (.cons ?_ .nil))
  · exact .number (by decide) (by decide)
  · exact .number (by decide) (by decide)
  · exact .opcode (by decide) (by decide) unique (by decide) (by decide)

theorem assembler_meaning_demo :
    ∃ script steps, stringCompile Standard.library [] demo = (.ok 0, [script]) ∧
      Standard.library.walk script = some steps ∧ List.Forall₂ Token.Reads demoTokens steps ∧
      scriptCount Standard.library script = 3 :=
  assembler_meaning Standard.readsFormat Standard.appendsFormat [] demo demoTokens demo_spelled

end BitcoinWasm.Assembly
