import BitcoinWasm.CLibrary.IntegerLiteral
import BitcoinWasm.Script.Library

/-! The assembler: from opcode names, numbers and hexadecimal data to a script. -/

set_option autoImplicit false

namespace BitcoinWasm.Bridge
open BitcoinWasm.Encoding BitcoinWasm.Script BitcoinWasm.CLibrary

variable (library : Library)

/-- The first opcode that has the name. -/
def opStringToOpCode (opName : Bytes) : UInt8 :=
  (((List.range 256).map UInt8.ofNat).find? fun opcode => library.getOpName opcode = opName).getD
    opInvalidopcode

/-- The C string in `minichar`: two letters behind `0x`, up to the first NUL. -/
def minichar (first second : UInt8) : Bytes :=
  [0x30, 0x78, first, second, 0].takeWhile (· ≠ 0)

/-- `(char)` of an `int`, pushed into a vector of `unsigned char`. -/
def charByte (value : Int) : UInt8 := (Int8.ofInt value).toUInt8

/-- The loop that fills `byteString`, from the letters still ahead of `i`. With
one letter left, `opcodeName[i + 1]` is the terminator. -/
def byteString : Bytes → Except StdException Bytes
  | [] => .ok []
  | [single] => do
    let c ← stoi (minichar single 0) 16
    return [charByte c]
  | first :: second :: rest => do
    let c ← stoi (minichar first second) 16
    let tail ← byteString rest
    return charByte c :: tail

/-- The first test of `encodeOp`. -/
def IsOpName (name : Bytes) : Prop :=
  2 ≤ name.length ∧ name[0]? = some 0x4f ∧ name[1]? = some 0x50

/-- The second test of `encodeOp`: more than 4 bytes is a data value. -/
def IsDataName (name : Bytes) : Prop :=
  10 < name.length ∧ name[0]? = some 0x30 ∧ name[1]? = some 0x58

instance (name : Bytes) : Decidable (IsOpName name) := inferInstanceAs (Decidable (_ ∧ _))

instance (name : Bytes) : Decidable (IsDataName name) := inferInstanceAs (Decidable (_ ∧ _))

def encodeOp (c : Bytes) (opcodeName : CString) : Except StdException Bytes :=
  if 0 < opcodeName.chars.length then
    if IsOpName opcodeName.chars then
      let opcode := opStringToOpCode library opcodeName.chars
      if opcode ≠ opInvalidopcode then .ok (library.pushOpcode c opcode)
      -- "BAD opcode" is printed, and nothing else happens.
      else .ok c
    else if IsDataName opcodeName.chars then do
      let bytes ← byteString (opcodeName.chars.drop 2)
      return library.pushVector c bytes
    else do
      let num ← stoi opcodeName.chars 0
      return library.pushNum c num
  else .ok c

/-- The loop of `stringCompile` over the tokens, starting from an empty script. -/
def encodeOps (opcodeNames : List CString) : Except StdException Bytes :=
  opcodeNames.foldlM (encodeOp library) []

/-! ## What each part does -/

theorem IsOpName.not_data {name : Bytes} (op : IsOpName name) : ¬ IsDataName name := by
  rintro ⟨-, zero, -⟩
  have letters := op.2.1.symm.trans zero
  exact absurd letters (by decide)

/-- The search returns an opcode of the name, if there is one. -/
theorem opStringToOpCode_named {opName : Bytes} {opcode : UInt8} (named : library.getOpName opcode = opName) :
    library.getOpName (opStringToOpCode library opName) = opName := by
  unfold opStringToOpCode
  cases found : ((List.range 256).map UInt8.ofNat).find? fun opcode => library.getOpName opcode = opName with
  | some first => simpa using List.find?_some found
  | none =>
    rw [List.find?_eq_none] at found
    have listed : opcode ∈ (List.range 256).map UInt8.ofNat :=
      List.mem_map.mpr ⟨opcode.toNat, List.mem_range.mpr opcode.toNat_lt, UInt8.ofNat_toNat⟩
    exact absurd (decide_eq_true named) (found opcode listed)

theorem opStringToOpCode_unique {opName : Bytes} {opcode : UInt8} (named : library.getOpName opcode = opName)
    (unique : ∀ other, library.getOpName other = opName → other = opcode) :
    opStringToOpCode library opName = opcode :=
  unique _ (opStringToOpCode_named library named)

theorem opStringToOpCode_unnamed {opName : Bytes} (unnamed : ∀ opcode, library.getOpName opcode ≠ opName) :
    opStringToOpCode library opName = opInvalidopcode := by
  have nothing : ((List.range 256).map UInt8.ofNat).find? (fun opcode => library.getOpName opcode = opName) =
      none := by
    rw [List.find?_eq_none]
    intro opcode _
    simpa using unnamed opcode
  rw [opStringToOpCode, nothing]
  rfl

theorem encodeOp_empty (c : Bytes) {opcodeName : CString} (empty : opcodeName.chars = []) :
    encodeOp library c opcodeName = .ok c := by
  simp [encodeOp, empty]

theorem encodeOp_op (c : Bytes) {opcodeName : CString} (op : IsOpName opcodeName.chars) :
    encodeOp library c opcodeName =
      .ok (if opStringToOpCode library opcodeName.chars ≠ opInvalidopcode then
        library.pushOpcode c (opStringToOpCode library opcodeName.chars) else c) := by
  have nonempty : 0 < opcodeName.chars.length := Nat.lt_of_lt_of_le (by decide) op.1
  simp only [encodeOp, if_pos nonempty, if_pos op]
  split <;> rfl

/-- A name without an opcode adds nothing. -/
theorem encodeOp_unnamed (c : Bytes) {opcodeName : CString} (op : IsOpName opcodeName.chars)
    (unnamed : ∀ opcode, library.getOpName opcode ≠ opcodeName.chars) : encodeOp library c opcodeName = .ok c := by
  rw [encodeOp_op library c op, opStringToOpCode_unnamed library unnamed]
  rfl

theorem encodeOp_data (c : Bytes) {opcodeName : CString} (data : IsDataName opcodeName.chars) :
    encodeOp library c opcodeName =
      (byteString (opcodeName.chars.drop 2)).map (library.pushVector c) := by
  have nonempty : 0 < opcodeName.chars.length := Nat.lt_of_le_of_lt (Nat.zero_le _) data.1
  have notOp : ¬ IsOpName opcodeName.chars := fun op => op.not_data data
  simp only [encodeOp, if_pos nonempty, if_neg notOp, if_pos data]
  cases byteString (opcodeName.chars.drop 2) <;> rfl

theorem encodeOp_number (c : Bytes) {opcodeName : CString} (nonempty : opcodeName.chars ≠ [])
    (notOp : ¬ IsOpName opcodeName.chars) (notData : ¬ IsDataName opcodeName.chars) :
    encodeOp library c opcodeName = (stoi opcodeName.chars 0).map (library.pushNum c) := by
  simp only [encodeOp, if_pos (List.length_pos_iff.mpr nonempty), if_neg notOp, if_neg notData]
  cases stoi opcodeName.chars 0 <;> rfl

/-! ## The data loop -/

theorem minichar_pair {first second : UInt8} (firstSet : first ≠ 0) (secondSet : second ≠ 0) :
    minichar first second = [0x30, 0x78, first, second] := by
  simp [minichar, firstSet, secondSet]

theorem minichar_single {single : UInt8} (set : single ≠ 0) :
    minichar single 0 = [0x30, 0x78, single] := by
  simp [minichar, set]

theorem isDigit_ne_zero {base : Nat} (small : base ≤ 36) {letter : UInt8} (digit : isDigit base letter) :
    letter ≠ 0 := by
  rintro rfl
  have value : digitValue 0 = 255 := rfl
  simp only [isDigit, value, decide_eq_true_eq] at digit
  omega

/-- The bytes that pairs of hexadecimal digits denote; a single last digit is one byte. -/
def hexBytes (digits : Bytes) : Bytes :=
  (pairDigits 16 (digits.map digitValue)).map UInt8.ofNat

theorem hexBytes_length (digits : Bytes) : (hexBytes digits).length = (digits.length + 1) / 2 := by
  rw [hexBytes, List.length_map, pairDigits_length, List.length_map]

theorem hexBytes_single (single : UInt8) : hexBytes [single] = [UInt8.ofNat (digitsValue 16 [single])] := by
  simp [hexBytes, pairDigits, digitsValue, numeral]

theorem hexBytes_pair (first second : UInt8) (rest : Bytes) : hexBytes (first :: second :: rest) =
    UInt8.ofNat (digitsValue 16 [first, second]) :: hexBytes rest := by
  have value : digitsValue 16 [first, second] = digitValue first * 16 + digitValue second := by
    simp [digitsValue, numeral]
  rw [value]
  rfl

theorem byteString_hex (digits : Bytes) (hex : ∀ letter ∈ digits, isDigit 16 letter) :
    byteString digits = .ok (hexBytes digits) := by
  induction digits using byteString.induct with
  | case1 => rfl
  | case2 single =>
    -- The last digit has no partner: `minichar` ends behind it, and it is a byte of its own.
    have digit := hex single (by simp)
    have parsed := stoi_hex [single] (by simp)
    rw [List.takeWhile_eq_self_iff.mpr hex] at parsed
    rw [byteString, minichar_single (isDigit_ne_zero (by decide) digit), parsed, hexBytes_single]
    rfl
  | case3 first second rest ih =>
    have firstDigit := hex first (by simp)
    have secondDigit := hex second (by simp)
    have others := ih fun letter member => hex letter (by simp [member])
    have parsed := stoi_hex [first, second] (by simp)
    rw [List.takeWhile_eq_self_iff.mpr (by simp [firstDigit, secondDigit])] at parsed
    rw [byteString, minichar_pair (isDigit_ne_zero (by decide) firstDigit)
      (isDigit_ne_zero (by decide) secondDigit), parsed, others, hexBytes_pair]
    rfl

/-- The data loop throws on no text: `stoi` reads a pair without digits as 0. -/
theorem byteString_total (letters : Bytes) (noNul : 0 ∉ letters) : ∃ bytes, byteString letters = .ok bytes := by
  induction letters using byteString.induct with
  | case1 => exact ⟨[], rfl⟩
  | case2 single =>
    have set : single ≠ 0 := fun zero => noNul (by simp [zero])
    rw [byteString, minichar_single set, stoi_hex [single] (by simp)]
    exact ⟨_, rfl⟩
  | case3 first second rest ih =>
    have firstSet : first ≠ 0 := fun zero => noNul (by simp [zero])
    have secondSet : second ≠ 0 := fun zero => noNul (by simp [zero])
    obtain ⟨bytes, others⟩ := ih fun member => noNul (by simp [member])
    rw [byteString, minichar_pair firstSet secondSet, stoi_hex [first, second] (by simp), others]
    exact ⟨_, rfl⟩

end BitcoinWasm.Bridge
