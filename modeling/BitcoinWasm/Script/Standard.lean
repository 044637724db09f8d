import BitcoinWasm.CLibrary.Stoi
import BitcoinWasm.Script.Library

/-! A script library that meets every assumption.

Reading and appending follow the byte format, names are the usual ones, and
evaluation is limited to scripts of pushes. It shows that the assumptions can
hold together, and gives the concrete runs their library.
-/

set_option autoImplicit false

namespace BitcoinWasm.Script.Standard
open BitcoinWasm.Encoding BitcoinWasm.CLibrary

def getOp (pc : Bytes) : GetOp :=
  match Operation.parse pc with
  | some (operation, rest) => ⟨true, operation.opcode, operation.operand, rest⟩
  | none => ⟨false, opInvalidopcode, [], afterHeader pc⟩

def pushVector (script operand : Bytes) : Bytes :=
  if addressable : operand.length < 2 ^ 32 then script ++ format.encode (.pushOf operand addressable)
  else script

/-- Names from `OP_PUSHDATA1` on, in the order of their opcodes. -/
def names : List String :=
  ["OP_PUSHDATA1", "OP_PUSHDATA2", "OP_PUSHDATA4", "-1", "OP_RESERVED", "1", "2", "3", "4", "5", "6", "7",
    "8", "9", "10", "11", "12", "13", "14", "15", "16", "OP_NOP", "OP_VER", "OP_IF", "OP_NOTIF",
    "OP_VERIF", "OP_VERNOTIF", "OP_ELSE", "OP_ENDIF", "OP_VERIFY", "OP_RETURN", "OP_TOALTSTACK",
    "OP_FROMALTSTACK", "OP_2DROP", "OP_2DUP", "OP_3DUP", "OP_2OVER", "OP_2ROT", "OP_2SWAP", "OP_IFDUP",
    "OP_DEPTH", "OP_DROP", "OP_DUP", "OP_NIP", "OP_OVER", "OP_PICK", "OP_ROLL", "OP_ROT", "OP_SWAP",
    "OP_TUCK", "OP_CAT", "OP_SUBSTR", "OP_LEFT", "OP_RIGHT", "OP_SIZE", "OP_INVERT", "OP_AND", "OP_OR",
    "OP_XOR", "OP_EQUAL", "OP_EQUALVERIFY", "OP_RESERVED1", "OP_RESERVED2", "OP_1ADD", "OP_1SUB",
    "OP_2MUL", "OP_2DIV", "OP_NEGATE", "OP_ABS", "OP_NOT", "OP_0NOTEQUAL", "OP_ADD", "OP_SUB", "OP_MUL",
    "OP_DIV", "OP_MOD", "OP_LSHIFT", "OP_RSHIFT", "OP_BOOLAND", "OP_BOOLOR", "OP_NUMEQUAL",
    "OP_NUMEQUALVERIFY", "OP_NUMNOTEQUAL", "OP_LESSTHAN", "OP_GREATERTHAN", "OP_LESSTHANOREQUAL",
    "OP_GREATERTHANOREQUAL", "OP_MIN", "OP_MAX", "OP_WITHIN", "OP_RIPEMD160", "OP_SHA1", "OP_SHA256",
    "OP_HASH160", "OP_HASH256", "OP_CODESEPARATOR", "OP_CHECKSIG", "OP_CHECKSIGVERIFY",
    "OP_CHECKMULTISIG", "OP_CHECKMULTISIGVERIFY", "OP_NOP1", "OP_CHECKLOCKTIMEVERIFY",
    "OP_CHECKSEQUENCEVERIFY", "OP_NOP4", "OP_NOP5", "OP_NOP6", "OP_NOP7", "OP_NOP8", "OP_NOP9", "OP_NOP10"]

def getOpName (opcode : UInt8) : Bytes :=
  if opcode = 0x00 then ascii "0"
  else if opcode = opInvalidopcode then ascii "OP_INVALIDOPCODE"
  else if opcode < opPushdata1 then ascii "OP_UNKNOWN"
  else ascii (names.getD (opcode.toNat - opPushdata1.toNat) "OP_UNKNOWN")

theorem format_parse : format.parse = Operation.parse := rfl

theorem getOp_encode_append (operation : Operation) (rest : Bytes) :
    getOp (format.encode operation ++ rest) = ⟨true, operation.opcode, operation.operand, rest⟩ := by
  have parsed := format.parse_encode operation rest
  rw [format_parse] at parsed
  simp only [getOp, parsed]

theorem getOp_stuck {pc : Bytes} (truncated : format.Truncated pc) :
    getOp pc = ⟨false, opInvalidopcode, [], afterHeader pc⟩ := by
  have parsed := truncated.2
  rw [format_parse] at parsed
  simp only [getOp, parsed]

theorem afterHeader_advances (pc : Bytes) (more : pc ≠ []) : (afterHeader pc).length < pc.length := by
  obtain ⟨opcode, rest, rfl⟩ := List.exists_cons_of_ne_nil more
  rw [afterHeader]
  split
  next => simp
  next =>
    split
    next => rw [List.length_drop, List.length_cons]; omega
    next => simp

theorem getOp_advances (pc : Bytes) (more : pc ≠ []) : (getOp pc).pc.length < pc.length := by
  cases parsed : format.parse pc with
  | none =>
    rw [getOp_stuck ⟨more, parsed⟩]
    exact afterHeader_advances pc more
  | some result =>
    obtain ⟨operation, rest⟩ := result
    rw [format.encode_of_parse parsed, getOp_encode_append]
    have positive := List.length_pos_iff.mpr (format.encode_ne_nil operation)
    change rest.length < (format.encode operation ++ rest).length
    rw [List.length_append]
    omega

/-- `EvalScript` on a script of pushes within its limits; other scripts fail here. -/
def evalScript (script : Bytes) : Bool × List Bytes :=
  match parseAll script.length script with
  | some operations =>
    if (∀ operation ∈ operations, operation.isPush ∧ operation.operand.length ≤ 520) ∧
        operations.length ≤ 1000 ∧ script.length ≤ 10000 then (true, operations.map Operation.operand)
    else (false, [])
  | none => (false, [])
where
  parseAll : Nat → Bytes → Option (List Operation)
    | _, [] => some []
    | 0, _ :: _ => none
    | steps + 1, pc => do
      let (operation, rest) ← Operation.parse pc
      let operations ← parseAll steps rest
      return operation :: operations

theorem parseAll_encodeAll (operations : List Operation) (steps : Nat)
    (enough : (format.encodeAll operations).length ≤ steps) :
    evalScript.parseAll steps (format.encodeAll operations) = some operations := by
  induction operations generalizing steps with
  | nil => cases steps <;> rfl
  | cons operation rest ih =>
    have parsed := format.parse_encode operation (format.encodeAll rest)
    rw [format_parse] at parsed
    have positive := List.length_pos_iff.mpr (format.encode_ne_nil operation)
    rw [PrefixCode.encodeAll_cons] at enough ⊢
    rw [List.length_append] at enough
    obtain ⟨first, tail, shape⟩ := List.exists_cons_of_ne_nil
      (format.encode_append_ne_nil operation (format.encodeAll rest))
    cases steps with
    | zero => omega
    | succ steps =>
      have restParsed := ih steps (by omega)
      rw [shape] at parsed ⊢
      simp only [evalScript.parseAll, parsed, Option.bind_eq_bind, Option.bind_some, restParsed, Option.pure_def]

def library : Library where
  getOp := getOp
  getOp_advances := getOp_advances
  pushOpcode script opcode := script ++ [opcode]
  pushVector := pushVector
  pushNum script value := pushVector script (SignMagnitude.encode value)
  getOpName := getOpName
  evalScript := evalScript

theorem readsFormat : library.ReadsFormat where
  getOp_encode := getOp_encode_append
  getOp_truncated pc truncated := by
    have stuck : library.getOp pc = _ := getOp_stuck truncated
    rw [stuck]
    exact ⟨rfl, rfl⟩

theorem appendsFormat : library.AppendsFormat where
  pushOpcode_eq _ _ := rfl
  pushVector_eq _ _ addressable := dif_pos addressable
  pushNum_eq _ _ _ _ := rfl

theorem evaluatesPushes : library.EvaluatesPushes where
  evalScript_pushes operations pushes few short := by
    have parsed := parseAll_encodeAll operations _ le_rfl
    change evalScript (format.encodeAll operations) = _
    rw [evalScript, parsed]
    exact if_pos ⟨pushes, few, short⟩

/-- Look a name up among all 256 opcodes. -/
theorem getOpName_unique (name : Bytes) (opcode : UInt8)
    (listed : ∀ value : Fin 256, getOpName (UInt8.ofNat value) = name → value = opcode.toNat) (other : UInt8)
    (named : library.getOpName other = name) : other = opcode := by
  apply UInt8.toNat_inj.mp
  apply listed ⟨other.toNat, other.toNat_lt⟩
  rw [UInt8.ofNat_toNat]
  exact named

end BitcoinWasm.Script.Standard
