import BitcoinWasm.Encoding.SignMagnitude
import BitcoinWasm.Script.Operation

/-! The script library the bridge is linked against, as a parameter.

`CScript`, `GetOpName` and `EvalScript` are not part of this repository. The
bridge is modelled over any functions in their place; what it relies on is
stated in the three assumption structures below, one for each kind of use.
-/

set_option autoImplicit false

namespace BitcoinWasm.Script
open BitcoinWasm.Encoding

/-- What a call of `GetOp` leaves behind: its result, both out parameters, and
the moved iterator, given as the bytes it still has to read. -/
structure GetOp where
  found : Bool
  opcode : UInt8
  vch : Bytes
  pc : Bytes
  deriving DecidableEq, Repr

structure Library where
  getOp : Bytes → GetOp
  /-- `GetOp` consumes at least the opcode byte, also when it fails. -/
  getOp_advances : ∀ pc, pc ≠ [] → (getOp pc).pc.length < pc.length
  /-- `CScript::operator<<(opcodetype)`. -/
  pushOpcode : Bytes → UInt8 → Bytes
  /-- `CScript::operator<<(std::vector<unsigned char>)`. -/
  pushVector : Bytes → Bytes → Bytes
  /-- `CScript::operator<<(CScriptNum)`. -/
  pushNum : Bytes → Int → Bytes
  getOpName : UInt8 → Bytes
  /-- `EvalScript` on an empty stack: its result and the stack it leaves, bottom first. -/
  evalScript : Bytes → Bool × List Bytes

/-- The shortest push of an operand. -/
def Operation.pushOf (operand : Bytes) (addressable : operand.length < 2 ^ 32) : Operation :=
  if short : operand.length < opPushdata1.toNat then .direct operand short
  else if one : operand.length < 256 ^ LengthField.one.width then .sized .one operand one
  else if two : operand.length < 256 ^ LengthField.two.width then .sized .two operand two
  else .sized .four operand addressable

@[simp] theorem Operation.pushOf_operand (operand : Bytes) (addressable : operand.length < 2 ^ 32) :
    (pushOf operand addressable).operand = operand := by
  unfold pushOf
  split
  next => rfl
  next =>
    split
    next => rfl
    next => split <;> rfl

theorem Operation.direct_isPush (operand : Bytes) (bound : operand.length < opPushdata1.toNat) :
    (direct operand bound).isPush :=
  UInt8.le_trans (UInt8.le_of_lt (direct_opcode_lt operand bound)) (by decide)

theorem Operation.sized_isPush (field : LengthField) (operand : Bytes)
    (bound : operand.length < 256 ^ field.width) : (sized field operand bound).isPush := by
  cases field <;> simp [isPush, opcode, LengthField.opcode, opPushdata1, opPushdata2, opPushdata4]

theorem Operation.pushOf_isPush (operand : Bytes) (addressable : operand.length < 2 ^ 32) :
    (pushOf operand addressable).isPush := by
  unfold pushOf
  split
  next => exact direct_isPush _ _
  next =>
    split
    next => exact sized_isPush _ _ _
    next => split <;> exact sized_isPush _ _ _

/-- Where a failing `GetOp` leaves the iterator: behind the opcode byte and
behind the length field, if the script still holds all of it. -/
def afterHeader : Bytes → Bytes
  | [] => []
  | opcode :: rest =>
    if opcode < opPushdata1 then rest
    else if (LengthField.ofOpcode opcode).width ≤ rest.length then
      rest.drop (LengthField.ofOpcode opcode).width
    else rest

namespace Library

variable (library : Library)

/-- `GetOp` reads the byte format, and reports an operation that the script ends within. -/
structure ReadsFormat : Prop where
  getOp_encode : ∀ (operation : Operation) (rest : Bytes), library.getOp (format.encode operation ++ rest) =
    ⟨true, operation.opcode, operation.operand, rest⟩
  getOp_truncated : ∀ pc, format.Truncated pc →
    (library.getOp pc).found = false ∧ (library.getOp pc).pc = afterHeader pc

/-- The three `operator<<` append to a script; vectors and numbers become shortest pushes. -/
structure AppendsFormat : Prop where
  pushOpcode_eq : ∀ script opcode, library.pushOpcode script opcode = script ++ [opcode]
  pushVector_eq : ∀ script operand (addressable : operand.length < 2 ^ 32),
    library.pushVector script operand = script ++ format.encode (.pushOf operand addressable)
  pushNum_eq : ∀ script (value : Int), -2 ^ 31 ≤ value → value < 2 ^ 31 →
    library.pushNum script value = library.pushVector script (SignMagnitude.encode value)

/-- `EvalScript` on pushes within the script, stack and element limits. -/
structure EvaluatesPushes : Prop where
  evalScript_pushes : ∀ operations : List Operation,
    (∀ operation ∈ operations, operation.isPush ∧ operation.operand.length ≤ 520) →
    operations.length ≤ 1000 → (format.encodeAll operations).length ≤ 10000 →
    library.evalScript (format.encodeAll operations) = (true, operations.map Operation.operand)

/-- Read a script with `GetOp` to its end: each opcode with its operand, or
nothing if some call fails. -/
def walk (pc : Bytes) : Option (List (UInt8 × Bytes)) :=
  if pc ≠ [] then
    if (library.getOp pc).found then
      (walk (library.getOp pc).pc).map (((library.getOp pc).opcode, (library.getOp pc).vch) :: ·)
    else none
  else some []
termination_by pc.length
decreasing_by exact library.getOp_advances pc ‹_›

@[simp] theorem walk_nil : library.walk [] = some [] := by
  rw [walk]
  simp

variable {library} (reads : library.ReadsFormat)
include reads

theorem ReadsFormat.walk_encode_append (operation : Operation) (rest : Bytes) :
    library.walk (format.encode operation ++ rest) =
      (library.walk rest).map ((operation.opcode, operation.operand) :: ·) := by
  rw [walk, if_pos (format.encode_append_ne_nil operation rest), reads.getOp_encode]
  rfl

theorem ReadsFormat.walk_truncated {tail : Bytes} (truncated : format.Truncated tail) :
    library.walk tail = none := by
  rw [walk, if_pos truncated.1, (reads.getOp_truncated tail truncated).1]
  rfl

theorem ReadsFormat.walk_encodeAll (operations : List Operation) :
    library.walk (format.encodeAll operations) =
      some (operations.map fun operation => (operation.opcode, operation.operand)) := by
  induction operations with
  | nil => exact library.walk_nil
  | cons operation rest ih =>
    rw [PrefixCode.encodeAll_cons, reads.walk_encode_append, ih]
    rfl

/-- A script that `GetOp` reads to its end is a concatenation of operations. -/
theorem ReadsFormat.walk_eq_some {script : Bytes} {steps : List (UInt8 × Bytes)}
    (walked : library.walk script = some steps) :
    ∃ operations, script = format.encodeAll operations ∧
      steps = operations.map fun operation => (operation.opcode, operation.operand) := by
  induction script using format.stream_induction generalizing steps with
  | ended => exact ⟨[], rfl, by simpa using walked.symm⟩
  | word operation rest ih =>
    rw [reads.walk_encode_append] at walked
    obtain ⟨tail, restWalked, rfl⟩ := Option.map_eq_some_iff.mp walked
    obtain ⟨operations, rfl, rfl⟩ := ih restWalked
    exact ⟨operation :: operations, rfl, rfl⟩
  | truncated tail stuck =>
    rw [reads.walk_truncated stuck] at walked
    cases walked

end Library

end BitcoinWasm.Script
