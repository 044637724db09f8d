import BitcoinWasm.Bridge.Disassembler
import BitcoinWasm.Script.Standard

/-! From the rows of a script back to its bytes.

A row keeps the opcode and as much of the operand as its length byte can count.
Up to 254 bytes of operand nothing is lost, and the form of the push is known
from the opcode. Above that the row is too short, and no other row makes up for it.
-/

set_option autoImplicit false

namespace BitcoinWasm.Disassembly
open BitcoinWasm.Encoding BitcoinWasm.Script BitcoinWasm.CLibrary BitcoinWasm.Bridge

/-- Write an operation again from the bytes behind the length byte of its row. -/
def reencodeRow (row : SizedRow) : Option Bytes :=
  match row.copied with
  | [] => none
  | opcode :: operand =>
    if opPushdata4 < opcode then some [opcode]
    else if opcode < opPushdata1 then some (opcode :: operand)
    else some (opcode :: (wordLE (LengthField.ofOpcode opcode).width operand.length ++ operand))

def reencode : List SizedRow → Option Bytes
  | [] => some []
  | row :: rows => do
    let front ← reencodeRow row
    let back ← reencode rows
    return front ++ back

/-- The operand is short enough for a length byte that also counts the opcode. -/
def Fits (operand : Bytes) : Prop := operand.length ≤ 254

theorem operationRow_copied (operation : Operation) : (operationRow operation).copied =
    (operation.opcode :: operation.operand).take ((operation.operand.length + 1) % 256) := by
  simp only [operationRow, strvecToSizedCharPtr, UInt8.toNat_ofNat', List.length_cons]

theorem operationRow_copied_of_fits {operation : Operation} (fits : Fits operation.operand) :
    (operationRow operation).copied = operation.opcode :: operation.operand := by
  have small : operation.operand.length ≤ 254 := fits
  rw [operationRow_copied, Nat.mod_eq_of_lt (by omega)]
  exact List.take_of_length_le (by simp)

theorem reencodeRow_of_fits {operation : Operation} (fits : Fits operation.operand) :
    reencodeRow (operationRow operation) = some (format.encode operation) := by
  have copied := operationRow_copied_of_fits fits
  simp only [reencodeRow, copied]
  cases operation with
  | plain opcode standalone =>
    change (if opPushdata4 < opcode then some [opcode] else _) = some [opcode]
    exact if_pos standalone
  | direct operand bound =>
    have small := Operation.direct_opcode_lt operand bound
    have notPlain : ¬ opPushdata4 < (Operation.direct operand bound).opcode :=
      UInt8.not_lt.mpr (Operation.direct_isPush operand bound)
    rw [if_neg notPlain, if_pos small]
    rfl
  | sized field operand bound =>
    have notPlain : ¬ opPushdata4 < field.opcode := UInt8.not_lt.mpr (Operation.sized_isPush field operand bound)
    have notDirect : ¬ field.opcode < opPushdata1 := by cases field <;> decide
    simp only [Operation.opcode, notPlain, notDirect, if_false, LengthField.ofOpcode_opcode]
    rfl

/-- Only a push with an explicit length field can carry more than a row can hold. -/
theorem sized_of_not_fits {operation : Operation} (long : ¬ Fits operation.operand) :
    ∃ field operand bound, operation = .sized field operand bound := by
  cases operation with
  | plain opcode standalone => exact absurd (Nat.zero_le 254) long
  | direct operand bound =>
    have small : operand.length < 76 := bound
    exact absurd (show operand.length ≤ 254 by omega) long
  | sized field operand bound => exact ⟨field, operand, bound, rfl⟩

theorem reencodeRow_shorter {operation : Operation} (long : ¬ Fits operation.operand) {bytes : Bytes}
    (written : reencodeRow (operationRow operation) = some bytes) :
    bytes.length < (format.encode operation).length := by
  obtain ⟨field, operand, bound, rfl⟩ := sized_of_not_fits long
  have large : ¬ operand.length ≤ 254 := long
  have notPlain : ¬ opPushdata4 < field.opcode := UInt8.not_lt.mpr (Operation.sized_isPush field operand bound)
  have notDirect : ¬ field.opcode < opPushdata1 := by cases field <;> decide
  rw [reencodeRow, operationRow_copied] at written
  simp only [Operation.operand, Operation.opcode] at written
  -- The length byte counts modulo 256: no bytes at all, or the opcode and part of the operand.
  cases counted : (operand.length + 1) % 256 with
  | zero =>
    rw [counted] at written
    cases written
  | succ kept =>
    rw [counted] at written
    simp only [List.take_succ_cons, notPlain, notDirect, if_false, LengthField.ofOpcode_opcode,
      Option.some.injEq] at written
    have lost : kept < operand.length := by
      have := Nat.mod_lt (operand.length + 1) (by decide : 0 < 256)
      omega
    subst written
    change _ < (field.opcode :: (wordLE field.width operand.length ++ operand)).length
    simp only [List.length_cons, List.length_append, wordLE_length, List.length_take]
    omega

theorem reencode_of_fits (operations : List Operation)
    (fits : ∀ operation ∈ operations, Fits operation.operand) :
    reencode (operations.map operationRow) = some (format.encodeAll operations) := by
  induction operations with
  | nil => rfl
  | cons operation rest ih =>
    have first := reencodeRow_of_fits (fits operation (by simp))
    have others := ih fun other member => fits other (by simp [member])
    simp only [List.map_cons, reencode, first, others]
    rfl

/-- Rows never grow a script, and a row that lost bytes shrinks it. -/
theorem reencode_length (operations : List Operation) {bytes : Bytes}
    (written : reencode (operations.map operationRow) = some bytes) :
    bytes.length ≤ (format.encodeAll operations).length ∧
      ((∃ operation ∈ operations, ¬ Fits operation.operand) →
        bytes.length < (format.encodeAll operations).length) := by
  induction operations generalizing bytes with
  | nil =>
    cases written
    simp
  | cons operation rest ih =>
    simp only [List.map_cons, reencode, Option.bind_eq_bind, Option.bind_eq_some_iff, Option.pure_def,
      Option.some.injEq] at written
    obtain ⟨front, frontWritten, back, backWritten, rfl⟩ := written
    obtain ⟨backBound, backShort⟩ := ih backWritten
    simp only [PrefixCode.encodeAll_cons, List.length_append]
    -- A short row is not made up for: the rows behind it are never longer than their operations.
    by_cases fits : Fits operation.operand
    · rw [reencodeRow_of_fits fits, Option.some.injEq] at frontWritten
      subst frontWritten
      refine ⟨by omega, ?_⟩
      rintro ⟨other, member, long⟩
      rcases List.mem_cons.mp member with rfl | member
      · exact absurd fits long
      · have := backShort ⟨other, member, long⟩
        omega
    · have := reencodeRow_shorter fits frontWritten
      exact ⟨by omega, fun _ => by omega⟩

theorem reencode_eq_iff (operations : List Operation) :
    reencode (operations.map operationRow) = some (format.encodeAll operations) ↔
      ∀ operation ∈ operations, Fits operation.operand := by
  constructor
  · intro written operation member
    by_contra long
    have short := (reencode_length operations written).2 ⟨operation, member, long⟩
    exact absurd short (Nat.lt_irrefl _)
  · exact reencode_of_fits operations

variable {library : Library}

theorem disassembly_lossless_iff (reads : library.ReadsFormat) (scripts : Scripts)
    (small : scripts.length < 2 ^ 32) (script : Bytes) (steps : List (UInt8 × Bytes))
    (walked : library.walk script = some steps) :
    ∃ code rows, disassemble library scripts script = .ok code ∧ code.rows = some rows ∧
      (reencode rows = some script ↔ ∀ step ∈ steps, step.2.length ≤ 254) ∧
      ((∀ step ∈ steps, step.2.length ≤ 254) → code.len = steps.length ∧
        ∀ otherScripts other otherSteps otherCode, otherScripts.length < 2 ^ 32 →
          library.walk other = some otherSteps → (∀ step ∈ otherSteps, step.2.length ≤ 254) →
          disassemble library otherScripts other = .ok otherCode →
          script ≠ other → otherCode.rows ≠ some rows) := by
  obtain ⟨operations, rfl, rfl⟩ := reads.walk_eq_some walked
  have shortIff : ∀ operations : List Operation,
      (∀ step ∈ operations.map fun operation => (operation.opcode, operation.operand), step.2.length ≤ 254) ↔
        ∀ operation ∈ operations, Fits operation.operand := by
    intro operations
    simp [Fits]
  refine ⟨_, _, disassemble_encodeAll reads scripts small operations, rows_zipIdx _,
    (reencode_eq_iff operations).trans (shortIff operations).symm, ?_⟩
  intro short
  refine ⟨by simp, ?_⟩
  intro otherScripts other otherSteps otherCode otherSmall otherWalked otherShort returned different same
  obtain ⟨otherOperations, rfl, rfl⟩ := reads.walk_eq_some otherWalked
  rw [disassemble_encodeAll reads otherScripts otherSmall, Except.ok.injEq] at returned
  subst returned
  -- Equal rows write the same script, and each of the two scripts is what its rows write.
  rw [rows_zipIdx, Option.some.injEq] at same
  have written := reencode_of_fits operations ((shortIff operations).mp short)
  have otherWritten := reencode_of_fits otherOperations ((shortIff otherOperations).mp otherShort)
  rw [same, written, Option.some.injEq] at otherWritten
  exact different otherWritten

/-- A non-minimal push keeps its form. -/
theorem disassembly_lossless_nonminimal :
    ∃ code rows, disassemble Standard.library [] [0x4c, 0x01, 0xaa] = .ok code ∧ code.rows = some rows ∧
      reencode rows = some [0x4c, 0x01, 0xaa] := by
  have walked : Standard.library.walk [0x4c, 0x01, 0xaa] = some [(0x4c, [0xaa])] :=
    Standard.readsFormat.walk_encodeAll [.sized .one [0xaa] (by decide)]
  obtain ⟨code, rows, returned, stored, lossless, -⟩ :=
    disassembly_lossless_iff Standard.readsFormat [] (by decide) [0x4c, 0x01, 0xaa] _ walked
  exact ⟨code, rows, returned, stored, lossless.mpr (by simp)⟩

end BitcoinWasm.Disassembly
