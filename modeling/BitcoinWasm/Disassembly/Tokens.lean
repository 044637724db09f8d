import BitcoinWasm.Disassembly.RoundTrip
import BitcoinWasm.Disassembly.Text

/-! From tokens to the rows of their script.

What `scriptToString` loses is still in the rows of `decompile`: there is one for
every token that is not blank, and it tells the opcode and the operand, as long as
no data is too long for a row.
-/

set_option autoImplicit false

namespace BitcoinWasm.Disassembly
open BitcoinWasm.Encoding BitcoinWasm.Script BitcoinWasm.CLibrary BitcoinWasm.Bridge BitcoinWasm.Assembly

/-- The bytes behind a length byte are an operation of the token. -/
def Shows (token : Token) (copied : Bytes) : Prop :=
  ∃ opcode operand, copied = opcode :: operand ∧ token.Reads (opcode, operand)

variable {library : Library}

/-- The operation of a token fits its row, unless it is data that does not. -/
theorem spelled_fits {texts : List CString} {tokens : List Token}
    (spelled : List.Forall₂ (Spells library) texts tokens)
    (short : ∀ bytes, .data bytes ∈ tokens → bytes.length ≤ 254) :
    ∀ token ∈ tokens, ∀ operation : Operation, token.Reads (operation.opcode, operation.operand) →
      Fits operation.operand := by
  induction spelled with
  | nil => simp
  | @cons text token texts tokens first rest ih =>
    rw [List.forall_mem_cons]
    constructor
    · intro operation reads
      by_cases data : ∃ bytes, token = .data bytes
      · obtain ⟨bytes, rfl⟩ := data
        have operand : operation.operand = bytes := reads.of_data
        exact operand ▸ short bytes List.mem_cons_self
      · have bound := spelled_operand first (fun bytes same => data ⟨bytes, same⟩) reads
        exact Nat.le_trans bound (by decide)
    · exact ih fun bytes member => short bytes (List.mem_cons_of_mem token member)

/-- One row for every token that is not blank, in order. -/
theorem rows_of_reads {tokens : List Token} {operations : List Operation}
    (read : List.Forall₂ Token.Reads tokens
      (operations.map fun operation => (operation.opcode, operation.operand)))
    (fits : ∀ token ∈ tokens, ∀ operation : Operation, token.Reads (operation.opcode, operation.operand) →
      Fits operation.operand) :
    List.Forall₂ Shows tokens ((operations.map operationRow).map SizedRow.copied) := by
  rw [List.forall₂_map_right_iff] at read
  rw [List.map_map, List.forall₂_map_right_iff]
  apply ((List.forall₂_and_left tokens operations).mpr ⟨fits, read⟩).imp
  intro token operation ⟨fit, reads⟩
  exact ⟨operation.opcode, operation.operand, operationRow_copied_of_fits (fit operation reads), reads⟩

theorem decompile_of_spelled (reads : library.ReadsFormat) (appends : library.AppendsFormat) (scripts : Scripts)
    (small : scripts.length < 2 ^ 32) {texts : List CString} {tokens : List Token}
    (spelled : List.Forall₂ (Spells library) texts tokens)
    (short : ∀ bytes, .data bytes ∈ tokens → bytes.length ≤ 254) :
    ∃ idx registered code rows, stringCompile library scripts texts = (.ok idx, registered) ∧
      decompile library registered idx = .ok code ∧ code.rows = some rows ∧
      List.Forall₂ Shows (tokens.filter (· ≠ .blank)) (rows.map SizedRow.copied) := by
  obtain ⟨operations, read, _, encoded⟩ := encodeOps_spelled appends spelled
  have found := scriptAt_concat scripts (format.encodeAll operations) small
  refine ⟨_, _, _, operations.map operationRow, stringCompile_of_encoded encoded scripts,
    decompile_encodeAll reads found, rows_zipIdx _, ?_⟩
  apply rows_of_reads read
  intro token member
  exact spelled_fits spelled short token (List.mem_of_mem_filter member)

theorem decompile_of_spelled_demo :
    ∃ idx registered code rows, stringCompile Standard.library [] demo = (.ok idx, registered) ∧
      decompile Standard.library registered idx = .ok code ∧ code.rows = some rows ∧
      List.Forall₂ Shows demoTokens (rows.map SizedRow.copied) :=
  decompile_of_spelled Standard.readsFormat Standard.appendsFormat [] (by decide) demo_spelled
    (by simp [demoTokens])

end BitcoinWasm.Disassembly
