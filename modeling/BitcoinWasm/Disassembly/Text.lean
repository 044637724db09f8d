import BitcoinWasm.Assembly.Meaning

/-! The text that a caller of `scriptToString` reads.

`scriptToString` returns the first row of a disassembly, and its caller takes
the pointer for a C string. A row starts with its length byte, and the row of a
name or of an `int` is shorter than any letter of a token is large.
-/

set_option autoImplicit false

namespace BitcoinWasm.Disassembly
open BitcoinWasm.Encoding BitcoinWasm.Script BitcoinWasm.CLibrary BitcoinWasm.Bridge BitcoinWasm.Assembly

/-- The C string at a row, with `behind` in memory after the bytes that were written. -/
def asCString (row : SizedRow) (behind : Bytes) : Bytes :=
  (row.vsize :: (row.copied ++ behind)).takeWhile (· ≠ 0)

/-- The tokens, separated by single spaces. -/
def joined (texts : List CString) : Bytes := List.intercalate [0x20] (texts.map CString.chars)

/-- The text of the script that the tokens compile to is the tokens again. -/
def TextUndoes (library : Library) (scripts : Scripts) (texts : List CString) (behind : Bytes) : Prop :=
  ∃ idx registered row, stringCompile library scripts texts = (.ok idx, registered) ∧
    scriptToString library registered idx = .ok (some row) ∧ asCString row behind = joined texts

theorem joined_cons (text : CString) (rest : List CString) : ∃ tail, joined (text :: rest) = text.chars ++ tail := by
  cases rest with
  | nil => exact ⟨[], by simp [joined]⟩
  | cons next rest =>
    refine ⟨[0x20] ++ joined (next :: rest), ?_⟩
    simp only [joined, List.map_cons, List.intercalate_cons_cons, List.append_assoc]

variable {library : Library}

/-- The text of a name or a number starts with a letter from `-` on. -/
theorem spelled_head {text : CString} {token : Token} (spelled : Spells library text token)
    (notBlank : token ≠ .blank) (notData : ∀ bytes, token ≠ .data bytes) :
    ∃ first rest, text.chars = first :: rest ∧ 0x2d ≤ first := by
  cases spelled with
  | blank => contradiction
  | opcode op =>
    obtain ⟨first, rest, shape⟩ := List.exists_cons_of_length_pos (Nat.lt_of_lt_of_le (by decide) op.1)
    have letter : first = 0x4f := by simpa [shape] using op.2.1
    exact ⟨first, rest, shape, letter ▸ by decide⟩
  | @number value decimal =>
    obtain ⟨first, rest, shape⟩ := List.exists_cons_of_ne_nil (decimalText_ne_nil value)
    refine ⟨first, rest, decimal.trans shape, ?_⟩
    rcases decimalText_letters value first (by simp [shape]) with rfl | digit
    · decide
    · have lower := (isDigit_ten.mp digit).1
      apply UInt8.le_iff_toNat_le.mpr
      simp only [UInt8.reduceToNat]
      omega
  | data => exact absurd rfl (notData _)

/-- The operand of a name or a number has at most five bytes. -/
theorem spelled_operand {text : CString} {token : Token} (spelled : Spells library text token)
    (notData : ∀ bytes, token ≠ .data bytes) {step : UInt8 × Bytes} (reads : token.Reads step) :
    step.2.length ≤ 5 := by
  cases reads with
  | opcode => simp
  | number =>
    cases spelled with
    | number _ fits => exact encode_length_of_fitsInt fits
  | data => exact absurd rfl (notData _)

/-- `scriptToString` shows the first operation, whatever follows it. -/
theorem scriptToString_encodeAll (reads : library.ReadsFormat) (scripts : Scripts)
    (small : scripts.length < 2 ^ 32) (operations : List Operation) :
    scriptToString library (scripts ++ [format.encodeAll operations]) (Int32.ofNat scripts.length) =
      .ok (operations.map operationRow)[0]? := by
  simp only [scriptToString, decompile_lastIndex library scripts _ small, fillLines_encodeAll reads]
  exact congrArg Except.ok (line?_zipIdx _ _ 0)

/-- The row of an operation with a short operand reads as a text with a control
character in front. -/
theorem asCString_operationRow {operation : Operation} (short : operation.operand.length ≤ 5) (behind : Bytes) :
    ∃ first rest, asCString (operationRow operation) behind = first :: rest ∧ first ≤ 6 := by
  have length : (operationRow operation).vsize.toNat = operation.operand.length + 1 := by
    simp only [operationRow, strvecToSizedCharPtr, List.length_cons, UInt8.toNat_ofNat']
    omega
  have set : (operationRow operation).vsize ≠ 0 := by
    intro zero
    rw [zero] at length
    cases length
  -- The length byte is not the terminator, so the text starts with it.
  refine ⟨_, _, List.takeWhile_cons_of_pos (by simpa using set), ?_⟩
  apply UInt8.le_iff_toNat_le.mpr
  simp only [UInt8.reduceToNat]
  omega

/-- Whatever is in memory behind it, the row of the first operation is not the text of the tokens. -/
theorem asCString_ne_joined {texts : List CString} {tokens : List Token} (nonempty : texts ≠ [])
    (spelled : List.Forall₂ (Spells library) texts tokens) (noBlank : .blank ∉ tokens)
    (noData : ∀ bytes, .data bytes ∉ tokens) {operations : List Operation}
    (read : List.Forall₂ Token.Reads (tokens.filter (· ≠ .blank))
      (operations.map fun operation => (operation.opcode, operation.operand))) :
    ∃ operation others, operations = operation :: others ∧
      ∀ behind, asCString (operationRow operation) behind ≠ joined texts := by
  cases spelled with
  | nil => exact absurd rfl nonempty
  | @cons text token texts tokens first rest =>
    have notBlank : token ≠ .blank := fun blank => noBlank (by simp [blank])
    have notData : ∀ bytes, token ≠ .data bytes := fun bytes data => noData bytes (by simp [data])
    rw [List.filter_cons_of_pos (by simpa using notBlank)] at read
    cases operations with
    | nil => cases read
    | cons operation others =>
      refine ⟨operation, others, rfl, ?_⟩
      intro behind same
      -- The length byte cannot be the first letter of the first token.
      have short := spelled_operand first notData (List.forall₂_cons.mp read).1
      obtain ⟨length, _, shape, small⟩ := asCString_operationRow short behind
      obtain ⟨letter, _, chars, large⟩ := spelled_head first notBlank notData
      obtain ⟨tail, joins⟩ := joined_cons text texts
      rw [shape, joins, chars, List.cons_append, List.cons.injEq] at same
      rw [same.1] at small
      exact absurd (UInt8.le_trans large small) (by decide)

theorem text_never_undoes (reads : library.ReadsFormat) (appends : library.AppendsFormat) (scripts : Scripts)
    (small : scripts.length < 2 ^ 32) (texts : List CString) (tokens : List Token)
    (nonempty : texts ≠ []) (spelled : List.Forall₂ (Spells library) texts tokens)
    (noBlank : .blank ∉ tokens) (noData : ∀ bytes, .data bytes ∉ tokens) (behind : Bytes) :
    ¬ TextUndoes library scripts texts behind := by
  intro ⟨idx, registered, row, compiled, shown, same⟩
  obtain ⟨operations, read, _, encoded⟩ := encodeOps_spelled appends spelled
  obtain ⟨operation, others, rfl, differs⟩ := asCString_ne_joined nonempty spelled noBlank noData read
  rw [stringCompile_of_encoded encoded scripts] at compiled
  cases compiled
  rw [scriptToString_encodeAll reads scripts small, Except.ok.injEq] at shown
  cases shown
  exact differs behind same

theorem text_never_undoes_demo : ¬ TextUndoes Standard.library [] demo [0] :=
  text_never_undoes Standard.readsFormat Standard.appendsFormat [] (by decide) demo
    demoTokens (by decide) demo_spelled (by decide) (by simp [demoTokens]) [0]

theorem demo_encoded : encodeOps Standard.library demo =
    .ok (format.encodeAll [.direct [1] (by decide), .direct [2] (by decide), .plain 0x93 (by decide)]) := by
  decide +kernel

/-- Only the first push is shown, as its length, its opcode and its operand. -/
theorem demo_text : ∃ registered row, stringCompile Standard.library [] demo = (.ok 0, registered) ∧
    scriptToString Standard.library registered 0 = .ok (some row) ∧ asCString row [0] = [2, 1, 1] ∧
    joined demo = ascii "1 2 OP_ADD" ∧ ¬ TextUndoes Standard.library [] demo [0] := by
  have compiled := stringCompile_of_encoded demo_encoded []
  have shown := scriptToString_encodeAll Standard.readsFormat [] (by decide)
    [.direct [1] (by decide), .direct [2] (by decide), .plain 0x93 (by decide)]
  refine ⟨_, _, compiled, shown, rfl, rfl, ?_⟩
  intro ⟨idx, registered, row, compiledAgain, shownAgain, same⟩
  rw [compiled] at compiledAgain
  cases compiledAgain
  rw [shown] at shownAgain
  cases shownAgain
  exact absurd same (by decide)

end BitcoinWasm.Disassembly
