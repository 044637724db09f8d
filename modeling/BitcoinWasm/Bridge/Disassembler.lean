import BitcoinWasm.Bridge.Registry

/-! The disassembler: a row of bytes for every operation of a registered script.

`decompile` walks a script twice, once to count its operations and once to
store a row for each. The stores are recorded in the order they are made, with
the index each one goes to, whatever the size of the array is.
-/

set_option autoImplicit false

namespace BitcoinWasm.Bridge
open BitcoinWasm.Encoding BitcoinWasm.Script BitcoinWasm.CLibrary

/-- The buffer of `vsize + 2` bytes that `strvecToSizedCharPtr` returns: the
length byte and the copied bytes. The byte behind them is never written. -/
structure SizedRow where
  vsize : UInt8
  copied : Bytes
  copied_length : copied.length = vsize.toNat
  deriving DecidableEq

def strvecToSizedCharPtr (strvec : Bytes) : SizedRow where
  vsize := UInt8.ofNat strvec.length
  copied := strvec.take (UInt8.ofNat strvec.length).toNat
  copied_length := by
    rw [List.length_take, UInt8.toNat_ofNat']
    exact Nat.min_eq_left (Nat.mod_le _ _)

structure Codeout where
  len : Int
  /-- The stores `code->lines[i] = row`. -/
  lines : List (SizedRow × Nat)
  deriving DecidableEq

/-- What the caller finds at `lines[i]`: the row stored there last, if any was. -/
def Codeout.line? (code : Codeout) (i : Nat) : Option SizedRow :=
  (code.lines.reverse.find? fun store => store.2 = i).map Prod.fst

/-- The first `len` rows, unless one of them was never stored. -/
def Codeout.rows (code : Codeout) : Option (List SizedRow) :=
  (List.range code.len.toNat).mapM code.line?

variable (library : Library)

def scriptCountFrom (pc : Bytes) (count : Int) : Int :=
  if pc ≠ [] then
    if (library.getOp pc).found then scriptCountFrom (library.getOp pc).pc (count + 1)
    else -1
  else count
termination_by pc.length
decreasing_by exact library.getOp_advances pc ‹_›

def scriptCount (c : Bytes) : Int := scriptCountFrom library c 0

/-- The loop of `decompile`. The index grows in every step, also in one that stores nothing. -/
def fillLines (pc : Bytes) (i : Nat) : List (SizedRow × Nat) :=
  if pc ≠ [] then
    -- A failure is printed, and the walk goes on from where `GetOp` stopped.
    if !(library.getOp pc).found then fillLines (library.getOp pc).pc (i + 1)
    else
      let vch := ((library.getOp pc).vch.reverse ++ [(library.getOp pc).opcode]).reverse
      (strvecToSizedCharPtr vch, i) :: fillLines (library.getOp pc).pc (i + 1)
  else []
termination_by pc.length
decreasing_by all_goals exact library.getOp_advances pc ‹_›

def decompile (scripts : Scripts) (idx : Int32) : Except StdException Codeout := do
  let c ← scriptAt scripts idx
  return ⟨scriptCount library c, fillLines library c 0⟩

/-- `code->lines[0]`, which is an unset pointer when nothing was stored there. -/
def scriptToString (scripts : Scripts) (idx : Int32) : Except StdException (Option SizedRow) := do
  let code ← decompile library scripts idx
  return code.line? 0

/-- Register bytes and decompile them at the index that was handed out. -/
def disassemble (scripts : Scripts) (scriptBytes : Bytes) : Except StdException Codeout :=
  decompile library (byteCompile scripts scriptBytes).2 (byteCompile scripts scriptBytes).1

theorem decompile_lastIndex (scripts : Scripts) (c : Bytes) (small : scripts.length < 2 ^ 32) :
    decompile library (scripts ++ [c]) (Int32.ofNat scripts.length) =
      .ok ⟨scriptCount library c, fillLines library c 0⟩ := by
  have found := scriptAt_concat scripts c small
  simp only [decompile, found]
  rfl

theorem disassemble_eq (scripts : Scripts) (scriptBytes : Bytes) (small : scripts.length < 2 ^ 32) :
    disassemble library scripts scriptBytes =
      .ok ⟨scriptCount library scriptBytes, fillLines library scriptBytes 0⟩ := by
  rw [disassemble, byteCompile_eq]
  exact decompile_lastIndex library scripts scriptBytes small

/-! ## Rows by index -/

theorem mapM_eq_some_iff {α β : Type} {f : α → Option β} {input : List α} {output : List β} :
    input.mapM f = some output ↔ input.map f = output.map some := by
  induction input generalizing output with
  | nil => cases output <;> simp
  | cons first rest ih =>
    simp only [List.mapM_cons, Option.bind_eq_bind, Option.bind_eq_some_iff, Option.pure_def, ih,
      Option.some.injEq, List.map_cons]
    cases output with
    | nil => simp
    | cons head tail => simp

/-- Stores at consecutive indices from 0 are found again at their indices. -/
theorem line?_zipIdx (len : Int) (rows : List SizedRow) (i : Nat) :
    (⟨len, rows.zipIdx⟩ : Codeout).line? i = rows[i]? := by
  unfold Codeout.line?
  cases found : rows.zipIdx.reverse.find? fun store => store.2 = i with
  | none =>
    rw [List.find?_eq_none] at found
    cases stored : rows[i]? with
    | none => rfl
    | some row =>
      have member := List.mem_reverse.mpr (List.mk_mem_zipIdx_iff_getElem?.mpr stored)
      exact absurd (decide_eq_true rfl) (found (row, i) member)
  | some store =>
    obtain ⟨row, index⟩ := store
    -- No index is stored to twice, so the last store is the only one.
    have same : index = i := by simpa using List.find?_some found
    have member := List.mem_reverse.mp (List.mem_of_find?_eq_some found)
    rw [← same, List.mk_mem_zipIdx_iff_getElem?.mp member]
    rfl

theorem rows_zipIdx (rows : List SizedRow) :
    (⟨rows.length, rows.zipIdx⟩ : Codeout).rows = some rows := by
  rw [Codeout.rows, mapM_eq_some_iff]
  apply List.ext_getElem
  · simp
  · intro i left right
    have inside : i < rows.length := by simpa using left
    simp [line?_zipIdx, inside]

/-! ## Both walks over well-formed scripts -/

/-- The row of an operation: the opcode in front of the operand. -/
def operationRow (operation : Operation) : SizedRow :=
  strvecToSizedCharPtr (operation.opcode :: operation.operand)

@[simp] theorem scriptCountFrom_nil (count : Int) : scriptCountFrom library [] count = count := by
  rw [scriptCountFrom]
  simp

@[simp] theorem fillLines_nil (i : Nat) : fillLines library [] i = [] := by
  rw [fillLines]
  simp

variable {library} (reads : library.ReadsFormat)
include reads

theorem scriptCountFrom_encode_append (operation : Operation) (rest : Bytes) (count : Int) :
    scriptCountFrom library (format.encode operation ++ rest) count =
      scriptCountFrom library rest (count + 1) := by
  rw [scriptCountFrom, if_pos (format.encode_append_ne_nil operation rest), reads.getOp_encode]
  rfl

theorem scriptCountFrom_truncated {tail : Bytes} (truncated : format.Truncated tail) (count : Int) :
    scriptCountFrom library tail count = -1 := by
  rw [scriptCountFrom, if_pos truncated.1, (reads.getOp_truncated tail truncated).1]
  rfl

theorem fillLines_encode_append (operation : Operation) (rest : Bytes) (i : Nat) :
    fillLines library (format.encode operation ++ rest) i =
      (operationRow operation, i) :: fillLines library rest (i + 1) := by
  rw [fillLines, if_pos (format.encode_append_ne_nil operation rest), reads.getOp_encode]
  simp [operationRow]

theorem fillLines_truncated {tail : Bytes} (truncated : format.Truncated tail) (i : Nat) :
    fillLines library tail i = fillLines library (afterHeader tail) (i + 1) := by
  obtain ⟨failed, skipped⟩ := reads.getOp_truncated tail truncated
  rw [fillLines, if_pos truncated.1, failed, skipped]
  rfl

theorem scriptCountFrom_encodeAll (operations : List Operation) (count : Int) :
    scriptCountFrom library (format.encodeAll operations) count = count + operations.length := by
  induction operations generalizing count with
  | nil => simp
  | cons operation rest ih =>
    rw [PrefixCode.encodeAll_cons, scriptCountFrom_encode_append reads, ih, List.length_cons]
    omega

/-- A script that does not consist of whole operations counts as -1. -/
theorem scriptCountFrom_incomplete {script : Bytes} (incomplete : ¬ format.Complete script) (count : Int) :
    scriptCountFrom library script count = -1 := by
  induction script using format.stream_induction generalizing count with
  | ended => exact absurd format.complete_nil incomplete
  | word operation rest ih =>
    rw [scriptCountFrom_encode_append reads]
    exact ih (fun whole => incomplete (format.complete_encode_append.mpr whole)) _
  | truncated tail stuck => exact scriptCountFrom_truncated reads stuck count

theorem scriptCount_encodeAll (operations : List Operation) :
    scriptCount library (format.encodeAll operations) = operations.length := by
  rw [scriptCount, scriptCountFrom_encodeAll reads, zero_add]

theorem fillLines_encodeAll_append (operations : List Operation) (tail : Bytes) (i : Nat) :
    fillLines library (format.encodeAll operations ++ tail) i =
      (operations.map operationRow).zipIdx i ++ fillLines library tail (i + operations.length) := by
  induction operations generalizing i with
  | nil => rfl
  | cons operation rest ih =>
    have behind : i + (operation :: rest).length = i + 1 + rest.length := by
      rw [List.length_cons]
      omega
    rw [PrefixCode.encodeAll_cons, List.append_assoc, fillLines_encode_append reads, ih, behind]
    rfl

theorem fillLines_encodeAll (operations : List Operation) (i : Nat) :
    fillLines library (format.encodeAll operations) i = (operations.map operationRow).zipIdx i := by
  have filled := fillLines_encodeAll_append reads operations [] i
  rwa [List.append_nil, fillLines_nil, List.append_nil] at filled

/-- Both walks agree on a concatenation of operations: one row each, in order. -/
theorem decompile_encodeAll {scripts : Scripts} {idx : Int32} {operations : List Operation}
    (found : scriptAt scripts idx = .ok (format.encodeAll operations)) : decompile library scripts idx =
      .ok ⟨(operations.map operationRow).length, (operations.map operationRow).zipIdx⟩ := by
  simp only [decompile, found, List.length_map, ← scriptCount_encodeAll reads, ← fillLines_encodeAll reads]
  rfl

theorem disassemble_encodeAll (scripts : Scripts) (small : scripts.length < 2 ^ 32)
    (operations : List Operation) : disassemble library scripts (format.encodeAll operations) =
      .ok ⟨(operations.map operationRow).length, (operations.map operationRow).zipIdx⟩ := by
  have found := scriptAt_concat scripts (format.encodeAll operations) small
  rw [disassemble, byteCompile_eq]
  exact decompile_encodeAll reads found

end BitcoinWasm.Bridge
