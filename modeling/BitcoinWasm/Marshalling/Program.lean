import BitcoinWasm.Marshalling.EndToEnd
import BitcoinWasm.Marshalling.Text

/-! The program that `run.js` runs on a list of tokens.

It compiles the tokens, prints the text of the script, runs the script and prints
the flag and the rows. The tokens that it starts from are a parameter here.
-/

set_option autoImplicit false

namespace BitcoinWasm.Marshalling
open BitcoinWasm.Encoding BitcoinWasm.Script BitcoinWasm.CLibrary BitcoinWasm.Semantics BitcoinWasm.Bridge
  BitcoinWasm.Assembly BitcoinWasm.Disassembly

/-- What ends the program early. -/
inductive Uncaught where
  | exception (thrown : StdException)
  | rangeError (thrown : RangeError)
  deriving DecidableEq

structure Output where
  scriptStr : Bytes
  result : Extracted
  deriving DecidableEq

def onRuntimeInitialized (allocator : Allocator) (library : Library) (scripts : Scripts) (heap : Heap)
    (op_codes : List CString) : Option (Except Uncaught Output) := do
  let (heapBytes, heap) := passStrings allocator heap op_codes
  match ← stringCompile allocator library scripts heap.memory heapBytes op_codes.length with
  | (.error thrown, _) => return .error (.exception thrown)
  | (.ok idx, scripts) =>
    match scriptToString allocator library scripts heap idx with
    | .error thrown => return .error (.exception thrown)
    | .ok shown =>
      let (line, heap) ← shown
      -- `ccall` turns the pointer into a string at once, before anything else is stored.
      let scriptStr := cString allocator.limit heap.memory line
      match scriptRun allocator library scripts heap idx with
      | .error thrown => return .error (.exception thrown)
      | .ok ran =>
        let (struct, heap) ← ran
        match extractStack allocator.limit heap.memory struct with
        | .error thrown => return .error (.rangeError thrown)
        | .ok result => return .ok ⟨scriptStr, result⟩

variable {allocator : Allocator} {library : Library}

/-- A token that is rejected ends the program before anything is printed. -/
theorem onRuntimeInitialized_thrown {op_codes : List CString} {thrown : StdException}
    (rejected : encodeOps library op_codes = .error thrown) (scripts : Scripts) (heap : Heap)
    (served : allocator.serves heap.live (passRequests op_codes)) :
    onRuntimeInitialized allocator library scripts heap op_codes = some (.error (.exception thrown)) := by
  obtain ⟨heapBytes, passed, passing, read, _⟩ :=
    stringCompile_passed library scripts op_codes heap (allocator.serves_append_nil served)
  rw [stringCompile_of_thrown rejected] at read
  simp only [onRuntimeInitialized, passing, read]
  rfl

/-- The text is the row of the first operation, and the rows are those of the evaluation. -/
theorem onRuntimeInitialized_eq (reads : library.ReadsFormat) {op_codes : List CString} {operation : Operation}
    {others : List Operation} (encoded : encodeOps library op_codes = .ok (format.encodeAll (operation :: others)))
    {retval : Bool} {stack : List Bytes}
    (evaluated : library.evalScript (format.encodeAll (operation :: others)) = (retval, stack))
    (scripts : Scripts) (small : scripts.length < 2 ^ 32) (heap : Heap)
    (served : allocator.serves heap.live
      (passRequests op_codes ++ (codeRequests (operation :: others) ++ requests stack))) :
    ∃ behind, onRuntimeInitialized allocator library scripts heap op_codes =
      some (match (stack.map Bridge.strvecToSizedCharPtr).mapM readRow with
        | .ok rows => .ok ⟨asCString (operationRow operation) behind, ⟨retval, rows⟩⟩
        | .error thrown => .error (.rangeError thrown)) := by
  obtain ⟨heapBytes, passed, passing, read, _, shownServed⟩ :=
    stringCompile_passed library scripts op_codes heap served
  obtain ⟨compiled, evaluation⟩ := evaluate_compiled encoded scripts small
  have found := scriptAt_concat scripts (format.encodeAll (operation :: others)) small
  obtain ⟨line, shown, shows, owned, _, ranServed⟩ := scriptToString_spec reads found passed shownServed
  obtain ⟨behind, text⟩ := cString_row owned.held (Nat.le_trans (Nat.add_le_add_left owned.fits line) owned.inside)
  obtain ⟨struct, lines, ran, returned, stands, _⟩ :=
    returnStack_spec retval (allocator.serves_append_nil ranServed)
  have runs : scriptRun allocator library (scripts ++ [format.encodeAll (operation :: others)]) shown
      (Int32.ofNat scripts.length) = .ok (some (struct, ran)) := by
    rw [evaluated] at evaluation
    simp only [scriptRun, evaluation]
    exact congrArg Except.ok returned
  refine ⟨behind, ?_⟩
  rw [compiled] at read
  have extracted := extractStack_eq allocator.limit_le stands
  simp only [onRuntimeInitialized, passing, read, Option.bind_eq_bind, Option.bind_some, shows, runs, text, extracted]
  cases (stack.map Bridge.strvecToSizedCharPtr).mapM readRow <;> rfl

/-- For integers the program prints success and their encodings, under a text that is not theirs. -/
theorem onRuntimeInitialized_decimals (reads : library.ReadsFormat) (appends : library.AppendsFormat)
    (evaluates : library.EvaluatesPushes) (allocator : Allocator) (scripts : Scripts)
    (small : scripts.length < 2 ^ 32) (op_codes : List CString) (values : List Int) (nonempty : values ≠ [])
    (decimals : op_codes.map CString.chars = values.map decimalText) (few : values.length ≤ 1000)
    (fit : ∀ value ∈ values, FitsInt value) :
    ∃ operations, encodeOps library op_codes = .ok (format.encodeAll operations) ∧
      ∀ heap : Heap, allocator.serves heap.live
          (passRequests op_codes ++ (codeRequests operations ++ requests (values.map SignMagnitude.encode))) →
        ∃ scriptStr, scriptStr ≠ joined op_codes ∧
          onRuntimeInitialized allocator library scripts heap op_codes =
            some (.ok ⟨scriptStr, ⟨true, values.map SignMagnitude.encode⟩⟩) := by
  obtain ⟨operations, read, encoded, evaluated⟩ := encodeOps_decimals appends evaluates decimals few fit
  have tokens : op_codes ≠ [] := by
    rintro rfl
    exact nonempty (List.map_eq_nil_iff.mp decimals.symm)
  have lossless := (mapM_readRow_eq_ok_iff (values.map SignMagnitude.encode)).mpr fun row member =>
    Nat.le_trans (encodings_length_le fit row member) (by decide)
  rw [← filter_numbers] at read
  have spelled : List.Forall₂ (Spells library) op_codes (values.map Token.number) := spells_decimals decimals fit
  obtain ⟨operation, others, rfl, differs⟩ := asCString_ne_joined tokens spelled (by simp) (by simp) read
  refine ⟨operation :: others, encoded, ?_⟩
  intro heap served
  obtain ⟨behind, printed⟩ := onRuntimeInitialized_eq reads encoded evaluated scripts small heap served
  rw [lossless] at printed
  exact ⟨asCString (operationRow operation) behind, differs behind, printed⟩

theorem onRuntimeInitialized_two : ∃ scriptStr, scriptStr ≠ joined [.literal "1", .literal "-2"] ∧
    onRuntimeInitialized pages Standard.library [] emptyHeap [.literal "1", .literal "-2"] =
      some (.ok ⟨scriptStr, ⟨true, [[0x01], [0x82]]⟩⟩) := by
  obtain ⟨operations, encoded, printed⟩ := onRuntimeInitialized_decimals Standard.readsFormat
    Standard.appendsFormat Standard.evaluatesPushes pages [] (by decide) [.literal "1", .literal "-2"] [1, -2]
    (by decide) (by decide +kernel) (by decide) (by decide)
  have pushes : encodeOps Standard.library [.literal "1", .literal "-2"] =
      .ok (format.encodeAll [.direct [0x01] (by decide), .direct [0x82] (by decide)]) := by
    decide +kernel
  rw [pushes, Except.ok.injEq] at encoded
  have same := format.encodeAll_injective encoded
  subst same
  have rows : [1, -2].map SignMagnitude.encode = [[0x01], [0x82]] := by
    decide +kernel
  exact rows ▸ printed emptyHeap (by decide +kernel)

end BitcoinWasm.Marshalling
