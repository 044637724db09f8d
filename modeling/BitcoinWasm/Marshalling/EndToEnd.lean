import BitcoinWasm.Assembly.Meaning
import BitcoinWasm.Bridge.Caller
import BitcoinWasm.Marshalling.Lossless

/-! From the texts of integers to the rows that the caller reads.

The texts compile to one push each, evaluating the pushes leaves their operands
in order, and rows of at most five bytes come through the struct unchanged.
-/

set_option autoImplicit false

namespace BitcoinWasm.Marshalling
open BitcoinWasm.Encoding BitcoinWasm.Script BitcoinWasm.CLibrary BitcoinWasm.Semantics BitcoinWasm.Bridge
  BitcoinWasm.Assembly

/-- An operation is at most five bytes longer than its operand. -/
theorem encode_length_le (operation : Operation) :
    (format.encode operation).length ≤ operation.operand.length + 5 := by
  have field : operation.lengthBytes.length ≤ 4 := by
    cases operation with
    | plain => simp [Operation.lengthBytes]
    | direct => simp [Operation.lengthBytes]
    | sized field => cases field <;> simp [Operation.lengthBytes, LengthField.width]
  change (operation.opcode :: (operation.lengthBytes ++ operation.operand)).length ≤ _
  rw [List.length_cons, List.length_append]
  omega

theorem encodeAll_length_le (operations : List Operation)
    (short : ∀ operation ∈ operations, operation.operand.length ≤ 5) :
    (format.encodeAll operations).length ≤ 10 * operations.length := by
  induction operations with
  | nil => simp
  | cons operation rest ih =>
    have first := encode_length_le operation
    have operand := short operation List.mem_cons_self
    have others := ih fun other member => short other (List.mem_cons_of_mem _ member)
    rw [PrefixCode.encodeAll_cons, List.length_append, List.length_cons]
    omega

/-- Steps that carry out number tokens are pushes of the numbers. -/
theorem pushes_of_reads {values : List Int} {operations : List Operation}
    (read : List.Forall₂ Token.Reads (values.map Token.number)
      (operations.map fun operation => (operation.opcode, operation.operand))) :
    operations.map Operation.operand = values.map SignMagnitude.encode ∧
      ∀ operation ∈ operations, operation.isPush := by
  induction operations generalizing values with
  | nil =>
    cases values with
    | nil => exact ⟨rfl, by simp⟩
    | cons value rest => cases read
  | cons operation others ih =>
    cases values with
    | nil => cases read
    | cons value rest =>
      obtain ⟨first, restRead⟩ := List.forall₂_cons.mp read
      obtain ⟨operands, pushes⟩ := ih restRead
      obtain ⟨push, operand⟩ := first.of_number
      constructor
      · rw [List.map_cons, List.map_cons, operands]
        exact congrArg (· :: _) operand
      · rw [List.forall_mem_cons]
        exact ⟨push, pushes⟩

variable {library : Library}

theorem spells_decimals {texts : List CString} {values : List Int}
    (decimals : texts.map CString.chars = values.map decimalText) (fit : ∀ value ∈ values, FitsInt value) :
    List.Forall₂ (Spells library) texts (values.map Token.number) := by
  induction texts generalizing values with
  | nil =>
    cases values with
    | nil => exact .nil
    | cons value rest => cases decimals
  | cons text texts ih =>
    cases values with
    | nil => cases decimals
    | cons value rest =>
      rw [List.map_cons, List.map_cons, List.cons.injEq] at decimals
      rw [List.forall_mem_cons] at fit
      exact .cons (.number decimals.1 fit.1) (ih decimals.2 fit.2)

theorem encodings_length_le {values : List Int} (fit : ∀ value ∈ values, FitsInt value) :
    ∀ row ∈ values.map SignMagnitude.encode, row.length ≤ 5 := by
  intro row member
  obtain ⟨value, valueMember, rfl⟩ := List.mem_map.mp member
  exact encode_length_of_fitsInt (fit value valueMember)

theorem filter_numbers (values : List Int) :
    (values.map Token.number).filter (· ≠ .blank) = values.map Token.number := by
  simp [List.filter_eq_self]

/-- The texts of integers compile to a script of pushes, which evaluates to their encodings. -/
theorem encodeOps_decimals (appends : library.AppendsFormat) (evaluates : library.EvaluatesPushes)
    {texts : List CString} {values : List Int} (decimals : texts.map CString.chars = values.map decimalText)
    (few : values.length ≤ 1000) (fit : ∀ value ∈ values, FitsInt value) :
    ∃ operations, List.Forall₂ Token.Reads (values.map Token.number)
        (operations.map fun operation => (operation.opcode, operation.operand)) ∧
      encodeOps library texts = .ok (format.encodeAll operations) ∧
      library.evalScript (format.encodeAll operations) = (true, values.map SignMagnitude.encode) := by
  obtain ⟨operations, read, _, encoded⟩ := encodeOps_spelled appends (spells_decimals decimals fit)
  rw [filter_numbers] at read
  obtain ⟨operands, pushes⟩ := pushes_of_reads read
  have count : operations.length = values.length := by
    simpa using congrArg List.length operands
  -- No operand is longer than five bytes, so the script stays far below its limits.
  have short : ∀ operation ∈ operations, operation.operand.length ≤ 5 := by
    intro operation member
    apply encodings_length_le fit
    rw [← operands]
    exact List.mem_map_of_mem member
  have evaluated := evaluates.evalScript_pushes operations
    (fun operation member => ⟨pushes operation member, Nat.le_trans (short operation member) (by decide)⟩)
    (by omega) (Nat.le_trans (encodeAll_length_le operations short) (by omega))
  rw [operands] at evaluated
  exact ⟨operations, read, encoded, evaluated⟩

/-- A compiled script is evaluated under the index that was handed out for it. -/
theorem evaluate_compiled {texts : List CString} {script : Bytes} (encoded : encodeOps library texts = .ok script)
    (scripts : Scripts) (small : scripts.length < 2 ^ 32) :
    Bridge.stringCompile library scripts texts = (.ok (Int32.ofNat scripts.length), scripts ++ [script]) ∧
      evaluate library (scripts ++ [script]) (Int32.ofNat scripts.length) =
        .ok ⟨script, (library.evalScript script).1, (library.evalScript script).2⟩ := by
  have found := scriptAt_concat scripts script small
  refine ⟨stringCompile_of_encoded encoded scripts, ?_⟩
  rw [evaluate, found]
  rfl

theorem integers_end_to_end (appends : library.AppendsFormat) (evaluates : library.EvaluatesPushes)
    (scripts : Scripts) (small : scripts.length < 2 ^ 32) (texts : List CString) (values : List Int)
    (decimals : texts.map CString.chars = values.map decimalText) (few : values.length ≤ 1000)
    (fit : ∀ value ∈ values, FitsInt value) (allocator : Allocator) (heap : Heap)
    (passServed : allocator.serves heap.live (passRequests texts)) :
    ∃ opcodeNames passed idx registered, passStrings allocator heap texts = (opcodeNames, passed) ∧
      stringCompile allocator library scripts passed.memory opcodeNames texts.length = some (.ok idx, registered) ∧
      ∀ later : Heap, allocator.serves later.live (requests (values.map SignMagnitude.encode)) →
        ∃ struct after rows, scriptRun allocator library registered later idx = .ok (some (struct, after)) ∧
          extractStack allocator.limit after.memory struct = .ok ⟨true, rows⟩ ∧
          rows = values.map SignMagnitude.encode ∧ rows.map SignMagnitude.decode = values ∧
          ∀ row ∈ rows, ∀ bytes, SignMagnitude.decode bytes = SignMagnitude.decode row →
            row.length ≤ bytes.length := by
  obtain ⟨opcodeNames, passed, passing, read, _⟩ :=
    stringCompile_passed library scripts texts heap (allocator.serves_append_nil passServed)
  obtain ⟨operations, _, encoded, pushed⟩ := encodeOps_decimals appends evaluates decimals few fit
  obtain ⟨compiled, evaluated⟩ := evaluate_compiled encoded scripts small
  rw [compiled] at read
  rw [pushed] at evaluated
  refine ⟨opcodeNames, passed, _, _, passing, read, ?_⟩
  intro later served
  obtain ⟨struct, after, returned, extracted⟩ :=
    extractStack_returnStack allocator later true (values.map SignMagnitude.encode) served
  -- No encoding is too long for the length byte of its row.
  have lossless := (mapM_readRow_eq_ok_iff (values.map SignMagnitude.encode)).mpr fun row member =>
    Nat.le_trans (encodings_length_le fit row member) (by decide)
  refine ⟨struct, after, _, ?_, ?_, rfl, SignMagnitude.map_decode_map_encode values, ?_⟩
  · simp only [scriptRun, evaluated]
    exact congrArg Except.ok returned
  · rw [extracted, lossless]
    rfl
  · intro row member bytes same
    obtain ⟨value, _, rfl⟩ := List.mem_map.mp member
    rw [SignMagnitude.decode_encode] at same
    exact same ▸ SignMagnitude.encode_minimal bytes

/-- Both ends of an `int`, and zero between them. -/
theorem integers_end_to_end_ends :
    ∃ opcodeNames passed idx registered struct after rows,
      passStrings pages emptyHeap [.literal "-2147483648", .literal "0", .literal "2147483647"] =
        (opcodeNames, passed) ∧
      stringCompile pages Standard.library [] passed.memory opcodeNames 3 = some (.ok idx, registered) ∧
      scriptRun pages Standard.library registered emptyHeap idx = .ok (some (struct, after)) ∧
      extractStack pages.limit after.memory struct = .ok ⟨true, rows⟩ ∧
      rows.map SignMagnitude.decode = [-2147483648, 0, 2147483647] := by
  obtain ⟨opcodeNames, passed, idx, registered, passing, compiled, run⟩ :=
    integers_end_to_end Standard.appendsFormat Standard.evaluatesPushes [] (by decide)
      [.literal "-2147483648", .literal "0", .literal "2147483647"] [-2147483648, 0, 2147483647]
      (by decide +kernel) (by decide) (by decide) pages emptyHeap (by decide +kernel)
  obtain ⟨struct, after, rows, ran, extracted, _, decoded, _⟩ := run emptyHeap (by decide +kernel)
  exact ⟨opcodeNames, passed, idx, registered, struct, after, rows, passing, compiled, ran, extracted, decoded⟩

end BitcoinWasm.Marshalling
