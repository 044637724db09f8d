import BitcoinWasm.Bridge.CodeoutLayout
import BitcoinWasm.Bridge.Session

/-! The arguments of a call in linear memory.

`run.js` writes every string with its terminator into a block of its own and the
pointers into one more block. `stringCompile` follows the pointers again, and
stops reading at the first token that it cannot encode.
-/

set_option autoImplicit false

namespace BitcoinWasm.Marshalling
open BitcoinWasm.Encoding BitcoinWasm.Script BitcoinWasm.CLibrary BitcoinWasm.Semantics BitcoinWasm.Bridge

variable (allocator : Allocator)

/-! ## The caller -/

/-- The bytes of a string that `writeAsciiToMemory` writes. -/
def terminated (s : CString) : Bytes := s.chars ++ [0]

/-- `op_codes.map`, with the buffers it fills. -/
def writeStrings (heap : Heap) : List CString → List Nat × Heap
  | [] => ([], heap)
  | s :: rest =>
    let (b, heap) := allocator.malloc heap (s.chars.length + 1)
    let heap := heap.store b (terminated s)
    let (strBufArr, heap) := writeStrings heap rest
    (b :: strBufArr, heap)

/-- `_arrayToHeap(typedArray)`, with the bytes of `typedArray.buffer`. -/
def arrayToHeap (heap : Heap) (buffer : Bytes) : Nat × Heap :=
  let (ptr, heap) := allocator.malloc heap buffer.length
  (ptr, heap.store ptr buffer)

/-- The pointer that is passed for the strings, to the words of a `Uint32Array`. -/
def passStrings (heap : Heap) (op_codes : List CString) : Nat × Heap :=
  let (strBufArr, heap) := writeStrings allocator heap op_codes
  arrayToHeap allocator heap (strBufArr.flatMap (wordLE 4))

/-! ## The callee -/

/-- The string behind a pointer. Without a terminator in the memory the program traps. -/
def cStringAt (memory : Memory) (addr : Nat) : Option CString :=
  if (cString allocator.limit memory addr).length < allocator.limit - addr then
    some ⟨cString allocator.limit memory addr, cString_noNul _ memory addr,
      Nat.lt_of_le_of_lt (cString_length_le _ memory addr) (Nat.lt_of_le_of_lt allocator.limit_le (by decide))⟩
  else none

/-- The loop of `stringCompile`, with `remaining` tokens from index `i` on. -/
def encodeNames (library : Library) (memory : Memory) (opcodeNames : Nat) (c : Bytes) (i : Nat) :
    Nat → Option (Except StdException Bytes)
  | 0 => some (.ok c)
  | remaining + 1 => do
    let opcodeName ← cStringAt allocator memory (memory.loadWord (opcodeNames + pointerSize * i))
    match encodeOp library c opcodeName with
    | .error thrown => return .error thrown
    | .ok c => encodeNames library memory opcodeNames c (i + 1) remaining

def stringCompile (library : Library) (scripts : Scripts) (memory : Memory) (opcodeNames len : Nat) :
    Option (Except StdException Int32 × Scripts) := do
  match ← encodeNames allocator library memory opcodeNames [] 0 len with
  | .error thrown => return (.error thrown, scripts)
  | .ok c => return (.ok (lastIndex (scripts ++ [c])), scripts ++ [c])

/-- The vector of the script is made of the bytes from `scriptBytes` to `scriptBytes + len`. -/
def byteCompile (scripts : Scripts) (memory : Memory) (scriptBytes len : Nat) : Int32 × Scripts :=
  Bridge.byteCompile scripts (memory.load scriptBytes len)

/-! ## What is passed is what is read -/

/-- The blocks that passing the strings asks for. -/
def passRequests (op_codes : List CString) : List Nat :=
  op_codes.map (fun s => s.chars.length + 1) ++ [4 * op_codes.length]

/-- A terminated string in a block of its own. -/
def StringAt (limit : Nat) (heap : Heap) (addr : Nat) (s : CString) : Prop :=
  Owned limit heap ⟨addr, s.chars.length + 1⟩ (terminated s)

/-- Pointers to the strings in consecutive slots. -/
def NamesAt (limit : Nat) (heap : Heap) (slot : Nat) (op_codes : List CString) : Prop :=
  PointersAt (StringAt limit heap) heap.memory slot op_codes

theorem terminated_length (s : CString) : (terminated s).length = s.chars.length + 1 := by
  rw [terminated, List.length_append, List.length_singleton]

variable {allocator}

theorem arrayToHeap_spec (buffer : Bytes) (heap : Heap) {sizes : List Nat}
    (served : allocator.serves heap.live (buffer.length :: sizes)) :
    ∃ ptr after, arrayToHeap allocator heap buffer = (ptr, after) ∧
      Owned allocator.limit after ⟨ptr, buffer.length⟩ buffer ∧ Frame heap after (fun _ => False) ∧
      allocator.serves after.live sizes := by
  obtain ⟨ptr, placed, inside, apart, later⟩ := allocator.serves_cons served
  refine ⟨ptr, (Heap.mk heap.memory (⟨ptr, buffer.length⟩ :: heap.live)).store ptr buffer, ?_, ?_, ?_, later⟩
  · simp only [arrayToHeap, allocator.malloc_placed placed]
  · exact Owned.fill (Nat.le_refl buffer.length) inside
  · exact Frame.fill apart (Nat.le_refl buffer.length)

/-- The loop lemma: every string gets its own block, and nothing else changes. -/
theorem writeStrings_spec (op_codes : List CString) (heap : Heap) {sizes : List Nat}
    (served : allocator.serves heap.live (op_codes.map (fun s => s.chars.length + 1) ++ sizes)) :
    ∃ strBufArr after, writeStrings allocator heap op_codes = (strBufArr, after) ∧
      List.Forall₂ (StringAt allocator.limit after) strBufArr op_codes ∧ Frame heap after (fun _ => False) ∧
      allocator.serves after.live sizes := by
  induction op_codes generalizing heap with
  | nil => exact ⟨[], heap, rfl, .nil, Frame.refl _ _, served⟩
  | cons s rest ih =>
    obtain ⟨b, placed, inside, apart, others⟩ := allocator.serves_cons served
    have fits : (terminated s).length ≤ s.chars.length + 1 := Nat.le_of_eq (terminated_length s)
    let written := (Heap.mk heap.memory (⟨b, s.chars.length + 1⟩ :: heap.live)).store b (terminated s)
    have first : StringAt allocator.limit written b s := Owned.fill fits inside
    have frame : Frame heap written _ := Frame.fill apart fits
    -- The strings behind it leave the first one as it is.
    obtain ⟨strBufArr, after, wrote, strings, restFrame, later⟩ := ih written others
    refine ⟨b :: strBufArr, after, ?_, .cons (first.frame restFrame) strings, frame.trans restFrame, later⟩
    simp only [writeStrings, allocator.malloc_placed placed]
    change (b :: (writeStrings allocator written rest).1, (writeStrings allocator written rest).2) = _
    rw [wrote]

theorem passStrings_spec (op_codes : List CString) (heap : Heap) {sizes : List Nat}
    (served : allocator.serves heap.live (passRequests op_codes ++ sizes)) :
    ∃ opcodeNames after, passStrings allocator heap op_codes = (opcodeNames, after) ∧
      NamesAt allocator.limit after opcodeNames op_codes ∧ Frame heap after (fun _ => False) ∧
      allocator.serves after.live sizes := by
  rw [passRequests, List.append_assoc] at served
  obtain ⟨strBufArr, written, wrote, strings, stringFrame, others⟩ := writeStrings_spec op_codes heap served
  have length : (strBufArr.flatMap (wordLE 4)).length = 4 * op_codes.length := by
    simp [List.length_flatMap, strings.length_eq, Nat.mul_comm]
  obtain ⟨ptr, after, passed, words, arrayFrame, later⟩ :=
    arrayToHeap_spec (strBufArr.flatMap (wordLE 4)) written (length ▸ others)
  refine ⟨ptr, after, ?_, ?_, stringFrame.trans arrayFrame, later⟩
  · simp only [passStrings, wrote, passed]
  · exact PointersAt.of_words words.held (strings.imp fun _ _ stands => stands.frame arrayFrame)

theorem cString_terminated {limit : Nat} {memory : Memory} {addr : Nat} {s : CString}
    (held : memory.Holds addr (terminated s)) (inside : addr + (s.chars.length + 1) ≤ limit) :
    cString limit memory addr = s.chars := by
  have length := terminated_length s
  have room : limit - addr = (terminated s).length + (limit - addr - (s.chars.length + 1)) := by omega
  -- No letter of the string stops the reading, and the terminator does.
  have letters : ∀ letter ∈ s.chars, decide (letter ≠ 0) = true := by
    intro letter member
    apply decide_eq_true
    rintro rfl
    exact s.noNul member
  rw [cString, room, load_append, held.load, terminated, List.append_assoc, List.takeWhile_append_of_pos letters]
  simp

theorem cStringAt_eq {heap : Heap} {addr : Nat} {s : CString} (stands : StringAt allocator.limit heap addr s) :
    cStringAt allocator heap.memory addr = some s := by
  have inside : addr + (s.chars.length + 1) ≤ allocator.limit := stands.inside
  have read := cString_terminated stands.held inside
  unfold cStringAt
  split
  next =>
    congr 1
    cases s
    simpa using read
  next unterminated =>
    rw [read] at unterminated
    omega

/-- The loop reads the passed strings in their order. -/
theorem encodeNames_eq (library : Library) {heap : Heap} {opcodeNames : Nat} (op_codes : List CString) (c : Bytes)
    (i : Nat) (names : NamesAt allocator.limit heap (opcodeNames + 4 * i) op_codes) :
    encodeNames allocator library heap.memory opcodeNames c i op_codes.length =
      some (op_codes.foldlM (encodeOp library) c) := by
  induction op_codes generalizing c i with
  | nil => rfl
  | cons s rest ih =>
    obtain ⟨⟨addr, pointer, stands⟩, others⟩ := names
    have limit := allocator.limit_le
    have inside : addr + (s.chars.length + 1) ≤ allocator.limit := stands.inside
    have address : heap.memory.loadWord (opcodeNames + pointerSize * i) = addr := pointer.loadWord (by omega)
    simp only [List.length_cons, encodeNames, address, cStringAt_eq stands, List.foldlM_cons, Option.bind_eq_bind,
      Option.bind_some]
    cases encodeOp library c s with
    | error thrown => rfl
    | ok c => exact ih c (i + 1) others

/-- Strings that are passed through memory compile as they are. -/
theorem stringCompile_passed (library : Library) (scripts : Scripts) (op_codes : List CString) (heap : Heap)
    {sizes : List Nat} (served : allocator.serves heap.live (passRequests op_codes ++ sizes)) :
    ∃ opcodeNames after, passStrings allocator heap op_codes = (opcodeNames, after) ∧
      stringCompile allocator library scripts after.memory opcodeNames op_codes.length =
        some (Bridge.stringCompile library scripts op_codes) ∧
      Frame heap after (fun _ => False) ∧ allocator.serves after.live sizes := by
  obtain ⟨opcodeNames, after, passed, names, frame, later⟩ := passStrings_spec op_codes heap served
  refine ⟨opcodeNames, after, passed, ?_, frame, later⟩
  have read := encodeNames_eq library op_codes [] 0 names
  simp only [stringCompile, read, Bridge.stringCompile, encodeOps]
  cases op_codes.foldlM (encodeOp library) [] <;> rfl

theorem byteCompile_passed (scripts : Scripts) (scriptBytes : Bytes) (heap : Heap) {sizes : List Nat}
    (served : allocator.serves heap.live (scriptBytes.length :: sizes)) :
    ∃ ptr after, arrayToHeap allocator heap scriptBytes = (ptr, after) ∧
      byteCompile scripts after.memory ptr scriptBytes.length = Bridge.byteCompile scripts scriptBytes ∧
      Frame heap after (fun _ => False) ∧ allocator.serves after.live sizes := by
  obtain ⟨ptr, after, passed, owned, frame, later⟩ := arrayToHeap_spec scriptBytes heap served
  refine ⟨ptr, after, passed, ?_, frame, later⟩
  rw [byteCompile, owned.held.load]

end BitcoinWasm.Marshalling
