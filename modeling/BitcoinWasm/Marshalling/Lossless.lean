import BitcoinWasm.Bridge.Marshalling

/-! What `extractStack` makes of a struct that `scriptRun` returned.

The reader follows the pointers of the writer to the same rows, whatever the
allocator does. It then loads every length as a signed byte. Up to 127 bytes a row
comes back as it was; above, the length is negative or counts too few bytes.
-/

set_option autoImplicit false

namespace BitcoinWasm.Marshalling
open BitcoinWasm.Encoding BitcoinWasm.Script BitcoinWasm.CLibrary BitcoinWasm.Semantics BitcoinWasm.Bridge

/-- What the reader makes of a row that it has found. -/
def readRow (row : SizedRow) : Except RangeError Bytes :=
  if row.vsize.toNat < 128 then .ok row.copied else .error .invalidTypedArray

/-- `len` and `stack` stand behind the flag. -/
def stackout : Layout where
  size := stackoutSize
  len := lenOffset
  pointer := stackOffset
  len_inside := Nat.le_add_right 8 4
  pointer_inside := Nat.le_refl 12
  apart := .inl (Nat.le_refl 8)

/-- The blocks that `scriptRun` asks for. -/
def requests (stack : List Bytes) : List Nat :=
  tableRequests stackout (stack.map Bridge.strvecToSizedCharPtr)

/-- The loop of `stackToCharArray` places the rows of its elements. -/
theorem storeRows_eq (allocator : Allocator) (heap : Heap) (lines i : Nat) (stack : List Bytes) :
    storeRows allocator heap lines i stack =
      placeLines allocator heap lines ((stack.map Bridge.strvecToSizedCharPtr).zipIdx i) := by
  induction stack generalizing heap i with
  | nil => rfl
  | cons strvec rest ih =>
    have size : rowSize (Bridge.strvecToSizedCharPtr strvec) = (UInt8.ofNat strvec.length).toNat + 2 := rfl
    simp only [storeRows, strvecToSizedCharPtr, List.map_cons, List.zipIdx_cons, placeLines, size]
    cases allocator.new heap ((UInt8.ofNat strvec.length).toNat + 2) with
    | none => rfl
    | some result => exact ih _ _

variable {allocator : Allocator}

/-- The struct that `scriptRun` returns. -/
structure StackAt (limit : Nat) (heap : Heap) (struct lines : Nat) (retval : Bool) (stack : List Bytes) : Prop where
  flag : heap.memory struct = if retval then 1 else 0
  table : TableAt stackout limit heap struct lines (stack.map Bridge.strvecToSizedCharPtr)

theorem StackAt.frame {limit : Nat} {before after : Heap} {struct lines : Nat} {retval : Bool} {stack : List Bytes}
    (stands : StackAt limit before struct lines retval stack) (frame : Frame before after fun _ => False) :
    StackAt limit after struct lines retval stack where
  flag := by
    have contained : Block.Contains ⟨struct, stackoutSize⟩ struct :=
      ⟨Nat.le_refl _, Nat.lt_add_of_pos_right (show 0 < 12 by decide)⟩
    rw [frame.kept _ stands.table.structMember struct contained id, stands.flag]
  table := stands.table.frame frame

/-- `returnStack` returns such a struct, in blocks of its own. -/
theorem returnStack_spec {heap : Heap} {stack : List Bytes} (retval : Bool) {sizes : List Nat}
    (served : allocator.serves heap.live (requests stack ++ sizes)) :
    ∃ struct lines after, returnStack allocator heap retval stack = some (struct, after) ∧
      StackAt allocator.limit after struct lines retval stack ∧ Frame heap after (fun _ => False) ∧
      allocator.serves after.live sizes := by
  obtain ⟨struct, lines, filled, structPlaced, linesPlaced, stored, table, frame, structApart, later⟩ :=
    table_spec stackout (stack.map Bridge.strvecToSizedCharPtr) served
  refine ⟨struct, lines, filled.store struct [if retval then 1 else 0], ?_, ⟨?_, ?_⟩, ?_, later⟩
  · have inside : lines + 4 * (stack.map Bridge.strvecToSizedCharPtr).length ≤ allocator.limit := table.arrayInside
    have limit := allocator.limit_le
    rw [List.length_map] at linesPlaced stored inside
    have size : pointerSize * stack.length % 2 ^ 32 = pointerSize * stack.length := by
      apply Nat.mod_eq_of_lt
      unfold pointerSize
      omega
    have allocated : allocator.malloc heap stackoutSize =
        (struct, ⟨heap.memory, ⟨struct, stackoutSize⟩ :: heap.live⟩) := allocator.malloc_placed structPlaced
    have arrayAllocated : allocator.malloc ⟨heap.memory, ⟨struct, stackoutSize⟩ :: heap.live⟩
        (pointerSize * stack.length) = (lines, ⟨heap.memory,
          ⟨lines, pointerSize * stack.length⟩ :: ⟨struct, stackoutSize⟩ :: heap.live⟩) :=
      allocator.malloc_placed linesPlaced
    -- The pointer is stored before the count here.
    rw [stackout.setWords_comm] at stored
    simp only [stackout] at stored
    simp only [returnStack, stackToCharArray, allocated, size, arrayAllocated, storeRows_eq]
    simp only [stored]
    rfl
  · exact (Memory.holds_cons.mp (Memory.store_holds filled.memory struct [_])).1
  · -- The flag is the byte in front of the two words.
    apply table.store (Nat.le_refl struct)
    · exact Nat.add_le_add_left (show 1 ≤ 12 by decide) struct
    · exact .inl (Nat.add_le_add_left (show 1 ≤ 4 by decide) struct)
    · exact .inl (Nat.add_le_add_left (show 1 ≤ 8 by decide) struct)
  · apply frame.store_new structApart (Nat.le_refl struct)
    exact Nat.add_le_add_left (show 1 ≤ 12 by decide) struct

/-- A signed byte agrees with the unsigned one up to 127 and is negative above. -/
theorem getI8_eq (memory : Memory) (ptr : Nat) :
    getI8 memory ptr = if (memory ptr).toNat < 128 then ((memory ptr).toNat : Int) else (memory ptr).toNat - 256 := by
  have signed : getI8 memory ptr = (memory ptr).toBitVec.toInt := rfl
  rw [signed, BitVec.toInt_eq_toNat_cond]
  simp only [UInt8.toNat_toBitVec]
  split <;> split <;> omega

theorem uint8Array_row {limit : Nat} {memory : Memory} {addr : Nat} {row : SizedRow}
    (held : memory.Holds addr (rowBytes row)) (inside : addr + (rowBytes row).length ≤ limit) :
    uint8Array limit memory (addr + 1) (getI8 memory addr) = readRow row := by
  obtain ⟨length, copied⟩ := Memory.holds_cons.mp held
  have bound := row.copied_length
  rw [rowBytes, List.length_cons, bound] at inside
  rw [getI8_eq, length, uint8Array, readRow]
  split
  next small =>
    -- The length is read as it was written.
    have fits : ¬ ((row.vsize.toNat : Int) < 0 ∨ (limit : Int) < ((addr + 1 : Nat) : Int) + row.vsize.toNat) := by
      omega
    rw [if_neg fits, Int.toNat_natCast, ← bound, copied.load]
  next large =>
    -- The length is read as a negative number.
    have byte := row.vsize.toNat_lt
    rw [if_pos (.inl (by omega))]

/-- The loop of the reader meets the rows of the writer in their order. -/
theorem extractRows_eq {limit : Nat} (limit_le : limit ≤ 2 ^ 31) {kept : List Block} {heap : Heap} {charheap : Nat}
    (rows : List SizedRow) (i : Nat) (stored : RowsAt limit kept heap (charheap + 4 * i) rows) :
    extractRows limit heap.memory charheap i rows.length = rows.mapM readRow := by
  induction rows generalizing i with
  | nil => rfl
  | cons row rest ih =>
    obtain ⟨⟨addr, pointer, owned, _⟩, others⟩ := stored
    have inside : addr + rowSize row ≤ limit := owned.inside
    have length := rowBytes_length row
    have address : getPointer heap.memory (charheap + 4 * i) = addr := pointer.loadWord (by omega)
    rw [List.length_cons, extractRows, address, uint8Array_row owned.held (by simp only; omega), ih (i + 1) others,
      List.mapM_cons]

/-- A byte string comes back cut to its length modulo 256, or not at all. -/
theorem readRow_eq (strvec : Bytes) : readRow (Bridge.strvecToSizedCharPtr strvec) =
    if strvec.length % 256 < 128 then .ok (strvec.take (strvec.length % 256)) else .error .invalidTypedArray := by
  have vsize : (Bridge.strvecToSizedCharPtr strvec).vsize.toNat = strvec.length % 256 := UInt8.toNat_ofNat'
  have copied : (Bridge.strvecToSizedCharPtr strvec).copied = strvec.take (strvec.length % 256) := by
    rw [← vsize]
    rfl
  rw [readRow, vsize, copied]

theorem readRow_eq_ok_iff (strvec : Bytes) :
    readRow (Bridge.strvecToSizedCharPtr strvec) = .ok strvec ↔ strvec.length ≤ 127 := by
  rw [readRow_eq]
  constructor
  · intro read
    split at read
    next small =>
      -- A row that comes back whole is no longer than its length byte counts.
      have lengths := congrArg List.length (Except.ok.inj read)
      rw [List.length_take] at lengths
      omega
    next => cases read
  · intro short
    have whole : strvec.length % 256 = strvec.length := Nat.mod_eq_of_lt (by omega)
    rw [whole, List.take_length, if_pos (by omega)]

theorem mapM_readRow_eq_ok_iff (stack : List Bytes) :
    (stack.map Bridge.strvecToSizedCharPtr).mapM readRow = .ok stack ↔ ∀ strvec ∈ stack, strvec.length ≤ 127 := by
  induction stack with
  | nil => simp [pure, Except.pure]
  | cons strvec rest ih =>
    rw [List.forall_mem_cons, ← readRow_eq_ok_iff, ← ih, List.map_cons, List.mapM_cons]
    cases first : readRow (Bridge.strvecToSizedCharPtr strvec) with
    | error thrown => simp [bind, Except.bind]
    | ok read =>
      cases others : (rest.map Bridge.strvecToSizedCharPtr).mapM readRow with
      | error thrown => simp [bind, Except.bind]
      | ok tail => simp [bind, Except.bind, pure, Except.pure]

/-- The reader sees the flag, and each row as `readRow` has it. -/
theorem extractStack_eq {limit : Nat} (limit_le : limit ≤ 2 ^ 31) {heap : Heap} {struct lines : Nat} {retval : Bool}
    {stack : List Bytes} (stands : StackAt limit heap struct lines retval stack) :
    extractStack limit heap.memory struct =
      ((stack.map Bridge.strvecToSizedCharPtr).mapM readRow).map (Extracted.mk retval) := by
  let rows := stack.map Bridge.strvecToSizedCharPtr
  have inside : lines + 4 * rows.length ≤ limit := stands.table.arrayInside
  have success : decide (getI8 heap.memory struct ≠ 0) = retval := by
    rw [getI8_eq, stands.flag]
    cases retval <;> rfl
  have len : getI64 heap.memory (struct + 4) = rows.length := by
    have word : heap.memory.loadWord (struct + 4) = rows.length :=
      stands.table.lenHeld.loadWord (show rows.length < 2 ^ 32 by omega)
    rw [getI64, word, Int32.toInt_ofNat_of_lt (by omega)]
  have charheap : getPointer heap.memory (struct + 8) = lines := stands.table.pointerHeld.loadWord (by omega)
  have extracted := extractRows_eq limit_le rows 0 stands.table.rowsAt
  simp only [extractStack, success, len, charheap, Int.toNat_natCast, extracted]
  change _ = (rows.mapM readRow).map _
  cases rows.mapM readRow <;> rfl

theorem extractStack_returnStack (allocator : Allocator) (heap : Heap) (retval : Bool) (stack : List Bytes)
    (served : allocator.serves heap.live (requests stack)) :
    ∃ struct after, returnStack allocator heap retval stack = some (struct, after) ∧
      extractStack allocator.limit after.memory struct =
        ((stack.map Bridge.strvecToSizedCharPtr).mapM readRow).map (Extracted.mk retval) := by
  obtain ⟨struct, lines, after, returned, stands, _⟩ :=
    returnStack_spec retval (allocator.serves_append_nil served)
  exact ⟨struct, after, returned, extractStack_eq allocator.limit_le stands⟩

theorem stack_lossless_iff (allocator : Allocator) (heap : Heap) (retval : Bool) (stack : List Bytes)
    (served : allocator.serves heap.live (requests stack)) :
    ∃ struct after, returnStack allocator heap retval stack = some (struct, after) ∧
      (extractStack allocator.limit after.memory struct = .ok ⟨retval, stack⟩ ↔
        ∀ strvec ∈ stack, strvec.length ≤ 127) := by
  obtain ⟨struct, after, returned, extracted⟩ := extractStack_returnStack allocator heap retval stack served
  refine ⟨struct, after, returned, ?_⟩
  rw [extracted, ← mapM_readRow_eq_ok_iff]
  cases (stack.map Bridge.strvecToSizedCharPtr).mapM readRow <;> simp [Except.map]

/-- A memory of 16 MiB with nothing in it. -/
def pages : Allocator := bump (2 ^ 24) (by decide)

def emptyHeap : Heap := ⟨fun _ => 0, []⟩

/-- The result of the demo. -/
theorem stack_lossless_three : ∃ struct after, returnStack pages emptyHeap true [[3]] = some (struct, after) ∧
    extractStack pages.limit after.memory struct = .ok ⟨true, [[3]]⟩ := by
  obtain ⟨struct, after, returned, lossless⟩ :=
    stack_lossless_iff pages emptyHeap true [[3]] (by decide)
  exact ⟨struct, after, returned, lossless.mpr (by decide)⟩

theorem mapM_readRow_singleton (strvec : Bytes) : [Bridge.strvecToSizedCharPtr strvec].mapM readRow =
    if strvec.length % 256 < 128 then .ok [strvec.take (strvec.length % 256)] else .error .invalidTypedArray := by
  rw [List.mapM_cons, List.mapM_nil, readRow_eq]
  split <;> rfl

/-- A row of 128 bytes makes the reader throw, a row of 256 bytes comes back empty. -/
theorem stack_long_rows :
    (∃ struct after, returnStack pages emptyHeap true [List.replicate 128 0xaa] = some (struct, after) ∧
      extractStack pages.limit after.memory struct = .error .invalidTypedArray) ∧
    (∃ struct after, returnStack pages emptyHeap true [List.replicate 256 0xaa] = some (struct, after) ∧
      extractStack pages.limit after.memory struct = .ok ⟨true, [[]]⟩) := by
  constructor
  · obtain ⟨struct, after, returned, extracted⟩ :=
      extractStack_returnStack pages emptyHeap true [List.replicate 128 0xaa] (by decide +kernel)
    rw [List.map_singleton, mapM_readRow_singleton, List.length_replicate] at extracted
    exact ⟨struct, after, returned, extracted⟩
  · obtain ⟨struct, after, returned, extracted⟩ :=
      extractStack_returnStack pages emptyHeap true [List.replicate 256 0xaa] (by decide +kernel)
    rw [List.map_singleton, mapM_readRow_singleton, List.length_replicate] at extracted
    exact ⟨struct, after, returned, extracted⟩

end BitcoinWasm.Marshalling
