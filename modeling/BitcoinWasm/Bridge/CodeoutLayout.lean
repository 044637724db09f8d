import BitcoinWasm.Bridge.Rows

/-! The disassembler in linear memory.

The struct holds the count of the first walk and a pointer to an array of that
many slots, which the second walk fills. The first walk gives up with -1 where
the second goes on, and no memory has room for an array of that size.
-/

set_option autoImplicit false

namespace BitcoinWasm.Marshalling
open BitcoinWasm.Encoding BitcoinWasm.Script BitcoinWasm.CLibrary BitcoinWasm.Semantics BitcoinWasm.Bridge

def codeoutSize : Nat := 8
def linesOffset : Nat := 4

/-- `len` stands in front of `lines`. -/
def codeout : Layout where
  size := codeoutSize
  len := 0
  pointer := linesOffset
  len_inside := Nat.le_add_left 4 4
  pointer_inside := Nat.le_refl 8
  apart := .inl (Nat.le_refl 4)

/-- The blocks that `decompile` asks for. -/
def codeRequests (operations : List Operation) : List Nat :=
  tableRequests codeout (operations.map operationRow)

/-- An `int` as an unsigned 32-bit word. -/
def intWord (value : Int) : Nat := (value % 2 ^ 32).toNat

variable (allocator : Allocator) (library : Library)

/-- The loop of `decompile`. -/
def fillLines (heap : Heap) (lines : Nat) (pc : Bytes) (i : Nat) : Option Heap :=
  if pc ≠ [] then
    if !(library.getOp pc).found then fillLines heap lines (library.getOp pc).pc (i + 1)
    else do
      let vch := ((library.getOp pc).vch.reverse ++ [(library.getOp pc).opcode]).reverse
      let (row, heap) ← strvecToSizedCharPtr allocator heap vch
      fillLines (heap.store (lines + pointerSize * i) (wordLE 4 row)) lines (library.getOp pc).pc (i + 1)
  else some heap
termination_by pc.length
decreasing_by all_goals exact library.getOp_advances pc ‹_›

/-- `decompile` behind `scripts.at`. -/
def layOut (heap : Heap) (c : Bytes) : Option (Nat × Heap) := do
  let (code, heap) := allocator.malloc heap codeoutSize
  let len := scriptCount library c
  -- A count of -1 is stored like any other, and makes the size of the array too large.
  let heap := heap.store code (wordLE 4 (intWord len))
  let (lines, heap) := allocator.malloc heap (intWord (pointerSize * len))
  let heap := heap.store (code + linesOffset) (wordLE 4 lines)
  let heap ← fillLines allocator library heap lines c 0
  return (code, heap)

def decompile (scripts : Scripts) (heap : Heap) (idx : Int32) : Except StdException (Option (Nat × Heap)) := do
  let c ← scriptAt scripts idx
  return layOut allocator library heap c

/-- The pointer that is returned, from the first slot of the array. -/
def scriptToString (scripts : Scripts) (heap : Heap) (idx : Int32) : Except StdException (Option (Nat × Heap)) := do
  let result ← decompile allocator library scripts heap idx
  return result.map fun (code, heap) => (heap.memory.loadWord (heap.memory.loadWord (code + linesOffset)), heap)

/-- A row as a caller reads it that takes the length byte as unsigned. -/
def loadRow (memory : Memory) (addr : Nat) : Bytes := memory.load (addr + 1) (memory addr).toNat

/-- The first rows of an array. -/
def loadRows (memory : Memory) (slot : Nat) : Nat → List Bytes
  | 0 => []
  | remaining + 1 => loadRow memory (memory.loadWord slot) :: loadRows memory (slot + 4) remaining

/-- `Pointer_stringify`: the bytes up to the first NUL. -/
def cString (limit : Nat) (memory : Memory) (addr : Nat) : Bytes :=
  (memory.load addr (limit - addr)).takeWhile (· ≠ 0)

theorem cString_noNul (limit : Nat) (memory : Memory) (addr : Nat) : 0 ∉ cString limit memory addr := by
  intro member
  have set := List.mem_takeWhile_imp member
  exact of_decide_eq_true set rfl

theorem cString_length_le (limit : Nat) (memory : Memory) (addr : Nat) :
    (cString limit memory addr).length ≤ limit := by
  have shorter := (List.takeWhile_prefix (l := memory.load addr (limit - addr)) (· ≠ 0)).length_le
  have loaded : (memory.load addr (limit - addr)).length = limit - addr := by simp [Memory.load]
  rw [loaded] at shorter
  exact Nat.le_trans shorter (Nat.sub_le limit addr)

theorem intWord_natCast {value : Nat} (small : value < 2 ^ 32) : intWord value = value := by
  unfold intWord
  omega

/-- The loop places the rows that the second walk stores, at their indices. -/
theorem fillLines_eq (heap : Heap) (lines : Nat) (pc : Bytes) (i : Nat) :
    fillLines allocator library heap lines pc i =
      placeLines allocator heap lines (Bridge.fillLines library pc i) := by
  induction pc, i using Bridge.fillLines.induct library generalizing heap with
  | case1 pc i more failed ih =>
    rw [fillLines, Bridge.fillLines, if_pos more, if_pos more, if_pos failed, if_pos failed]
    exact ih heap
  | case2 pc i more found ih =>
    rw [fillLines, Bridge.fillLines, if_pos more, if_pos more, if_neg found, if_neg found, placeLines]
    simp only [strvecToSizedCharPtr]
    change ((allocator.new heap (rowSize (Bridge.strvecToSizedCharPtr _))).bind _).bind _ = _
    cases allocator.new heap (rowSize (Bridge.strvecToSizedCharPtr
        ((library.getOp pc).vch.reverse ++ [(library.getOp pc).opcode]).reverse)) with
    | none => rfl
    | some result => exact ih _
  | case3 pc i ended =>
    rw [fillLines, Bridge.fillLines, if_neg ended, if_neg ended]
    rfl

theorem load_append (memory : Memory) (addr front back : Nat) :
    memory.load addr (front + back) = memory.load addr front ++ memory.load (addr + front) back := by
  unfold Memory.load
  rw [List.range_add, List.map_append, List.map_map]
  congr 1
  apply List.map_congr_left
  intro i _
  exact congrArg memory (Nat.add_assoc addr front i).symm

theorem loadRow_eq {memory : Memory} {addr : Nat} {row : SizedRow} (held : memory.Holds addr (rowBytes row)) :
    loadRow memory addr = row.copied := by
  obtain ⟨length, copied⟩ := Memory.holds_cons.mp held
  rw [loadRow, length, ← row.copied_length]
  exact copied.load

theorem loadRows_eq {limit : Nat} (limit_le : limit ≤ 2 ^ 31) {kept : List Block} {heap : Heap} {slot : Nat}
    (rows : List SizedRow) (stored : RowsAt limit kept heap slot rows) :
    loadRows heap.memory slot rows.length = rows.map SizedRow.copied := by
  induction rows generalizing slot with
  | nil => rfl
  | cons row rest ih =>
    obtain ⟨⟨addr, pointer, owned, _⟩, others⟩ := stored
    have inside : addr + rowSize row ≤ limit := owned.inside
    have address : heap.memory.loadWord slot = addr := pointer.loadWord (by omega)
    rw [List.length_cons, loadRows, address, loadRow_eq owned.held, ih others, List.map_cons]

/-- A struct of operations, as a caller reads it who loads words and rows. -/
theorem TableAt.load {limit : Nat} (limit_le : limit ≤ 2 ^ 31) {heap : Heap} {code lines : Nat}
    {rows : List SizedRow} (stands : TableAt codeout limit heap code lines rows) :
    heap.memory.loadWord code = rows.length ∧ heap.memory.loadWord (code + linesOffset) = lines ∧
      loadRows heap.memory lines rows.length = rows.map SizedRow.copied := by
  have inside : lines + 4 * rows.length ≤ limit := stands.arrayInside
  have len : heap.memory.loadWord code = rows.length := stands.lenHeld.loadWord (by omega)
  have pointer : heap.memory.loadWord (code + linesOffset) = lines := stands.pointerHeld.loadWord (by omega)
  exact ⟨len, pointer, loadRows_eq limit_le rows stands.rowsAt⟩

variable {allocator} {library}

/-- The struct of a script of whole operations. -/
theorem decompile_spec (reads : library.ReadsFormat) {scripts : Scripts} {idx : Int32} {operations : List Operation}
    (found : scriptAt scripts idx = .ok (format.encodeAll operations)) (heap : Heap) {sizes : List Nat}
    (served : allocator.serves heap.live (codeRequests operations ++ sizes)) :
    ∃ code lines after, decompile allocator library scripts heap idx = .ok (some (code, after)) ∧
      TableAt codeout allocator.limit after code lines (operations.map operationRow) ∧
      Frame heap after (fun _ => False) ∧ allocator.serves after.live sizes := by
  obtain ⟨code, lines, after, codePlaced, linesPlaced, stored, stands, frame, _, later⟩ :=
    table_spec codeout (operations.map operationRow) served
  refine ⟨code, lines, after, ?_, stands, frame, later⟩
  have inside : lines + 4 * (operations.map operationRow).length ≤ allocator.limit := stands.arrayInside
  have limit := allocator.limit_le
  rw [List.length_map] at linesPlaced stored inside
  -- The count of the first walk, and the size of the array that is made from it.
  have count : intWord (scriptCount library (format.encodeAll operations)) = operations.length := by
    rw [scriptCount_encodeAll reads, intWord_natCast (by omega)]
  have size : intWord (pointerSize * scriptCount library (format.encodeAll operations)) =
      pointerSize * operations.length := by
    have small : pointerSize * operations.length < 2 ^ 32 := by
      unfold pointerSize
      omega
    rw [scriptCount_encodeAll reads]
    exact intWord_natCast small
  have allocated : allocator.malloc heap codeoutSize = (code, ⟨heap.memory, ⟨code, codeoutSize⟩ :: heap.live⟩) :=
    allocator.malloc_placed codePlaced
  let counted : Heap := (Heap.mk heap.memory (⟨code, codeoutSize⟩ :: heap.live)).store code (wordLE 4 operations.length)
  have arrayAllocated : allocator.malloc counted (pointerSize * operations.length) = (lines,
      ⟨counted.memory, ⟨lines, pointerSize * operations.length⟩ :: counted.live⟩) :=
    allocator.malloc_placed linesPlaced
  rw [decompile, found]
  apply congrArg Except.ok
  simp only [counted] at arrayAllocated
  simp only [layOut, allocated, count, size, fillLines_eq, fillLines_encodeAll reads, arrayAllocated]
  change (placeLines allocator (codeout.setWords ⟨heap.memory, ⟨lines, pointerSize * operations.length⟩ ::
    ⟨code, codeout.size⟩ :: heap.live⟩ code lines operations.length) lines _).bind _ = _
  rw [stored]
  rfl

/-- Reading `len` rows of the struct gives the rows of the disassembler. -/
theorem decompile_loadRows (reads : library.ReadsFormat) {scripts : Scripts} {idx : Int32}
    {operations : List Operation} (found : scriptAt scripts idx = .ok (format.encodeAll operations)) (heap : Heap)
    (served : allocator.serves heap.live (codeRequests operations)) :
    ∃ code after, decompile allocator library scripts heap idx = .ok (some (code, after)) ∧
      loadRows after.memory (after.memory.loadWord (code + linesOffset)) (after.memory.loadWord code) =
        (operations.map operationRow).map SizedRow.copied := by
  obtain ⟨code, lines, after, returned, stands, _⟩ :=
    decompile_spec reads found heap (allocator.serves_append_nil served)
  obtain ⟨len, pointer, loaded⟩ := stands.load allocator.limit_le
  refine ⟨code, after, returned, ?_⟩
  rw [pointer, len, loaded]

/-- For a script that ends within an operation the pointers go to the addresses
from the null pointer on. -/
theorem decompile_incomplete (reads : library.ReadsFormat) {scripts : Scripts} {idx : Int32} {script : Bytes}
    (found : scriptAt scripts idx = .ok script) (incomplete : ¬ format.Complete script) (heap : Heap) :
    ∃ code words, decompile allocator library scripts heap idx =
        .ok ((placeLines allocator words 0 (Bridge.fillLines library script 0)).map (code, ·)) ∧
      words.memory.Holds code (wordLE 4 (2 ^ 32 - 1)) ∧ words.memory.Holds (code + linesOffset) (wordLE 4 0) := by
  have count : scriptCount library script = -1 := scriptCountFrom_incomplete reads incomplete 0
  let struct := allocator.malloc heap codeoutSize
  let counted := struct.2.store struct.1 (wordLE 4 (2 ^ 32 - 1))
  have limit := allocator.limit_le
  have refused : allocator.malloc counted (intWord (pointerSize * -1)) = (0, counted) := by
    apply allocator.malloc_too_large
    -- Four times -1, as an unsigned word, is more than the whole memory.
    have large : intWord (pointerSize * -1) = 4294967292 := rfl
    rw [large]
    omega
  refine ⟨struct.1, counted.store (struct.1 + linesOffset) (wordLE 4 0), ?_, ?_, Memory.store_holds _ _ _⟩
  · rw [decompile, found]
    apply congrArg Except.ok
    simp only [layOut, count, fillLines_eq]
    let array := allocator.malloc counted (intWord (pointerSize * -1))
    change (placeLines allocator (array.2.store (struct.1 + linesOffset) (wordLE 4 array.1)) array.1 _).bind _ = _
    rw [show array = (0, counted) from refused, Option.map_eq_bind]
    rfl
  · apply (Memory.store_holds struct.2.memory struct.1 (wordLE 4 (2 ^ 32 - 1))).store
    rw [wordLE_length]
    exact .inl (Nat.le_refl _)

end BitcoinWasm.Marshalling
