import BitcoinWasm.Bridge.Disassembler
import BitcoinWasm.Semantics.LinearMemory

/-! Rows in linear memory.

Every row gets a block of its own, and a pointer to it goes into a slot of an
array. Both loops of the bridge that hand rows to a caller work this way, and both
structs hold the count and the array, so what they leave behind is stated once,
for any list of rows and any layout of the struct.
-/

set_option autoImplicit false

namespace BitcoinWasm.Marshalling
open BitcoinWasm.Encoding BitcoinWasm.Script BitcoinWasm.Semantics BitcoinWasm.Bridge

def pointerSize : Nat := 4

variable (allocator : Allocator)

def strvecToSizedCharPtr (heap : Heap) (strvec : Bytes) : Option (Nat × Heap) := do
  let vsize := UInt8.ofNat strvec.length
  let (c_copy, heap) ← allocator.new heap (vsize.toNat + 2)
  let heap := heap.store (c_copy + 1) (strvec.take vsize.toNat)
  return (c_copy, heap.store c_copy [vsize])

/-- A row as it stands in memory. -/
def rowBytes (row : SizedRow) : Bytes := row.vsize :: row.copied

/-- The size of the block of a row, whose last byte is never written. -/
def rowSize (row : SizedRow) : Nat := row.vsize.toNat + 2

/-- The two stores that fill the block of a row. -/
def storeRow (heap : Heap) (addr : Nat) (row : SizedRow) : Heap :=
  (heap.store (addr + 1) row.copied).store addr [row.vsize]

/-- The stores `lines[i] = row`, each row in a new block. -/
def placeLines (heap : Heap) (lines : Nat) : List (SizedRow × Nat) → Option Heap
  | [] => some heap
  | (row, i) :: rest => do
    let (addr, heap) ← allocator.new heap (rowSize row)
    placeLines ((storeRow heap addr row).store (lines + pointerSize * i) (wordLE 4 addr)) lines rest

/-- A row in a block of its own, away from the `kept` blocks. -/
def RowAt (limit : Nat) (kept : List Block) (heap : Heap) (addr : Nat) (row : SizedRow) : Prop :=
  Owned limit heap ⟨addr, rowSize row⟩ (rowBytes row) ∧ ∀ block ∈ kept, Block.Disjoint ⟨addr, rowSize row⟩ block

/-- Pointers to the rows in consecutive slots. -/
def RowsAt (limit : Nat) (kept : List Block) (heap : Heap) (slot : Nat) (rows : List SizedRow) : Prop :=
  PointersAt (RowAt limit kept heap) heap.memory slot rows

theorem rowBytes_length (row : SizedRow) : (rowBytes row).length + 1 = rowSize row := by
  rw [rowBytes, List.length_cons, row.copied_length, rowSize]

theorem RowsAt.mono {limit : Nat} {large small : List Block} {heap : Heap} {slot : Nat} {rows : List SizedRow}
    (stored : RowsAt limit large heap slot rows) (subset : ∀ block ∈ small, block ∈ large) :
    RowsAt limit small heap slot rows := by
  apply PointersAt.imp stored
  intro addr row ⟨owned, apart⟩
  exact ⟨owned, fun block member => apart block (subset block member)⟩

/-- Rows survive a store into one of the blocks they keep away from, if their pointers do. -/
theorem RowsAt.store {limit : Nat} {kept : List Block} {heap : Heap} {slot : Nat} {rows : List SizedRow}
    (stored : RowsAt limit kept heap slot rows) {block : Block} (member : block ∈ kept) {addr : Nat} {bytes : Bytes}
    (lower : block.addr ≤ addr) (upper : addr + bytes.length ≤ block.addr + block.size)
    (slots : slot + 4 * rows.length ≤ block.addr ∨ block.addr + block.size ≤ slot) :
    RowsAt limit kept (heap.store addr bytes) slot rows := by
  have moved : PointersAt (RowAt limit kept heap) (heap.store addr bytes).memory slot rows := by
    apply PointersAt.of_eq stored
    intro a low high
    apply Memory.store_outside
    omega
  apply PointersAt.imp moved
  intro place row ⟨owned, apart⟩
  have disjoint := Block.disjoint_mk.mp (apart block member)
  have fits : (rowBytes row).length ≤ rowSize row := owned.fits
  refine ⟨⟨owned.member, ?_, owned.fits, owned.inside⟩, apart⟩
  apply Memory.Holds.store owned.held
  simp only
  omega

/-- Rows of an array survive everything that happens in other blocks. -/
theorem RowsAt.frame {limit : Nat} {kept : List Block} {before after : Heap} {array : Block} {rows : List SizedRow}
    (stored : RowsAt limit kept before array.addr rows) (frame : Frame before after fun _ => False)
    (member : array ∈ before.live) (size : array.size = 4 * rows.length) :
    RowsAt limit kept after array.addr rows := by
  apply frame.pointersAt member size stored
  intro addr row ⟨owned, apart⟩
  exact ⟨owned.frame frame, apart⟩

theorem storeRow_holds (heap : Heap) (addr : Nat) (row : SizedRow) :
    (storeRow heap addr row).memory.Holds addr (rowBytes row) := by
  apply Memory.holds_cons.mpr
  constructor
  · exact (Memory.holds_cons.mp (Memory.store_holds _ addr [row.vsize])).1
  · apply (Memory.store_holds heap.memory (addr + 1) row.copied).store
    exact .inr (Nat.le_refl _)

theorem storeRow_frame (heap : Heap) (addr : Nat) (row : SizedRow) :
    Frame heap (storeRow heap addr row) fun a => addr ≤ a ∧ a < addr + (rowBytes row).length := by
  apply Frame.trans (Frame.mono (Frame.store heap (addr + 1) row.copied) _)
    (Frame.mono (Frame.store _ addr [row.vsize]) _)
  · intro a touched
    rw [rowBytes, List.length_cons]
    omega
  · intro a touched
    rw [List.length_singleton] at touched
    rw [rowBytes, List.length_cons]
    omega

/-- A row outlives what happens in a block it keeps away from. -/
theorem RowAt.beside {limit : Nat} {kept : List Block} {before after : Heap} {addr : Nat} {row : SizedRow}
    (stands : RowAt limit kept before addr row) {other : Block} (member : other ∈ kept)
    (frame : Frame before after other.Contains) : RowAt limit kept after addr row := by
  obtain ⟨owned, apart⟩ := stands
  refine ⟨⟨frame.live _ owned.member, ?_, owned.fits, owned.inside⟩, apart⟩
  apply frame.holds_beside _ owned.member (Nat.le_refl addr) (Nat.add_le_add_left owned.fits addr) owned.held
  exact (apart other member).symm

variable {allocator}

/-- The step lemma: the row goes into a new block, and a pointer to it into its slot. -/
theorem placeRow_spec {array : Block} (slot : Nat) (row : SizedRow) {heap : Heap} {sizes : List Nat}
    (member : array ∈ heap.live) (lower : array.addr ≤ slot) (upper : slot + 4 ≤ array.addr + array.size)
    (served : allocator.serves heap.live (rowSize row :: sizes)) :
    ∃ addr, allocator.new heap (rowSize row) = some (addr, ⟨heap.memory, ⟨addr, rowSize row⟩ :: heap.live⟩) ∧
      let next := (storeRow ⟨heap.memory, ⟨addr, rowSize row⟩ :: heap.live⟩ addr row).store slot (wordLE 4 addr)
      Frame heap next (fun a => slot ≤ a ∧ a < slot + 4) ∧ next.memory.Holds slot (wordLE 4 addr) ∧
        RowAt allocator.limit heap.live next addr row ∧ allocator.serves next.live sizes := by
  obtain ⟨addr, free, inside, apart, later⟩ := allocator.serves_cons served
  refine ⟨addr, allocator.new_placed free, ?_, Memory.store_holds _ _ _, ?_, later⟩
  · apply Frame.fresh apart
    apply Frame.trans ((storeRow_frame _ addr row).mono _) ((Frame.store _ slot (wordLE 4 addr)).mono _)
    · intro a touched
      have length := rowBytes_length row
      exact .inl ⟨touched.1, by simp only; omega⟩
    · intro a touched
      rw [wordLE_length] at touched
      exact .inr touched
  · have stored : RowAt allocator.limit heap.live
        (storeRow ⟨heap.memory, ⟨addr, rowSize row⟩ :: heap.live⟩ addr row) addr row :=
      ⟨⟨List.mem_cons_self, storeRow_holds _ addr row, Nat.le.intro (rowBytes_length row), inside⟩, apart⟩
    apply stored.beside member
    apply (Frame.store _ slot (wordLE 4 addr)).mono
    intro a touched
    rw [wordLE_length] at touched
    exact ⟨Nat.le_trans lower touched.1, Nat.lt_of_lt_of_le touched.2 upper⟩

/-- The loop lemma: consecutive slots of an array get their pointers, every row
its own block, and nothing else changes. -/
theorem placeLines_spec (array : Block) {lines : Nat} (rows : List SizedRow) (heap : Heap) (i : Nat)
    {sizes : List Nat} (member : array ∈ heap.live) (lower : array.addr ≤ lines)
    (upper : lines + 4 * (i + rows.length) ≤ array.addr + array.size)
    (served : allocator.serves heap.live (rows.map rowSize ++ sizes)) :
    ∃ after, placeLines allocator heap lines (rows.zipIdx i) = some after ∧
      Frame heap after (fun a => lines + 4 * i ≤ a ∧ a < lines + 4 * (i + rows.length)) ∧
      RowsAt allocator.limit heap.live after (lines + 4 * i) rows ∧ allocator.serves after.live sizes := by
  induction rows generalizing heap i with
  | nil => exact ⟨heap, rfl, Frame.refl _ _, trivial, served⟩
  | cons row rest ih =>
    rw [List.length_cons] at upper
    obtain ⟨addr, allocated, rowFrame, pointer, stands, others⟩ := placeRow_spec (lines + 4 * i) row member
      (Nat.le_trans lower (Nat.le_add_right _ _)) (by omega) served
    obtain ⟨after, stored, restFrame, restRows, later⟩ := ih _ (i + 1) (rowFrame.live array member) (by omega) others
    -- The later slots are in the array as well, and none of them is this one.
    have arrayFrame : Frame _ after array.Contains := restFrame.mono fun a touched => ⟨by omega, by omega⟩
    refine ⟨after, ?_, ?_, ⟨⟨addr, ?_, stands.beside member arrayFrame⟩, ?_⟩, later⟩
    · simp only [List.zipIdx_cons, placeLines, allocated]
      exact stored
    · apply Frame.trans (rowFrame.mono _) (restFrame.mono _)
      · intro a touched
        rw [List.length_cons]
        omega
      · intro a touched
        rw [List.length_cons]
        omega
    · apply restFrame.holds (rowFrame.live array member) pointer
      intro a low high
      rw [wordLE_length] at high
      unfold Block.Contains
      omega
    · exact RowsAt.mono restRows rowFrame.live

/-! ## Structs -/

/-- Where a struct holds the count of its rows and the pointer to their array. -/
structure Layout where
  size : Nat
  len : Nat
  pointer : Nat
  len_inside : len + 4 ≤ size
  pointer_inside : pointer + 4 ≤ size
  apart : len + 4 ≤ pointer ∨ pointer + 4 ≤ len

/-- A struct with its array and its rows. -/
structure TableAt (layout : Layout) (limit : Nat) (heap : Heap) (struct lines : Nat) (rows : List SizedRow) :
    Prop where
  structMember : ⟨struct, layout.size⟩ ∈ heap.live
  arrayMember : ⟨lines, pointerSize * rows.length⟩ ∈ heap.live
  arrayInside : lines + pointerSize * rows.length ≤ limit
  apart : Block.Disjoint ⟨lines, pointerSize * rows.length⟩ ⟨struct, layout.size⟩
  lenHeld : heap.memory.Holds (struct + layout.len) (wordLE 4 rows.length)
  pointerHeld : heap.memory.Holds (struct + layout.pointer) (wordLE 4 lines)
  rowsAt : RowsAt limit [⟨struct, layout.size⟩] heap lines rows

variable {layout : Layout}

/-- The blocks that a struct with its rows asks for. -/
def tableRequests (layout : Layout) (rows : List SizedRow) : List Nat :=
  layout.size :: pointerSize * rows.length :: rows.map rowSize

/-- What happens in other blocks does not touch a returned struct. -/
theorem TableAt.frame {limit : Nat} {before after : Heap} {struct lines : Nat} {rows : List SizedRow}
    (stands : TableAt layout limit before struct lines rows) (frame : Frame before after fun _ => False) :
    TableAt layout limit after struct lines rows := by
  have words : ∀ offset value, offset + 4 ≤ layout.size →
      before.memory.Holds (struct + offset) (wordLE 4 value) → after.memory.Holds (struct + offset) (wordLE 4 value) := by
    intro offset value upper held
    apply frame.holds stands.structMember held
    intro a low high
    rw [wordLE_length] at high
    rw [Block.contains_mk]
    exact ⟨by omega, id⟩
  constructor
  case structMember => exact frame.live _ stands.structMember
  case arrayMember => exact frame.live _ stands.arrayMember
  case arrayInside => exact stands.arrayInside
  case apart => exact stands.apart
  case lenHeld => exact words _ _ layout.len_inside stands.lenHeld
  case pointerHeld => exact words _ _ layout.pointer_inside stands.pointerHeld
  case rowsAt => exact stands.rowsAt.frame frame stands.arrayMember rfl

/-- A store into the struct, beside its two words. -/
theorem TableAt.store {limit : Nat} {heap : Heap} {struct lines : Nat} {rows : List SizedRow}
    (stands : TableAt layout limit heap struct lines rows) {addr : Nat} {bytes : Bytes} (lower : struct ≤ addr)
    (upper : addr + bytes.length ≤ struct + layout.size)
    (besideLen : addr + bytes.length ≤ struct + layout.len ∨ struct + layout.len + 4 ≤ addr)
    (besidePointer : addr + bytes.length ≤ struct + layout.pointer ∨ struct + layout.pointer + 4 ≤ addr) :
    TableAt layout limit (heap.store addr bytes) struct lines rows := by
  constructor
  case structMember => exact stands.structMember
  case arrayMember => exact stands.arrayMember
  case arrayInside => exact stands.arrayInside
  case apart => exact stands.apart
  case lenHeld =>
    apply stands.lenHeld.store
    rw [wordLE_length]
    exact besideLen.symm
  case pointerHeld =>
    apply stands.pointerHeld.store
    rw [wordLE_length]
    exact besidePointer.symm
  case rowsAt => exact stands.rowsAt.store List.mem_cons_self lower upper stands.apart

/-- The heap when the loop starts: both words of the struct are set. -/
def Layout.setWords (layout : Layout) (heap : Heap) (struct lines count : Nat) : Heap :=
  (heap.store (struct + layout.len) (wordLE 4 count)).store (struct + layout.pointer) (wordLE 4 lines)

theorem Layout.setWords_comm (layout : Layout) (heap : Heap) (struct lines count : Nat) :
    layout.setWords heap struct lines count =
      (heap.store (struct + layout.pointer) (wordLE 4 lines)).store (struct + layout.len) (wordLE 4 count) := by
  apply congrArg (Heap.mk · heap.live)
  apply Memory.store_comm
  have apart := layout.apart
  rw [wordLE_length, wordLE_length]
  omega

/-- A new struct and a new array, and the loop that fills the array. Everything
happens in these two blocks and in the blocks of the rows. -/
theorem table_spec (layout : Layout) (rows : List SizedRow) {heap : Heap} {sizes : List Nat}
    (served : allocator.serves heap.live (tableRequests layout rows ++ sizes)) :
    ∃ struct lines after, allocator.place heap.live layout.size = some struct ∧
      allocator.place (⟨struct, layout.size⟩ :: heap.live) (pointerSize * rows.length) = some lines ∧
      placeLines allocator (layout.setWords
        ⟨heap.memory, ⟨lines, pointerSize * rows.length⟩ :: ⟨struct, layout.size⟩ :: heap.live⟩
        struct lines rows.length) lines rows.zipIdx = some after ∧
      TableAt layout allocator.limit after struct lines rows ∧ Frame heap after (fun _ => False) ∧
      (∀ other ∈ heap.live, Block.Disjoint ⟨struct, layout.size⟩ other) ∧ allocator.serves after.live sizes := by
  obtain ⟨struct, structPlaced, _, structApart, others⟩ := allocator.serves_cons served
  obtain ⟨lines, arrayPlaced, inside, arrayApart, rowsServed⟩ := allocator.serves_cons others
  let block : Block := ⟨struct, layout.size⟩
  let array : Block := ⟨lines, pointerSize * rows.length⟩
  let words := layout.setWords ⟨heap.memory, array :: block :: heap.live⟩ struct lines rows.length
  obtain ⟨wordsFrame, lenHeld, pointerHeld⟩ := store_words ⟨heap.memory, array :: block :: heap.live⟩ block
    layout.len layout.pointer rows.length lines ⟨layout.len_inside, layout.pointer_inside⟩ layout.apart
  have blockMember : block ∈ words.live := List.mem_cons_of_mem array List.mem_cons_self
  have arrayMember : array ∈ words.live := List.mem_cons_self
  have apart : array.Disjoint block := arrayApart block List.mem_cons_self
  obtain ⟨after, stored, loopFrame, placed, later⟩ := placeLines_spec array rows words 0 arrayMember (Nat.le_refl _)
    (by rw [Nat.zero_add]; exact Nat.le_refl _) rowsServed
  have arrayFrame : Frame words after array.Contains := by
    apply loopFrame.mono
    intro a touched
    rw [Nat.zero_add] at touched
    exact touched
  -- The loop stays out of the struct, so its words outlive it.
  have kept : ∀ offset value, offset + 4 ≤ layout.size →
      words.memory.Holds (struct + offset) (wordLE 4 value) → after.memory.Holds (struct + offset) (wordLE 4 value) := by
    intro offset value upper
    apply arrayFrame.holds_beside apart blockMember (Nat.le_add_right struct offset)
    rw [wordLE_length, Nat.add_assoc]
    exact Nat.add_le_add_left upper struct
  refine ⟨struct, lines, after, structPlaced, arrayPlaced, stored, ?_, ?_, structApart, later⟩
  · constructor
    case structMember => exact arrayFrame.live block blockMember
    case arrayMember => exact arrayFrame.live array arrayMember
    case arrayInside => exact inside
    case apart => exact apart
    case lenHeld => exact kept _ _ layout.len_inside lenHeld
    case pointerHeld => exact kept _ _ layout.pointer_inside pointerHeld
    case rowsAt =>
      apply RowsAt.mono placed
      intro other member
      rw [List.mem_singleton.mp member]
      exact blockMember
  · apply Frame.fresh structApart
    apply Frame.fresh arrayApart
    apply (wordsFrame.mono _).trans (arrayFrame.mono _)
    · exact fun a own => .inr (.inl own)
    · exact fun a own => .inl own

end BitcoinWasm.Marshalling
