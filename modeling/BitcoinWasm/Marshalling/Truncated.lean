import BitcoinWasm.Bridge.CodeoutLayout
import BitcoinWasm.Semantics.Growth

/-! What disassembling a script that ends within an operation does to the memory.

There is no array, and the rows are pointed to from the null pointer on. As long
as the allocator keeps behind all of these addresses, no block is touched: the
caller is left with a count of -1, and with the row of the first operation.
-/

set_option autoImplicit false

namespace BitcoinWasm.Marshalling
open BitcoinWasm.Encoding BitcoinWasm.Script BitcoinWasm.CLibrary BitcoinWasm.Semantics BitcoinWasm.Bridge

variable {allocator : Allocator} {library : Library}

/-! ## The indices of the stores -/

/-- Every step of the walk takes a byte at least, so no index is beyond the script. -/
theorem fillLines_index (pc : Bytes) (i : Nat) :
    ∀ store ∈ Bridge.fillLines library pc i, i ≤ store.2 ∧ store.2 < i + pc.length := by
  induction pc, i using Bridge.fillLines.induct library with
  | case1 pc i more failed ih =>
    rw [Bridge.fillLines, if_pos more, if_pos failed]
    intro store member
    have inside := ih store member
    have shorter := library.getOp_advances pc more
    omega
  | case2 pc i more found ih =>
    rw [Bridge.fillLines, if_pos more, if_neg found]
    intro store member
    have shorter := library.getOp_advances pc more
    rcases List.mem_cons.mp member with rfl | later
    · simp only
      omega
    · have inside := ih store later
      omega
  | case3 pc i ended =>
    rw [Bridge.fillLines, if_neg ended]
    intro store member
    cases member

/-- A first store at index 0 is not repeated, and without one nothing is found there. -/
theorem line?_zero {len : Int} {stores : List (SizedRow × Nat)} (later : ∀ store ∈ stores, 0 < store.2) :
    (⟨len, stores⟩ : Codeout).line? 0 = none ∧ ∀ row, (⟨len, (row, 0) :: stores⟩ : Codeout).line? 0 = some row := by
  have missing : stores.reverse.find? (fun store => store.2 = 0) = none := by
    rw [List.find?_eq_none]
    intro store member
    have positive := later store (List.mem_reverse.mp member)
    simpa using Nat.ne_of_gt positive
  constructor
  · rw [Codeout.line?, missing]
    rfl
  · intro row
    rw [Codeout.line?, List.reverse_cons, List.find?_append, missing]
    rfl

/-- The row at index 0 is the first one that is stored. -/
theorem fillLines_of_line {script : Bytes} {len : Int} {row : SizedRow}
    (line : (⟨len, Bridge.fillLines library script 0⟩ : Codeout).line? 0 = some row) :
    ∃ rest, Bridge.fillLines library script 0 = (row, 0) :: rest ∧ ∀ store ∈ rest, 0 < store.2 := by
  have later : ∀ store ∈ Bridge.fillLines library (library.getOp script).pc 1, 0 < store.2 :=
    fun store member => (fillLines_index _ 1 store member).1
  obtain ⟨missing, present⟩ := @line?_zero len _ later
  rw [Bridge.fillLines] at line ⊢
  split at line
  next more =>
    split at line
    next failed =>
      rw [missing] at line
      cases line
    next read =>
      rw [present] at line
      cases line
      exact ⟨_, by rw [if_pos more, if_neg read], later⟩
  next => cases line

/-! ## Stores below all blocks -/

/-- The slots that the stores of an array at the null pointer go to. -/
def Slots (stores : List (SizedRow × Nat)) (a : Nat) : Prop :=
  ∃ store ∈ stores, pointerSize * store.2 ≤ a ∧ a < pointerSize * store.2 + 4

/-- A pointer in a slot below the base, and the row it leads to. -/
def PlacedAt (limit : Nat) (heap : Heap) (slot : Nat) (row : SizedRow) : Prop :=
  ∃ addr, heap.memory.Holds slot (wordLE 4 addr) ∧ Owned limit heap ⟨addr, rowSize row⟩ (rowBytes row)

/-- The step lemma: the row goes into a new block behind the base, its pointer below the base. -/
theorem placeRow_below {base slot : Nat} (behind : allocator.From base) {heap : Heap} {row : SizedRow}
    {sizes : List Nat} (stands : StandsFrom base heap.live) (low : slot + 4 ≤ base)
    (served : allocator.serves heap.live (rowSize row :: sizes)) :
    ∃ addr, allocator.new heap (rowSize row) = some (addr, ⟨heap.memory, ⟨addr, rowSize row⟩ :: heap.live⟩) ∧
      let next := (storeRow ⟨heap.memory, ⟨addr, rowSize row⟩ :: heap.live⟩ addr row).store slot (wordLE 4 addr)
      Frame heap next (fun _ => False) ∧ StandsFrom base next.live ∧ PlacedAt allocator.limit next slot row ∧
        (∀ a < base, ¬ (slot ≤ a ∧ a < slot + 4) → next.memory a = heap.memory a) ∧
        allocator.serves next.live sizes := by
  obtain ⟨addr, placed, inside, apart, later⟩ := allocator.serves_cons served
  have above : base ≤ addr := behind placed
  have length := rowBytes_length row
  let filled := storeRow ⟨heap.memory, ⟨addr, rowSize row⟩ :: heap.live⟩ addr row
  have filledStands : StandsFrom base filled.live := (Allocator.Grows.refl.place placed).standsFrom behind stands
  have rowFrame : Frame heap filled fun _ => False := by
    apply Frame.fresh apart
    apply (storeRow_frame _ addr row).mono
    intro a touched
    exact .inl ⟨touched.1, by simp only; omega⟩
  have slotFrame : Frame filled (filled.store slot (wordLE 4 addr)) fun _ => False := by
    apply Frame.store_below filledStands
    rw [wordLE_length]
    exact low
  have owned : Owned allocator.limit filled ⟨addr, rowSize row⟩ (rowBytes row) :=
    ⟨List.mem_cons_self, storeRow_holds _ addr row, Nat.le.intro length, inside⟩
  refine ⟨addr, allocator.new_placed placed, rowFrame.trans slotFrame, filledStands,
    ⟨addr, Memory.store_holds _ _ _, owned.frame slotFrame⟩, ?_, later⟩
  intro a lower untouched
  have outside : a < slot ∨ slot + (wordLE 4 addr).length ≤ a := by
    rw [wordLE_length]
    omega
  simp only [Heap.store]
  rw [Memory.store_outside outside]
  -- The row itself is in its new block, behind the base.
  simp only [storeRow, Heap.store]
  rw [Memory.store_outside (.inl (Nat.lt_of_lt_of_le lower above)), Memory.store_outside (.inl (by omega))]

theorem PlacedAt.later {limit slot : Nat} {before after : Heap} {row : SizedRow}
    (placed : PlacedAt limit before slot row) (frame : Frame before after fun _ => False)
    (kept : ∀ a, slot ≤ a → a < slot + 4 → after.memory a = before.memory a) : PlacedAt limit after slot row := by
  obtain ⟨addr, pointer, owned⟩ := placed
  refine ⟨addr, pointer.of_eq ?_, owned.frame frame⟩
  intro a lower upper
  rw [wordLE_length] at upper
  exact kept a lower upper

/-- The loop lemma: below the base only the slots change, and no live block does. A
first slot that is not used again keeps its pointer. -/
theorem placeLines_below {base : Nat} (behind : allocator.From base) (stores : List (SizedRow × Nat)) {heap : Heap}
    {sizes : List Nat} (stands : StandsFrom base heap.live)
    (low : ∀ store ∈ stores, pointerSize * (store.2 + 1) ≤ base)
    (served : allocator.serves heap.live (stores.map (fun store => rowSize store.1) ++ sizes)) :
    ∃ after, placeLines allocator heap 0 stores = some after ∧ Frame heap after (fun _ => False) ∧
      (∀ a < base, ¬ Slots stores a → after.memory a = heap.memory a) ∧
      (∀ row i rest, stores = (row, i) :: rest → (∀ store ∈ rest, i < store.2) →
        PlacedAt allocator.limit after (pointerSize * i) row) ∧ allocator.serves after.live sizes := by
  induction stores generalizing heap with
  | nil =>
    refine ⟨heap, rfl, Frame.refl _ _, fun _ _ _ => rfl, ?_, served⟩
    intro row i rest same
    cases same
  | cons store rest ih =>
    obtain ⟨row, i⟩ := store
    have slot : pointerSize * i + 4 ≤ base := low (row, i) List.mem_cons_self
    obtain ⟨addr, allocated, rowFrame, rowStands, placed, rowKept, others⟩ := placeRow_below behind stands slot served
    obtain ⟨after, stored, restFrame, restKept, _, later⟩ :=
      ih rowStands (fun store member => low store (List.mem_cons_of_mem _ member)) others
    refine ⟨after, ?_, rowFrame.trans restFrame, ?_, ?_, later⟩
    · simp only [placeLines, allocated, Nat.zero_add]
      exact stored
    · intro a lower untouched
      have others : ¬ Slots rest a := by
        rintro ⟨store, member, touched⟩
        exact untouched ⟨store, List.mem_cons_of_mem _ member, touched⟩
      rw [restKept a lower others]
      exact rowKept a lower fun touched => untouched ⟨(row, i), List.mem_cons_self, touched⟩
    · intro first index others same above
      rw [List.cons.injEq, Prod.mk.injEq] at same
      obtain ⟨⟨rfl, rfl⟩, rfl⟩ := same
      apply placed.later restFrame
      intro a lower upper
      apply restKept a (by omega)
      rintro ⟨store, member, touched⟩
      have behindIt := above store member
      unfold pointerSize at touched lower upper
      omega

/-! ## The struct -/

/-- The struct of a script that counts as -1. -/
def brokenCode : Bytes := wordLE 4 (2 ^ 32 - 1) ++ wordLE 4 0

/-- The blocks that `decompile` asks for: there is no memory for the array, so it is not among them. -/
def truncatedRequests (library : Library) (script : Bytes) : List Nat :=
  codeoutSize :: (Bridge.fillLines library script 0).map fun store => rowSize store.1

theorem decompile_truncated {base : Nat} (behind : allocator.From base) (reads : library.ReadsFormat)
    {scripts : Scripts} {idx : Int32} {script : Bytes} (found : scriptAt scripts idx = .ok script)
    (truncated : ¬ format.Complete script) (short : pointerSize * script.length ≤ base) {heap : Heap}
    (stands : StandsFrom base heap.live) {sizes : List Nat}
    (served : allocator.serves heap.live (truncatedRequests library script ++ sizes)) :
    ∃ code after, decompile allocator library scripts heap idx = .ok (some (code, after)) ∧
      Owned allocator.limit after ⟨code, codeoutSize⟩ brokenCode ∧ Frame heap after (fun _ => False) ∧
      (∀ row rest, Bridge.fillLines library script 0 = (row, 0) :: rest → (∀ store ∈ rest, 0 < store.2) →
        PlacedAt allocator.limit after 0 row) ∧ allocator.serves after.live sizes := by
  obtain ⟨code, placed, inside, apart, others⟩ := allocator.serves_cons served
  have count : scriptCount library script = -1 := scriptCountFrom_incomplete reads truncated 0
  let block : Block := ⟨code, codeoutSize⟩
  let counted : Heap := (Heap.mk heap.memory (block :: heap.live)).store code (wordLE 4 (2 ^ 32 - 1))
  let words : Heap := counted.store (code + linesOffset) (wordLE 4 0)
  have allocated : allocator.malloc heap codeoutSize = (code, ⟨heap.memory, block :: heap.live⟩) :=
    allocator.malloc_placed placed
  have limit := allocator.limit_le
  have refused : allocator.malloc counted (intWord (pointerSize * -1)) = (0, counted) := by
    apply allocator.malloc_too_large
    -- Four times -1, as an unsigned word, is more than the whole memory.
    have large : intWord (pointerSize * -1) = 4294967292 := rfl
    omega
  have wordsStand : StandsFrom base words.live := (Allocator.Grows.refl.place placed).standsFrom behind stands
  have slots : ∀ store ∈ Bridge.fillLines library script 0, pointerSize * (store.2 + 1) ≤ base := by
    intro store member
    have index := (fillLines_index script 0 store member).2
    unfold pointerSize at short ⊢
    omega
  obtain ⟨after, stored, loopFrame, _, first, later⟩ :=
    placeLines_below behind (Bridge.fillLines library script 0) wordsStand slots others
  have filled : Owned allocator.limit words block brokenCode := by
    refine ⟨List.mem_cons_self, ?_, Nat.le_refl _, inside⟩
    apply Memory.holds_append.mpr
    refine ⟨(Memory.store_holds _ _ _).store ?_, Memory.store_holds _ _ _⟩
    rw [wordLE_length]
    exact .inl (Nat.le_refl _)
  have wordsFrame : Frame heap words fun _ => False := by
    apply Frame.fresh apart
    apply ((Frame.store _ code _).mono _).trans ((Frame.store _ _ _).mono _)
    · intro a touched
      rw [wordLE_length] at touched
      exact .inl ⟨touched.1, Nat.lt_of_lt_of_le touched.2 (Nat.add_le_add_left (Nat.le_add_left 4 4) code)⟩
    · intro a touched
      rw [wordLE_length] at touched
      exact .inl ⟨Nat.le_trans (Nat.le_add_right code linesOffset) touched.1, touched.2⟩
  refine ⟨code, after, ?_, filled.frame loopFrame, wordsFrame.trans loopFrame, fun row => first row 0, later⟩
  rw [decompile, found]
  apply congrArg Except.ok
  simp only [layOut, allocated, count, fillLines_eq]
  change (placeLines allocator ((allocator.malloc counted (intWord (pointerSize * -1))).2.store (code + linesOffset)
    (wordLE 4 (allocator.malloc counted (intWord (pointerSize * -1))).1))
    (allocator.malloc counted (intWord (pointerSize * -1))).1 _).bind _ = _
  rw [refused]
  change (placeLines allocator words 0 _).bind _ = _
  rw [stored]
  rfl

/-- The loaded word is the row of the first operation, if that operation could be read. -/
theorem scriptToString_truncated {base : Nat} (behind : allocator.From base) (reads : library.ReadsFormat)
    {scripts : Scripts} {idx : Int32} {script : Bytes} (found : scriptAt scripts idx = .ok script)
    (truncated : ¬ format.Complete script) (short : pointerSize * script.length ≤ base) {heap : Heap}
    (stands : StandsFrom base heap.live) {sizes : List Nat}
    (served : allocator.serves heap.live (truncatedRequests library script ++ sizes)) :
    ∃ line after, scriptToString allocator library scripts heap idx = .ok (some (line, after)) ∧
      (∀ row, Bridge.scriptToString library scripts idx = .ok (some row) →
        Owned allocator.limit after ⟨line, rowSize row⟩ (rowBytes row)) ∧
      Frame heap after (fun _ => False) ∧ allocator.serves after.live sizes := by
  obtain ⟨code, after, returned, struct, frame, first, later⟩ :=
    decompile_truncated behind reads found truncated short stands served
  have limit := allocator.limit_le
  have pointer : after.memory.loadWord (code + linesOffset) = 0 :=
    (Memory.holds_append.mp struct.held).2.loadWord (by decide)
  refine ⟨after.memory.loadWord 0, after, ?_, ?_, frame, later⟩
  · rw [scriptToString, returned, ← pointer]
    rfl
  · intro row shown
    have line : (⟨scriptCount library script, Bridge.fillLines library script 0⟩ : Codeout).line? 0 = some row := by
      rw [Bridge.scriptToString, Bridge.decompile, found] at shown
      exact Except.ok.inj shown
    obtain ⟨rest, stores, later⟩ := fillLines_of_line line
    obtain ⟨addr, slot, owned⟩ := first row rest stores later
    have inside : addr + rowSize row ≤ allocator.limit := owned.inside
    rw [slot.loadWord (by omega)]
    exact owned

end BitcoinWasm.Marshalling
