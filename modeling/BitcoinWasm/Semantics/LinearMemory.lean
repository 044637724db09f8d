import BitcoinWasm.Encoding.Positional

/-! A linear memory of bytes, and blocks that an allocator places in it.

An allocator is any function that keeps a new block away from the live ones and
inside the memory. A frame says which bytes of the live blocks a computation may
have changed; new blocks are outside every frame.
-/

set_option autoImplicit false

namespace BitcoinWasm.Semantics
open BitcoinWasm.Encoding

abbrev Memory := Nat → UInt8

namespace Memory

def store (memory : Memory) (addr : Nat) (bytes : List UInt8) : Memory := fun a =>
  if addr ≤ a then (bytes[a - addr]?).getD (memory a) else memory a

def load (memory : Memory) (addr length : Nat) : List UInt8 :=
  (List.range length).map fun i => memory (addr + i)

def loadWord (memory : Memory) (addr : Nat) : Nat := valueOfLE (memory.load addr 4)

/-- The bytes stand in the memory from the address on. -/
def Holds (memory : Memory) (addr : Nat) (bytes : List UInt8) : Prop :=
  ∀ i (inside : i < bytes.length), memory (addr + i) = bytes[i]

theorem store_outside {addr : Nat} {bytes : List UInt8} {a : Nat}
    (outside : a < addr ∨ addr + bytes.length ≤ a) (memory : Memory) : memory.store addr bytes a = memory a := by
  unfold store
  split
  next le =>
    have beyond : bytes.length ≤ a - addr := by omega
    rw [List.getElem?_eq_none beyond]
    rfl
  next => rfl

theorem store_congr {memory other : Memory} {a : Nat} (same : memory a = other a) (addr : Nat) (bytes : List UInt8) :
    memory.store addr bytes a = other.store addr bytes a := by
  rw [store, store, same]

/-- Stores beside each other can be exchanged. -/
theorem store_comm {first second : Nat} {bytes others : List UInt8}
    (apart : first + bytes.length ≤ second ∨ second + others.length ≤ first) (memory : Memory) :
    (memory.store first bytes).store second others = (memory.store second others).store first bytes := by
  funext a
  by_cases own : first ≤ a ∧ a < first + bytes.length
  · -- A byte of the first store is outside the second one.
    have outside : a < second ∨ second + others.length ≤ a := by omega
    rw [store_outside outside]
    exact store_congr (store_outside outside memory).symm first bytes
  · have outside : a < first ∨ first + bytes.length ≤ a := by omega
    rw [store_outside outside (memory.store second others)]
    exact store_congr (store_outside outside memory) second others

theorem store_holds (memory : Memory) (addr : Nat) (bytes : List UInt8) :
    (memory.store addr bytes).Holds addr bytes := by
  intro i inside
  rw [store, if_pos (Nat.le_add_right addr i), Nat.add_sub_cancel_left, List.getElem?_eq_getElem inside]
  rfl

theorem Holds.of_eq {memory after : Memory} {addr : Nat} {bytes : List UInt8} (held : memory.Holds addr bytes)
    (same : ∀ a, addr ≤ a → a < addr + bytes.length → after a = memory a) : after.Holds addr bytes := by
  intro i inside
  rw [same (addr + i) (Nat.le_add_right addr i) (Nat.add_lt_add_left inside addr)]
  exact held i inside

/-- A store beside the bytes leaves them in place. -/
theorem Holds.store {memory : Memory} {addr : Nat} {bytes : List UInt8} (held : memory.Holds addr bytes)
    {other : Nat} {stored : List UInt8} (apart : addr + bytes.length ≤ other ∨ other + stored.length ≤ addr) :
    (memory.store other stored).Holds addr bytes := by
  apply held.of_eq
  intro a lower upper
  apply store_outside
  omega

theorem Holds.load {memory : Memory} {addr : Nat} {bytes : List UInt8} (held : memory.Holds addr bytes) :
    memory.load addr bytes.length = bytes := by
  apply List.ext_getElem
  · simp [Memory.load]
  · intro i _ inside
    simpa [Memory.load] using held i inside

theorem Holds.loadWord {memory : Memory} {addr value : Nat} (held : memory.Holds addr (wordLE 4 value))
    (fits : value < 2 ^ 32) : memory.loadWord addr = value := by
  have loaded := held.load
  rw [wordLE_length] at loaded
  rw [Memory.loadWord, loaded, valueOfLE_wordLE 4 value fits]

theorem holds_cons {memory : Memory} {addr : Nat} {first : UInt8} {rest : List UInt8} :
    memory.Holds addr (first :: rest) ↔ memory addr = first ∧ memory.Holds (addr + 1) rest := by
  constructor
  · intro held
    refine ⟨held 0 (Nat.succ_pos _), fun i inside => ?_⟩
    have shift : addr + 1 + i = addr + (i + 1) := by omega
    rw [shift]
    exact held (i + 1) (Nat.succ_lt_succ inside)
  · intro ⟨head, tail⟩ i inside
    cases i with
    | zero => exact head
    | succ i =>
      have shift : addr + (i + 1) = addr + 1 + i := by omega
      rw [shift]
      exact tail i (Nat.lt_of_succ_lt_succ inside)

theorem holds_append {memory : Memory} {addr : Nat} {front back : List UInt8} :
    memory.Holds addr (front ++ back) ↔ memory.Holds addr front ∧ memory.Holds (addr + front.length) back := by
  induction front generalizing addr with
  | nil => simp [Holds]
  | cons first rest ih =>
    have shift : addr + (first :: rest).length = addr + 1 + rest.length := by
      rw [List.length_cons]
      omega
    rw [List.cons_append, holds_cons, ih, holds_cons, shift, and_assoc]

end Memory

structure Block where
  addr : Nat
  size : Nat
  deriving DecidableEq

def Block.Contains (block : Block) (a : Nat) : Prop := block.addr ≤ a ∧ a < block.addr + block.size

def Block.Disjoint (first second : Block) : Prop :=
  first.addr + first.size ≤ second.addr ∨ second.addr + second.size ≤ first.addr

theorem Block.contains_mk {addr size a : Nat} : Block.Contains ⟨addr, size⟩ a ↔ addr ≤ a ∧ a < addr + size :=
  Iff.rfl

theorem Block.disjoint_mk {addr size : Nat} {other : Block} :
    Block.Disjoint ⟨addr, size⟩ other ↔ addr + size ≤ other.addr ∨ other.addr + other.size ≤ addr :=
  Iff.rfl

structure Heap where
  memory : Memory
  /-- The blocks handed out so far, the latest first. Nothing is freed. -/
  live : List Block

def Heap.store (heap : Heap) (addr : Nat) (bytes : List UInt8) : Heap :=
  { heap with memory := heap.memory.store addr bytes }

structure Allocator where
  limit : Nat
  /-- Every address is also a non-negative signed word. -/
  limit_le : limit ≤ 2 ^ 31
  place : List Block → Nat → Option Nat
  /-- No block starts at the null pointer. -/
  place_pos : ∀ {live size addr}, place live size = some addr → 0 < addr
  place_inside : ∀ {live size addr}, place live size = some addr → addr + size ≤ limit
  place_disjoint : ∀ {live size addr}, place live size = some addr →
    ∀ block ∈ live, Block.Disjoint ⟨addr, size⟩ block

namespace Allocator

variable (allocator : Allocator)

/-- A new block, or the null pointer without room for it. -/
def malloc (heap : Heap) (size : Nat) : Nat × Heap :=
  match allocator.place heap.live size with
  | some addr => (addr, { heap with live := ⟨addr, size⟩ :: heap.live })
  | none => (0, heap)

/-- A new block. Without room for it there is no result, and the program ends. -/
def new (heap : Heap) (size : Nat) : Option (Nat × Heap) :=
  (allocator.place heap.live size).map fun addr => (addr, { heap with live := ⟨addr, size⟩ :: heap.live })

/-- There is room for blocks of these sizes, one after the other. -/
def serves (live : List Block) : List Nat → Bool
  | [] => true
  | size :: sizes =>
    match allocator.place live size with
    | some addr => serves (⟨addr, size⟩ :: live) sizes
    | none => false

theorem malloc_placed {heap : Heap} {size addr : Nat} (placed : allocator.place heap.live size = some addr) :
    allocator.malloc heap size = (addr, { heap with live := ⟨addr, size⟩ :: heap.live }) := by
  rw [malloc, placed]

theorem new_placed {heap : Heap} {size addr : Nat} (placed : allocator.place heap.live size = some addr) :
    allocator.new heap size = some (addr, { heap with live := ⟨addr, size⟩ :: heap.live }) := by
  rw [new, placed]
  rfl

theorem serves_cons {live : List Block} {size : Nat} {sizes : List Nat}
    (served : allocator.serves live (size :: sizes)) :
    ∃ addr, allocator.place live size = some addr ∧ addr + size ≤ allocator.limit ∧
      (∀ block ∈ live, Block.Disjoint ⟨addr, size⟩ block) ∧ allocator.serves (⟨addr, size⟩ :: live) sizes := by
  rw [serves] at served
  split at served
  next addr placed => exact ⟨addr, placed, allocator.place_inside placed, allocator.place_disjoint placed, served⟩
  next => cases served

theorem serves_append_nil {live : List Block} {sizes : List Nat} (served : allocator.serves live sizes) :
    allocator.serves live (sizes ++ []) := by
  rw [List.append_nil]
  exact served

/-- A request beyond the whole memory is answered with the null pointer. -/
theorem malloc_too_large (heap : Heap) {size : Nat} (large : allocator.limit < size) :
    allocator.malloc heap size = (0, heap) := by
  unfold malloc
  split
  next addr placed =>
    have inside := allocator.place_inside placed
    omega
  next => rfl

end Allocator

/-- Blocks stay live, and their bytes stay the same away from `touched`. -/
structure Frame (before after : Heap) (touched : Nat → Prop) : Prop where
  live : ∀ block ∈ before.live, block ∈ after.live
  kept : ∀ block ∈ before.live, ∀ a, block.Contains a → ¬ touched a → after.memory a = before.memory a

namespace Frame

theorem refl (heap : Heap) (touched : Nat → Prop) : Frame heap heap touched :=
  ⟨fun _ member => member, fun _ _ _ _ _ => rfl⟩

theorem trans {first second third : Heap} {touched : Nat → Prop} (left : Frame first second touched)
    (right : Frame second third touched) : Frame first third touched where
  live block member := right.live block (left.live block member)
  kept block member a inside untouched :=
    (right.kept block (left.live block member) a inside untouched).trans (left.kept block member a inside untouched)

theorem mono {before after : Heap} {small large : Nat → Prop} (frame : Frame before after small)
    (le : ∀ a, small a → large a) : Frame before after large where
  live := frame.live
  kept block member a inside untouched := frame.kept block member a inside fun touched => untouched (le a touched)

/-- A store changes the bytes it covers. -/
theorem store (heap : Heap) (addr : Nat) (bytes : List UInt8) :
    Frame heap (heap.store addr bytes) fun a => addr ≤ a ∧ a < addr + bytes.length where
  live _ member := member
  kept _ _ a _ untouched := by
    apply Memory.store_outside
    omega

/-- What happens in a new block alone is outside every frame. -/
theorem fresh {heap after : Heap} {block : Block} (apart : ∀ other ∈ heap.live, Block.Disjoint block other)
    {touched : Nat → Prop}
    (frame : Frame { heap with live := block :: heap.live } after fun a => block.Contains a ∨ touched a) :
    Frame heap after touched where
  live other member := frame.live other (List.mem_cons_of_mem block member)
  kept other member a inside untouched := by
    apply frame.kept other (List.mem_cons_of_mem block member) a inside
    rintro (own | touching)
    · -- No byte is in the new block and in a block that was live before it.
      have disjoint := apart other member
      unfold Block.Disjoint at disjoint
      unfold Block.Contains at own inside
      omega
    · exact untouched touching

/-- A store into a block that is younger than the frame. -/
theorem store_new {before after : Heap} {touched : Nat → Prop} (frame : Frame before after touched) {block : Block}
    (apart : ∀ other ∈ before.live, Block.Disjoint block other) {addr : Nat} {bytes : List UInt8}
    (lower : block.addr ≤ addr) (upper : addr + bytes.length ≤ block.addr + block.size) :
    Frame before (after.store addr bytes) touched where
  live := frame.live
  kept other member a inside untouched := by
    rw [← frame.kept other member a inside untouched]
    have disjoint := apart other member
    unfold Block.Disjoint at disjoint
    unfold Block.Contains at inside
    apply Memory.store_outside
    omega

/-- Bytes of a live block away from `touched` are still there. -/
theorem holds {before after : Heap} {touched : Nat → Prop} (frame : Frame before after touched) {block : Block}
    (member : block ∈ before.live) {addr : Nat} {bytes : List UInt8} (held : before.memory.Holds addr bytes)
    (inside : ∀ a, addr ≤ a → a < addr + bytes.length → block.Contains a ∧ ¬ touched a) :
    after.memory.Holds addr bytes := by
  apply held.of_eq
  intro a lower upper
  obtain ⟨contained, untouched⟩ := inside a lower upper
  exact frame.kept block member a contained untouched

/-- Bytes of a live block outlive what happens in another one. -/
theorem holds_beside {before after : Heap} {other block : Block} (frame : Frame before after other.Contains)
    (apart : other.Disjoint block) (member : block ∈ before.live) {addr : Nat} {bytes : List UInt8}
    (lower : block.addr ≤ addr) (upper : addr + bytes.length ≤ block.addr + block.size)
    (held : before.memory.Holds addr bytes) : after.memory.Holds addr bytes := by
  apply frame.holds member held
  intro a low high
  unfold Block.Disjoint at apart
  unfold Block.Contains
  omega

end Frame

/-- The bytes stand at the start of a live block of their own. -/
structure Owned (limit : Nat) (heap : Heap) (block : Block) (bytes : List UInt8) : Prop where
  member : block ∈ heap.live
  held : heap.memory.Holds block.addr bytes
  fits : bytes.length ≤ block.size
  inside : block.addr + block.size ≤ limit

theorem Owned.frame {limit : Nat} {before after : Heap} {block : Block} {bytes : List UInt8}
    (owned : Owned limit before block bytes) (frame : Frame before after fun _ => False) :
    Owned limit after block bytes where
  member := frame.live block owned.member
  held := by
    apply frame.holds owned.member owned.held
    intro a low high
    have fits := owned.fits
    exact ⟨⟨low, by omega⟩, id⟩
  fits := owned.fits
  inside := owned.inside

/-- A new block that is filled at once. -/
theorem Owned.fill {limit : Nat} {heap : Heap} {block : Block} {bytes : List UInt8} (fits : bytes.length ≤ block.size)
    (inside : block.addr + block.size ≤ limit) :
    Owned limit ((Heap.mk heap.memory (block :: heap.live)).store block.addr bytes) block bytes where
  member := List.mem_cons_self
  held := Memory.store_holds _ _ _
  fits := fits
  inside := inside

theorem Frame.fill {heap : Heap} {block : Block} (apart : ∀ other ∈ heap.live, Block.Disjoint block other)
    {bytes : List UInt8} (fits : bytes.length ≤ block.size) :
    Frame heap ((Heap.mk heap.memory (block :: heap.live)).store block.addr bytes) fun _ => False := by
  apply Frame.fresh apart
  apply (Frame.store _ block.addr bytes).mono
  intro a touched
  exact .inl ⟨touched.1, by omega⟩

/-- Two words side by side in one block, stored in either order. -/
theorem store_words (heap : Heap) (block : Block) (first second value other : Nat)
    (inside : first + 4 ≤ block.size ∧ second + 4 ≤ block.size) (apart : first + 4 ≤ second ∨ second + 4 ≤ first) :
    let words := (heap.store (block.addr + first) (wordLE 4 value)).store (block.addr + second) (wordLE 4 other)
    Frame heap words block.Contains ∧ words.memory.Holds (block.addr + first) (wordLE 4 value) ∧
      words.memory.Holds (block.addr + second) (wordLE 4 other) := by
  have contained : ∀ offset value a, offset + 4 ≤ block.size →
      block.addr + offset ≤ a ∧ a < block.addr + offset + (wordLE 4 value).length → block.Contains a := by
    intro offset value a upper touched
    rw [wordLE_length] at touched
    unfold Block.Contains
    omega
  refine ⟨?_, ?_, Memory.store_holds _ _ _⟩
  · apply Frame.trans
    · exact (Frame.store heap _ _).mono fun a => contained first value a inside.1
    · exact (Frame.store _ _ _).mono fun a => contained second other a inside.2
  · apply (Memory.store_holds heap.memory (block.addr + first) (wordLE 4 value)).store
    rw [wordLE_length, wordLE_length]
    omega

/-- Consecutive slots with a pointer to each of the items. -/
def PointersAt {Item : Type} (Points : Nat → Item → Prop) (memory : Memory) (slot : Nat) : List Item → Prop
  | [] => True
  | item :: rest => (∃ addr, memory.Holds slot (wordLE 4 addr) ∧ Points addr item) ∧
      PointersAt Points memory (slot + 4) rest

namespace PointersAt

variable {Item : Type} {Points Other : Nat → Item → Prop} {memory after : Memory}

theorem imp {slot : Nat} {items : List Item} (stored : PointersAt Points memory slot items)
    (points : ∀ addr item, Points addr item → Other addr item) : PointersAt Other memory slot items := by
  induction items generalizing slot with
  | nil => trivial
  | cons item rest ih =>
    obtain ⟨⟨addr, pointer, first⟩, others⟩ := stored
    exact ⟨⟨addr, pointer, points addr item first⟩, ih others⟩

theorem of_eq {slot : Nat} {items : List Item} (stored : PointersAt Points memory slot items)
    (same : ∀ a, slot ≤ a → a < slot + 4 * items.length → after a = memory a) :
    PointersAt Points after slot items := by
  induction items generalizing slot with
  | nil => trivial
  | cons item rest ih =>
    obtain ⟨⟨addr, pointer, first⟩, others⟩ := stored
    rw [List.length_cons] at same
    refine ⟨⟨addr, ?_, first⟩, ?_⟩
    · apply pointer.of_eq
      intro a low high
      rw [wordLE_length] at high
      exact same a low (by omega)
    · apply ih others
      intro a low high
      exact same a (by omega) (by omega)

/-- Words behind each other are the pointers of consecutive slots. -/
theorem of_words {slot : Nat} {words : List Nat} {items : List Item}
    (held : memory.Holds slot (words.flatMap (wordLE 4))) (points : List.Forall₂ Points words items) :
    PointersAt Points memory slot items := by
  induction points generalizing slot with
  | nil => trivial
  | @cons word item words rest first _ ih =>
    rw [List.flatMap_cons, Memory.holds_append, wordLE_length] at held
    exact ⟨⟨word, held.1, first⟩, ih held.2⟩

end PointersAt

/-- An array of pointers stands as long as its own block and what it points to do. -/
theorem Frame.pointersAt {Item : Type} {Points Other : Nat → Item → Prop} {before after : Heap}
    (frame : Frame before after fun _ => False) {array : Block} (member : array ∈ before.live) {items : List Item}
    (size : array.size = 4 * items.length) (stored : PointersAt Points before.memory array.addr items)
    (points : ∀ addr item, Points addr item → Other addr item) :
    PointersAt Other after.memory array.addr items := by
  apply PointersAt.imp _ points
  apply stored.of_eq
  intro a low high
  exact frame.kept array member a ⟨low, size ▸ high⟩ id

/-- The end of the last block, behind the null pointer. -/
def top (live : List Block) : Nat := live.foldr (fun block above => max (block.addr + block.size) above) 8

theorem top_pos (live : List Block) : 0 < top live := by
  induction live with
  | nil => decide
  | cons first rest ih => exact Nat.lt_of_lt_of_le ih (Nat.le_max_right _ _)

theorem le_top {live : List Block} {block : Block} (member : block ∈ live) :
    block.addr + block.size ≤ top live := by
  induction live with
  | nil => cases member
  | cons first rest ih =>
    rcases List.mem_cons.mp member with rfl | later
    · exact Nat.le_max_left _ _
    · exact Nat.le_trans (ih later) (Nat.le_max_right _ _)

/-- Blocks one after the other, from near the start of the memory. -/
def bump (limit : Nat) (limit_le : limit ≤ 2 ^ 31) : Allocator where
  limit := limit
  limit_le := limit_le
  place live size := if top live + size ≤ limit then some (top live) else none
  place_pos := by
    intro live size addr placed
    simp only [Option.ite_none_right_eq_some, Option.some.injEq] at placed
    exact placed.2 ▸ top_pos live
  place_inside := by
    intro live size addr placed
    simp only [Option.ite_none_right_eq_some, Option.some.injEq] at placed
    omega
  place_disjoint := by
    intro live size addr placed block member
    simp only [Option.ite_none_right_eq_some, Option.some.injEq] at placed
    obtain ⟨_, rfl⟩ := placed
    exact .inr (le_top member)

end BitcoinWasm.Semantics
