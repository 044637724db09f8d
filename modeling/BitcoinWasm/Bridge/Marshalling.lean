import BitcoinWasm.Bridge.Rows
import BitcoinWasm.Bridge.Session

/-! The result of a script in linear memory, and its reader on the other side.

`stackToCharArray` lays the stack out as a struct with a pointer to an array of
pointers to rows. `extractStack` follows the same pointers from JavaScript. The
two sides share the layout and nothing else: the writer stores the length of a
row as an unsigned byte, the reader loads it as a signed one.
-/

set_option autoImplicit false

namespace BitcoinWasm.Marshalling
open BitcoinWasm.Encoding BitcoinWasm.Script BitcoinWasm.CLibrary BitcoinWasm.Semantics BitcoinWasm.Bridge

/-! ## The writer -/

def stackoutSize : Nat := 12
def lenOffset : Nat := 4
def stackOffset : Nat := 8

variable (allocator : Allocator)

/-- The loop of `stackToCharArray`, from index `i` on. -/
def storeRows (heap : Heap) (lines i : Nat) : List Bytes → Option Heap
  | [] => some heap
  | strvec :: rest => do
    let (row, heap) ← strvecToSizedCharPtr allocator heap strvec
    storeRows (heap.store (lines + pointerSize * i) (wordLE 4 row)) lines (i + 1) rest

def stackToCharArray (heap : Heap) (stack : List Bytes) : Option (Nat × Heap) := do
  let (bigStack, heap) := allocator.malloc heap stackoutSize
  let size := stack.length
  let (lines, heap) := allocator.malloc heap (pointerSize * size % 2 ^ 32)
  let heap := heap.store (bigStack + stackOffset) (wordLE 4 lines)
  let heap := heap.store (bigStack + lenOffset) (wordLE 4 size)
  let heap ← storeRows allocator heap lines 0 stack
  return (bigStack, heap)

/-- `scriptRun` behind `EvalScript`: the stack, and then the flag in front of it. -/
def returnStack (heap : Heap) (retval : Bool) (stack : List Bytes) : Option (Nat × Heap) := do
  let (stackRun, heap) ← stackToCharArray allocator heap stack
  return (stackRun, heap.store stackRun [if retval then 1 else 0])

/-- The outer result is the exception of `at`, the inner one the lack of memory. -/
def scriptRun (library : Library) (scripts : Scripts) (heap : Heap) (idx : Int32) :
    Except StdException (Option (Nat × Heap)) := do
  let evaluation ← evaluate library scripts idx
  return returnStack allocator heap evaluation.retval evaluation.stack

/-! ## The reader -/

/-- What `new Uint8Array` throws. -/
inductive RangeError where
  | invalidTypedArray
  deriving DecidableEq, Repr

structure Extracted where
  success : Bool
  stack : List Bytes
  deriving DecidableEq

/-- `Module.getValue(ptr, 'i8')`. -/
def getI8 (memory : Memory) (ptr : Nat) : Int := (memory ptr).toInt8.toInt

/-- `Module.getValue(ptr, 'i64')`, which loads a 32-bit word. -/
def getI64 (memory : Memory) (ptr : Nat) : Int := (Int32.ofNat (memory.loadWord ptr)).toInt

/-- `Module.getValue(ptr, '*')`. -/
def getPointer (memory : Memory) (ptr : Nat) : Nat := memory.loadWord ptr

/-- `new Uint8Array(Module.HEAPU8.buffer, offset, length)`, over a buffer of `limit` bytes. -/
def uint8Array (limit : Nat) (memory : Memory) (offset : Nat) (length : Int) : Except RangeError Bytes :=
  if length < 0 ∨ (limit : Int) < offset + length then .error .invalidTypedArray
  else .ok (memory.load offset length.toNat)

/-- The loop of `extractStack`, with `remaining` rows from index `i` on. -/
def extractRows (limit : Nat) (memory : Memory) (charheap i : Nat) : Nat → Except RangeError (List Bytes)
  | 0 => .ok []
  | remaining + 1 => do
    let rowheap := getPointer memory (charheap + 4 * i)
    let stkrowlen := getI8 memory rowheap
    let stkrow ← uint8Array limit memory (rowheap + 1) stkrowlen
    let rest ← extractRows limit memory charheap (i + 1) remaining
    return stkrow :: rest

def extractStack (limit : Nat) (memory : Memory) (struct : Nat) : Except RangeError Extracted := do
  let success := decide (getI8 memory struct ≠ 0)
  let len := getI64 memory (struct + 4)
  let charheap := getPointer memory (struct + 8)
  let stack ← extractRows limit memory charheap 0 len.toNat
  return ⟨success, stack⟩

end BitcoinWasm.Marshalling
