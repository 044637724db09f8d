import BitcoinWasm.Bridge.CodeoutLayout
import BitcoinWasm.Disassembly.Tokens

/-! What can be read of an assembled script in linear memory.

The pointer that `scriptToString` returns leads to the row of the first operation.
The bytes behind the row are whatever the memory holds there, up to its end. The
struct that `decompile` returns leads to the rows of all tokens.
-/

set_option autoImplicit false

namespace BitcoinWasm.Marshalling
open BitcoinWasm.Encoding BitcoinWasm.Script BitcoinWasm.CLibrary BitcoinWasm.Semantics BitcoinWasm.Bridge
  BitcoinWasm.Assembly BitcoinWasm.Disassembly

theorem cString_row {limit : Nat} {memory : Memory} {addr : Nat} {row : SizedRow}
    (held : memory.Holds addr (rowBytes row)) (inside : addr + (rowBytes row).length ≤ limit) :
    ∃ behind, cString limit memory addr = asCString row behind := by
  have room : limit - addr = (rowBytes row).length + (limit - addr - (rowBytes row).length) := by omega
  refine ⟨memory.load (addr + (rowBytes row).length) (limit - addr - (rowBytes row).length), ?_⟩
  rw [cString, room, load_append, held.load, Nat.add_sub_cancel_left]
  rfl

variable {allocator : Allocator} {library : Library}

/-- The pointer that is returned leads to the row of the first operation. -/
theorem scriptToString_spec (reads : library.ReadsFormat) {scripts : Scripts} {idx : Int32}
    {operation : Operation} {others : List Operation}
    (found : scriptAt scripts idx = .ok (format.encodeAll (operation :: others))) (heap : Heap) {sizes : List Nat}
    (served : allocator.serves heap.live (codeRequests (operation :: others) ++ sizes)) :
    ∃ line after, scriptToString allocator library scripts heap idx = .ok (some (line, after)) ∧
      Owned allocator.limit after ⟨line, rowSize (operationRow operation)⟩ (rowBytes (operationRow operation)) ∧
      Frame heap after (fun _ => False) ∧ allocator.serves after.live sizes := by
  obtain ⟨code, lines, after, returned, stands, frame, later⟩ := decompile_spec reads found heap served
  obtain ⟨_, pointer, _⟩ := stands.load allocator.limit_le
  obtain ⟨⟨addr, slot, owned, _⟩, _⟩ := stands.rowsAt
  have limit := allocator.limit_le
  have inside : addr + rowSize (operationRow operation) ≤ allocator.limit := owned.inside
  have line : after.memory.loadWord lines = addr := slot.loadWord (by omega)
  refine ⟨addr, after, ?_, owned, frame, later⟩
  rw [scriptToString, returned]
  change Except.ok (some (after.memory.loadWord (after.memory.loadWord (code + linesOffset)), after)) = _
  rw [pointer, line]

/-- In memory, too, names and numbers never come back as their text. -/
theorem cString_never_joined (reads : library.ReadsFormat) (appends : library.AppendsFormat) (scripts : Scripts)
    (small : scripts.length < 2 ^ 32) (texts : List CString) (tokens : List Token)
    (nonempty : texts ≠ []) (spelled : List.Forall₂ (Spells library) texts tokens)
    (noBlank : .blank ∉ tokens) (noData : ∀ bytes, .data bytes ∉ tokens) :
    ∃ idx registered operations, Bridge.stringCompile library scripts texts = (.ok idx, registered) ∧
      ∀ heap : Heap, allocator.serves heap.live (codeRequests operations) →
        ∃ line after, scriptToString allocator library registered heap idx = .ok (some (line, after)) ∧
          cString allocator.limit after.memory line ≠ joined texts := by
  obtain ⟨operations, read, _, encoded⟩ := encodeOps_spelled appends spelled
  obtain ⟨operation, others, rfl, differs⟩ := asCString_ne_joined nonempty spelled noBlank noData read
  have found := scriptAt_concat scripts (format.encodeAll (operation :: others)) small
  refine ⟨_, _, operation :: others, stringCompile_of_encoded encoded scripts, ?_⟩
  intro heap served
  obtain ⟨line, after, returned, owned, _⟩ :=
    scriptToString_spec reads found heap (allocator.serves_append_nil served)
  obtain ⟨behind, text⟩ := cString_row owned.held (Nat.le_trans (Nat.add_le_add_left owned.fits line) owned.inside)
  exact ⟨line, after, returned, text ▸ differs behind⟩

/-- In memory, too, the rows tell the tokens that the script was assembled from. -/
theorem loadRows_of_spelled (reads : library.ReadsFormat) (appends : library.AppendsFormat) (scripts : Scripts)
    (small : scripts.length < 2 ^ 32) {texts : List CString} {tokens : List Token}
    (spelled : List.Forall₂ (Spells library) texts tokens)
    (short : ∀ bytes, .data bytes ∈ tokens → bytes.length ≤ 254) :
    ∃ idx registered operations, Bridge.stringCompile library scripts texts = (.ok idx, registered) ∧
      ∀ heap : Heap, allocator.serves heap.live (codeRequests operations) →
        ∃ code after, decompile allocator library registered heap idx = .ok (some (code, after)) ∧
          List.Forall₂ Shows (tokens.filter (· ≠ .blank))
            (loadRows after.memory (after.memory.loadWord (code + linesOffset)) (after.memory.loadWord code)) := by
  obtain ⟨operations, read, _, encoded⟩ := encodeOps_spelled appends spelled
  have found := scriptAt_concat scripts (format.encodeAll operations) small
  refine ⟨_, _, operations, stringCompile_of_encoded encoded scripts, ?_⟩
  intro heap served
  obtain ⟨code, after, returned, loaded⟩ := decompile_loadRows reads found heap served
  refine ⟨code, after, returned, ?_⟩
  rw [loaded]
  apply rows_of_reads read
  intro token member
  exact spelled_fits spelled short token (List.mem_of_mem_filter member)

end BitcoinWasm.Marshalling
