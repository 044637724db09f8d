import BitcoinWasm.Bridge.Disassembler
import BitcoinWasm.Script.Standard

/-! Where `decompile` stores its rows.

The array is sized by one walk and filled by another. They agree exactly on
scripts of whole operations. On every other script the count is -1, while the
filling walk goes on behind the operation it could not read.
-/

set_option autoImplicit false

namespace BitcoinWasm.Disassembly
open BitcoinWasm.Encoding BitcoinWasm.Script BitcoinWasm.CLibrary BitcoinWasm.Bridge

/-- Every store is inside the array of `len` pointers, and a caller who reads
`len` rows finds each of them stored exactly once. -/
structure Safe (code : Codeout) : Prop where
  len_nonneg : 0 ≤ code.len
  stores_inside : ∀ store ∈ code.lines, (store.2 : Int) < code.len
  stored_once : ∀ i : Nat, (i : Int) < code.len → (code.lines.map Prod.snd).count i = 1

theorem safe_zipIdx (rows : List SizedRow) : Safe ⟨rows.length, rows.zipIdx⟩ where
  len_nonneg := Int.natCast_nonneg _
  stores_inside store member := by
    have inside := List.snd_lt_of_mem_zipIdx member
    simpa using inside
  stored_once i inside := by
    have indices : rows.zipIdx.map Prod.snd = List.range rows.length := by
      rw [List.zipIdx_map_snd, List.range_eq_range']
    rw [indices]
    exact List.count_eq_one_of_mem List.nodup_range (List.mem_range.mpr (by simpa using inside))

variable {library : Library}

/-- A script with an operation that it ends within is given no array at all. -/
theorem incomplete_len (reads : library.ReadsFormat) (scripts : Scripts) (small : scripts.length < 2 ^ 32)
    {scriptBytes : Bytes} (incomplete : ¬ format.Complete scriptBytes) :
    disassemble library scripts scriptBytes = .ok ⟨-1, fillLines library scriptBytes 0⟩ := by
  rw [disassemble_eq library scripts scriptBytes small, scriptCount,
    scriptCountFrom_incomplete reads incomplete]

/-- What `decompile` stores of such a script: the rows of the operations in front,
and then whatever it reads behind the opcode and the length that it could not follow. -/
theorem fillLines_incomplete (reads : library.ReadsFormat) {script : Bytes} (incomplete : ¬ format.Complete script) :
    ∃ operations tail, script = format.encodeAll operations ++ tail ∧ format.Truncated tail ∧
      fillLines library script 0 = (operations.map operationRow).zipIdx ++
        fillLines library (afterHeader tail) (operations.length + 1) := by
  obtain ⟨operations, tail, rfl, atEnd⟩ := format.split_stream script
  rcases atEnd with rfl | truncated
  · rw [List.append_nil] at incomplete
    exact absurd (format.complete_encodeAll operations) incomplete
  · refine ⟨operations, tail, rfl, truncated, ?_⟩
    rw [fillLines_encodeAll_append reads, fillLines_truncated reads truncated, Nat.zero_add]

theorem decompile_safe_iff (reads : library.ReadsFormat) (scripts : Scripts)
    (small : scripts.length < 2 ^ 32) (scriptBytes : Bytes) :
    ∃ code, disassemble library scripts scriptBytes = .ok code ∧
      (Safe code ↔ format.Complete scriptBytes) := by
  by_cases whole : format.Complete scriptBytes
  · obtain ⟨operations, rfl⟩ := whole
    exact ⟨_, disassemble_encodeAll reads scripts small operations,
      iff_of_true (safe_zipIdx _) (format.complete_encodeAll operations)⟩
  · refine ⟨_, incomplete_len reads scripts small whole, iff_of_false ?_ whole⟩
    intro safe
    have nonneg : (0 : Int) ≤ -1 := safe.len_nonneg
    omega

theorem decompile_safe_iff_nop :
    ∃ code, disassemble Standard.library [] [0x61] = .ok code ∧ (Safe code ↔ format.Complete [0x61]) :=
  decompile_safe_iff Standard.readsFormat [] (by decide) [0x61]

theorem truncated_one : format.Truncated [0x01] := ⟨List.cons_ne_nil _ _, rfl⟩

/-- `OP_1` and then a push without its operand: a row is stored at index 0 of no array. -/
theorem decompile_unsafe : ∃ code, disassemble Standard.library [] [0x51, 0x01] = .ok code ∧
    code.len = -1 ∧ (∃ row, (row, 0) ∈ code.lines) ∧ ¬ Safe code := by
  have shape : ([0x51, 0x01] : Bytes) = format.encode (.plain 0x51 (by decide)) ++ [0x01] := rfl
  have incomplete : ¬ format.Complete [0x51, 0x01] := by
    rw [shape, PrefixCode.complete_encode_append]
    exact truncated_one.not_complete
  refine ⟨_, incomplete_len Standard.readsFormat [] (by decide) incomplete, rfl,
    ⟨operationRow (.plain 0x51 (by decide)), ?_⟩, ?_⟩
  · rw [shape, fillLines_encode_append Standard.readsFormat]
    exact List.mem_cons_self
  · intro safe
    have nonneg : (0 : Int) ≤ -1 := safe.len_nonneg
    omega

end BitcoinWasm.Disassembly
