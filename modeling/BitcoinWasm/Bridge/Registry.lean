import BitcoinWasm.Bridge.Assembler

/-! The global vector of scripts and the two calls that extend it.

A call returns its result next to the vector it leaves behind, also when the
result is an exception. Indices are 32-bit signed integers on both sides of
the boundary, and `at` takes them as unsigned.
-/

set_option autoImplicit false

namespace BitcoinWasm.Bridge
open BitcoinWasm.Encoding BitcoinWasm.Script BitcoinWasm.CLibrary

abbrev Scripts := List Bytes

/-- `scripts.at(idx)`, with `idx` converted to the vector's size type. -/
def scriptAt (scripts : Scripts) (idx : Int32) : Except StdException Bytes :=
  match scripts[idx.toUInt32.toNat]? with
  | some c => .ok c
  | none => .error .outOfRange

/-- `scripts.size() - 1` as an `int`. -/
def lastIndex (scripts : Scripts) : Int32 := Int32.ofNat (scripts.length - 1)

/-- `scriptBytes` are the `len` bytes behind the pointer. -/
def byteCompile (scripts : Scripts) (scriptBytes : Bytes) : Int32 × Scripts :=
  let scripts := scripts ++ [scriptBytes]
  (lastIndex scripts, scripts)

/-- `opcodeNames` are the `len` strings behind the pointer. -/
def stringCompile (library : Library) (scripts : Scripts) (opcodeNames : List CString) :
    Except StdException Int32 × Scripts :=
  match encodeOps library opcodeNames with
  | .error thrown => (.error thrown, scripts)
  | .ok c =>
    let scripts := scripts ++ [c]
    (.ok (lastIndex scripts), scripts)

theorem toUInt32_ofNat_toNat {index : Nat} (small : index < 2 ^ 32) :
    (Int32.ofNat index).toUInt32.toNat = index := by
  rw [Int32.toUInt32_ofNat', UInt32.toNat_ofNat', Nat.mod_eq_of_lt small]

theorem scriptAt_ofNat (scripts : Scripts) {index : Nat} (small : index < 2 ^ 32) :
    scriptAt scripts (Int32.ofNat index) =
      match scripts[index]? with
      | some c => .ok c
      | none => .error .outOfRange := by
  rw [scriptAt, toUInt32_ofNat_toNat small]

theorem lastIndex_concat (scripts : Scripts) (c : Bytes) :
    lastIndex (scripts ++ [c]) = Int32.ofNat scripts.length := by
  simp [lastIndex]

/-- The index that a compile hands out finds the script that it stored. -/
theorem scriptAt_concat (scripts : Scripts) (c : Bytes) (small : scripts.length < 2 ^ 32) :
    scriptAt (scripts ++ [c]) (Int32.ofNat scripts.length) = .ok c := by
  rw [scriptAt_ofNat _ small]
  simp

theorem byteCompile_eq (scripts : Scripts) (scriptBytes : Bytes) :
    byteCompile scripts scriptBytes = (Int32.ofNat scripts.length, scripts ++ [scriptBytes]) := by
  simp [byteCompile, lastIndex_concat]

theorem stringCompile_of_encoded {library : Library} {opcodeNames : List CString} {c : Bytes}
    (encoded : encodeOps library opcodeNames = .ok c) (scripts : Scripts) :
    stringCompile library scripts opcodeNames = (.ok (Int32.ofNat scripts.length), scripts ++ [c]) := by
  simp [stringCompile, encoded, lastIndex_concat]

theorem stringCompile_of_thrown {library : Library} {opcodeNames : List CString} {thrown : StdException}
    (encoded : encodeOps library opcodeNames = .error thrown) (scripts : Scripts) :
    stringCompile library scripts opcodeNames = (.error thrown, scripts) := by
  simp [stringCompile, encoded]

end BitcoinWasm.Bridge
