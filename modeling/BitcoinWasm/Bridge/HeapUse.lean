import BitcoinWasm.Bridge.Caller
import BitcoinWasm.Bridge.Marshalling
import BitcoinWasm.Semantics.Growth

/-! The bridge and its caller change the heap through stores and new blocks only.

This holds for every call on every script, whether there is room for its result
or not, and also where the stores go astray.
-/

set_option autoImplicit false

namespace BitcoinWasm.Marshalling
open BitcoinWasm.Encoding BitcoinWasm.Script BitcoinWasm.CLibrary BitcoinWasm.Semantics BitcoinWasm.Bridge

variable (allocator : Allocator)

theorem arrayToHeap_grows (heap : Heap) (buffer : Bytes) :
    allocator.Grows heap (arrayToHeap allocator heap buffer).2 :=
  (Allocator.malloc_grows heap buffer.length).store _ buffer

theorem writeStrings_grows (heap : Heap) (op_codes : List CString) :
    allocator.Grows heap (writeStrings allocator heap op_codes).2 := by
  induction op_codes generalizing heap with
  | nil => exact .refl
  | cons s rest ih => exact ((Allocator.malloc_grows heap (s.chars.length + 1)).store _ (terminated s)).trans (ih _)

theorem passStrings_grows (heap : Heap) (op_codes : List CString) :
    allocator.Grows heap (passStrings allocator heap op_codes).2 :=
  (writeStrings_grows allocator heap op_codes).trans (arrayToHeap_grows allocator _ _)

variable {allocator}

theorem strvecToSizedCharPtr_grows {heap after : Heap} {strvec : Bytes} {row : Nat}
    (returned : strvecToSizedCharPtr allocator heap strvec = some (row, after)) : allocator.Grows heap after := by
  obtain ⟨⟨c_copy, allocated⟩, placed, same⟩ := Option.bind_eq_some_iff.mp returned
  cases same
  exact ((Allocator.new_grows placed).store _ _).store _ _

theorem storeRows_grows {heap after : Heap} {lines i : Nat} {stack : List Bytes}
    (stored : storeRows allocator heap lines i stack = some after) : allocator.Grows heap after := by
  induction stack generalizing heap i with
  | nil =>
    cases stored
    exact .refl
  | cons strvec rest ih =>
    obtain ⟨⟨row, filled⟩, returned, others⟩ := Option.bind_eq_some_iff.mp stored
    exact ((strvecToSizedCharPtr_grows returned).store _ _).trans (ih others)

theorem returnStack_grows {heap after : Heap} {retval : Bool} {stack : List Bytes} {struct : Nat}
    (returned : returnStack allocator heap retval stack = some (struct, after)) : allocator.Grows heap after := by
  obtain ⟨⟨stackRun, filled⟩, array, same⟩ := Option.bind_eq_some_iff.mp returned
  cases same
  obtain ⟨rows, stored, same⟩ := Option.bind_eq_some_iff.mp array
  cases same
  apply Allocator.Grows.store
  apply Allocator.Grows.trans _ (storeRows_grows stored)
  exact (((Allocator.malloc_grows heap stackoutSize).trans (Allocator.malloc_grows _ _)).store _ _).store _ _

theorem placeLines_grows {heap after : Heap} {lines : Nat} {stores : List (SizedRow × Nat)}
    (stored : placeLines allocator heap lines stores = some after) : allocator.Grows heap after := by
  induction stores generalizing heap with
  | nil =>
    cases stored
    exact .refl
  | cons store rest ih =>
    obtain ⟨⟨addr, allocated⟩, placed, others⟩ := Option.bind_eq_some_iff.mp stored
    exact ((((Allocator.new_grows placed).store _ _).store _ _).store _ _).trans (ih others)

variable {library : Library}

theorem layOut_grows {heap after : Heap} {c : Bytes} {code : Nat}
    (returned : layOut allocator library heap c = some (code, after)) : allocator.Grows heap after := by
  obtain ⟨filled, stored, same⟩ := Option.bind_eq_some_iff.mp returned
  cases same
  rw [fillLines_eq] at stored
  apply Allocator.Grows.trans _ (placeLines_grows stored)
  exact (((Allocator.malloc_grows heap codeoutSize).store _ _).trans (Allocator.malloc_grows _ _)).store _ _

theorem decompile_grows {scripts : Scripts} {heap after : Heap} {idx : Int32} {code : Nat}
    (returned : decompile allocator library scripts heap idx = .ok (some (code, after))) :
    allocator.Grows heap after := by
  cases found : scriptAt scripts idx with
  | error thrown =>
    rw [decompile, found] at returned
    cases returned
  | ok c =>
    rw [decompile, found] at returned
    exact layOut_grows (Except.ok.inj returned)

theorem scriptToString_grows {scripts : Scripts} {heap after : Heap} {idx : Int32} {line : Nat}
    (returned : scriptToString allocator library scripts heap idx = .ok (some (line, after))) :
    allocator.Grows heap after := by
  cases decompiled : decompile allocator library scripts heap idx with
  | error thrown =>
    rw [scriptToString, decompiled] at returned
    cases returned
  | ok result =>
    rw [scriptToString, decompiled] at returned
    obtain ⟨⟨code, filled⟩, rfl, same⟩ := Option.map_eq_some_iff.mp (Except.ok.inj returned)
    cases same
    exact decompile_grows decompiled

theorem scriptRun_grows {scripts : Scripts} {heap after : Heap} {idx : Int32} {struct : Nat}
    (returned : scriptRun allocator library scripts heap idx = .ok (some (struct, after))) :
    allocator.Grows heap after := by
  cases evaluated : evaluate library scripts idx with
  | error thrown =>
    rw [scriptRun, evaluated] at returned
    cases returned
  | ok evaluation =>
    rw [scriptRun, evaluated] at returned
    exact returnStack_grows (Except.ok.inj returned)

end BitcoinWasm.Marshalling
