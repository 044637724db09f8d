import BitcoinWasm.Bridge.Registry
import BitcoinWasm.Script.Standard

/-! Which token lists `stringCompile` rejects.

The only exceptions come from the number branch, where `stoi` finds no literal
at the start of the text or one outside an `int`. A name without an opcode adds
nothing, and the data loop reads a pair that does not start with a digit as 0.
-/

set_option autoImplicit false

namespace BitcoinWasm.Assembly
open BitcoinWasm.Script BitcoinWasm.CLibrary BitcoinWasm.Bridge

/-- A loop whose items alone decide about the exception throws at the first item that does. -/
theorem foldlM_throws_iff {State Item Thrown : Type} {step : State → Item → Except Thrown State}
    {Rejected : Item → Prop}
    (throws : ∀ state item, (∃ thrown, step state item = .error thrown) ↔ Rejected item)
    (items : List Item) (state : State) :
    (∃ thrown, items.foldlM step state = .error thrown) ↔ ∃ item ∈ items, Rejected item := by
  induction items generalizing state with
  | nil => simp [pure, Except.pure]
  | cons item rest ih =>
    rw [List.foldlM_cons, List.exists_mem_cons_iff, ← throws state item]
    cases stepped : step state item with
    | error thrown =>
      apply iff_of_true
      · exact ⟨thrown, rfl⟩
      · exact .inl ⟨thrown, rfl⟩
    | ok next =>
      change (∃ thrown, rest.foldlM step next = .error thrown) ↔ _
      rw [ih next]
      simp

/-- A token that is not empty and not in the assembler's language. -/
def Malformed (library : Library) (text : CString) : Prop :=
  (IsOpName text.chars ∧
    ((∀ opcode, library.getOpName opcode ≠ text.chars) ∨ text.chars = ascii "OP_UNKNOWN")) ∨
  (IsDataName text.chars ∧ ∃ letter ∈ text.chars.drop 2, ¬ isDigit 16 letter) ∨
  (text.chars ≠ [] ∧ ¬ IsOpName text.chars ∧ ¬ IsDataName text.chars ∧
    ¬ ∃ value, IntegerLiteral text.chars value ∧ FitsInt value)

/-- A token for the number branch that does not even start with the literal of an `int`. -/
def Unreadable (text : CString) : Prop :=
  text.chars ≠ [] ∧ ¬ IsOpName text.chars ∧ ¬ IsDataName text.chars ∧
    ¬ ∃ value, LeadingLiteral text.chars value ∧ FitsInt value

theorem Unreadable.malformed (library : Library) {text : CString} (unreadable : Unreadable text) :
    Malformed library text := by
  obtain ⟨nonempty, notOp, notData, noLeading⟩ := unreadable
  refine .inr (.inr ⟨nonempty, notOp, notData, ?_⟩)
  intro ⟨value, literal, fits⟩
  exact noLeading ⟨value, literal.leading, fits⟩

variable (library : Library)

theorem encodeOp_throws_iff (c : Bytes) (text : CString) :
    (∃ thrown, encodeOp library c text = .error thrown) ↔ Unreadable text := by
  unfold Unreadable
  by_cases empty : text.chars = []
  · rw [encodeOp_empty library c empty]
    simp [empty]
  by_cases op : IsOpName text.chars
  · rw [encodeOp_op library c op]
    simp [op]
  by_cases data : IsDataName text.chars
  · have noNul : 0 ∉ text.chars.drop 2 := fun member => text.noNul (List.mem_of_mem_drop member)
    obtain ⟨bytes, total⟩ := byteString_total (text.chars.drop 2) noNul
    rw [encodeOp_data library c data, total]
    simp [Except.map, data]
  -- What is left is the number branch, where `stoi` alone decides.
  rw [encodeOp_number library c empty op data, ← stoi_throws_iff]
  cases stoi text.chars 0 <;> simp [Except.map, empty, op, data]

/-- A misspelled name is dropped: the script is that of the other tokens. -/
theorem encodeOps_unnamed {text : CString} (op : IsOpName text.chars)
    (unnamed : ∀ opcode, library.getOpName opcode ≠ text.chars) (front back : List CString) :
    encodeOps library (front ++ text :: back) = encodeOps library (front ++ back) := by
  rw [encodeOps, encodeOps, List.foldlM_append, List.foldlM_append]
  congr 1
  funext c
  rw [List.foldlM_cons, encodeOp_unnamed library c op unnamed]
  rfl

theorem encodeOps_throws_iff (texts : List CString) :
    (∃ thrown, encodeOps library texts = .error thrown) ↔ ∃ text ∈ texts, Unreadable text :=
  foldlM_throws_iff (encodeOp_throws_iff library) texts []

/-- A rejected list leaves the registry as it was, an accepted one extends it. -/
theorem stringCompile_throws_iff (scripts : Scripts) (texts : List CString) :
    (∃ thrown, stringCompile library scripts texts = (.error thrown, scripts)) ↔
      ∃ text ∈ texts, Unreadable text := by
  rw [← encodeOps_throws_iff library texts]
  constructor
  · intro ⟨thrown, rejected⟩
    cases encoded : encodeOps library texts with
    | error other => exact ⟨other, rfl⟩
    | ok c =>
      rw [stringCompile_of_encoded encoded scripts] at rejected
      cases rejected
  · intro ⟨thrown, encoded⟩
    exact ⟨thrown, stringCompile_of_thrown encoded scripts⟩

/-- No index is handed out for a list with a malformed token. -/
def RejectsMalformed (scripts : Scripts) (texts : List CString) : Prop :=
  (∃ text ∈ texts, Malformed library text) →
    ∃ thrown, stringCompile library scripts texts = (.error thrown, scripts)

theorem rejectsMalformed_iff (scripts : Scripts) (texts : List CString) :
    RejectsMalformed library scripts texts ↔
      ((∃ text ∈ texts, Malformed library text) → ∃ text ∈ texts, Unreadable text) := by
  unfold RejectsMalformed
  rw [stringCompile_throws_iff]

theorem not_unreadable_of_op {text : CString} (op : IsOpName text.chars) : ¬ Unreadable text :=
  fun unreadable => unreadable.2.1 op

theorem not_unreadable_of_data {text : CString} (data : IsDataName text.chars) : ¬ Unreadable text :=
  fun unreadable => unreadable.2.2.1 data

/-- A list whose malformed token does not reach the number branch is accepted. -/
theorem not_rejectsMalformed {text : CString} (malformed : Malformed library text)
    (readable : ¬ Unreadable text) (scripts : Scripts) : ¬ RejectsMalformed library scripts [text] := by
  intro rejects
  obtain ⟨other, member, unreadable⟩ :=
    (stringCompile_throws_iff library scripts [text]).mp (rejects ⟨text, List.mem_singleton_self text, malformed⟩)
  rw [List.mem_singleton.mp member] at unreadable
  exact readable unreadable

/-- The name of no opcode, the name of every opcode without one, and data that is not hexadecimal. -/
theorem malformed_accepted :
    ¬ RejectsMalformed Standard.library [] [.literal "OP_1"] ∧
    ¬ RejectsMalformed Standard.library [] [.literal "OP_UNKNOWN"] ∧
    ¬ RejectsMalformed Standard.library [] [.literal "0XGGGGGGGGGG"] := by
  refine ⟨?_, ?_, ?_⟩
  · have unnamed : ∀ value : Fin 256, Standard.getOpName (UInt8.ofNat value) ≠ ascii "OP_1" := by
      decide +kernel
    apply not_rejectsMalformed
    · refine .inl ⟨by decide, .inl fun opcode named => ?_⟩
      apply unnamed ⟨opcode.toNat, opcode.toNat_lt⟩
      rw [UInt8.ofNat_toNat]
      exact named
    · exact not_unreadable_of_op (by decide)
  · apply not_rejectsMalformed
    · exact .inl ⟨by decide, .inr rfl⟩
    · exact not_unreadable_of_op (by decide)
  · apply not_rejectsMalformed
    · exact .inr (.inl ⟨by decide, 0x47, by decide, by decide⟩)
    · exact not_unreadable_of_data (by decide)

end BitcoinWasm.Assembly
