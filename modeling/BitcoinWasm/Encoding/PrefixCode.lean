import Mathlib.Data.List.Basic

/-! Self-delimiting codes over arbitrary messages and symbols.

A stream is a concatenation of code words without any frame around them. The
laws below say where a reader stands in such a stream: it has reached the end,
it faces one whole word, or it faces a tail that no word starts.
-/

set_option autoImplicit false

namespace BitcoinWasm.Encoding

/-- A code whose parser recovers exactly the first word of a stream. -/
structure PrefixCode (Message Symbol : Type) where
  encode : Message → List Symbol
  parse : List Symbol → Option (Message × List Symbol)
  parse_encode : ∀ message rest, parse (encode message ++ rest) = some (message, rest)
  encode_of_parse : ∀ {stream message rest}, parse stream = some (message, rest) →
    stream = encode message ++ rest
  encode_ne_nil : ∀ message, encode message ≠ []

namespace PrefixCode

variable {Message Symbol : Type} (code : PrefixCode Message Symbol)

def encodeAll (messages : List Message) : List Symbol :=
  messages.flatMap code.encode

@[simp] theorem encodeAll_nil : code.encodeAll [] = [] := rfl

@[simp] theorem encodeAll_cons (message : Message) (rest : List Message) :
    code.encodeAll (message :: rest) = code.encode message ++ code.encodeAll rest :=
  List.flatMap_cons

/-- The stream consists of whole words. -/
def Complete (stream : List Symbol) : Prop :=
  ∃ messages, stream = code.encodeAll messages

/-- The stream has not ended, but no word starts it. -/
def Truncated (stream : List Symbol) : Prop :=
  stream ≠ [] ∧ code.parse stream = none

theorem encode_append_inj {first second : Message} {left right : List Symbol}
    (same : code.encode first ++ left = code.encode second ++ right) : first = second ∧ left = right := by
  have parsed := code.parse_encode first left
  rw [same, code.parse_encode] at parsed
  simpa [eq_comm] using parsed

theorem encode_append_ne_nil (message : Message) (rest : List Symbol) : code.encode message ++ rest ≠ [] := by
  simp [code.encode_ne_nil message]

/-- Two message lists with one stream are equal: word boundaries cannot move. -/
theorem encodeAll_injective : Function.Injective code.encodeAll := by
  intro first
  induction first with
  | nil =>
    intro second same
    cases second with
    | nil => rfl
    | cons message rest =>
      exact absurd same.symm (by rw [encodeAll_cons]; exact code.encode_append_ne_nil message _)
  | cons message rest ih =>
    intro second same
    cases second with
    | nil => exact absurd same (by rw [encodeAll_cons]; exact code.encode_append_ne_nil message _)
    | cons other tail =>
      simp only [encodeAll_cons] at same
      obtain ⟨rfl, restSame⟩ := code.encode_append_inj same
      rw [ih restSame]

/-- Induction along a stream, from any position a reader can stand at. -/
@[elab_as_elim]
theorem stream_induction {motive : List Symbol → Prop} (stream : List Symbol)
    (ended : motive [])
    (word : ∀ message rest, motive rest → motive (code.encode message ++ rest))
    (truncated : ∀ tail, code.Truncated tail → motive tail) : motive stream := by
  induction length : stream.length using Nat.strongRecOn generalizing stream with
  | ind size ih =>
    subst length
    cases parsed : code.parse stream with
    | none =>
      by_cases empty : stream = []
      · exact empty ▸ ended
      · exact truncated stream ⟨empty, parsed⟩
    | some result =>
      obtain ⟨message, rest⟩ := result
      -- A word is not empty, so the rest behind it is shorter.
      have shape := code.encode_of_parse parsed
      have positive := List.length_pos_iff.mpr (code.encode_ne_nil message)
      have shorter : rest.length < stream.length := by
        rw [shape, List.length_append]
        omega
      exact shape ▸ word message rest (ih rest.length shorter rest rfl)

theorem complete_nil : code.Complete [] := ⟨[], rfl⟩

theorem complete_encodeAll (messages : List Message) : code.Complete (code.encodeAll messages) :=
  ⟨messages, rfl⟩

theorem complete_encode_append {message : Message} {rest : List Symbol} :
    code.Complete (code.encode message ++ rest) ↔ code.Complete rest := by
  constructor
  · rintro ⟨messages, same⟩
    cases messages with
    | nil => exact absurd same (code.encode_append_ne_nil message rest)
    | cons first tail =>
      rw [encodeAll_cons] at same
      exact ⟨tail, (code.encode_append_inj same).2⟩
  · rintro ⟨messages, rfl⟩
    exact ⟨message :: messages, rfl⟩

theorem Truncated.not_complete {tail : List Symbol} (truncated : code.Truncated tail) :
    ¬ code.Complete tail := by
  rintro ⟨messages, rfl⟩
  cases messages with
  | nil => exact truncated.1 rfl
  | cons first rest =>
    have parsed := truncated.2
    rw [encodeAll_cons, code.parse_encode] at parsed
    cases parsed

/-- Every stream is a run of whole words followed by nothing or a truncated tail. -/
theorem split_stream (stream : List Symbol) :
    ∃ messages tail, stream = code.encodeAll messages ++ tail ∧ (tail = [] ∨ code.Truncated tail) := by
  induction stream using code.stream_induction with
  | ended => exact ⟨[], [], rfl, .inl rfl⟩
  | word message rest ih =>
    obtain ⟨messages, tail, rfl, atEnd⟩ := ih
    exact ⟨message :: messages, tail, by simp, atEnd⟩
  | truncated tail stuck => exact ⟨[], tail, rfl, .inr stuck⟩

end PrefixCode

end BitcoinWasm.Encoding
