import Mathlib.Data.List.Basic

/-! # Self-delimiting encodings

An encoding that shows where it ends can be written back to back with others. What has
arrived of such a stream is a number of whole encodings and a part of the next one.
-/

namespace BftKit.Foundation

universe u

inductive DecodeError where
  /-- More bytes are needed. -/
  | unexpectedEnd
  | invalid (reason : String)
  /-- No error but a panic: no vector has the capacity that is claimed. -/
  | capacityOverflow
deriving DecidableEq

/-- An encoder, and a decoder that also returns the number of bytes it has read. -/
structure Codec (Message : Type u) where
  encode : Message → List UInt8
  decode : List UInt8 → Except DecodeError (Message × Nat)

namespace Codec

variable {Message : Type u} (codec : Codec Message)

/-- Messages written back to back. -/
def stream (messages : List Message) : List UInt8 := messages.flatMap codec.encode

@[simp] theorem stream_nil : codec.stream [] = [] := rfl

@[simp] theorem stream_cons (message : Message) (messages : List Message) :
    codec.stream (message :: messages) = codec.encode message ++ codec.stream messages := rfl

@[simp] theorem stream_append (first second : List Message) :
    codec.stream (first ++ second) = codec.stream first ++ codec.stream second :=
  List.flatMap_append

theorem length_encode_le {message : Message} {messages : List Message}
    (hmem : message ∈ messages) :
    (codec.encode message).length ≤ (codec.stream messages).length := by
  obtain ⟨before, after, rfl⟩ := List.append_of_mem hmem
  simp only [stream_append, stream_cons, List.length_append]
  omega

/-- The decoder finds the end of an encoding, and tells when it has not come yet. -/
structure SelfDelimiting : Prop where
  decode_append : ∀ message rest,
    codec.decode (codec.encode message ++ rest) = .ok (message, (codec.encode message).length)
  decode_prefix : ∀ message part missing, codec.encode message = part ++ missing → missing ≠ [] →
    codec.decode part = .error .unexpectedEnd
  encode_ne_nil : ∀ message, codec.encode message ≠ []

variable {codec}

theorem SelfDelimiting.encode_pos (h : codec.SelfDelimiting) (message : Message) :
    0 < (codec.encode message).length :=
  List.length_pos_iff.mpr (h.encode_ne_nil message)

/-- The first encoding of a stream has arrived as a whole, or a part of it is missing. -/
theorem stream_cases {message : Message} {messages : List Message} {bytes future : List UInt8}
    (hstream : bytes ++ future = codec.stream (message :: messages)) :
    (∃ more, bytes = codec.encode message ++ more ∧ more ++ future = codec.stream messages) ∨
      ∃ missing, codec.encode message = bytes ++ missing ∧ missing ≠ [] := by
  rw [stream_cons] at hstream
  rcases List.append_eq_append_iff.mp hstream with
    ⟨missing, hmissing, hfuture⟩ | ⟨more, hmore, hrest⟩
  · cases missing with
    | nil => exact .inl ⟨[], by simpa using hmissing.symm, by simpa using hfuture⟩
    | cons byte missing => exact .inr ⟨_, hmissing, List.cons_ne_nil _ _⟩
  · exact .inl ⟨more, hmore, hrest.symm⟩

/-- Nothing but the start of the first message has arrived. -/
def Partial (codec : Codec Message) (messages : List Message) (bytes : List UInt8) : Prop :=
  ∀ message ∈ messages.head?, bytes.length < (codec.encode message).length

/-- A whole stream is not the start of its first message. -/
theorem eq_nil_of_partial {messages : List Message}
    (hpart : codec.Partial messages (codec.stream messages)) : messages = [] := by
  cases messages with
  | nil => rfl
  | cons message messages =>
      have hlt := hpart message rfl
      rw [stream_cons, List.length_append] at hlt
      omega

end Codec

end BftKit.Foundation
