import BftKit.Foundation.Reader

/-! # Formats

An encoder that can fail, and a reader. The values that the reader yields are those with an
encoding, and these have a self-delimiting codec, whatever other values there are.
-/

namespace BftKit.Foundation

universe u v

structure Format (Value : Type u) (Failure : Type v) where
  encode : Value → Except Failure (List UInt8)
  reader : Reader Value
  /-- What the types of the fields can hold. -/
  Representable : Value → Prop

namespace Format

variable {Value : Type u} {Failure : Type v} (format : Format Value Failure)

/-- The encoding of a value, if it has one. -/
def bytes (value : Value) : List UInt8 :=
  match format.encode value with
  | .ok bytes => bytes
  | .error _ => []

/-- A value that can be on the wire. -/
def Writable (value : Value) : Prop :=
  format.Representable value ∧ ∃ bytes, format.encode value = .ok bytes

/-- Encodings are read back, and take a byte at least. -/
structure Inverts : Prop where
  reads : ∀ value bytes, format.Representable value → format.encode value = .ok bytes →
    Reads format.reader bytes value
  nil : format.reader [] = .error .unexpectedEnd

/-- Whatever is read could have been written. -/
def Yields : Prop := format.reader.Yields format.Writable

/-- The encoder and the reader as they are. -/
def codec : Codec Value where
  encode := format.bytes
  decode := format.reader.decode

/-- They are also an encoder and a decoder of the values that can be on the wire. -/
def writableCodec (hyields : format.Yields) : Codec { value // format.Writable value } where
  encode value := format.bytes value.1
  decode bytes :=
    match hread : format.reader bytes with
    | .error err => .error err
    | .ok (value, rest) =>
        .ok (⟨value, hyields bytes value rest hread⟩, bytes.length - rest.length)

variable {format}

theorem bytes_eq {value : Value} {bytes : List UInt8} (hencode : format.encode value = .ok bytes) :
    format.bytes value = bytes := by
  rw [Format.bytes, hencode]

theorem decode_ok (hyields : format.Yields) {bytes rest : List UInt8} {value : Value}
    (hread : format.reader bytes = .ok (value, rest)) :
    (format.writableCodec hyields).decode bytes =
      .ok (⟨value, hyields bytes value rest hread⟩, bytes.length - rest.length) := by
  unfold writableCodec
  dsimp only
  split
  next err herr => rw [hread] at herr; cases herr
  next value' rest' hread' =>
    obtain ⟨rfl, rfl⟩ := Prod.mk.inj (Except.ok.inj (hread.symm.trans hread'))
    rfl

theorem decode_error (hyields : format.Yields) {bytes : List UInt8} {err : DecodeError}
    (hread : format.reader bytes = .error err) :
    (format.writableCodec hyields).decode bytes = .error err := by
  unfold writableCodec
  dsimp only
  split
  next err' herr' =>
    obtain rfl := Except.error.inj (hread.symm.trans herr')
    rfl
  next value rest hread' => rw [hread] at hread'; cases hread'

/-- Both decoders do the same. -/
theorem codec_decode (hyields : format.Yields) (bytes : List UInt8) :
    format.codec.decode bytes =
      ((format.writableCodec hyields).decode bytes).map (Prod.map Subtype.val id) := by
  change format.reader.decode bytes = _
  rw [Reader.decode]
  cases hread : format.reader bytes with
  | error err => rw [decode_error hyields hread]; rfl
  | ok result => rw [decode_ok hyields hread]; rfl

theorem Inverts.reads_bytes (h : format.Inverts) (value : { value // format.Writable value }) :
    Reads format.reader (format.bytes value.1) value.1 := by
  obtain ⟨value, hvalue, bytes, hencode⟩ := value
  rw [bytes_eq hencode]
  exact h.reads value bytes hvalue hencode

theorem Inverts.selfDelimiting (h : format.Inverts) (hyields : format.Yields) :
    (format.writableCodec hyields).SelfDelimiting where
  decode_append := by
    intro value rest
    change (format.writableCodec hyields).decode (format.bytes value.1 ++ rest) =
      .ok (value, (format.bytes value.1).length)
    rw [decode_ok hyields ((h.reads_bytes value).whole rest), List.length_append,
      Nat.add_sub_cancel]
  decode_prefix := fun value part missing heq hne =>
    decode_error hyields ((h.reads_bytes value).part part missing heq hne)
  encode_ne_nil := by
    intro value hnil
    have hwhole := (h.reads_bytes value).whole []
    change format.bytes value.1 = [] at hnil
    rw [hnil, List.append_nil, h.nil] at hwhole
    cases hwhole

end Format

end BftKit.Foundation
