import BftKit.Foundation.Framing

/-! # Readers

A reader takes a value off the front of some bytes. That it reads an encoding means two
things, what it does with the whole encoding and what it does with a part of it, and both
are kept when readers are put in sequence.
-/

namespace BftKit.Foundation

universe u v

/-- Reads a value, and leaves the bytes behind it. -/
def Reader (Value : Type u) := List UInt8 → Except DecodeError (Value × List UInt8)

namespace Reader

variable {Value : Type u} {Result : Type v}

def pure (value : Value) : Reader Value := fun bytes => .ok (value, bytes)

def bind (reader : Reader Value) (next : Value → Reader Result) : Reader Result := fun bytes =>
  match reader bytes with
  | .error err => .error err
  | .ok (value, rest) => next value rest

def fail (reason : String) : Reader Value := fun _ => .error (.invalid reason)

/-- Reading ends in a panic. -/
def overflow : Reader Value := fun _ => .error .capacityOverflow

/-- Takes a number of bytes as they are. -/
def take (count : Nat) : Reader { bytes : List UInt8 // bytes.length = count } := fun bytes =>
  if hcount : count ≤ bytes.length then
    .ok (⟨bytes.take count, List.length_take_of_le hcount⟩, bytes.drop count)
  else .error .unexpectedEnd

def byte : Reader UInt8
  | [] => .error .unexpectedEnd
  | first :: rest => .ok (first, rest)

/-- Reads a number of values. -/
def many (reader : Reader Value) : Nat → Reader (List Value)
  | 0 => pure []
  | count + 1 => reader.bind fun value => (reader.many count).bind fun rest => pure (value :: rest)

/-- A value and the number of bytes it was read from. -/
def decode (reader : Reader Value) (bytes : List UInt8) : Except DecodeError (Value × Nat) :=
  match reader bytes with
  | .error err => .error err
  | .ok (value, rest) => .ok (value, bytes.length - rest.length)

/-- Every value that is read has the property. -/
def Yields (reader : Reader Value) (property : Value → Prop) : Prop :=
  ∀ bytes value rest, reader bytes = .ok (value, rest) → property value

namespace Yields

variable {reader : Reader Value} {property : Value → Prop}

theorem pure {value : Value} (hvalue : property value) : Yields (Reader.pure value) property := by
  rintro bytes _ _ ⟨⟩
  exact hvalue

theorem fail (reason : String) : Yields (Reader.fail reason) property := by
  rintro bytes value rest ⟨⟩

theorem overflow : Yields Reader.overflow property := by
  rintro bytes value rest ⟨⟩

theorem any (reader : Reader Value) : Yields reader fun _ => True :=
  fun _ _ _ _ => trivial

theorem bind (h : Yields reader property) {next : Value → Reader Result}
    {property' : Result → Prop} (h' : ∀ value, property value → Yields (next value) property') :
    Yields (reader.bind next) property' := by
  intro bytes result rest hread
  rw [Reader.bind] at hread
  split at hread
  next => cases hread
  next value more hvalue => exact h' value (h _ _ _ hvalue) _ _ _ hread

theorem many (h : Yields reader property) (count : Nat) :
    Yields (reader.many count) fun values =>
      values.length = count ∧ ∀ value ∈ values, property value := by
  induction count with
  | zero => exact pure ⟨rfl, List.forall_mem_nil _⟩
  | succ count ih =>
      refine h.bind fun value hvalue => ih.bind ?_
      rintro rest ⟨hlength, hrest⟩
      exact pure ⟨congrArg (· + 1) hlength, List.forall_mem_cons.mpr ⟨hvalue, hrest⟩⟩

end Yields

end Reader

/-- The bytes are read as the value, and a part of them is not enough. -/
structure Reads {Value : Type u} (reader : Reader Value) (bytes : List UInt8) (value : Value) :
    Prop where
  whole : ∀ rest, reader (bytes ++ rest) = .ok (value, rest)
  part : ∀ part missing, bytes = part ++ missing → missing ≠ [] →
    reader part = .error .unexpectedEnd

namespace Reads

variable {Value : Type u} {Result : Type v} {reader : Reader Value} {bytes : List UInt8}
  {value : Value}

theorem pure (value : Value) : Reads (Reader.pure value) [] value where
  whole := fun _ => rfl
  part := by
    intro part missing heq hne
    exact absurd (List.append_eq_nil_iff.mp heq.symm).2 hne

theorem bind (h : Reads reader bytes value) {next : Value → Reader Result}
    {bytes' : List UInt8} {result : Result} (h' : Reads (next value) bytes' result) :
    Reads (reader.bind next) (bytes ++ bytes') result where
  whole := by
    intro rest
    rw [List.append_assoc, Reader.bind, h.whole]
    exact h'.whole rest
  part := by
    intro part missing heq hne
    rw [Reader.bind]
    rcases List.append_eq_append_iff.mp heq with ⟨extra, rfl, hextra⟩ | ⟨extra, hbytes, hmissing⟩
    · -- the first value has arrived
      rw [h.whole]
      exact h'.part extra missing hextra hne
    · cases extra with
      | nil =>
          rw [List.append_nil] at hbytes
          rw [← hbytes, ← List.append_nil bytes, h.whole]
          exact h'.part [] missing hmissing.symm hne
      | cons byte extra => rw [h.part part _ hbytes (List.cons_ne_nil _ _)]

theorem congr {bytes' : List UInt8} (h : Reads reader bytes value) (heq : bytes = bytes') :
    Reads reader bytes' value := heq ▸ h

/-- Reading on without further bytes. -/
theorem map (h : Reads reader bytes value) {next : Value → Reader Result} {result : Result}
    (h' : next value = Reader.pure result) : Reads (reader.bind next) bytes result := by
  have hpure : Reads (next value) [] result := by
    rw [h']
    exact pure result
  exact (h.bind hpure).congr (List.append_nil _)

theorem take {count : Nat} (bytes : List UInt8) (hlength : bytes.length = count) :
    Reads (Reader.take count) bytes ⟨bytes, hlength⟩ where
  whole := by
    intro rest
    subst hlength
    have hle : bytes.length ≤ (bytes ++ rest).length := by
      rw [List.length_append]
      exact Nat.le_add_right _ _
    simp only [Reader.take, dif_pos hle, List.take_left, List.drop_left]
  part := by
    intro part missing heq hne
    subst hlength
    have hmissing := List.length_pos_iff.mpr hne
    have hlt : ¬ bytes.length ≤ part.length := by
      rw [heq, List.length_append]
      omega
    simp only [Reader.take, dif_neg hlt]

theorem byte (first : UInt8) : Reads Reader.byte [first] first where
  whole := fun _ => rfl
  part := by
    intro part missing heq hne
    cases part with
    | nil => rfl
    | cons other part =>
        have hlength := congrArg List.length heq
        have hmissing := List.length_pos_iff.mpr hne
        simp only [List.length_append, List.length_cons, List.length_nil] at hlength
        omega

theorem many {encode : Value → List UInt8} {values : List Value}
    (h : ∀ value ∈ values, Reads reader (encode value) value) :
    Reads (reader.many values.length) (values.flatMap encode) values := by
  induction values with
  | nil => exact pure []
  | cons value rest ih =>
      have hrest := ih fun other hmem => h other (List.mem_cons_of_mem _ hmem)
      exact (h value List.mem_cons_self).bind (hrest.map rfl)

/-- An encoding is read in one way only. -/
theorem unique (h : Reads reader bytes value) {bytes' rest rest' : List UInt8} {value' : Value}
    (h' : Reads reader bytes' value') (heq : bytes ++ rest = bytes' ++ rest') :
    value = value' ∧ rest = rest' := by
  have hwhole := h.whole rest
  rw [heq, h'.whole] at hwhole
  have hpair := Prod.mk.inj (Except.ok.inj hwhole)
  exact ⟨hpair.1.symm, hpair.2.symm⟩

/-- The reader tells how long the encoding is. -/
theorem decode (h : Reads reader bytes value) (rest : List UInt8) :
    reader.decode (bytes ++ rest) = .ok (value, bytes.length) := by
  rw [Reader.decode, h.whole]
  dsimp only
  rw [List.length_append, Nat.add_sub_cancel]

end Reads

end BftKit.Foundation
