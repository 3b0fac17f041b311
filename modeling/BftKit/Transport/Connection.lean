import BftKit.Foundation.Format
import BftKit.Foundation.Result
import BftKit.Transport.Tcp

/-! # Connections

What one end of a connection writes in a format is what the other end delivers. And
whatever the other end writes, what is delivered could have been written in the format.
-/

namespace BftKit.Transport

open Foundation

universe u

/-! ## Change of the codec

A reader delivers the images of what another one delivers if its decoder yields the images of
what the other one yields.
-/

namespace ReadTask

variable {Message Message' : Type} {codec : Codec Message} {codec' : Codec Message'}
  {f : Message → Message'}
  (h : ∀ bytes, codec'.decode bytes = (codec.decode bytes).map (Prod.map f id))

include h

theorem decodeLoop_map (task : ReadTask) (fuel offset : Nat) :
    task.decodeLoop codec' fuel offset =
      ((task.decodeLoop codec fuel offset).1.map f, (task.decodeLoop codec fuel offset).2) := by
  induction fuel generalizing offset with
  | zero => rfl
  | succ fuel ih =>
      unfold decodeLoop
      split
      · rfl
      · rw [h]
        rcases codec.decode (task.slice offset) with (_ | reason | _) | ⟨message, numBytes⟩
        · rfl
        · rfl
        · rfl
        · change (f message :: (task.decodeLoop codec' fuel (offset + numBytes)).1,
            (task.decodeLoop codec' fuel (offset + numBytes)).2) = _
          rw [ih]
          rfl

theorem receive_map (task : ReadTask) :
    task.receive codec' = ((task.receive codec).1.map f, (task.receive codec).2) := by
  unfold receive
  rw [decodeLoop_map h]
  rcases task.decodeLoop codec (task.bytesLen + 1) 0 with ⟨messages, stop | offset⟩
  · rfl
  · dsimp only
    split <;> rfl

theorem readWithin_map (fuel : Nat) (task : ReadTask) (incoming : List UInt8)
    (cuts : Nat → Nat) :
    readWithin codec' fuel task incoming cuts =
      Prod.map (List.map f) id (readWithin codec fuel task incoming cuts) := by
  induction fuel generalizing task incoming cuts with
  | zero => rfl
  | succ fuel ih =>
      unfold readWithin
      dsimp only
      split
      next => rfl
      next =>
        rw [receive_map h]
        rcases (task.fill (incoming.take (task.readLen incoming (cuts 0)))
          (task.length_take_readLen incoming (cuts 0))).receive codec with ⟨messages, stop | next⟩
        · rfl
        · dsimp only
          rw [ih]
          change (messages.map f ++ List.map f _, _) = (List.map f (messages ++ _), _)
          rw [List.map_append]
          rfl

end ReadTask

theorem readTask_map {Message Message' : Type} {codec : Codec Message} {codec' : Codec Message'}
    {f : Message → Message'}
    (h : ∀ bytes, codec'.decode bytes = (codec.decode bytes).map (Prod.map f id))
    (incoming : List UInt8) (cuts : Nat → Nat) :
    readTask codec' incoming cuts = Prod.map (List.map f) id (readTask codec incoming cuts) :=
  ReadTask.readWithin_map h _ _ _ _

/-! ## Formats -/

variable {Message : Type} {Failure : Type u} {format : Format Message Failure}

/-- `Transport::write` to a connection, one message after the other. -/
def write (format : Format Message Failure) (messages : List Message) :
    Except Failure (List (List UInt8)) :=
  messages.mapM format.encode

/-- Whatever is read from a connection could have been written to it. -/
theorem readTask_writable (hyields : format.Yields) (incoming : List UInt8) (cuts : Nat → Nat) :
    ∀ message ∈ (readTask format.codec incoming cuts).1, format.Writable message := by
  intro message hmem
  rw [readTask_map (format.codec_decode hyields)] at hmem
  obtain ⟨value, -, rfl⟩ := List.mem_map.mp hmem
  exact value.2

theorem write_ok {messages : List Message}
    (hencode : ∀ message ∈ messages, ∃ bytes, format.encode message = .ok bytes) :
    ∃ items, write format messages = .ok items := by
  have hitem : ∀ message ∈ messages, ∃ bytes, format.encode message = .ok bytes ∧ True := by
    intro message hmem
    obtain ⟨bytes, hbytes⟩ := hencode message hmem
    exact ⟨bytes, hbytes, trivial⟩
  obtain ⟨items, hitems, -⟩ := mapM_ok hitem
  exact ⟨items, hitems⟩

theorem write_eq {messages : List Message} {items : List (List UInt8)}
    (hwrite : write format messages = .ok items) : items = messages.map format.bytes := by
  induction messages generalizing items with
  | nil => exact (Except.ok.inj hwrite).symm
  | cons message messages ih =>
      rw [write, List.mapM_cons, bind_eq_ok] at hwrite
      obtain ⟨bytes, hbytes, hrest⟩ := hwrite
      rw [bind_eq_ok] at hrest
      obtain ⟨rest, hrest, heq⟩ := hrest
      obtain rfl := Except.ok.inj heq
      rw [List.map_cons, format.bytes_eq hbytes, ← ih hrest]

/-- What is written is delivered up to the first message that does not fit into the buffer. -/
theorem readTask_write (hinverts : format.Inverts) (hyields : format.Yields)
    {messages : List Message} (hmessages : ∀ message ∈ messages, format.Representable message)
    {items : List (List UInt8)} (hwrite : write format messages = .ok items)
    (cuts : Nat → Nat) :
    readTask format.codec (writeTask [] items) cuts =
      (messages.takeWhile fun message => decide ((format.bytes message).length ≤ bufferLen),
        .closed) := by
  have hwritable : ∀ message ∈ messages, format.Writable message := by
    intro message hmem
    obtain ⟨bytes, -, hbytes⟩ := mapM_mem hwrite hmem
    exact ⟨hmessages message hmem, bytes, hbytes⟩
  obtain ⟨values, rfl⟩ : ∃ values : List { message // format.Writable message },
      messages = values.map Subtype.val :=
    ⟨messages.attachWith _ hwritable, (List.attachWith_map_subtype_val hwritable).symm⟩
  have hcodec := hinverts.selfDelimiting hyields
  have hitems : writeTask [] items = (format.writableCodec hyields).stream values := by
    rw [writeTask_eq, List.nil_append, write_eq hwrite, List.map_map]
    rfl
  have hstream : ReadTask.new.bytes ++ writeTask [] items =
      (format.writableCodec hyields).stream values := by
    rw [ReadTask.bytes_new, List.nil_append, hitems]
  have hnew : (format.writableCodec hyields).Partial values ReadTask.new.bytes := by
    intro value _
    rw [ReadTask.bytes_new]
    exact hcodec.encode_pos value
  -- both decoders deliver the same, and the one of the writable values is self-delimiting
  rw [readTask_map (format.codec_decode hyields), readTask,
    ReadTask.readWithin_eq hcodec cuts hstream hnew (Nat.lt_succ_self _), List.takeWhile_map]
  rfl

end BftKit.Transport
