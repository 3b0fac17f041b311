import BftKit.Foundation.Framing

/-! # Messages over TCP

The writer writes encodings back to back, and the reader cuts them out of whatever its
reads return. It decodes in a buffer of fixed size, whose front a partial message is moved
to before the next read.
-/

namespace BftKit.Transport

open Foundation

/-- `write_task`: writes what is sent to it, one item after the other. -/
def writeTask (egress : List UInt8) : List (List UInt8) → List UInt8
  | [] => egress
  | bytes :: rest => writeTask (egress ++ bytes) rest

theorem writeTask_eq (egress : List UInt8) (items : List (List UInt8)) :
    writeTask egress items = egress ++ items.flatten := by
  induction items generalizing egress with
  | nil => simp [writeTask]
  | cons bytes rest ih => rw [writeTask, ih, List.flatten_cons, List.append_assoc]

def bufferLen : Nat := 1 <<< 16

/-- How a reader ends. -/
inductive ReadEnd where
  | closed
  /-- The bytes are no encoding. -/
  | undecodable
  /-- The decoder panics, or claims to have decoded more bytes than there are. -/
  | panic
  /-- The same message is decoded again and again. -/
  | endless
deriving DecidableEq

/-- The buffer of a reader and the number of its bytes that are in use. -/
structure ReadTask where
  decodeBytes : List UInt8
  bytesLen : Nat
  length_eq : decodeBytes.length = bufferLen
  bytesLen_le : bytesLen ≤ bufferLen

namespace ReadTask

def new : ReadTask where
  decodeBytes := List.replicate bufferLen 0
  bytesLen := 0
  length_eq := List.length_replicate
  bytesLen_le := Nat.zero_le _

/-- `&decode_bytes[offset..bytes_len]`. -/
def slice (task : ReadTask) (offset : Nat) : List UInt8 :=
  (task.decodeBytes.take task.bytesLen).drop offset

/-- The size of `&mut decode_bytes[bytes_len..]`. -/
def free (task : ReadTask) : Nat := bufferLen - task.bytesLen

/-- A read into the free part of the buffer. -/
def fill (task : ReadTask) (bytes : List UInt8) (hfit : bytes.length ≤ task.free) : ReadTask where
  decodeBytes := task.decodeBytes.take task.bytesLen ++ bytes ++
    task.decodeBytes.drop (task.bytesLen + bytes.length)
  bytesLen := task.bytesLen + bytes.length
  length_eq := by
    have hlength := task.length_eq
    have hle := task.bytesLen_le
    rw [free] at hfit
    simp only [List.length_append, List.length_take, List.length_drop]
    omega
  bytesLen_le := by
    have hle := task.bytesLen_le
    rw [free] at hfit
    omega

/-- `copy_within(offset..bytes_len, 0)`. -/
def retain (task : ReadTask) (offset : Nat) (hoffset : offset ≤ task.bytesLen) : ReadTask where
  decodeBytes := task.slice offset ++ task.decodeBytes.drop (task.bytesLen - offset)
  bytesLen := task.bytesLen - offset
  length_eq := by
    have hlength := task.length_eq
    have hle := task.bytesLen_le
    simp only [slice, List.length_append, List.length_drop, List.length_take]
    omega
  bytesLen_le := Nat.le_trans (Nat.sub_le _ _) task.bytesLen_le

variable {Message : Type} (codec : Codec Message)

/-- Decodes from an offset on, for at most the given number of iterations. -/
def decodeLoop (task : ReadTask) : Nat → Nat → List Message × Except ReadEnd Nat
  | 0, _ => ([], .error .endless)
  | fuel + 1, offset =>
      if task.bytesLen ≤ offset then ([], .ok offset)
      else
        match codec.decode (task.slice offset) with
        | .ok (message, numBytes) =>
            let (messages, result) := task.decodeLoop fuel (offset + numBytes)
            (message :: messages, result)
        | .error .unexpectedEnd => ([], .ok offset)
        | .error (.invalid _) => ([], .error .undecodable)
        | .error .capacityOverflow => ([], .error .panic)

/-- What follows a read: an iteration takes a byte at least, unless the loop does not end. -/
def receive (task : ReadTask) : List Message × Except ReadEnd ReadTask :=
  match task.decodeLoop codec (task.bytesLen + 1) 0 with
  | (messages, .error stop) => (messages, .error stop)
  | (messages, .ok offset) =>
      if hoffset : offset ≤ task.bytesLen then (messages, .ok (task.retain offset hoffset))
      else (messages, .error .panic)

/-- The number of bytes that a read returns. It is at least one if there is room, and
something to read. -/
def readLen (task : ReadTask) (incoming : List UInt8) (cut : Nat) : Nat :=
  min (cut + 1) (min task.free incoming.length)

theorem length_take_readLen (task : ReadTask) (incoming : List UInt8) (cut : Nat) :
    (incoming.take (task.readLen incoming cut)).length ≤ task.free := by
  rw [List.length_take, readLen]
  omega

/-- Reads from a stream, for at most the given number of reads. The cuts say how much each
of them returns. -/
def readWithin : Nat → ReadTask → List UInt8 → (Nat → Nat) → List Message × ReadEnd
  | 0, _, _, _ => ([], .endless)
  | fuel + 1, task, incoming, cuts =>
      let len := task.readLen incoming (cuts 0)
      if len = 0 then ([], .closed)
      else
        match (task.fill (incoming.take len) (task.length_take_readLen incoming (cuts 0))).receive
          codec with
        | (messages, .error stop) => (messages, stop)
        | (messages, .ok next) =>
            let (rest, stop) := readWithin fuel next (incoming.drop len) fun read => cuts (read + 1)
            (messages ++ rest, stop)

end ReadTask

/-- `read_task`: what is delivered of a stream, and how it ends. Every read takes a byte at
least, or is the last one. -/
def readTask {Message : Type} (codec : Codec Message) (incoming : List UInt8) (cuts : Nat → Nat) :
    List Message × ReadEnd :=
  ReadTask.readWithin codec (incoming.length + 1) .new incoming cuts

namespace ReadTask

variable {Message : Type} {codec : Codec Message} {task : ReadTask}

/-! ## The buffer -/

/-- The bytes that have been read and not decoded. -/
def bytes (task : ReadTask) : List UInt8 := task.slice 0

theorem slice_eq (task : ReadTask) (offset : Nat) :
    task.slice offset = task.bytes.drop offset := rfl

@[simp] theorem length_bytes (task : ReadTask) : task.bytes.length = task.bytesLen := by
  rw [bytes, slice, List.drop_zero, List.length_take, task.length_eq]
  exact Nat.min_eq_left task.bytesLen_le

theorem bytes_new : new.bytes = [] := List.length_eq_zero_iff.mp (length_bytes new)

@[simp] theorem bytes_fill (task : ReadTask) (bytes : List UInt8)
    (hfit : bytes.length ≤ task.free) : (task.fill bytes hfit).bytes = task.bytes ++ bytes := by
  have hlength : (task.decodeBytes.take task.bytesLen ++ bytes).length =
      task.bytesLen + bytes.length := by
    rw [List.length_append, List.length_take, task.length_eq, Nat.min_eq_left task.bytesLen_le]
  exact List.take_left' hlength

@[simp] theorem bytes_retain (task : ReadTask) (offset : Nat) (hoffset : offset ≤ task.bytesLen) :
    (task.retain offset hoffset).bytes = task.bytes.drop offset := by
  have hlength : (task.slice offset).length = task.bytesLen - offset := by
    rw [slice_eq, List.length_drop, length_bytes]
  exact List.take_left' hlength

/-! ## Decoding -/

/-- Decoding stops after the whole encodings that have arrived. -/
theorem decodeLoop_eq (hcodec : codec.SelfDelimiting) {messages : List Message}
    {future : List UInt8} {fuel offset : Nat}
    (hstream : task.slice offset ++ future = codec.stream messages)
    (hfuel : (task.slice offset).length < fuel) :
    ∃ decoded rest, messages = decoded ++ rest ∧
      task.decodeLoop codec fuel offset =
        (decoded, .ok (offset + (codec.stream decoded).length)) ∧
      task.slice offset = codec.stream decoded ++
        task.slice (offset + (codec.stream decoded).length) ∧
      codec.Partial rest (task.slice (offset + (codec.stream decoded).length)) := by
  induction messages generalizing fuel offset with
  | nil =>
      have hempty : task.slice offset = [] := (List.append_eq_nil_iff.mp hstream).1
      have hlength : task.bytesLen ≤ offset := by
        rw [slice_eq, List.drop_eq_nil_iff, length_bytes] at hempty
        exact hempty
      cases fuel with
      | zero => exact absurd hfuel (Nat.not_lt_zero _)
      | succ fuel =>
          refine ⟨[], [], rfl, ?_, rfl, fun _ hmem => absurd hmem (Option.not_mem_none _)⟩
          rw [decodeLoop, if_pos hlength]
          rfl
  | cons message messages ih =>
      cases fuel with
      | zero => exact absurd hfuel (Nat.not_lt_zero _)
      | succ fuel =>
          have hpos := hcodec.encode_pos message
          rcases Codec.stream_cases hstream with ⟨more, hbytes, hmore⟩ | ⟨missing, hpart, hne⟩
          · -- a whole message: go on behind it
            have hslice : task.slice (offset + (codec.encode message).length) = more := by
              rw [slice_eq, ← List.drop_drop, ← slice_eq, hbytes, List.drop_left]
            have hlt : ¬ task.bytesLen ≤ offset := by
              intro hle
              rw [slice_eq, List.drop_eq_nil_of_le (by rwa [length_bytes])] at hbytes
              have hnil := (List.append_eq_nil_iff.mp hbytes.symm).1
              exact hcodec.encode_ne_nil message hnil
            rw [← hslice] at hmore
            have hfuel' : (task.slice (offset + (codec.encode message).length)).length < fuel := by
              rw [hbytes, List.length_append] at hfuel
              rw [hslice]
              omega
            obtain ⟨decoded, rest, rfl, hloop, hsplit, hpart⟩ := ih hmore hfuel'
            refine ⟨message :: decoded, rest, rfl, ?_, ?_, ?_⟩
            · rw [decodeLoop, if_neg hlt, hbytes, hcodec.decode_append]
              dsimp only
              rw [hloop, Codec.stream_cons, List.length_append, Nat.add_assoc]
            · rw [hbytes, ← hslice, Codec.stream_cons, List.length_append, ← Nat.add_assoc,
                List.append_assoc, ← hsplit]
            · rw [Codec.stream_cons, List.length_append, ← Nat.add_assoc]
              exact hpart
          · -- a part of a message: wait for more
            refine ⟨[], message :: messages, rfl, ?_, rfl, ?_⟩
            · rw [decodeLoop]
              split
              · rfl
              · rw [hcodec.decode_prefix message _ _ hpart hne]
                rfl
            · rintro _ ⟨⟩
              have hlength := congrArg List.length hpart
              rw [List.length_append] at hlength
              have hmissing := List.length_pos_iff.mpr hne
              change (task.slice offset).length < _
              omega

/-- After a read the buffer holds a part of the next message at most. -/
theorem receive_eq (hcodec : codec.SelfDelimiting) {messages : List Message}
    {future : List UInt8} (hstream : task.bytes ++ future = codec.stream messages) :
    ∃ decoded rest next, messages = decoded ++ rest ∧
      task.receive codec = (decoded, .ok next) ∧
      task.bytes = codec.stream decoded ++ next.bytes ∧ codec.Partial rest next.bytes := by
  obtain ⟨decoded, rest, hmessages, hloop, hsplit, hpart⟩ :=
    decodeLoop_eq hcodec hstream (Nat.lt_succ_of_le (Nat.le_of_eq (length_bytes task)))
  rw [Nat.zero_add] at hloop hsplit hpart
  have hoffset : (codec.stream decoded).length ≤ task.bytesLen := by
    have hlength := congrArg List.length hsplit
    rw [List.length_append] at hlength
    have htotal := length_bytes task
    rw [ReadTask.bytes] at htotal
    omega
  refine ⟨decoded, rest, task.retain _ hoffset, hmessages, ?_, ?_, ?_⟩
  · rw [receive, hloop]
    exact dif_pos hoffset
  · rw [bytes_retain]
    exact hsplit
  · rw [bytes_retain]
    exact hpart

/-! ## Reading -/

/-- A message that fits into the buffer. -/
def Fits (codec : Codec Message) (message : Message) : Bool :=
  decide ((codec.encode message).length ≤ bufferLen)

theorem readLen_eq_zero {incoming : List UInt8} {cut : Nat}
    (hzero : task.readLen incoming cut = 0) : task.bytesLen = bufferLen ∨ incoming = [] := by
  have hle := task.bytesLen_le
  rw [readLen, free] at hzero
  rw [← List.length_eq_zero_iff]
  omega

/-- However much each read returns, all messages that fit are delivered, up to the first one
that does not. -/
theorem readWithin_eq (hcodec : codec.SelfDelimiting) {messages : List Message}
    {incoming : List UInt8} {fuel : Nat} (cuts : Nat → Nat)
    (hstream : task.bytes ++ incoming = codec.stream messages)
    (hpart : codec.Partial messages task.bytes) (hfuel : incoming.length < fuel) :
    readWithin codec fuel task incoming cuts = (messages.takeWhile (Fits codec), .closed) := by
  induction fuel generalizing task messages incoming cuts with
  | zero => exact absurd hfuel (Nat.not_lt_zero _)
  | succ fuel ih =>
      unfold readWithin
      dsimp only
      split
      next hzero =>
        cases messages with
        | nil => rfl
        | cons message messages =>
            have hlt := hpart message rfl
            rw [length_bytes] at hlt
            rcases readLen_eq_zero hzero with hfull | rfl
            · -- a full buffer holds a part of the message only, which is too long
              have hfits : Fits codec message = false := decide_eq_false (by omega)
              rw [List.takeWhile_cons, hfits]
              rfl
            · -- the stream ends with a whole message, which would have been decoded
              rw [List.append_nil] at hstream
              rw [hstream] at hpart
              exact absurd (Codec.eq_nil_of_partial hpart) (List.cons_ne_nil _ _)
      next hne =>
        have hfit := task.length_take_readLen incoming (cuts 0)
        let len := task.readLen incoming (cuts 0)
        have hread : (task.fill (incoming.take len) hfit).bytes ++ incoming.drop len =
            codec.stream messages := by
          rw [bytes_fill, List.append_assoc, List.take_append_drop, hstream]
        obtain ⟨decoded, rest, next, rfl, hreceive, hbytes, hpart'⟩ := receive_eq hcodec hread
        have hrest : next.bytes ++ incoming.drop len = codec.stream rest := by
          rw [hbytes, List.append_assoc, Codec.stream_append] at hread
          exact List.append_cancel_left hread
        have hdecoded : ∀ message ∈ decoded, Fits codec message = true := by
          intro message hmem
          have hle := Codec.length_encode_le codec hmem
          have hlength := congrArg List.length hbytes
          have hbound := (task.fill (incoming.take len) hfit).bytesLen_le
          rw [length_bytes, List.length_append] at hlength
          exact decide_eq_true (by omega)
        rw [hreceive]
        dsimp only
        have hfuel' : (incoming.drop len).length < fuel := by
          have hle : task.readLen incoming (cuts 0) ≤ incoming.length := by
            rw [readLen]
            omega
          rw [List.length_drop]
          omega
        rw [ih _ hrest hpart' hfuel', List.takeWhile_append_of_pos hdecoded]

end ReadTask

variable {Message : Type} {codec : Codec Message}

/-- Whatever is written back to back is delivered up to the first message that does not fit
into the buffer, in the same way for all ways of cutting the stream. Of the codec it is used
that a message tells where it ends. -/
theorem framing (hcodec : codec.SelfDelimiting) (messages : List Message) (cuts : Nat → Nat) :
    readTask codec (writeTask [] (messages.map codec.encode)) cuts =
        (messages.takeWhile fun message => decide ((codec.encode message).length ≤ bufferLen),
          .closed) ∧
      ∀ cuts', readTask codec (writeTask [] (messages.map codec.encode)) cuts' =
        readTask codec (writeTask [] (messages.map codec.encode)) cuts := by
  have hstream : writeTask [] (messages.map codec.encode) = codec.stream messages := by
    rw [writeTask_eq, List.nil_append]
    rfl
  have hdelivers : ∀ cuts, readTask codec (writeTask [] (messages.map codec.encode)) cuts =
      (messages.takeWhile (ReadTask.Fits codec), .closed) := by
    intro cuts
    rw [hstream]
    apply ReadTask.readWithin_eq hcodec
    · rw [ReadTask.bytes_new, List.nil_append]
    · intro message hmem
      rw [ReadTask.bytes_new]
      exact hcodec.encode_pos message
    · exact Nat.lt_succ_self _
  exact ⟨hdelivers cuts, fun cuts' => (hdelivers cuts').trans (hdelivers cuts).symm⟩

/-- Pairs of bytes, which are encoded as they are. -/
def pairCodec : Codec (UInt8 × UInt8) where
  encode pair := [pair.1, pair.2]
  decode
    | first :: second :: _ => .ok ((first, second), 2)
    | _ => .error .unexpectedEnd

theorem pairCodec_selfDelimiting : pairCodec.SelfDelimiting where
  decode_append := fun _ _ => rfl
  decode_prefix := by
    intro pair part missing hpart hne
    match part with
    | [] | [_] => rfl
    | first :: second :: rest =>
        have hlength := congrArg List.length hpart
        have hmissing := List.length_pos_iff.mpr hne
        simp only [pairCodec, List.length_append, List.length_cons, List.length_nil] at hlength
        omega
  encode_ne_nil := fun _ => List.cons_ne_nil _ _

/-- Two pairs, the first of which comes in two reads. -/
theorem framing_pairs :
    readTask pairCodec (writeTask [] ([(1, 2), (3, 4)].map pairCodec.encode))
      (fun read => if read = 0 then 0 else 2) = ([(1, 2), (3, 4)], .closed) := by
  have hall : [((1 : UInt8), (2 : UInt8)), (3, 4)].takeWhile
      (fun pair => decide ((pairCodec.encode pair).length ≤ bufferLen)) = [(1, 2), (3, 4)] := rfl
  exact (framing pairCodec_selfDelimiting _ _).1.trans (congrArg (·, _) hall)

end BftKit.Transport
