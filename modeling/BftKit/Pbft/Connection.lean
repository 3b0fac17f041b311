import Mathlib.Algebra.Order.BigOperators.Group.List
import Mathlib.Algebra.Order.Group.Nat
import Mathlib.Data.List.TakeWhile
import BftKit.Pbft.Wire
import BftKit.Transport.Connection

/-! # PBFT over connections

Replicas write their messages to each other over one connection in each direction. A
message that is received has a signature and integers in range, whoever has written it.
-/

namespace BftKit

open Foundation Bincode Transport

/-! ## Commands and signatures -/

theorem readU32_yields : readU32.Yields fun _ => True := .any _

theorem readCommand_yields : readCommand.Yields (·.op.length < 2 ^ 63) :=
  readU32_yields.bind fun _ _ => readU32_yields.bind fun _ _ =>
    readBytes_yields.bind fun _ hop => .pure hop

/-- The operations, and what comes with each of them. -/
def commandsLen (commands : List Command) : Nat :=
  (commands.map fun command => 19 + command.op.length).sum

theorem length_encodeCommand_le (command : Command) :
    (encodeCommand command).length ≤ 19 + command.op.length := by
  have hclient := length_encodeInt_le_five command.clientId.isLt
  have hseq := length_encodeInt_le_five command.seq.isLt
  have hop := length_encodeInt_le command.op.length
  simp only [encodeCommand, encodeBytes, List.length_append]
  omega

theorem length_encodeCommands_le (commands : List Command) :
    (encodeVec encodeCommand commands).length ≤ 9 + commandsLen commands := by
  rw [encodeVec, List.length_append, List.length_flatMap]
  exact Nat.add_le_add (length_encodeInt_le _)
    (List.sum_le_sum fun command _ => length_encodeCommand_le command)

namespace SigWire

variable {crypto : Crypto}

theorem length_encodeSig_le {wire : SigWire crypto} {sig : crypto.Sig} {bytes : List UInt8}
    (hencode : wire.encodeSig sig = .ok bytes) : bytes.length ≤ 74 := by
  unfold encodeSig at hencode
  split at hencode
  next => cases hencode
  next sig _ =>
    obtain rfl := Except.ok.inj hencode
    rw [List.length_append, (wire.serializeCompact sig).2]
    decide
  next sig _ =>
    obtain rfl := Except.ok.inj hencode
    rw [List.length_append, (wire.toBytes sig).2]
    decide

/-- No placeholder is read. -/
theorem readSig_yields (wire : SigWire crypto) :
    wire.readSig.Yields (wire.form · ≠ .uninitialized) := by
  refine (Reader.Yields.any _).bind fun tag _ => ?_
  split
  next =>
    refine (Reader.Yields.any _).bind fun bytes _ => ?_
    split
    next sig _ =>
      apply Reader.Yields.pure
      rw [Equiv.apply_symm_apply]
      rintro ⟨⟩
    next => exact .fail _
  next =>
    split
    next =>
      refine (Reader.Yields.any _).bind fun bytes _ => .pure ?_
      rw [Equiv.apply_symm_apply]
      rintro ⟨⟩
    next => exact .fail _

end SigWire

namespace Pbft

/-! ## Messages -/

variable {crypto : Crypto} {wire : SigWire crypto}

theorem readPrePrepare_yields :
    (readPrePrepare wire).Yields fun prePrepare => prePrepare.viewNum < 2 ^ 32 ∧
      prePrepare.blockNum < 2 ^ 32 ∧ wire.form prePrepare.sig ≠ .uninitialized :=
  (readInt_yields (by decide)).bind fun _ hview => (readInt_yields (by decide)).bind
    fun _ hblock => (Reader.Yields.any _).bind fun _ _ => wire.readSig_yields.bind
      fun _ hsig => .pure ⟨hview, hblock, hsig⟩

theorem readVote_yields :
    (readVote wire).Yields fun vote => (vote.viewNum < 2 ^ 32 ∧ vote.blockNum < 2 ^ 32 ∧
      vote.replicaId < 2 ^ 16) ∧ wire.form vote.sig ≠ .uninitialized :=
  (readInt_yields (by decide)).bind fun _ hview => (readInt_yields (by decide)).bind
    fun _ hblock => (Reader.Yields.any _).bind fun _ _ => (readInt_yields (by decide)).bind
      fun _ hreplica => wire.readSig_yields.bind
        fun _ hsig => .pure ⟨⟨hview, hblock, hreplica⟩, hsig⟩

theorem length_encodePrePrepare_le {prePrepare : PrePrepare crypto}
    (hview : prePrepare.viewNum < 2 ^ 32) (hblock : prePrepare.blockNum < 2 ^ 32)
    {bytes : List UInt8} (hencode : encodePrePrepare wire prePrepare = .ok bytes) :
    bytes.length ≤ 116 := by
  simp only [encodePrePrepare, bind_eq_ok] at hencode
  obtain ⟨sig, hsig, heq⟩ := hencode
  obtain rfl := Except.ok.inj heq
  have hviewLen := length_encodeInt_le_five hview
  have hblockLen := length_encodeInt_le_five hblock
  have hdigestLen := prePrepare.digest.length_bytes
  have hsigLen := SigWire.length_encodeSig_le hsig
  simp only [List.length_append]
  omega

theorem length_encodeVote_le {vote : Vote crypto} (hview : vote.viewNum < 2 ^ 32)
    (hblock : vote.blockNum < 2 ^ 32) (hreplica : vote.replicaId < 2 ^ 16)
    {bytes : List UInt8} (hencode : encodeVote wire vote = .ok bytes) : bytes.length ≤ 121 := by
  simp only [encodeVote, bind_eq_ok] at hencode
  obtain ⟨sig, hsig, heq⟩ := hencode
  obtain rfl := Except.ok.inj heq
  have hviewLen := length_encodeInt_le_five hview
  have hblockLen := length_encodeInt_le_five hblock
  have hdigestLen := vote.digest.length_bytes
  have hreplicaLen := length_encodeInt_le_five (Nat.lt_trans hreplica (by decide))
  have hsigLen := SigWire.length_encodeSig_le hsig
  simp only [List.length_append]
  omega

namespace ToReplica

theorem unsigned_iff {message : ToReplica crypto} {sig : crypto.Sig}
    (hsig : message.sig? = some sig) : message.Unsigned wire ↔ wire.form sig = .uninitialized := by
  simp [Unsigned, hsig]

/-- What is read can be represented, and is signed. -/
theorem read_yields :
    (read wire).Yields fun message => message.Representable ∧ ¬ message.Unsigned wire := by
  refine (Reader.Yields.any _).bind fun index _ => ?_
  split
  next =>
    refine readCommand_yields.bind fun command hop => .pure ⟨hop, ?_⟩
    simp [Unsigned, sig?]
  next =>
    split
    next =>
      refine readPrePrepare_yields.bind fun sent hsent => ?_
      obtain ⟨hview, hblock, hsig⟩ := hsent
      refine (readVec_yields readCommand_yields).bind fun commands hcommands => ?_
      exact .pure ⟨⟨hview, hblock, hcommands.1, hcommands.2⟩, (unsigned_iff rfl).not.mpr hsig⟩
    next =>
      split
      next =>
        exact readVote_yields.bind fun vote hvote =>
          .pure ⟨hvote.1, (unsigned_iff rfl).not.mpr hvote.2⟩
      next =>
        split
        next =>
          exact readVote_yields.bind fun vote hvote =>
            .pure ⟨hvote.1, (unsigned_iff rfl).not.mpr hvote.2⟩
        next => exact .fail _

/-- The messages between replicas as they are encoded. -/
def format (wire : SigWire crypto) : Format (ToReplica crypto) EncodeError where
  encode := encode wire
  reader := read wire
  Representable := Representable

theorem format_inverts (hinverts : wire.Inverts) : (format wire).Inverts where
  reads := fun _ _ hmessage hencode => read_reads hinverts hmessage hencode
  nil := rfl

theorem encode_ok {message : ToReplica crypto} :
    (∃ bytes, message.encode wire = .ok bytes) ↔ ¬ message.Unsigned wire := by
  rw [← encode_error]
  cases message.encode wire <;> simp

theorem writable_iff {message : ToReplica crypto} :
    (format wire).Writable message ↔ message.Representable ∧ ¬ message.Unsigned wire :=
  and_congr Iff.rfl encode_ok

theorem format_yields (wire : SigWire crypto) : (format wire).Yields :=
  fun bytes message rest hread => writable_iff.mpr (read_yields bytes message rest hread)

/-! ## Sizes -/

/-- The commands of a message. -/
def commands : ToReplica crypto → List Command
  | .request command => [command]
  | .prePrepare _ commands => commands
  | .prepare _ | .commit _ => []

/-- An encoding is longer than the commands by a constant at most. -/
theorem length_encode_le {message : ToReplica crypto} (hmessage : message.Representable)
    {bytes : List UInt8} (hencode : message.encode wire = .ok bytes) :
    bytes.length ≤ 126 + commandsLen message.commands := by
  cases message with
  | request command =>
      obtain rfl := Except.ok.inj hencode
      have hcommand := length_encodeCommand_le command
      have hsum : commandsLen [command] = 19 + command.op.length := by simp [commandsLen]
      have hvariant : (encodeVariant 0).length = 1 := rfl
      rw [List.length_append, commands]
      omega
  | prePrepare sent commands =>
      obtain ⟨hview, hblock, -⟩ := hmessage
      simp only [encode, bind_eq_ok] at hencode
      obtain ⟨sentBytes, hsent, heq⟩ := hencode
      obtain rfl := Except.ok.inj heq
      have hlength := length_encodePrePrepare_le hview hblock hsent
      have hcommands := length_encodeCommands_le commands
      have hvariant : (encodeVariant 1).length = 1 := rfl
      rw [List.length_append, List.length_append, ToReplica.commands]
      omega
  | prepare vote | commit vote =>
      obtain ⟨hview, hblock, hreplica⟩ := hmessage
      simp only [encode, bind_eq_ok] at hencode
      obtain ⟨sentBytes, hsent, heq⟩ := hencode
      obtain rfl := Except.ok.inj heq
      have hlength := length_encodeVote_le hview hblock hreplica hsent
      have hvariant : (encodeVariant 2).length = 1 ∧ (encodeVariant 3).length = 1 := ⟨rfl, rfl⟩
      rw [List.length_append]
      omega

/-- A message whose commands leave some room fits into the buffer. -/
theorem length_bytes_le {message : ToReplica crypto} (hmessage : message.Representable)
    (hlen : 126 + commandsLen message.commands ≤ bufferLen) :
    ((format wire).bytes message).length ≤ bufferLen := by
  cases hencode : message.encode wire with
  | error err =>
      rw [Format.bytes, show (format wire).encode message = .error err from hencode]
      exact Nat.zero_le _
  | ok bytes =>
      rw [Format.bytes_eq hencode]
      exact Nat.le_trans (length_encode_le hmessage hencode) hlen

/-! ## Delivery -/

/-- What a replica writes to another one is delivered in order and unchanged, up to the first
message that does not fit into the buffer. -/
theorem delivered_in_order (wire : SigWire crypto) (hinverts : wire.Inverts)
    (messages : List (ToReplica crypto)) (hmessages : ∀ message ∈ messages, message.Representable)
    (items : List (List UInt8)) (hwrite : write (format wire) messages = .ok items)
    (cuts : Nat → Nat) :
    readTask (format wire).codec (writeTask [] items) cuts =
      (messages.takeWhile fun message =>
        decide (((format wire).bytes message).length ≤ bufferLen), .closed) :=
  readTask_write (format_inverts hinverts) (format_yields wire) hmessages hwrite cuts

/-- Two votes, nine bytes at a time. -/
theorem delivered_in_order_votes :
    ∃ items, write (format plainWire) [.prepare plainVote, .commit plainVote] = .ok items ∧
      readTask (format plainWire).codec (writeTask [] items) (fun _ => 8) =
        ([.prepare plainVote, .commit plainVote], .closed) := by
  have hinverts : plainWire.Inverts := ⟨fun _ => rfl, fun _ => rfl⟩
  have hmessages : ∀ message ∈ [ToReplica.prepare plainVote, .commit plainVote],
      message.Representable := by
    intro message hmem
    rcases List.mem_pair.mp hmem with rfl | rfl
    · exact ⟨by decide, by decide, by decide⟩
    · exact ⟨by decide, by decide, by decide⟩
  refine ⟨_, rfl, ?_⟩
  rw [delivered_in_order plainWire hinverts _ hmessages _ rfl]
  rfl

/-- Signed messages that leave room in the buffer are all written, and all delivered. -/
theorem all_delivered (wire : SigWire crypto) (hinverts : wire.Inverts)
    (messages : List (ToReplica crypto)) (hmessages : ∀ message ∈ messages, message.Representable)
    (hsigned : ∀ message ∈ messages, ¬ message.Unsigned wire)
    (hlen : ∀ message ∈ messages, 126 + commandsLen message.commands ≤ bufferLen) :
    ∃ items, write (format wire) messages = .ok items ∧
      ∀ cuts, readTask (format wire).codec (writeTask [] items) cuts = (messages, .closed) := by
  obtain ⟨items, hitems⟩ : ∃ items, write (format wire) messages = .ok items :=
    write_ok fun message hmem => encode_ok.mpr (hsigned message hmem)
  refine ⟨items, hitems, fun cuts => ?_⟩
  rw [readTask_write (format_inverts hinverts) (format_yields wire) hmessages hitems cuts,
    List.takeWhile_eq_self_iff.mpr]
  intro message hmem
  exact decide_eq_true (length_bytes_le (hmessages message hmem) (hlen message hmem))

/-- A request and a vote. -/
theorem all_delivered_request :
    let messages : List (ToReplica plainCrypto) := [.request ⟨3, 1, [7]⟩, .prepare plainVote]
    ∃ items, write (format plainWire) messages = .ok items ∧
      ∀ cuts, readTask (format plainWire).codec (writeTask [] items) cuts =
        (messages, .closed) := by
  intro messages
  apply all_delivered plainWire ⟨fun _ => rfl, fun _ => rfl⟩
  · intro message hmem
    rcases List.mem_pair.mp hmem with rfl | rfl
    · change 1 < 2 ^ 63
      decide
    · exact ⟨by decide, by decide, by decide⟩
  · intro message hmem
    rcases List.mem_pair.mp hmem with rfl | rfl
    · rintro ⟨_, ⟨⟩, -⟩
    · rintro ⟨_, ⟨⟩, ⟨⟩⟩
  · intro message hmem
    rcases List.mem_pair.mp hmem with rfl | rfl
    · decide
    · decide

/-- Whatever bytes come over a connection and however they are cut, a message that is
delivered has a signature, and integers and lengths that can be represented. -/
theorem delivered_signed (wire : SigWire crypto) (incoming : List UInt8) (cuts : Nat → Nat) :
    ∀ message ∈ (readTask (format wire).codec incoming cuts).1,
      message.Representable ∧ ¬ message.Unsigned wire :=
  fun message hmem =>
    writable_iff.mp (readTask_writable (format_yields wire) incoming cuts message hmem)

/-- A vote that has been delivered. -/
theorem delivered_signed_vote :
    ∃ items, write (format plainWire) [.prepare plainVote] = .ok items ∧
      .prepare plainVote ∈ (readTask (format plainWire).codec (writeTask [] items) (fun _ => 8)).1 ∧
      ¬ Unsigned plainWire (.prepare plainVote) := by
  have hvote : ∀ message ∈ [ToReplica.prepare plainVote], message.Representable := by
    intro message hmem
    rw [List.mem_singleton.mp hmem]
    exact ⟨by decide, by decide, by decide⟩
  have hinverts : plainWire.Inverts := ⟨fun _ => rfl, fun _ => rfl⟩
  obtain ⟨items, hitems⟩ : ∃ items,
      write (format plainWire) [.prepare plainVote] = .ok items := ⟨_, rfl⟩
  have hmem : ToReplica.prepare plainVote ∈
      (readTask (format plainWire).codec (writeTask [] items) (fun _ => 8)).1 := by
    rw [readTask_write (format_inverts hinverts) (format_yields plainWire) hvote hitems]
    exact List.mem_singleton_self _
  exact ⟨items, hitems, hmem, (delivered_signed plainWire _ _ _ hmem).2⟩

end ToReplica

end Pbft

end BftKit
