import Mathlib.Logic.Equiv.Defs
import BftKit.Crypto.Transparent
import BftKit.Pbft.Replica
import BftKit.Wire.Bincode

/-! # PBFT on the wire

The encodings are derived, field after field in the order of declaration, except the one of
signatures, which starts with the name of the scheme. Every encoding shows where it ends,
so they can be written back to back.
-/

namespace BftKit

open Foundation Bincode

/-- The signatures of the `secp256k1` and `ed25519_dalek` crates with their serializers. -/
structure SigFormats where
  Secp256k1 : Type
  serializeCompact : Secp256k1 → { bytes : List UInt8 // bytes.length = 64 }
  fromCompact : { bytes : List UInt8 // bytes.length = 64 } → Except String Secp256k1
  Ed25519 : Type
  toBytes : Ed25519 → { bytes : List UInt8 // bytes.length = 64 }
  fromBytes : { bytes : List UInt8 // bytes.length = 64 } → Ed25519

/-- The variants of `Sig`. -/
inductive SigForm (formats : SigFormats) where
  | uninitialized
  | secp256k1 (sig : formats.Secp256k1)
  | ed25519 (sig : formats.Ed25519)

/-- The signatures of the replicas are of these variants. -/
structure SigWire (crypto : Crypto) extends SigFormats where
  form : crypto.Sig ≃ SigForm toSigFormats

/-- Ways in which an encoding fails. -/
inductive EncodeError where
  | other (text : String)
deriving DecidableEq

/-! ## Fields -/

def encodeCommand (command : Command) : List UInt8 :=
  encodeInt command.clientId ++ (encodeInt command.seq ++ encodeBytes command.op)

def readU32 : Reader U32 := (readInt 4).bind fun value => Reader.pure (Fin.ofNat _ value)

def readCommand : Reader Command :=
  readU32.bind fun clientId => readU32.bind fun seq => readBytes.bind fun op =>
    Reader.pure { clientId, seq, op }

/-- The bytes that a command takes in memory, without those of its operation. -/
def commandSize : Nat := 32

def readDigest : Reader Digest := (Reader.take 32).bind fun bytes => Reader.pure ⟨bytes.1, bytes.2⟩

theorem readU32_reads (value : U32) : Reads readU32 (encodeInt value) value := by
  apply (readInt_reads (.inr (.inl rfl)) value.isLt).map
  exact congrArg Reader.pure (Fin.ofNat_val_eq_self value)

theorem readCommand_reads {command : Command} (hop : command.op.length < 2 ^ 63) :
    Reads readCommand (encodeCommand command) command :=
  (readU32_reads command.clientId).bind
    ((readU32_reads command.seq).bind ((readBytes_reads hop).map rfl))

theorem readDigest_reads (digest : Digest) : Reads readDigest digest.bytes digest :=
  (Reads.take digest.bytes digest.length_bytes).map rfl

namespace SigWire

variable {crypto : Crypto} (wire : SigWire crypto)

/-- The parsers invert the serializers. -/
structure Inverts : Prop where
  secp256k1 : ∀ sig, wire.fromCompact (wire.serializeCompact sig) = .ok sig
  ed25519 : ∀ sig, wire.fromBytes (wire.toBytes sig) = sig

def encodeSig (sig : crypto.Sig) : Except EncodeError (List UInt8) :=
  match wire.form sig with
  | .uninitialized => .error (.other "cannot encode uninitialized signature")
  | .secp256k1 sig => .ok (encodeStr "secp256k1" ++ (wire.serializeCompact sig).1)
  | .ed25519 sig => .ok (encodeStr "ed25519" ++ (wire.toBytes sig).1)

def readSig : Reader crypto.Sig := readStr.bind fun tag =>
  if tag = "secp256k1" then
    (Reader.take 64).bind fun bytes =>
      match wire.fromCompact bytes with
      | .ok sig => Reader.pure (wire.form.symm (.secp256k1 sig))
      | .error err => Reader.fail err
  else if tag = "ed25519" then
    (Reader.take 64).bind fun bytes =>
      Reader.pure (wire.form.symm (.ed25519 (wire.fromBytes bytes)))
  else Reader.fail "invalid signature type"

theorem encodeSig_error {sig : crypto.Sig} :
    (∃ err, wire.encodeSig sig = .error err) ↔ wire.form sig = .uninitialized := by
  unfold encodeSig
  cases wire.form sig <;> simp

theorem readSig_reads (hinverts : wire.Inverts) {sig : crypto.Sig} {bytes : List UInt8}
    (hencode : wire.encodeSig sig = .ok bytes) : Reads wire.readSig bytes sig := by
  unfold encodeSig at hencode
  split at hencode
  next => cases hencode
  next inner hform =>
    obtain rfl := Except.ok.inj hencode
    refine (readStr_reads (by decide)).bind ?_
    rw [if_pos rfl]
    apply (Reads.take _ (wire.serializeCompact inner).2).map
    rw [Subtype.coe_eta, hinverts.secp256k1]
    dsimp only
    rw [← hform, Equiv.symm_apply_apply]
  next inner hform =>
    obtain rfl := Except.ok.inj hencode
    refine (readStr_reads (by decide)).bind ?_
    rw [if_neg (by decide), if_pos rfl]
    apply (Reads.take _ (wire.toBytes inner).2).map
    rw [Subtype.coe_eta, hinverts.ed25519, ← hform, Equiv.symm_apply_apply]

end SigWire

namespace Pbft

/-! ## Messages -/

variable {crypto : Crypto} (wire : SigWire crypto)

def encodePrePrepare (prePrepare : PrePrepare crypto) : Except EncodeError (List UInt8) := do
  let sig ← wire.encodeSig prePrepare.sig
  .ok (encodeInt prePrepare.viewNum ++
    (encodeInt prePrepare.blockNum ++ (prePrepare.digest.bytes ++ sig)))

def readPrePrepare : Reader (PrePrepare crypto) :=
  (readInt 4).bind fun viewNum => (readInt 4).bind fun blockNum => readDigest.bind fun digest =>
    wire.readSig.bind fun sig => Reader.pure { viewNum, blockNum, digest, sig }

def encodeVote (vote : Vote crypto) : Except EncodeError (List UInt8) := do
  let sig ← wire.encodeSig vote.sig
  .ok (encodeInt vote.viewNum ++ (encodeInt vote.blockNum ++
    (vote.digest.bytes ++ (encodeInt vote.replicaId ++ sig))))

def readVote : Reader (Vote crypto) :=
  (readInt 4).bind fun viewNum => (readInt 4).bind fun blockNum => readDigest.bind fun digest =>
    (readInt 2).bind fun replicaId => wire.readSig.bind fun sig =>
      Reader.pure { viewNum, blockNum, digest, replicaId, sig }

namespace ToReplica

/-- `encode_to_vec`. -/
def encode : ToReplica crypto → Except EncodeError (List UInt8)
  | .request command => .ok (encodeVariant 0 ++ encodeCommand command)
  | .prePrepare sent commands => do
      let bytes ← encodePrePrepare wire sent
      .ok (encodeVariant 1 ++ (bytes ++ encodeVec encodeCommand commands))
  | .prepare vote => do
      let bytes ← encodeVote wire vote
      .ok (encodeVariant 2 ++ bytes)
  | .commit vote => do
      let bytes ← encodeVote wire vote
      .ok (encodeVariant 3 ++ bytes)

def read : Reader (ToReplica crypto) := readVariant.bind fun index =>
  if index = 0 then readCommand.bind fun command => Reader.pure (.request command)
  else if index = 1 then
    (readPrePrepare wire).bind fun sent => (readVec commandSize readCommand).bind fun commands =>
      Reader.pure (.prePrepare sent commands)
  else if index = 2 then (readVote wire).bind fun vote => Reader.pure (.prepare vote)
  else if index = 3 then (readVote wire).bind fun vote => Reader.pure (.commit vote)
  else Reader.fail "unexpected variant"

/-- `decode_from_slice`: the message and the number of bytes it takes. -/
def decode : List UInt8 → Except DecodeError (ToReplica crypto × Nat) := (read wire).decode

/-- What integers, byte strings and vectors of the source can hold. No vector takes more than
`isize::MAX` bytes. -/
def Representable : ToReplica crypto → Prop
  | .request command => command.op.length < 2 ^ 63
  | .prePrepare sent commands =>
      sent.viewNum < 2 ^ 32 ∧ sent.blockNum < 2 ^ 32 ∧
        commands.length * commandSize < 2 ^ 63 ∧
        ∀ command ∈ commands, command.op.length < 2 ^ 63
  | .prepare vote | .commit vote =>
      vote.viewNum < 2 ^ 32 ∧ vote.blockNum < 2 ^ 32 ∧ vote.replicaId < 2 ^ 16

def sig? : ToReplica crypto → Option crypto.Sig
  | .request _ => none
  | .prePrepare sent _ => some sent.sig
  | .prepare vote | .commit vote => some vote.sig

/-- The message contains an uninitialized signature. -/
def Unsigned (message : ToReplica crypto) : Prop :=
  ∃ sig ∈ message.sig?, wire.form sig = .uninitialized

end ToReplica

variable {wire}

theorem readPrePrepare_reads (hinverts : wire.Inverts) {prePrepare : PrePrepare crypto}
    (hview : prePrepare.viewNum < 2 ^ 32) (hblock : prePrepare.blockNum < 2 ^ 32)
    {bytes : List UInt8} (hencode : encodePrePrepare wire prePrepare = .ok bytes) :
    Reads (readPrePrepare wire) bytes prePrepare := by
  simp only [encodePrePrepare, bind_eq_ok] at hencode
  obtain ⟨sig, hsig, heq⟩ := hencode
  obtain rfl := Except.ok.inj heq
  exact (readInt_reads (.inr (.inl rfl)) hview).bind
    ((readInt_reads (.inr (.inl rfl)) hblock).bind
      ((readDigest_reads _).bind ((wire.readSig_reads hinverts hsig).map rfl)))

theorem readVote_reads (hinverts : wire.Inverts) {vote : Vote crypto}
    (hview : vote.viewNum < 2 ^ 32) (hblock : vote.blockNum < 2 ^ 32)
    (hreplica : vote.replicaId < 2 ^ 16)
    {bytes : List UInt8} (hencode : encodeVote wire vote = .ok bytes) :
    Reads (readVote wire) bytes vote := by
  simp only [encodeVote, bind_eq_ok] at hencode
  obtain ⟨sig, hsig, heq⟩ := hencode
  obtain rfl := Except.ok.inj heq
  exact (readInt_reads (.inr (.inl rfl)) hview).bind
    ((readInt_reads (.inr (.inl rfl)) hblock).bind
      ((readDigest_reads _).bind
        ((readInt_reads (.inl rfl) hreplica).bind ((wire.readSig_reads hinverts hsig).map rfl))))

namespace ToReplica

/-- The encoding of a message is read as the message. -/
theorem read_reads (hinverts : wire.Inverts) {message : ToReplica crypto}
    (hmessage : message.Representable) {bytes : List UInt8}
    (hencode : message.encode wire = .ok bytes) : Reads (read wire) bytes message := by
  cases message with
  | request command =>
      obtain rfl := Except.ok.inj hencode
      exact (readVariant_reads (by decide)).bind ((readCommand_reads hmessage).map rfl)
  | prePrepare sent commands =>
      obtain ⟨hview, hblock, hcapacity, hops⟩ := hmessage
      simp only [encode, bind_eq_ok] at hencode
      obtain ⟨sentBytes, hsent, heq⟩ := hencode
      obtain rfl := Except.ok.inj heq
      exact (readVariant_reads (by decide)).bind
        ((readPrePrepare_reads hinverts hview hblock hsent).bind
          ((readVec_reads (by decide) hcapacity
            fun command hmem => readCommand_reads (hops command hmem)).map rfl))
  | prepare vote =>
      obtain ⟨hview, hblock, hreplica⟩ := hmessage
      simp only [encode, bind_eq_ok] at hencode
      obtain ⟨sentBytes, hsent, heq⟩ := hencode
      obtain rfl := Except.ok.inj heq
      exact (readVariant_reads (by decide)).bind
        ((readVote_reads hinverts hview hblock hreplica hsent).map rfl)
  | commit vote =>
      obtain ⟨hview, hblock, hreplica⟩ := hmessage
      simp only [encode, bind_eq_ok] at hencode
      obtain ⟨sentBytes, hsent, heq⟩ := hencode
      obtain rfl := Except.ok.inj heq
      exact (readVariant_reads (by decide)).bind
        ((readVote_reads hinverts hview hblock hreplica hsent).map rfl)

/-- Encoding fails on the signature or not at all. -/
theorem encode_error {message : ToReplica crypto} :
    (∃ err, message.encode wire = .error err) ↔ message.Unsigned wire := by
  have hsig : ∀ {rest : List UInt8 → Except EncodeError (List UInt8)} (sig : crypto.Sig),
      (∀ bytes, ∃ result, rest bytes = .ok result) →
      ((∃ err, (wire.encodeSig sig >>= rest) = .error err) ↔ wire.form sig = .uninitialized) := by
    intro rest sig hrest
    rw [← wire.encodeSig_error]
    cases hencode : wire.encodeSig sig with
    | error err => simp
    | ok bytes =>
        obtain ⟨result, hresult⟩ := hrest bytes
        simp [hresult]
  cases message with
  | request command => simp [encode, Unsigned, sig?]
  | prePrepare sent commands =>
      simp only [encode, encodePrePrepare, Unsigned, sig?, Option.mem_some_iff,
        exists_eq_left', bind_assoc]
      exact hsig _ fun _ => ⟨_, rfl⟩
  | prepare vote =>
      simp only [encode, encodeVote, Unsigned, sig?, Option.mem_some_iff, exists_eq_left',
        bind_assoc]
      exact hsig _ fun _ => ⟨_, rfl⟩
  | commit vote =>
      simp only [encode, encodeVote, Unsigned, sig?, Option.mem_some_iff, exists_eq_left',
        bind_assoc]
      exact hsig _ fun _ => ⟨_, rfl⟩

/-- Every message without an uninitialized signature has an encoding, which decodes to it
whatever comes behind, and is no proper prefix of another encoding. The encoding of signatures
is a parameter, and is taken to be invertible. -/
theorem wire_round_trip (wire : SigWire crypto) (hinverts : wire.Inverts)
    (message : ToReplica crypto) (hmessage : message.Representable) :
    ((∃ err, message.encode wire = .error err) ↔ message.Unsigned wire) ∧
      ∀ bytes, message.encode wire = .ok bytes →
        (∀ rest, decode wire (bytes ++ rest) = .ok (message, bytes.length)) ∧
        ∀ (message' : ToReplica crypto) (bytes' : List UInt8), message'.Representable →
          message'.encode wire = .ok bytes' → bytes <+: bytes' → bytes = bytes' := by
  refine ⟨encode_error, fun bytes hencode => ?_⟩
  have hreads := read_reads hinverts hmessage hencode
  refine ⟨hreads.decode, fun message' bytes' hmessage' hencode' hprefix => ?_⟩
  have hreads' := read_reads hinverts hmessage' hencode'
  obtain ⟨missing, rfl⟩ := hprefix
  obtain ⟨-, rfl⟩ := hreads.unique hreads' (List.append_nil (bytes ++ missing)).symm
  exact (List.append_nil bytes).symm

/-- Signatures that are their own serialization. -/
def plainFormats : SigFormats where
  Secp256k1 := { bytes : List UInt8 // bytes.length = 64 }
  serializeCompact sig := sig
  fromCompact := .ok
  Ed25519 := { bytes : List UInt8 // bytes.length = 64 }
  toBytes sig := sig
  fromBytes bytes := bytes

def plainSig (byte : UInt8) : { bytes : List UInt8 // bytes.length = 64 } :=
  ⟨List.replicate 64 byte, List.length_replicate⟩

/-- Every replica signs with its id. -/
def plainCrypto : Crypto where
  sha256 := polynomialHash
  SecretKey := UInt8
  PublicKey := UInt8
  Sig := SigForm plainFormats
  uninitialized := .uninitialized
  replicaSecretKey := UInt8.ofNat
  publicKey secretKey := secretKey
  signBytes _ secretKey := .secp256k1 (plainSig secretKey)
  verifyBytes _ publicKey
    | .secp256k1 sig => sig.1 == (plainSig publicKey).1
    | .ed25519 _ | .uninitialized => false
  verifyDigest _ publicKey
    | .secp256k1 sig => sig.1 == (plainSig publicKey).1
    | .ed25519 _ | .uninitialized => false

def plainWire : SigWire plainCrypto where
  toSigFormats := plainFormats
  form := Equiv.refl _

/-- A vote for the first block, with the signature of its sender. -/
def plainVote : Vote plainCrypto where
  viewNum := 0
  blockNum := 1
  digest := .zero
  replicaId := 300
  sig := .secp256k1 (plainSig 3)

/-- Its encoding takes 112 bytes, three of which are the id of the sender. -/
theorem wire_round_trip_vote :
    ∃ bytes, encode plainWire (.prepare plainVote) = .ok bytes ∧ bytes.length = 112 ∧
      decode plainWire (bytes ++ [7, 7]) = .ok (.prepare plainVote, bytes.length) := by
  have hinverts : plainWire.Inverts := ⟨fun _ => rfl, fun _ => rfl⟩
  have hvote : Representable (.prepare plainVote) := ⟨by decide, by decide, by decide⟩
  obtain ⟨-, hdecode⟩ := wire_round_trip plainWire hinverts (.prepare plainVote) hvote
  exact ⟨_, rfl, by decide +kernel, (hdecode _ rfl).1 [7, 7]⟩

end ToReplica

end Pbft

end BftKit
