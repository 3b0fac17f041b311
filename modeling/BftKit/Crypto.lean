import BftKit.Basic
import BftKit.Foundation.Map

/-! # Digests and signatures

What a value feeds to a hasher is modelled byte for byte. The hash function and
the signature scheme themselves are parameters: nothing is assumed of them unless a result says so.
-/

namespace BftKit

open Foundation

/-- The little-endian bytes of a number, cut to a width. -/
def leBytes : Nat → Nat → List UInt8
  | 0, _ => []
  | width + 1, value => UInt8.ofNat value :: leBytes width (value / 256)

@[simp] theorem length_leBytes (width value : Nat) : (leBytes width value).length = width := by
  induction width generalizing value with
  | zero => rfl
  | succ width ih => simp [leBytes, ih]

theorem leBytes_injective {width value value' : Nat} (hlt : value < 256 ^ width)
    (hlt' : value' < 256 ^ width) (heq : leBytes width value = leBytes width value') :
    value = value' := by
  induction width generalizing value value' with
  | zero => omega
  | succ width ih =>
      simp only [leBytes, List.cons.injEq, ← UInt8.toNat_inj, UInt8.toNat_ofNat'] at heq
      have hdiv := ih (Nat.div_lt_of_lt_mul (by rwa [pow_succ'] at hlt))
        (Nat.div_lt_of_lt_mul (by rwa [pow_succ'] at hlt')) heq.2
      omega

/-- The output of SHA-256. -/
@[ext] structure Digest where
  bytes : List UInt8
  length_bytes : bytes.length = 32
deriving DecidableEq

namespace Digest

/-- The digest of zero bytes, which stands for the genesis block. -/
def zero : Digest := ⟨List.replicate 32 0, rfl⟩

instance : Inhabited Digest := ⟨zero⟩

end Digest

/-- The bytes that a value feeds to a hasher. -/
class UpdateHash (Value : Type) where
  updateHash : Value → List UInt8

export UpdateHash (updateHash)

instance : UpdateHash Command where
  updateHash command :=
    leBytes 4 command.clientId ++ leBytes 4 command.seq ++ command.op

/-- Slices feed their items one after another. -/
instance {Item : Type} [UpdateHash Item] : UpdateHash (List Item) where
  updateHash items := items.flatMap updateHash

/-- The hash function and the signature scheme the replicas are built with. -/
structure Crypto where
  sha256 : List UInt8 → Digest
  SecretKey : Type
  PublicKey : Type
  Sig : Type
  /-- The placeholder that a message carries until it is signed. -/
  uninitialized : Sig
  replicaSecretKey : Nat → SecretKey
  publicKey : SecretKey → PublicKey
  /-- Signs the bytes that a message feeds to a hasher. -/
  signBytes : List UInt8 → SecretKey → Sig
  verifyBytes : List UInt8 → PublicKey → Sig → Bool
  /-- Verifies a signature on a digest that is already computed. -/
  verifyDigest : Digest → PublicKey → Sig → Bool

namespace Crypto

variable (crypto : Crypto) {Value : Type} [UpdateHash Value]

def digest (value : Value) : Digest := crypto.sha256 (updateHash value)

def sign (message : Value) (secretKey : crypto.SecretKey) : crypto.Sig :=
  crypto.signBytes (updateHash message) secretKey

def verify (message : Value) (publicKey : crypto.PublicKey) (sig : crypto.Sig) : Bool :=
  crypto.verifyBytes (updateHash message) publicKey sig

/-- Signatures verify under the public key of their secret key. -/
def Verifies : Prop := ∀ bytes secretKey,
  crypto.verifyBytes bytes (crypto.publicKey secretKey) (crypto.signBytes bytes secretKey) = true

end Crypto

/-- A replica's own key and everyone's public keys. -/
structure ReplicaConfig (crypto : Crypto) where
  secretKey : crypto.SecretKey
  publicKeys : List crypto.PublicKey

namespace ReplicaConfig

variable {crypto : Crypto}

/-- Panics on an id that is not below the number of replicas. -/
def new (crypto : Crypto) (replicaId numReplica : Nat) :
    Except Panic (ReplicaConfig crypto) :=
  let secretKeys := (List.range numReplica).map crypto.replicaSecretKey
  match secretKeys[replicaId]? with
  | none => .error .index
  | some secretKey => .ok { secretKey, publicKeys := secretKeys.map crypto.publicKey }

theorem new_eq_ok {replicaId numReplica : Nat} {config : ReplicaConfig crypto}
    (hnew : new crypto replicaId numReplica = .ok config) :
    replicaId < numReplica ∧ config.secretKey = crypto.replicaSecretKey replicaId ∧
      config.publicKeys =
        (List.range numReplica).map (fun id => crypto.publicKey (crypto.replicaSecretKey id)) := by
  unfold new at hnew
  by_cases hlt : replicaId < numReplica
  · simp only [List.getElem?_map, List.getElem?_range hlt, Option.map_some, List.map_map,
      Except.ok.injEq] at hnew
    subst hnew
    exact ⟨hlt, rfl, rfl⟩
  · simp [List.getElem?_eq_none (Nat.le_of_not_lt (by simpa using hlt) :
      (List.range numReplica).length ≤ replicaId)] at hnew

end ReplicaConfig

/-- One value for each member of a quorum. -/
abbrev Quorum (Value : Type) := Map Nat Value

end BftKit
