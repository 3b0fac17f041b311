import Std.Data.ExtTreeMap
import BftKit.Crypto

/-! # Threshold signatures

The schemes themselves (the `threshold_crypto` and `givre` crates) are parameters.
What is modelled is the bookkeeping around them: collecting shares until there are
enough, and dispatching on the kind of a signature. Hash maps whose iteration order
shows are kept in key order.
-/

namespace BftKit

open Foundation

/-- The external schemes. -/
structure ThresholdScheme extends Crypto where
  ThresholdCryptoSig : Type
  ThresholdCryptoSigShare : Type
  PublicKeySet : Type
  /-- The maximum number of faulty participants. -/
  threshold : PublicKeySet → Nat
  combineSignatures : PublicKeySet → List (Nat × ThresholdCryptoSigShare) →
    Option ThresholdCryptoSig
  verifyThresholdCrypto : PublicKeySet → ThresholdCryptoSig → Digest → Bool
  GivreKeyShare : Type
  GivrePublicKey : Type
  GivrePublicCommitments : Type
  GivreSecretNonces : Type
  GivreSigShare : Type
  GivreSig : Type
  decidableEqCommitments : DecidableEq GivrePublicCommitments
  minSigners : GivreKeyShare → Nat
  /-- The normalized shared public key. -/
  sharedPublicKey : GivreKeyShare → GivrePublicKey
  /-- The first round of signing, on the randomness of a given draw. -/
  commit : GivreKeyShare → Nat → GivrePublicCommitments × GivreSecretNonces
  /-- The second round of signing. -/
  signShare : GivreKeyShare → GivreSecretNonces → Digest →
    List (Nat × GivrePublicCommitments) → Option GivreSigShare
  aggregate : GivreKeyShare → List (Nat × GivrePublicCommitments × GivreSigShare) → Digest →
    Option GivreSig
  verifyGivre : GivrePublicKey → Digest → GivreSig → Bool

attribute [instance] ThresholdScheme.decidableEqCommitments

namespace Threshold

variable {scheme : ThresholdScheme}

inductive Sig (scheme : ThresholdScheme) where
  | vec (sigs : List (Nat × scheme.Sig))
  | thresholdCrypto (sig : scheme.ThresholdCryptoSig)
  | givre (sig : scheme.GivreSig)

inductive PartialSig (scheme : ThresholdScheme) where
  | vec (sig : scheme.Sig)
  | thresholdCrypto (share : scheme.ThresholdCryptoSigShare)
  | givre (share : scheme.GivreSigShare)

inductive PartialSigs (scheme : ThresholdScheme) where
  | vec (sigs : Std.ExtTreeMap Nat scheme.Sig)
  | thresholdCrypto (shares : Std.ExtTreeMap Nat scheme.ThresholdCryptoSigShare)
  | givre (shares : Std.ExtTreeMap Nat scheme.GivreSigShare)

inductive PublicMasterKey (scheme : ThresholdScheme) where
  | vec (publicKeys : List scheme.PublicKey) (threshold : Nat)
  | thresholdCrypto (publicKeySet : scheme.PublicKeySet)
  | givre (publicKey : scheme.GivrePublicKey)

structure GivreAggregateContext (scheme : ThresholdScheme) where
  keyShare : scheme.GivreKeyShare
  signers : List (Nat × scheme.GivrePublicCommitments)
  digest : Digest

inductive AggregateContext (scheme : ThresholdScheme) where
  | vec (threshold : Nat)
  | thresholdCrypto (publicKeySet : scheme.PublicKeySet)
  | givre (context : GivreAggregateContext scheme)

/-- Ways in which a share is not accepted. -/
inductive AggregateError where
  | combine
  | missingShare (index : Nat)
  | aggregate
  | unmatched
deriving DecidableEq

/-- Takes the share of each listed signer, until one is missing. -/
def takeShares (shares : Std.ExtTreeMap Nat scheme.GivreSigShare) :
    List (Nat × scheme.GivrePublicCommitments) →
    Std.ExtTreeMap Nat scheme.GivreSigShare ×
      Except AggregateError (List (Nat × scheme.GivrePublicCommitments × scheme.GivreSigShare))
  | [] => (shares, .ok [])
  | (index, publicCommitments) :: rest =>
      match shares[index]? with
      | none => (shares, .error (.missingShare index))
      | some sigShare =>
          let (shares, taken) := takeShares (shares.erase index) rest
          (shares, taken.map ((index, publicCommitments, sigShare) :: ·))

namespace PartialSigs

/-- The shares afterwards, and the aggregate if there are enough of them. An error
keeps what it has done to the shares. -/
def addPartial (index : Nat) :
    PartialSigs scheme → PartialSig scheme → AggregateContext scheme →
    PartialSigs scheme × Except AggregateError (Option (Sig scheme))
  | .vec sigs, .vec sig, .vec threshold =>
      let sigs := sigs.insert index sig
      if sigs.size < threshold then (.vec sigs, .ok none)
      else (.vec ∅, .ok (some (.vec sigs.toList)))
  | .thresholdCrypto shares, .thresholdCrypto share, .thresholdCrypto publicKeySet =>
      let shares := shares.insert index share
      if shares.size ≤ scheme.threshold publicKeySet then (.thresholdCrypto shares, .ok none)
      else
        match scheme.combineSignatures publicKeySet shares.toList with
        | none => (.thresholdCrypto shares, .error .combine)
        | some sig => (.thresholdCrypto shares, .ok (some (.thresholdCrypto sig)))
  | .givre shares, .givre share, .givre context =>
      let shares := shares.insert index share
      if shares.size < scheme.minSigners context.keyShare then (.givre shares, .ok none)
      else
        match takeShares shares context.signers with
        | (shares, .error err) => (.givre shares, .error err)
        | (shares, .ok signers) =>
            match scheme.aggregate context.keyShare signers context.digest with
            | none => (.givre shares, .error .aggregate)
            | some sig => (.givre shares, .ok (some (.givre sig)))
  | partialSigs, _, _ => (partialSigs, .error .unmatched)

end PartialSigs

/-- Counts valid signatures until there is one more than the threshold. -/
def countValid (digest : Digest) (publicKeys : List scheme.PublicKey) :
    Nat → List (Nat × scheme.Sig) → Except Panic Nat
  | 0, _ | _, [] => .ok 0
  | budget + 1, (index, sig) :: rest =>
      match publicKeys[index]? with
      | none => .error .index
      | some publicKey => do
          if scheme.verifyDigest digest publicKey sig then
            let count ← countValid digest publicKeys budget rest
            .ok (count + 1)
          else countValid digest publicKeys (budget + 1) rest

/-- Whether a signature on a digest verifies. -/
def verifyDigest (digest : Digest) : Sig scheme → PublicMasterKey scheme → Except Panic Bool
  | .vec sigs, .vec publicKeys threshold => do
      -- signatures are deduplicated by index, the last one wins
      let sigs := sigs.foldl (fun sigs entry => sigs.insert entry.1 entry.2)
        (∅ : Std.ExtTreeMap Nat scheme.Sig)
      let count ← countValid digest publicKeys (threshold + 1) sigs.toList
      .ok (count == threshold)
  | .thresholdCrypto sig, .thresholdCrypto publicKeySet =>
      .ok (scheme.verifyThresholdCrypto publicKeySet sig digest)
  | .givre sig, .givre publicKey => .ok (scheme.verifyGivre publicKey digest sig)
  | _, _ => .ok false

end Threshold

end BftKit
