import BftKit.Crypto.Threshold

/-! # Schemes in the clear

Schemes that evaluate: keys are replica ids, a signature shows the bytes and the keys
it was made with, and the hash is a polynomial one. Example runs use them.
-/

namespace BftKit

/-- A polynomial hash of the bytes, in place of SHA-256. -/
def polynomialHash (bytes : List UInt8) : Digest where
  bytes := leBytes 32
    (bytes.foldl (fun hash byte => (hash * 263 + byte.toNat + 1) % (2 ^ 61 - 1)) 7)
  length_bytes := length_leBytes 32 _

namespace Crypto

def transparent : Crypto where
  sha256 := polynomialHash
  SecretKey := Nat
  PublicKey := Nat
  Sig := List UInt8 × Nat
  uninitialized := ([], 0)
  replicaSecretKey id := id
  publicKey secretKey := secretKey
  signBytes bytes secretKey := (bytes, secretKey)
  verifyBytes bytes publicKey sig := sig == (bytes, publicKey)
  verifyDigest digest publicKey sig := sig == (digest.bytes, publicKey)

theorem transparent_verifies : transparent.Verifies := by
  intro bytes secretKey
  exact beq_self_eq_true _

end Crypto

namespace ThresholdScheme

/-- A key share is a signer index and the number of signers it takes. -/
def transparent : ThresholdScheme where
  toCrypto := .transparent
  ThresholdCryptoSig := Digest × List Nat
  ThresholdCryptoSigShare := Digest
  PublicKeySet := Nat
  threshold publicKeySet := publicKeySet
  combineSignatures
    | publicKeySet, (index, digest) :: shares =>
        if publicKeySet ≤ shares.length ∧ ∀ share ∈ shares, share.2 = digest then
          some (digest, index :: shares.map Prod.fst)
        else none
    | _, [] => none
  verifyThresholdCrypto publicKeySet sig digest :=
    sig.1 == digest && decide (publicKeySet < sig.2.length ∧ sig.2.Nodup)
  GivreKeyShare := Nat × Nat
  GivrePublicKey := Nat
  GivrePublicCommitments := Nat × Nat
  GivreSecretNonces := Nat × Nat
  GivreSigShare := Nat × Digest
  GivreSig := Digest × List Nat
  decidableEqCommitments := inferInstance
  minSigners keyShare := keyShare.2
  sharedPublicKey keyShare := keyShare.2
  commit keyShare draw := ((keyShare.1, draw), (keyShare.1, draw))
  signShare keyShare nonces digest signers :=
    if (keyShare.1, nonces) ∈ signers then some (keyShare.1, digest) else none
  aggregate keyShare signers digest :=
    if (keyShare.2 ≤ signers.length ∧ (signers.map Prod.fst).Nodup) ∧
        ∀ signer ∈ signers, signer.2.2 = (signer.1, digest) then
      some (digest, signers.map Prod.fst)
    else none
  verifyGivre publicKey digest sig :=
    sig.1 == digest && decide (publicKey ≤ sig.2.length ∧ sig.2.Nodup)

end ThresholdScheme

end BftKit
