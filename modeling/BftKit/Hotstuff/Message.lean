import BftKit.Crypto.Threshold

/-! # HotStuff messages -/

namespace BftKit.Hotstuff

open Threshold

variable {scheme : ThresholdScheme}

/-- The signers of a block, each with the commitment that its nonce has to match. -/
abbrev Signers (scheme : ThresholdScheme) := List (Nat × scheme.GivrePublicCommitments)

namespace Message

structure Generic (scheme : ThresholdScheme) where
  block : Digest
  signers : Signers scheme

structure QuorumCert (scheme : ThresholdScheme) where
  node : Digest
  sig : Sig scheme

structure Block (scheme : ThresholdScheme) where
  parent : Digest
  commands : List Command
  justify : QuorumCert scheme
  height : Nat
  height_lt : height < 2 ^ 32 := by decide

structure VoteGeneric (scheme : ThresholdScheme) where
  node : Digest
  partialSig : PartialSig scheme
  signerIndex : Nat

/-- The signature of the justification is not hashed. -/
instance : UpdateHash (Block scheme) where
  updateHash block :=
    block.parent.bytes ++ updateHash block.commands ++ block.justify.node.bytes ++
      leBytes 4 block.height

/-- Whether two blocks agree in the fields that are hashed. -/
def Block.SameHashed (block block' : Block scheme) : Prop :=
  block'.parent = block.parent ∧ block'.commands = block.commands ∧
    block'.justify.node = block.justify.node ∧ block'.height = block.height

instance (block block' : Block scheme) : Decidable (block.SameHashed block') :=
  inferInstanceAs (Decidable (_ ∧ _))

end Message

end BftKit.Hotstuff
