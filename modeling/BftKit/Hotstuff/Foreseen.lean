import BftKit.Hotstuff.Bookkeeping

/-! # Calls that are foreseen

What a call has to be like so that nothing comes of it that crashes, said of the call and
of the replica that it is made on. Blocks are what takes care: a block that may be voted
for has to list the replica with a commitment that it can still answer for, and the leader
has to be spared new blocks altogether.
-/

namespace BftKit.Hotstuff

open Foundation Threshold

variable {scheme : ThresholdScheme}

namespace ReplicaCore

/-- A block that may be voted for, as far as one can tell before it is stored. -/
def Votable (core : ReplicaCore scheme) (block : Message.Block scheme) : Prop :=
  core.voteHeight < block.height ∧
    ∀ parent ∈ core.nodeIndex.lookup block.parent,
      ∀ justified ∈ core.nodeIndex.lookup block.justify.node,
        core.heightOf core.blockLock < block.height ∧
            core.extendsNode parent core.blockLock = .ok true ∨
          core.heightOf core.blockLock < core.heightOf justified

instance (core : ReplicaCore scheme) (block : Message.Block scheme) :
    Decidable (core.Votable block) :=
  inferInstanceAs (Decidable (_ ∧ _))

/-- There are heights left for what a leader has to propose after one more request: a node
for each command that waits, and the empty ones that it takes to finalize it. -/
def HasRoom (core : ReplicaCore scheme) : Prop :=
  core.heightOf core.blockLeaf + 4 * (core.pool.pending.length + 1) + core.numExtraRound < 2 ^ 32

instance (core : ReplicaCore scheme) : Decidable core.HasRoom :=
  inferInstanceAs (Decidable (_ < _))

end ReplicaCore

namespace Replica

/-- The commitment that a block lists the replica with. -/
def listing (replica : Replica scheme) (digest : Digest) : Option scheme.GivrePublicCommitments :=
  (replica.blockSigners.lookup digest).bind replica.listed

/-- The commitment has its nonce, and no block of another height that may be voted for lists
the replica with it. -/
def CanAnswer (replica : Replica scheme) (height : Nat)
    (publicCommitments : scheme.GivrePublicCommitments) : Prop :=
  (replica.nonces.lookup publicCommitments).isSome ∧
    ∀ spot ∈ replica.reorderingBlocks.keys, ∀ entry ∈ replica.waitingAt (some spot),
      replica.core.voteHeight < entry.2.height →
        replica.listing entry.1 = some publicCommitments → entry.2.height = height

instance (replica : Replica scheme) (height : Nat)
    (publicCommitments : scheme.GivrePublicCommitments) :
    Decidable (replica.CanAnswer height publicCommitments) :=
  inferInstanceAs (Decidable (_ ∧ _))

/-- A block that is new to a backup, and that it can answer for if it may vote for it. -/
structure Answerable (replica : Replica scheme) (generic : Message.Generic scheme)
    (block : Message.Block scheme) : Prop where
  backup : replica.isPrimary = false
  signers : replica.blockSigners.lookup generic.block = none
  commitment : replica.core.Votable block →
    ∀ publicCommitments ∈ replica.listed generic.signers,
      replica.CanAnswer block.height publicCommitments

instance (replica : Replica scheme) (generic : Message.Generic scheme)
    (block : Message.Block scheme) : Decidable (replica.Answerable generic block) :=
  decidable_of_iff (replica.isPrimary = false ∧
      (replica.blockSigners.lookup generic.block).isNone ∧
      (replica.core.Votable block → ∀ publicCommitments ∈ replica.listed generic.signers,
        replica.CanAnswer block.height publicCommitments)) <| by
    constructor
    · rintro ⟨hbackup, hsigners, hcommitment⟩
      exact ⟨hbackup, by simpa using hsigners, hcommitment⟩
    · rintro ⟨hbackup, hsigners, hcommitment⟩
      exact ⟨hbackup, by simp [hsigners], hcommitment⟩

/-- A call that is foreseen. -/
def Foreseen (replica : Replica scheme) : Call scheme → Prop
  | .init | .tick => True
  | .request _ => replica.isPrimary = true → replica.core.HasRoom
  | .receive (.generic generic block) =>
      replica.Admits generic block → replica.Answerable generic block
  | .receive (.voteGeneric vote) => (replica.quorumCertScratches.lookup vote.node).isSome
  | .receive (.publicCommitmentsSupply index supply) =>
      replica.isPrimary = true → index = replica.signerIndex →
        (replica.publicCommitmentsPool.getD index [] ++ supply).Nodup ∧
          ∀ publicCommitments ∈ supply, (replica.nonces.lookup publicCommitments).isSome

instance (replica : Replica scheme) (call : Call scheme) : Decidable (replica.Foreseen call) := by
  cases call with
  | init | tick => exact inferInstanceAs (Decidable True)
  | request => exact inferInstanceAs (Decidable (_ → _))
  | receive message =>
      cases message with
      | generic => exact inferInstanceAs (Decidable (_ → _))
      | voteGeneric => exact inferInstanceAs (Decidable (_ = true))
      | publicCommitmentsSupply => exact inferInstanceAs (Decidable (_ → _))

/-- The calls among the steps of a replica are foreseen. -/
def Expects (replica : Replica scheme) : Event scheme → Prop
  | .call call _ => replica.Foreseen call
  | .release _ _ | .perform _ _ _ => True

instance (replica : Replica scheme) (event : Event scheme) : Decidable (replica.Expects event) := by
  cases event with
  | call call => exact inferInstanceAs (Decidable (replica.Foreseen call))
  | release | perform => exact inferInstanceAs (Decidable True)

end Replica

end BftKit.Hotstuff
