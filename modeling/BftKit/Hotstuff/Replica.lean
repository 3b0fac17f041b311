import BftKit.Hotstuff.Core

/-! # The HotStuff replica

Reordering, signing and vote collection around the core. A call runs until no
block is pending and the queue of core actions is empty. The machine below takes
one iteration of either loop at a time: `pending`, a local variable of `receive`
with its top in front, and the queue are part of its state.
-/

namespace BftKit.Hotstuff

open Foundation Threshold

variable {scheme : ThresholdScheme}

structure CryptoConfig (scheme : ThresholdScheme) where
  keyShare : scheme.GivreKeyShare
  supplySize : Nat
  refillThreshold : Nat

structure QuorumCertScratch (scheme : ThresholdScheme) where
  partialSigs : PartialSigs scheme
  signers : Signers scheme

inductive ToReplica (scheme : ThresholdScheme) where
  | generic (generic : Message.Generic scheme) (block : Message.Block scheme)
  | voteGeneric (voteGeneric : Message.VoteGeneric scheme)
  | publicCommitmentsSupply (index : Nat) (supply : List scheme.GivrePublicCommitments)

abbrev Action (scheme : ThresholdScheme) := ReplicaAction (ToReplica scheme)

structure Replica (scheme : ThresholdScheme) where
  core : ReplicaCore scheme
  coreActions : ReplicaCoreActions
  cryptoConfig : CryptoConfig scheme
  reorderingBlocks : Map Digest (List (Digest × Message.Block scheme))
  nonces : Map scheme.GivrePublicCommitments scheme.GivreSecretNonces
  blockSigners : Map Digest (Signers scheme)
  quorumCertScratches : Map Digest (QuorumCertScratch scheme)
  publicCommitmentsPool : Std.ExtTreeMap Nat (List scheme.GivrePublicCommitments)
  pending : List (Digest × Message.Block scheme)
  /-- How often the random number generator has been used. -/
  numDraw : Nat

/-- Pops one commitment off the supplies that have any, until there are enough. -/
def popCommitments {Commitments : Type} :
    Nat → List (Nat × List Commitments) → List (Nat × Commitments)
  | 0, _ | _, [] => []
  | count + 1, (index, supply) :: rest =>
      match supply.getLast? with
      | none => popCommitments (count + 1) rest
      | some publicCommitments => (index, publicCommitments) :: popCommitments count rest

namespace Replica

def new (coreConfig : ReplicaCoreConfig) (cryptoConfig : CryptoConfig scheme) :
    Replica scheme where
  core := .new scheme coreConfig
  coreActions := []
  cryptoConfig
  reorderingBlocks := ∅
  nonces := ∅
  blockSigners := ∅
  quorumCertScratches := ∅
  publicCommitmentsPool := ∅
  pending := []
  numDraw := 0

def signerIndex (replica : Replica scheme) : Nat := replica.core.config.id

def isPrimary (replica : Replica scheme) : Bool :=
  replica.core.getLeader == replica.core.config.id

/-- Fresh commitments, with their nonces. -/
def drawSupply (replica : Replica scheme) :
    List (scheme.GivrePublicCommitments × scheme.GivreSecretNonces) :=
  (List.range' replica.numDraw replica.cryptoConfig.supplySize).map
    (scheme.commit replica.cryptoConfig.keyShare)

def refillNonces (replica : Replica scheme) : Replica scheme × List (Action scheme) :=
  let supply := replica.drawSupply
  let publicCommitments := (supply.map Prod.fst).dedup
  let refilled := { replica with
    nonces := Map.extend replica.nonces supply
    numDraw := replica.numDraw + replica.cryptoConfig.supplySize }
  if replica.isPrimary then
    ({ refilled with publicCommitmentsPool :=
        replica.publicCommitmentsPool.insert replica.signerIndex publicCommitments }, [])
  else
    (refilled, [.sendToReplica replica.core.getLeader
      (.publicCommitmentsSupply replica.signerIndex publicCommitments)])

def handle (replica : Replica scheme) (event : ReplicaCoreEvent scheme) :
    Except Panic (Replica scheme) := do
  let (core, actions) ← replica.core.handle event
  .ok { replica with core, coreActions := replica.coreActions ++ actions }

def aggregateContext (replica : Replica scheme) (scratch : QuorumCertScratch scheme)
    (digest : Digest) : AggregateContext scheme :=
  .givre { keyShare := replica.cryptoConfig.keyShare, signers := scratch.signers, digest }

def handleVoteGeneric (replica : Replica scheme) (voteGeneric : Message.VoteGeneric scheme) :
    Except Panic (Replica scheme) :=
  match replica.quorumCertScratches.lookup voteGeneric.node with
  | none => .error .unwrap
  | some scratch =>
      match scratch.partialSigs.addPartial voteGeneric.signerIndex voteGeneric.partialSig
          (replica.aggregateContext scratch voteGeneric.node) with
      | (_, .error _) => .error (.todo .aggregateFallback)
      | (partialSigs, .ok none) =>
          .ok { replica with quorumCertScratches :=
            replica.quorumCertScratches.insert voteGeneric.node { scratch with partialSigs } }
      | (_, .ok (some sig)) =>
          let replica := { replica with
            quorumCertScratches := replica.quorumCertScratches.erase voteGeneric.node }
          if (replica.core.nodeIndex.lookup voteGeneric.node).isSome then
            replica.handle (.quorumCert ⟨voteGeneric.node, sig⟩)
          else .error (.todo .fetchJustified)

/-- `reordering_blocks.entry(digest).or_default().push(..)`. -/
def park (replica : Replica scheme) (digest : Digest)
    (entry : Digest × Message.Block scheme) : Replica scheme :=
  let parked := (replica.reorderingBlocks.lookup digest).getD []
  { replica with reorderingBlocks := replica.reorderingBlocks.insert digest (parked ++ [entry]) }

/-- `pending.extend(reordering_blocks.remove(digest))`. -/
def unpark (replica : Replica scheme) (digest : Digest) : Replica scheme :=
  let otherPending := (replica.reorderingBlocks.lookup digest).getD []
  { replica with
    reorderingBlocks := replica.reorderingBlocks.erase digest
    pending := otherPending.reverse ++ replica.pending }

/-- The signature of a justification is checked unless its node is known to have one. -/
def verifyJustify (replica : Replica scheme) (justify : Message.QuorumCert scheme) :
    Except Panic Bool :=
  if (replica.core.quorumCertIndex.lookup justify.node).isSome then .ok true
  else
    verifyDigest justify.node justify.sig
      (.givre (scheme.sharedPublicKey replica.cryptoConfig.keyShare))

/-- The `Generic` arm of `receive`, up to its loop. -/
def receiveGeneric (replica : Replica scheme) (generic : Message.Generic scheme)
    (block : Message.Block scheme) : Except Panic (Replica scheme) :=
  if (replica.core.nodeIndex.lookup generic.block).isSome then .ok replica
  else if scheme.digest block ≠ generic.block then .ok replica
  else do
    if ← replica.verifyJustify block.justify then
      if (replica.blockSigners.lookup generic.block).isSome then .error .assert
      else
        let replica := { replica with
          blockSigners := replica.blockSigners.insert generic.block generic.signers }
        if (replica.core.nodeIndex.lookup block.parent).isSome then
          .ok { replica with pending := [(generic.block, block)] }
        else .ok (replica.park block.parent (generic.block, block))
    else .ok replica

/-- One iteration of the loop of the `Generic` arm, for a block off the stack. -/
def release (replica : Replica scheme) (blockDigest : Digest) (block : Message.Block scheme) :
    Except Panic (Replica scheme) :=
  if (replica.core.nodeIndex.lookup block.justify.node).isSome then
    (replica.unpark blockDigest).handle (.proposal blockDigest block)
  else .ok (replica.park block.justify.node (blockDigest, block))

def receiveSupply (replica : Replica scheme) (index : Nat)
    (supply : List scheme.GivrePublicCommitments) : Replica scheme :=
  let supplied := replica.publicCommitmentsPool.getD index []
  { replica with
    publicCommitmentsPool := replica.publicCommitmentsPool.insert index (supplied ++ supply) }

/-- The part of `receive` before its loops. -/
def receiveMessage (replica : Replica scheme) :
    ToReplica scheme → Except Panic (Replica scheme)
  | .generic generic block => replica.receiveGeneric generic block
  | .voteGeneric voteGeneric => replica.handleVoteGeneric voteGeneric
  | .publicCommitmentsSupply index supply => .ok (replica.receiveSupply index supply)

/-- The message form of a proposal. -/
def proposalBlock (replica : Replica scheme) (block : NodeData) :
    Except Panic (Message.Block scheme) := do
  let justify ← replica.core.quorumCert block.justify
  let justified ← replica.core.node justify.node
  let parent ← replica.core.node block.parent
  .ok {
    parent := parent.digest
    commands := block.commands
    justify := ⟨justified.digest, justify.sig⟩
    height := block.height
    height_lt := block.height_lt }

/-- Takes the commitments of the first replicas that have any left. -/
def takeSigners (replica : Replica scheme) (numSigner : Nat) :
    Replica scheme × Signers scheme :=
  let signers := popCommitments numSigner replica.publicCommitmentsPool.toList
  let pool := signers.foldl
    (fun pool signer => pool.insert signer.1 (pool.getD signer.1 []).dropLast)
    replica.publicCommitmentsPool
  ({ replica with publicCommitmentsPool := pool }, signers)

def performPropose (replica : Replica scheme) (block : NodeData) :
    Except Panic (Replica scheme × List (Action scheme)) := do
  let block ← replica.proposalBlock block
  let spec := replica.core.config.spec
  if spec.numReplica < spec.numFaulty then .error .underflow
  else
    let numSigner := spec.numReplica - spec.numFaulty
    let (replica, signers) := replica.takeSigners numSigner
    if signers.length < numSigner then .error (.todo .commitmentFallback)
    else
      let generic : Message.Generic scheme := { block := scheme.digest block, signers }
      let scratch : QuorumCertScratch scheme := { partialSigs := .givre ∅, signers }
      if (replica.blockSigners.lookup generic.block).isSome then .error .assert
      else
        let replica := { replica with
          quorumCertScratches := replica.quorumCertScratches.insert generic.block scratch
          blockSigners := replica.blockSigners.insert generic.block signers }
        let replica ← replica.handle (.proposed generic.block block)
        .ok (replica, [.sendToAllReplicas (.generic generic block)])

/-- The commitment that signers list for a replica. -/
def listed (replica : Replica scheme) (signers : Signers scheme) :
    Option scheme.GivrePublicCommitments :=
  (signers.find? fun signer => signer.1 == replica.signerIndex).map Prod.snd

/-- Delivers an own vote and refills the nonces if few are left. -/
def castVote (replica : Replica scheme) (voteGeneric : Message.VoteGeneric scheme) :
    Except Panic (Replica scheme × List (Action scheme)) := do
  let (replica, sent) ←
    if replica.isPrimary then do
      let replica ← replica.handleVoteGeneric voteGeneric
      .ok (replica, [])
    else .ok (replica, [.sendToReplica replica.core.getLeader (.voteGeneric voteGeneric)])
  if replica.nonces.size < replica.cryptoConfig.refillThreshold then
    let (replica, supplied) := replica.refillNonces
    .ok (replica, sent ++ supplied)
  else .ok (replica, sent)

def performVote (replica : Replica scheme) (block : Nat) :
    Except Panic (Replica scheme × List (Action scheme)) := do
  let node ← replica.core.node block
  match replica.blockSigners.lookup node.digest with
  | none => .error .unwrap
  | some signers =>
      let replica := { replica with blockSigners := replica.blockSigners.erase node.digest }
      match replica.listed signers with
      | none => .ok (replica, [])
      | some publicCommitments =>
          match replica.nonces.lookup publicCommitments with
          | none => .error .unwrap
          | some nonce =>
              let replica := { replica with nonces := replica.nonces.erase publicCommitments }
              match scheme.signShare replica.cryptoConfig.keyShare nonce node.digest signers with
              | none => .ok (replica, [])
              | some share =>
                  replica.castVote {
                    node := node.digest
                    partialSig := .givre share
                    signerIndex := replica.signerIndex }

def performFinalize (replica : Replica scheme) (block : Nat) :
    Except Panic (Replica scheme × List (Action scheme)) := do
  let node ← replica.core.node block
  .ok (replica, [.finalize node.commands])

/-- One core action, as `effect_core_actions` performs it. -/
def perform (replica : Replica scheme) :
    ReplicaCoreAction → Except Panic (Replica scheme × List (Action scheme))
  | .propose block => replica.performPropose block
  | .vote block => replica.performVote block
  | .finalize block => replica.performFinalize block

/-! ## The replica as a state machine -/

/-- The calls a replica accepts when its loops have ended. -/
inductive Call (scheme : ThresholdScheme) where
  | init
  | request (command : Command)
  | receive (message : ToReplica scheme)
  | tick

def call (replica : Replica scheme) :
    Call scheme → Except Panic (Replica scheme × List (Action scheme))
  | .init => .ok replica.refillNonces
  | .request command => do
      let replica ← replica.handle (.request command)
      .ok (replica, [])
  | .receive message => do
      let replica ← replica.receiveMessage message
      .ok (replica, [])
  | .tick => .ok (replica, [])

/-- What a performed action hands to the signing function: the commitment that goes
with the nonce, and the digest. -/
def signing (replica : Replica scheme) :
    ReplicaCoreAction → Option (scheme.GivrePublicCommitments × Digest)
  | .vote block => do
      let node ← replica.core.nodes[block]?
      let signers ← replica.blockSigners.lookup node.digest
      let publicCommitments ← replica.listed signers
      some (publicCommitments, node.digest)
  | .propose _ | .finalize _ => none

/-- A call, the release of a block or the performance of a core action, with what it
asks the environment and what it signs. -/
inductive Event (scheme : ThresholdScheme) where
  | call (call : Call scheme) (actions : List (Action scheme))
  | release (blockDigest : Digest) (block : Message.Block scheme)
  | perform (action : ReplicaCoreAction)
      (signed : Option (scheme.GivrePublicCommitments × Digest)) (actions : List (Action scheme))

/-- No loop of a call is under way. -/
def Idle (replica : Replica scheme) : Prop := replica.pending = [] ∧ replica.coreActions = []

instance (replica : Replica scheme) : Decidable replica.Idle :=
  decidable_of_iff (replica.pending.isEmpty ∧ replica.coreActions.isEmpty)
    (by simp [Idle])

/-- One iteration: release the block on top of the stack, then perform the first
queued action, or accept a call when there is neither. A panic has no successor. -/
inductive Step (replica : Replica scheme) : Event scheme → Replica scheme → Prop
  | call {call next actions} (hidle : replica.Idle)
      (hcall : replica.call call = .ok (next, actions)) :
      Step replica (.call call actions) next
  | release {blockDigest block rest next} (hpending : replica.pending = (blockDigest, block) :: rest)
      (hrelease : release { replica with pending := rest } blockDigest block = .ok next) :
      Step replica (.release blockDigest block) next
  | perform {action rest next actions} (hpending : replica.pending = [])
      (hqueue : replica.coreActions = action :: rest)
      (hperform : perform { replica with coreActions := rest } action = .ok (next, actions)) :
      Step replica (.perform action (replica.signing action) actions) next

end Replica

end BftKit.Hotstuff
