import BftKit.Hotstuff.Reaction
import BftKit.Hotstuff.Replica

/-! # What a step of the replica can do

One constructor for each way a call, a release or a performed action can end.
Whatever touches the core goes through `handle`, whose outcomes are the reactions
and beats of the core.
-/

namespace BftKit.Hotstuff

open Foundation Threshold

variable {scheme : ThresholdScheme}

/-- A certificate verifies under the shared key. -/
def CryptoConfig.Verifies (config : CryptoConfig scheme) (cert : Message.QuorumCert scheme) :
    Prop :=
  verifyDigest cert.node cert.sig (.givre (scheme.sharedPublicKey config.keyShare)) = .ok true

instance (config : CryptoConfig scheme) (cert : Message.QuorumCert scheme) :
    Decidable (config.Verifies cert) :=
  inferInstanceAs (Decidable (_ = _))

namespace Replica

theorem handle_eq_ok {replica next : Replica scheme} {event : ReplicaCoreEvent scheme} :
    replica.handle event = .ok next ↔
      ∃ core coreActions, replica.core.handle event = .ok (core, coreActions) ∧
        { replica with core, coreActions := replica.coreActions ++ coreActions } = next := by
  simp only [handle, bind_eq_ok, Prod.exists, Except.ok.injEq]

theorem handle_eq_error {replica : Replica scheme} {event : ReplicaCoreEvent scheme}
    {panic : Panic} :
    replica.handle event = .error panic ↔ replica.core.handle event = .error panic := by
  simp [handle, bind_eq_error]

/-- A block is new, hashes to its digest, and carries a justification that is known
or verifies. -/
structure Admits (replica : Replica scheme) (generic : Message.Generic scheme)
    (block : Message.Block scheme) : Prop where
  fresh : replica.core.nodeIndex.lookup generic.block = none
  digest : scheme.digest block = generic.block
  verified : replica.verifyJustify block.justify = .ok true

/-- What a vote does to a replica that has been waiting for it. -/
inductive VoteTaken (replica : Replica scheme) (vote : Message.VoteGeneric scheme) :
    Replica scheme → Prop
  | share {scratch partialSigs}
      (hscratch : replica.quorumCertScratches.lookup vote.node = some scratch)
      (hadd : scratch.partialSigs.addPartial vote.signerIndex vote.partialSig
        (replica.aggregateContext scratch vote.node) = (partialSigs, .ok none)) :
      VoteTaken replica vote { replica with
        quorumCertScratches :=
          replica.quorumCertScratches.insert vote.node { scratch with partialSigs } }
  | quorum {scratch partialSigs sig next}
      (hscratch : replica.quorumCertScratches.lookup vote.node = some scratch)
      (hadd : scratch.partialSigs.addPartial vote.signerIndex vote.partialSig
        (replica.aggregateContext scratch vote.node) = (partialSigs, .ok (some sig)))
      (hhandle : handle { replica with
        quorumCertScratches := replica.quorumCertScratches.erase vote.node }
        (.quorumCert ⟨vote.node, sig⟩) = .ok next) :
      VoteTaken replica vote next

/-- Nonces are refilled when there are too few of them. -/
inductive Refilled (replica : Replica scheme) : Replica scheme → List (Action scheme) → Prop
  | enough (hsize : replica.cryptoConfig.refillThreshold ≤ replica.nonces.size) :
      Refilled replica replica []
  | refill (hsize : replica.nonces.size < replica.cryptoConfig.refillThreshold) :
      Refilled replica replica.refillNonces.1 replica.refillNonces.2

/-- An own vote is counted on the leader and sent to it by a backup. -/
inductive VoteCast (replica : Replica scheme) (vote : Message.VoteGeneric scheme) :
    Replica scheme → List (Action scheme) → Prop
  | leader {taken next actions} (hprimary : replica.isPrimary = true)
      (htaken : VoteTaken replica vote taken) (hrefilled : Refilled taken next actions) :
      VoteCast replica vote next actions
  | backup {next actions} (hprimary : replica.isPrimary = false)
      (hrefilled : Refilled replica next actions) :
      VoteCast replica vote next
        (.sendToReplica replica.core.getLeader (.voteGeneric vote) :: actions)

/-- What performing a vote does, once the signers of the node are found. -/
inductive VotePerformed (replica : Replica scheme) (node : Node) (signers : Signers scheme) :
    Replica scheme → List (Action scheme) → Prop
  | unlisted (hlisted : replica.listed signers = none) :
      VotePerformed replica node signers
        { replica with blockSigners := replica.blockSigners.erase node.digest } []
  | unsigned {publicCommitments nonce} (hlisted : replica.listed signers = some publicCommitments)
      (hnonce : replica.nonces.lookup publicCommitments = some nonce)
      (hsign : scheme.signShare replica.cryptoConfig.keyShare nonce node.digest signers = none) :
      VotePerformed replica node signers
        { replica with
          blockSigners := replica.blockSigners.erase node.digest
          nonces := replica.nonces.erase publicCommitments } []
  | signed {publicCommitments nonce share next actions}
      (hlisted : replica.listed signers = some publicCommitments)
      (hnonce : replica.nonces.lookup publicCommitments = some nonce)
      (hsign : scheme.signShare replica.cryptoConfig.keyShare nonce node.digest signers =
        some share)
      (hcast : VoteCast
        { replica with
          blockSigners := replica.blockSigners.erase node.digest
          nonces := replica.nonces.erase publicCommitments }
        { node := node.digest, partialSig := .givre share, signerIndex := replica.signerIndex }
        next actions) :
      VotePerformed replica node signers next actions

/-- The replica that waits for the votes of a block it proposes. -/
def prepared (replica : Replica scheme) (digest : Digest) (signers : Signers scheme) :
    Replica scheme :=
  { replica with
    quorumCertScratches := replica.quorumCertScratches.insert digest
      { partialSigs := .givre ∅, signers }
    blockSigners := replica.blockSigners.insert digest signers }

/-- The number of signers of a block. -/
def numSigner (replica : Replica scheme) : Nat :=
  replica.core.config.spec.numReplica - replica.core.config.spec.numFaulty

/-- The steps of a replica, by what they do. -/
inductive Effect (replica : Replica scheme) : Event scheme → Replica scheme → Prop
  | init (hidle : replica.Idle) :
      Effect replica (.call .init replica.refillNonces.2) replica.refillNonces.1
  | tick (hidle : replica.Idle) : Effect replica (.call .tick []) replica
  | request {command next} (hidle : replica.Idle)
      (hhandle : replica.handle (.request command) = .ok next) :
      Effect replica (.call (.request command) []) next
  | ignore {generic block} (hidle : replica.Idle)
      (hignored : ¬replica.Admits generic block) :
      Effect replica (.call (.receive (.generic generic block)) []) replica
  | accept {generic block} (hidle : replica.Idle) (hadmits : replica.Admits generic block)
      (hsigners : replica.blockSigners.lookup generic.block = none)
      (hparent : (replica.core.nodeIndex.lookup block.parent).isSome) :
      Effect replica (.call (.receive (.generic generic block)) []) { replica with
        blockSigners := replica.blockSigners.insert generic.block generic.signers
        pending := [(generic.block, block)] }
  | park {generic block} (hidle : replica.Idle) (hadmits : replica.Admits generic block)
      (hsigners : replica.blockSigners.lookup generic.block = none)
      (hparent : replica.core.nodeIndex.lookup block.parent = none) :
      Effect replica (.call (.receive (.generic generic block)) []) (Replica.park { replica with
        blockSigners := replica.blockSigners.insert generic.block generic.signers }
        block.parent (generic.block, block))
  | vote {vote next} (hidle : replica.Idle) (htaken : VoteTaken replica vote next) :
      Effect replica (.call (.receive (.voteGeneric vote)) []) next
  | supply {index supply} (hidle : replica.Idle) :
      Effect replica (.call (.receive (.publicCommitmentsSupply index supply)) [])
        (replica.receiveSupply index supply)
  | defer {blockDigest block rest} (hpending : replica.pending = (blockDigest, block) :: rest)
      (hjustify : replica.core.nodeIndex.lookup block.justify.node = none) :
      Effect replica (.release blockDigest block)
        (Replica.park { replica with pending := rest } block.justify.node (blockDigest, block))
  | release {blockDigest block rest next}
      (hpending : replica.pending = (blockDigest, block) :: rest)
      (hjustify : (replica.core.nodeIndex.lookup block.justify.node).isSome)
      (hhandle : (unpark { replica with pending := rest } blockDigest).handle
        (.proposal blockDigest block) = .ok next) :
      Effect replica (.release blockDigest block) next
  | propose {data rest block next} (hpending : replica.pending = [])
      (hqueue : replica.coreActions = .propose data :: rest)
      (hblock : replica.proposalBlock data = .ok block)
      (hfaulty : replica.core.config.spec.numFaulty ≤ replica.core.config.spec.numReplica)
      (hlength : replica.numSigner ≤ (replica.takeSigners replica.numSigner).2.length)
      (hsigners : replica.blockSigners.lookup (scheme.digest block) = none)
      (hhandle : (Replica.prepared
          { (replica.takeSigners replica.numSigner).1 with coreActions := rest }
          (scheme.digest block) (replica.takeSigners replica.numSigner).2).handle
        (.proposed (scheme.digest block) block) = .ok next) :
      Effect replica
        (.perform (.propose data) none [.sendToAllReplicas (.generic
          { block := scheme.digest block
            signers := (replica.takeSigners replica.numSigner).2 } block)]) next
  | perform {key rest node signers next actions} (hpending : replica.pending = [])
      (hqueue : replica.coreActions = .vote key :: rest)
      (hnode : replica.core.nodes[key]? = some node)
      (hsigners : replica.blockSigners.lookup node.digest = some signers)
      (hvote : VotePerformed { replica with coreActions := rest } node signers next actions) :
      Effect replica (.perform (.vote key)
        ((replica.listed signers).map fun publicCommitments => (publicCommitments, node.digest))
        actions) next
  | finalize {key rest node} (hpending : replica.pending = [])
      (hqueue : replica.coreActions = .finalize key :: rest)
      (hnode : replica.core.nodes[key]? = some node) :
      Effect replica (.perform (.finalize key) none [.finalize node.commands])
        { replica with coreActions := rest }

variable {replica next : Replica scheme} {actions : List (Action scheme)}

theorem handleVoteGeneric_ok {vote : Message.VoteGeneric scheme}
    (htaken : replica.handleVoteGeneric vote = .ok next) : VoteTaken replica vote next := by
  unfold handleVoteGeneric at htaken
  split at htaken
  · cases htaken
  next scratch hscratch =>
    split at htaken
    · cases htaken
    next partialSigs hadd =>
      obtain rfl := Except.ok.inj htaken
      exact .share hscratch hadd
    next partialSigs sig hadd =>
      dsimp only at htaken
      split at htaken
      · exact .quorum hscratch hadd htaken
      · cases htaken

theorem castVote_ok {vote : Message.VoteGeneric scheme}
    (hcast : replica.castVote vote = .ok (next, actions)) : VoteCast replica vote next actions := by
  have hrefilled : ∀ {taken : Replica scheme} {sent : List (Action scheme)},
      (if taken.nonces.size < taken.cryptoConfig.refillThreshold then
        (.ok (taken.refillNonces.1, sent ++ taken.refillNonces.2) : Except Panic _)
      else .ok (taken, sent)) = .ok (next, actions) →
      ∃ supplied, Refilled taken next supplied ∧ actions = sent ++ supplied := by
    intro taken sent heq
    split at heq
    next hsize =>
      obtain ⟨rfl, rfl⟩ := Prod.mk.inj (Except.ok.inj heq)
      exact ⟨_, .refill hsize, rfl⟩
    next hsize =>
      obtain ⟨rfl, rfl⟩ := Prod.mk.inj (Except.ok.inj heq)
      exact ⟨[], .enough (not_lt.mp hsize), (List.append_nil _).symm⟩
  unfold castVote at hcast
  cases hprimary : replica.isPrimary with
  | true =>
      rw [hprimary, if_pos rfl, bind_eq_ok] at hcast
      obtain ⟨taken, htaken, hrest⟩ := hcast
      rw [ok_bind] at hrest
      obtain ⟨supplied, hsupplied, rfl⟩ := hrefilled hrest
      exact .leader hprimary (handleVoteGeneric_ok htaken) hsupplied
  | false =>
      simp only [hprimary, Bool.false_eq_true, if_false, ok_bind] at hcast
      obtain ⟨supplied, hsupplied, rfl⟩ := hrefilled hcast
      exact .backup hprimary hsupplied

theorem receiveGeneric_ok {generic : Message.Generic scheme} {block : Message.Block scheme}
    (hidle : replica.Idle) (hreceive : replica.receiveGeneric generic block = .ok next) :
    Effect replica (.call (.receive (.generic generic block)) []) next := by
  unfold receiveGeneric at hreceive
  split at hreceive
  next hknown =>
    obtain rfl := Except.ok.inj hreceive
    exact .ignore hidle fun hadmits => by simp [hadmits.fresh] at hknown
  next hfresh =>
    split at hreceive
    next hdigest =>
      obtain rfl := Except.ok.inj hreceive
      exact .ignore hidle fun hadmits => hdigest hadmits.digest
    next hdigest =>
      rw [bind_eq_ok] at hreceive
      obtain ⟨verified, hverified, hreceive⟩ := hreceive
      cases verified with
      | false =>
          obtain rfl := Except.ok.inj hreceive
          refine .ignore hidle fun hadmits => ?_
          cases hverified.symm.trans hadmits.verified
      | true =>
          simp only [if_true] at hreceive
          have hadmits : replica.Admits generic block :=
            ⟨by simpa using hfresh, not_not.mp hdigest, hverified⟩
          split at hreceive
          · cases hreceive
          next hsigners =>
            split at hreceive
            next hparent =>
              obtain rfl := Except.ok.inj hreceive
              exact .accept hidle hadmits (by simpa using hsigners) hparent
            next hparent =>
              obtain rfl := Except.ok.inj hreceive
              exact .park hidle hadmits (by simpa using hsigners) (by simpa using hparent)

theorem performVote_ok {key : Nat} (hvote : replica.performVote key = .ok (next, actions)) :
    ∃ node signers, replica.core.nodes[key]? = some node ∧
      replica.blockSigners.lookup node.digest = some signers ∧
      VotePerformed replica node signers next actions := by
  unfold performVote at hvote
  rw [bind_eq_ok] at hvote
  obtain ⟨node, hnode, hvote⟩ := hvote
  have hnode' : replica.core.nodes[key]? = some node := by
    unfold ReplicaCore.node at hnode
    split at hnode
    · cases hnode
    next node' heq =>
      obtain rfl := Except.ok.inj hnode
      exact heq
  split at hvote
  · cases hvote
  next signers hsigners =>
    refine ⟨node, signers, hnode', hsigners, ?_⟩
    dsimp only at hvote
    split at hvote
    next hlisted =>
      obtain ⟨rfl, rfl⟩ := Prod.mk.inj (Except.ok.inj hvote)
      exact .unlisted hlisted
    next publicCommitments hlisted =>
      split at hvote
      · cases hvote
      next nonce hnonce =>
        split at hvote
        next hsign =>
          obtain ⟨rfl, rfl⟩ := Prod.mk.inj (Except.ok.inj hvote)
          exact .unsigned hlisted hnonce hsign
        next share hsign => exact .signed hlisted hnonce hsign (castVote_ok hvote)

/-- Every step has an effect. -/
theorem Step.effect {event : Event scheme} (hstep : Step replica event next) :
    Effect replica event next := by
  cases hstep with
  | @call call next actions hidle hcall =>
      cases call with
      | init =>
          obtain ⟨rfl, rfl⟩ := Prod.mk.inj (Except.ok.inj hcall)
          exact .init hidle
      | tick =>
          obtain ⟨rfl, rfl⟩ := Prod.mk.inj (Except.ok.inj hcall)
          exact .tick hidle
      | request command =>
          simp only [Replica.call, bind_eq_ok, Except.ok.injEq, Prod.mk.injEq] at hcall
          obtain ⟨_, hhandle, rfl, rfl⟩ := hcall
          exact .request hidle hhandle
      | receive message =>
          simp only [Replica.call, bind_eq_ok, Except.ok.injEq, Prod.mk.injEq] at hcall
          obtain ⟨_, hreceive, rfl, rfl⟩ := hcall
          cases message with
          | generic generic block => exact receiveGeneric_ok hidle hreceive
          | voteGeneric vote => exact .vote hidle (handleVoteGeneric_ok hreceive)
          | publicCommitmentsSupply index supply =>
              obtain rfl := Except.ok.inj hreceive
              exact .supply hidle
  | release hpending hrelease =>
      unfold Replica.release at hrelease
      split at hrelease
      next hjustify => exact .release hpending hjustify hrelease
      next hjustify =>
        obtain rfl := Except.ok.inj hrelease
        exact .defer hpending (by simpa using hjustify)
  | @perform action rest next actions hpending hqueue hperform =>
      cases action with
      | propose data =>
          simp only [Replica.perform, performPropose, bind_eq_ok] at hperform
          obtain ⟨block, hblock, hperform⟩ := hperform
          -- the bound on faults, the number of signers, and whether the block is new
          split at hperform
          · cases hperform
          next hfaulty =>
            split at hperform
            · cases hperform
            next hlength =>
              split at hperform
              · cases hperform
              next hsigners =>
                simp only [bind_eq_ok, Except.ok.injEq, Prod.mk.injEq] at hperform
                obtain ⟨_, hhandle, rfl, rfl⟩ := hperform
                have hsigners' : ¬(replica.blockSigners.lookup (scheme.digest block)).isSome :=
                  hsigners
                exact .propose hpending hqueue hblock (not_lt.mp hfaulty) (not_lt.mp hlength)
                  (by simpa using hsigners') hhandle
      | vote key =>
          obtain ⟨node, signers, hnode, hsigners, hvote⟩ := performVote_ok hperform
          have hsigning : replica.signing (.vote key) = (replica.listed signers).map
              fun publicCommitments => (publicCommitments, node.digest) := by
            have hnode' : replica.core.nodes[key]? = some node := hnode
            have hsigners' : replica.blockSigners.lookup node.digest = some signers := hsigners
            simp only [signing, hnode', hsigners', Option.bind_eq_bind, Option.bind_some]
            cases replica.listed signers <;> rfl
          rw [hsigning]
          exact .perform hpending hqueue hnode hsigners hvote
      | finalize key =>
          simp only [Replica.perform, performFinalize, bind_eq_ok, Except.ok.injEq, Prod.mk.injEq]
            at hperform
          obtain ⟨node, hnode, rfl, rfl⟩ := hperform
          refine .finalize hpending hqueue ?_
          unfold ReplicaCore.node at hnode
          split at hnode
          · cases hnode
          next node' heq =>
            obtain rfl := Except.ok.inj hnode
            exact heq

end Replica

end BftKit.Hotstuff
