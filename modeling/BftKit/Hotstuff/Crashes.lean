import BftKit.Hotstuff.Discipline
import BftKit.Hotstuff.Reordering

/-! # What crashes a replica

The justification of a block is the only thing that a replica authenticates. Votes it
does not wait for, blocks that it has parked, foreign signers and blocks that get
ahead of its own proposals each bring it down, and nothing else does.
-/

namespace BftKit

open Foundation

/-- A failed unwrap, assertion or index, or a recursion without end. -/
def Panic.Crash : Panic → Prop
  | .index | .publicKeyIndex | .unwrap | .assert | .recursion => True
  | .overflow | .underflow | .batchSize | .todo _ => False

namespace Hotstuff

open Threshold

variable {scheme : ThresholdScheme}

namespace ReplicaCore

variable {core core' : ReplicaCore scheme} {event : ReplicaCoreEvent scheme}
  {pushed : ReplicaCoreActions} {panic : Panic} {key target : Nat}

theorem Grows.reaches_iff (h : Grows core core') (hstored : Stored core)
    (hkey : key < core.nodes.length) (htarget : target < core.nodes.length) :
    Reaches core'.parentOf core'.heightOf key target ↔
      Reaches core.parentOf core.heightOf key target := by
  have hclosed : ∀ key, key < core.nodes.length → core.parentOf key < core.nodes.length :=
    fun key hkey => (hstored.parentOf_le key).trans_lt hkey
  constructor
  · intro hreaches
    refine @Reaches.congr _ _ _ _ _ _ _ (· < core.nodes.length) ?_ ?_ ?_ hreaches hkey htarget
    · intro key hkey
      rw [h.parentOf hkey]
      exact hclosed key hkey
    · exact fun key hkey => (h.parentOf hkey).symm
    · exact fun key hkey => (h.heightOf hkey).symm
  · intro hreaches
    exact Reaches.congr hclosed (fun _ => h.parentOf) (fun _ => h.heightOf) hreaches hkey htarget

/-- A block that has been stored may be voted for if it is high enough and its parent
extends the lock, or it justifies a node above the lock. -/
theorem Ingested.mayVote_iff {blockDigest : Digest} {block : Message.Block scheme}
    {stored : ReplicaCore scheme} {parent justified : Nat}
    (h : Ingested core blockDigest block stored)
    (hstored : Stored core) (hparent : core.nodeIndex.lookup block.parent = some parent)
    (hjustified : core.nodeIndex.lookup block.justify.node = some justified) :
    stored.MayVote core.nodes.length ↔ core.voteHeight < block.height ∧
      (core.heightOf core.blockLock < block.height ∧
          core.extendsNode parent core.blockLock = .ok true ∨
        core.heightOf core.blockLock < core.heightOf justified) := by
  obtain ⟨hparent_lt, -⟩ := (hstored.index _ _).mp hparent
  obtain ⟨hjustified_lt, -⟩ := (hstored.index _ _).mp hjustified
  have hvote : stored.voteHeight = core.voteHeight := by rw [h.rest]
  have hlock : stored.blockLock = core.blockLock := by rw [h.rest]
  have hparent_of := Option.some.inj (hparent.symm.trans h.parent)
  have hjustified_of := Option.some.inj (hjustified.symm.trans h.justified)
  obtain ⟨verdict, hverdict, hextends⟩ := hstored.extendsNode_ok hparent_lt hstored.lock
  unfold MayVote
  rw [hvote, hlock, h.height, h.grows.heightOf hstored.lock, ← hjustified_of,
    h.grows.heightOf hjustified_lt, hverdict, Except.ok.injEq, hextends]
  -- the new node is not the lock, so it extends the lock through its parent
  have hstep : Reaches stored.parentOf stored.heightOf core.nodes.length core.blockLock ↔
      core.heightOf core.blockLock < block.height ∧
        Reaches core.parentOf core.heightOf parent core.blockLock := by
    rw [← h.grows.reaches_iff hstored hparent_lt hstored.lock]
    constructor
    · intro hreaches
      have habove := hreaches.height_lt hstored.lock.ne'
      rw [h.height, h.grows.heightOf hstored.lock] at habove
      exact ⟨habove, hparent_of ▸ hreaches.parent_of_ne hstored.lock.ne'⟩
    · rintro ⟨habove, hrest⟩
      apply Reaches.step
      · rwa [h.height, h.grows.heightOf hstored.lock]
      · rwa [← hparent_of]
  rw [hstep]

/-- Beats do not crash. -/
theorem BeatRefused.not_crash (h : BeatRefused core panic) (hstored : Stored core) :
    ¬panic.Crash := by
  cases h with
  | batchSize _ hclose =>
      obtain ⟨log, hlog⟩ := hstored.pool
      rw [(hlog.closeBatch_error hclose).1]
      exact id
  | underflow | overflow => exact id

/-- What crashes in the core crashes before the beat. -/
theorem Stored.handle_crash (h : Stored core) (hhandle : core.handle event = .error panic)
    (hcrash : panic.Crash) : ReactRefused core event panic := by
  rcases h.handle_error hhandle with hrefused | ⟨middle, reactions, hreacted, hrefused⟩
  · exact hrefused
  · exact absurd hcrash (hrefused.not_crash (hreacted.stored h))

theorem Stored.handle_of_react (hreact : core.react event = .error panic) :
    core.handle event = .error panic := by
  rw [ReplicaCore.handle, hreact, error_bind]

/-- A proposal on its proposer crashes when it is known, or may not be voted for. -/
theorem Stored.handle_proposed_crash (h : Stored core) {blockDigest : Digest}
    {block : Message.Block scheme} {parent justified : Nat}
    (hparent : core.nodeIndex.lookup block.parent = some parent)
    (hjustified : core.nodeIndex.lookup block.justify.node = some justified) :
    (∃ panic, core.handle (.proposed blockDigest block) = .error panic ∧ panic.Crash) ↔
      ¬(core.nodeIndex.lookup blockDigest = none ∧ core.voteHeight < block.height ∧
        (core.heightOf core.blockLock < block.height ∧
            core.extendsNode parent core.blockLock = .ok true ∨
          core.heightOf core.blockLock < core.heightOf justified)) := by
  constructor
  · rintro ⟨panic, hhandle, hcrash⟩ ⟨hfresh, hvote⟩
    cases h.handle_crash hhandle hcrash with
    | proposed hrefused =>
        cases hrefused with
        | justify hunknown => cases hunknown.symm.trans hjustified
        | parent hunknown => cases hunknown.symm.trans hparent
        | known hknown =>
            rw [hfresh] at hknown
            cases hknown
    | unvotable hingested hvoting =>
        exact hvoting ((hingested.mayVote_iff h hparent hjustified).mpr hvote)
  · intro hnot
    have hassert : core.react (.proposed blockDigest block) = .error .assert := by
      rcases h.react_cases (.proposed blockDigest block) with
        ⟨core', actions, -, hreacted⟩ | ⟨panic, hreact, hrefused⟩
      · cases hreacted with
        | proposed hingested hvoting =>
            have hvote := (hingested.mayVote_iff h hparent hjustified).mp hvoting
            exact absurd ⟨hingested.fresh, hvote⟩ hnot
      · cases hrefused with
        | proposed hrefused =>
            cases hrefused with
            | justify hunknown => cases hunknown.symm.trans hjustified
            | parent hunknown => cases hunknown.symm.trans hparent
            | known => exact hreact
        | unvotable => exact hreact
    exact ⟨.assert, Stored.handle_of_react hassert, trivial⟩

/-- Votes are for the block that has just been stored. -/
theorem Stored.handle_votes (h : Stored core) (hhandle : core.handle event = .ok (core', pushed)) :
    votes pushed = [] ∨ votes pushed = [core.nodes.length] ∧ ∃ blockDigest block,
      event = .proposal blockDigest block ∨ event = .proposed blockDigest block := by
  obtain ⟨middle, reactions, beats, hreacted, hbeat, rfl⟩ := h.handle_ok hhandle
  rw [votes_append, hbeat.pushed.1, List.append_nil]
  cases hreacted with
  | request | quorumCert => exact .inl rfl
  | @proposal blockDigest block _ voting _ path =>
      rw [votes_append, votes_finalize, List.append_nil]
      cases voting with
      | false => exact .inl rfl
      | true => exact .inr ⟨rfl, blockDigest, block, .inl rfl⟩
  | @proposed blockDigest block _ _ path =>
      refine .inr ⟨?_, blockDigest, block, .inr rfl⟩
      exact congrArg (core.nodes.length :: ·) (votes_finalize path)

/-- What is proposed has its keys in the store. -/
theorem Stored.handle_plans (h : Stored core) (hhandle : core.handle event = .ok (core', pushed)) :
    ∀ data ∈ proposals pushed,
      data.parent < core'.nodes.length ∧ data.justify < core'.quorumCerts.length := by
  obtain ⟨middle, reactions, beats, hreacted, hbeat, rfl⟩ := h.handle_ok hhandle
  have hmiddle := hreacted.stored h
  rw [proposals_append, hreacted.proposals, List.nil_append, hbeat.sameStore.nodes,
    hbeat.sameStore.quorumCerts]
  intro data hdata
  cases hbeat with
  | wait | backup | rest => cases hdata
  | extra | propose =>
      obtain rfl := List.mem_singleton.mp hdata
      exact ⟨hmiddle.leaf, hmiddle.high⟩

end ReplicaCore

namespace Replica

variable {replica next : Replica scheme} {event : Event scheme} {digest : Digest}

/-- The nodes that are to be voted for are stored and have their signers. -/
def Signable (replica : Replica scheme) : Prop :=
  ∀ key ∈ votes replica.coreActions, key < replica.core.nodes.length ∧
    (replica.blockSigners.lookup (replica.core.digestOf key)).isSome

/-- Only a vote takes the signers of its node away. -/
theorem Effect.signers (h : Effect replica event next)
    (hsome : (replica.blockSigners.lookup digest).isSome) :
    (next.blockSigners.lookup digest).isSome ∨ ∃ key signed actions,
      event = .perform (.vote key) signed actions ∧ key < replica.core.nodes.length ∧
        replica.core.digestOf key = digest := by
  cases h with
  | init =>
      refine .inl ?_
      unfold refillNonces
      split <;> exact hsome
  | tick | ignore | supply | defer | finalize => exact .inl hsome
  | request _ hhandle | release _ _ hhandle =>
      obtain ⟨core, pushed, -, rfl⟩ := handle_eq_ok.mp hhandle
      exact .inl hsome
  | accept | park =>
      refine .inl ?_
      change (((replica.blockSigners.insert _ _).lookup digest)).isSome
      rw [Map.lookup_insert]
      split
      · rfl
      · exact hsome
  | vote _ htaken => exact .inl (by rwa [htaken.blockSigners])
  | propose _ _ _ _ _ _ hhandle =>
      obtain ⟨core, pushed, -, rfl⟩ := handle_eq_ok.mp hhandle
      refine .inl ?_
      change (((replica.blockSigners.insert _ _).lookup digest)).isSome
      rw [Map.lookup_insert]
      split
      · rfl
      · exact hsome
  | @perform key _ node _ _ _ _ _ hnode _ hvote =>
      rw [hvote.blockSigners, Map.lookup_erase]
      split
      next heq =>
        obtain ⟨hlt, -⟩ := List.getElem?_eq_some_iff.mp hnode
        refine .inr ⟨key, _, _, rfl, hlt, ?_⟩
        rw [heq, ReplicaCore.digestOf, ReplicaCore.nodeAt_eq hnode]
      next => exact .inl hsome

/-- A proposal brings its signers. -/
theorem Effect.proposal_signers {data : NodeData}
    {signed : Option (scheme.GivrePublicCommitments × Digest)} {generic : Message.Generic scheme}
    {block : Message.Block scheme}
    (h : Effect replica
      (.perform (.propose data) signed [.sendToAllReplicas (.generic generic block)]) next) :
    (next.blockSigners.lookup generic.block).isSome := by
  generalize hevent : Event.perform (.propose data) signed
    [.sendToAllReplicas (.generic generic block)] = event at h
  cases h with
  | propose _ _ _ _ _ _ hhandle =>
      obtain ⟨core, pushed, -, rfl⟩ := handle_eq_ok.mp hhandle
      simp only [Event.perform.injEq, List.cons.injEq, ReplicaAction.sendToAllReplicas.injEq,
        ToReplica.generic.injEq] at hevent
      obtain ⟨-, -, ⟨rfl, -⟩, -⟩ := hevent
      change ((replica.blockSigners.insert _ _).lookup _).isSome
      rw [Map.lookup_insert, if_pos rfl]
      rfl
  | init | tick | request | ignore | accept | park | vote | supply | defer | release | perform
  | finalize => cases hevent

theorem Signable.step {admitted : List (Digest × Message.Block scheme)} (h : Signable replica)
    (hbuffers : Buffers admitted replica) (hstored : replica.core.Stored)
    (heffect : Effect replica event next)
    (hnodup : (votes (event.performed?.toList ++ next.coreActions)).Nodup) : Signable next := by
  -- a node that was to be voted for, and has not been
  have hold : ∀ key ∈ votes next.coreActions, key ∈ votes replica.coreActions →
      key < next.core.nodes.length ∧ (next.blockSigners.lookup (next.core.digestOf key)).isSome := by
    intro key hkey hmem
    obtain ⟨hlt, hsome⟩ := h key hmem
    have hgrows := heffect.grows hstored
    refine ⟨hgrows.lt_length hlt, ?_⟩
    rw [hgrows.digestOf hlt]
    rcases heffect.signers hsome with hsigners | ⟨key', signed, actions, rfl, hlt', hdigest⟩
    · exact hsigners
    · obtain rfl := hstored.key_unique hlt' hlt hdigest
      exact absurd hkey (List.nodup_cons.mp hnodup).1
  have hsub : ∀ {all : ReplicaCoreActions}, event.performed?.toList ++ next.coreActions = all →
      ∀ key ∈ votes next.coreActions, key ∈ votes all := by
    rintro _ rfl key hkey
    rw [votes_append]
    exact List.mem_append_right _ hkey
  cases heffect.core with
  | keep _ hqueue => exact fun key hkey => hold key hkey (hsub hqueue key hkey)
  | @give coreEvent pushed hgives hhandle hqueue =>
      intro key hkey
      have hmem := hsub hqueue key hkey
      rw [votes_append] at hmem
      rcases List.mem_append.mp hmem with hmem | hmem
      · exact hold key hkey hmem
      · rcases hstored.handle_votes hhandle with hnone | ⟨hnew, blockDigest, block, hevent⟩
        · rw [hnone] at hmem
          cases hmem
        · rw [hnew] at hmem
          obtain rfl := List.mem_singleton.mp hmem
          -- the block that has just been stored
          obtain ⟨hdigest, hsome⟩ : scheme.digest block = blockDigest ∧
              (next.blockSigners.lookup blockDigest).isSome := by
            rcases hevent with rfl | rfl
            · cases hgives with
              | proposal hpending =>
                  have hwaiting : (blockDigest, block) ∈ replica.waitingAt none := by
                    rw [waitingAt, hpending]
                    exact List.mem_cons_self
                  obtain ⟨hadmitted, -, hsome⟩ := hbuffers.waiting none _ hwaiting
                  refine ⟨hbuffers.digest _ hadmitted, ?_⟩
                  rcases heffect.signers hsome with hsigners | ⟨_, _, _, hevent, -⟩
                  · exact hsigners
                  · cases hevent
            · cases hgives with
              | proposed =>
                  refine ⟨rfl, ?_⟩
                  exact heffect.proposal_signers
          obtain ⟨hrepresents, hlength⟩ := hstored.handle_block hevent hdigest hhandle
          refine ⟨by omega, ?_⟩
          rw [hrepresents.digest, hdigest]
          exact hsome

end Replica

variable {coreConfig : ReplicaCoreConfig} {cryptoConfig : CryptoConfig scheme}
  {history : List (Replica.Event scheme)} {replica : Replica scheme}

theorem LocalRun.votes_nodup (hrun : LocalRun coreConfig cryptoConfig history replica) :
    (votes (Replica.performedIn history ++ replica.coreActions)).Nodup := by
  refine hrun.disciplined.follows.imp fun hfollows heq => ?_
  exact absurd hfollows.height (heq ▸ lt_irrefl _)

theorem AdmittingRun.signable {current : Replica scheme × List (Digest × Message.Block scheme)}
    (hrun : AdmittingRun coreConfig cryptoConfig history current) : current.1.Signable := by
  induction hrun with
  | start hinit =>
      subst hinit
      intro key hkey
      cases hkey
  | @step history current event next hprev hstep ih =>
      have hlocal := AdmittingRun.localRun hprev
      refine ih.step (AdmittingRun.buffers hprev) hlocal.stored hstep.1.effect ?_
      have hnodup := LocalRun.votes_nodup (.step hlocal hstep.1)
      rw [Replica.performedIn_concat, List.append_assoc, votes_append] at hnodup
      exact (List.nodup_append.mp hnodup).2.1

theorem LocalRun.signable (hrun : LocalRun coreConfig cryptoConfig history replica) :
    replica.Signable := by
  obtain ⟨admitted, hadmitting⟩ := hrun.admitting
  exact hadmitting.signable

namespace Replica

/-- The next iteration of a replica panics, or the call that it is given. -/
inductive Panics (replica : Replica scheme) (panic : Panic) : Option (Call scheme) → Prop
  | call {call} (hidle : replica.Idle) (hcall : replica.call call = .error panic) :
      Panics replica panic (some call)
  | release {blockDigest block rest} (hpending : replica.pending = (blockDigest, block) :: rest)
      (hrelease : Replica.release { replica with pending := rest } blockDigest block =
        .error panic) :
      Panics replica panic none
  | perform {action rest} (hpending : replica.pending = [])
      (hqueue : replica.coreActions = action :: rest)
      (hperform : Replica.perform { replica with coreActions := rest } action = .error panic) :
      Panics replica panic none

/-- The next iteration of a replica crashes, or the call that it is given. -/
def Crashes (replica : Replica scheme) (call? : Option (Call scheme)) : Prop :=
  ∃ panic, replica.Panics panic call? ∧ panic.Crash

/-- A proposal is not received already, and the proposer may vote for it. -/
structure Proposable (replica : Replica scheme) (data : NodeData) (block : Message.Block scheme) :
    Prop where
  signers : replica.blockSigners.lookup (scheme.digest block) = none
  fresh : replica.core.nodeIndex.lookup (scheme.digest block) = none
  height : replica.core.voteHeight < data.height
  voting : replica.core.heightOf replica.core.blockLock < data.height ∧
      replica.core.extendsNode data.parent replica.core.blockLock = .ok true ∨
    replica.core.heightOf replica.core.blockLock <
      replica.core.heightOf (replica.core.certAt data.justify).node

/-- What the code does not foresee. -/
inductive Unforeseen (replica : Replica scheme) : Option (Call scheme) → Prop
  /-- A block that has passed its checks before. -/
  | block {generic block} (hidle : replica.Idle) (hadmits : replica.Admits generic block)
      (hsigners : (replica.blockSigners.lookup generic.block).isSome) :
      Unforeseen replica (some (.receive (.generic generic block)))
  /-- A vote that is not waited for. -/
  | vote {vote} (hidle : replica.Idle)
      (hscratch : replica.quorumCertScratches.lookup vote.node = none) :
      Unforeseen replica (some (.receive (.voteGeneric vote)))
  /-- A proposal of the replica's own that another one has got ahead of. -/
  | proposal {data rest block} (hpending : replica.pending = [])
      (hqueue : replica.coreActions = .propose data :: rest)
      (hblock : replica.proposalBlock data = .ok block)
      (hfaulty : replica.core.config.spec.numFaulty ≤ replica.core.config.spec.numReplica)
      (hlength : replica.numSigner ≤ (replica.takeSigners replica.numSigner).2.length)
      (hnot : ¬replica.Proposable data block) : Unforeseen replica none
  /-- A commitment that the replica has not made, or has used. -/
  | nonce {key rest signers publicCommitments} (hpending : replica.pending = [])
      (hqueue : replica.coreActions = .vote key :: rest)
      (hsigners : replica.blockSigners.lookup (replica.core.digestOf key) = some signers)
      (hlisted : replica.listed signers = some publicCommitments)
      (hnonce : replica.nonces.lookup publicCommitments = none) : Unforeseen replica none
  /-- An own vote of the leader for a block that it has not proposed. -/
  | ownVote {key rest signers publicCommitments nonce share} (hpending : replica.pending = [])
      (hqueue : replica.coreActions = .vote key :: rest)
      (hsigners : replica.blockSigners.lookup (replica.core.digestOf key) = some signers)
      (hlisted : replica.listed signers = some publicCommitments)
      (hnonce : replica.nonces.lookup publicCommitments = some nonce)
      (hsign : scheme.signShare replica.cryptoConfig.keyShare nonce (replica.core.digestOf key)
        signers = some share)
      (hprimary : replica.isPrimary = true)
      (hscratch : replica.quorumCertScratches.lookup (replica.core.digestOf key) = none) :
      Unforeseen replica none

variable {panic : Panic}

theorem handleVoteGeneric_crash (hstored : replica.core.Stored) {vote : Message.VoteGeneric scheme}
    (hvote : replica.handleVoteGeneric vote = .error panic) (hcrash : panic.Crash) :
    replica.quorumCertScratches.lookup vote.node = none := by
  unfold handleVoteGeneric at hvote
  split at hvote
  next hscratch => exact hscratch
  next scratch _ =>
    split at hvote
    · obtain rfl := Except.error.inj hvote
      cases hcrash
    · cases hvote
    next partialSigs sig _ =>
      dsimp only at hvote
      split at hvote
      next hknown =>
        -- the node that is certified is stored
        have hcore := handle_eq_error.mp hvote
        cases hstored.handle_crash hcore hcrash with
        | quorumCert hunknown =>
            rw [show replica.core.nodeIndex.lookup vote.node = none from hunknown] at hknown
            cases hknown
      next =>
        obtain rfl := Except.error.inj hvote
        cases hcrash

theorem handleVoteGeneric_unknown {vote : Message.VoteGeneric scheme}
    (hscratch : replica.quorumCertScratches.lookup vote.node = none) :
    replica.handleVoteGeneric vote = .error .unwrap := by
  rw [handleVoteGeneric, hscratch]

theorem verifyJustify_ok (replica : Replica scheme) (justify : Message.QuorumCert scheme) :
    ∃ verified, replica.verifyJustify justify = .ok verified := by
  unfold verifyJustify
  split
  · exact ⟨true, rfl⟩
  · obtain ⟨node, sig⟩ := justify
    cases sig <;> exact ⟨_, rfl⟩

theorem receiveGeneric_error {generic : Message.Generic scheme} {block : Message.Block scheme} :
    replica.receiveGeneric generic block = .error panic ↔ panic = .assert ∧
      replica.Admits generic block ∧ (replica.blockSigners.lookup generic.block).isSome := by
  constructor
  · intro hreceive
    unfold receiveGeneric at hreceive
    split at hreceive
    next => cases hreceive
    next hfresh =>
      split at hreceive
      next => cases hreceive
      next hdigest =>
        obtain ⟨verified, hverified⟩ := replica.verifyJustify_ok block.justify
        rw [hverified, ok_bind] at hreceive
        cases verified with
        | false => cases hreceive
        | true =>
            rw [if_pos rfl] at hreceive
            split at hreceive
            next hsigners =>
              refine ⟨(Except.error.inj hreceive).symm, ⟨?_, not_not.mp hdigest, hverified⟩, hsigners⟩
              simpa using hfresh
            next =>
              dsimp only at hreceive
              split at hreceive <;> cases hreceive
  · rintro ⟨rfl, hadmits, hsigners⟩
    unfold receiveGeneric
    rw [if_neg (by simp [hadmits.fresh]), if_neg (not_not.mpr hadmits.digest), hadmits.verified,
      ok_bind, if_pos rfl, if_pos hsigners]

/-- Released blocks are stored, on a leader as on a backup. -/
theorem Buffers.release_not_crash {admitted : List (Digest × Message.Block scheme)}
    (h : Buffers admitted replica) (hstored : replica.core.Stored) {blockDigest : Digest}
    {block : Message.Block scheme} {rest : List (Digest × Message.Block scheme)}
    (hpending : replica.pending = (blockDigest, block) :: rest)
    (hrelease : Replica.release { replica with pending := rest } blockDigest block = .error panic) :
    ¬panic.Crash := by
  intro hcrash
  obtain ⟨-, hunknown, hparent, -⟩ := h.head hpending
  unfold Replica.release at hrelease
  split at hrelease
  next hjustify =>
    have hcore := handle_eq_error.mp hrelease
    cases hstored.handle_crash hcore hcrash with
    | proposal hrefused =>
        cases hrefused with
        | justify hnone =>
            rw [show replica.core.nodeIndex.lookup _ = none from hnone] at hjustify
            cases hjustify
        | parent hnone =>
            rw [show replica.core.nodeIndex.lookup _ = none from hnone] at hparent
            cases hparent
        | known hknown =>
            rw [show replica.core.nodeIndex.lookup blockDigest = none from hunknown] at hknown
            cases hknown
  next => cases hrelease

theorem proposalBlock_ok (hstored : replica.core.Stored) {data : NodeData}
    (hparent : data.parent < replica.core.nodes.length)
    (hjustify : data.justify < replica.core.quorumCerts.length) :
    replica.proposalBlock data = .ok {
      parent := replica.core.digestOf data.parent
      commands := data.commands
      justify := ⟨replica.core.digestOf (replica.core.certAt data.justify).node,
        (replica.core.certAt data.justify).sig⟩
      height := data.height
      height_lt := data.height_lt } := by
  unfold proposalBlock
  rw [ReplicaCore.Stored.quorumCert_ok hjustify, ok_bind,
    ReplicaCore.Stored.node_ok (hstored.cert _), ok_bind, ReplicaCore.Stored.node_ok hparent, ok_bind]
  rfl

/-- With enough commitments, proposing crashes on blocks that are not proposable. -/
theorem performPropose_crash (hstored : replica.core.Stored) {data : NodeData}
    (hparent : data.parent < replica.core.nodes.length)
    (hjustify : data.justify < replica.core.quorumCerts.length) :
    (∃ panic, replica.performPropose data = .error panic ∧ panic.Crash) ↔
      ∃ block, replica.proposalBlock data = .ok block ∧
        replica.core.config.spec.numFaulty ≤ replica.core.config.spec.numReplica ∧
        replica.numSigner ≤ (replica.takeSigners replica.numSigner).2.length ∧
        ¬replica.Proposable data block := by
  have hblock := proposalBlock_ok hstored hparent hjustify
  generalize hproposed : ({
    parent := replica.core.digestOf data.parent
    commands := data.commands
    justify := ⟨replica.core.digestOf (replica.core.certAt data.justify).node,
      (replica.core.certAt data.justify).sig⟩
    height := data.height
    height_lt := data.height_lt } : Message.Block scheme) = block at hblock
  have hheight : block.height = data.height := by rw [← hproposed]
  have hhandle := @ReplicaCore.Stored.handle_proposed_crash _ _ hstored (scheme.digest block) block
    data.parent (replica.core.certAt data.justify).node
    (by rw [← hproposed]; exact hstored.lookup_digestOf hparent)
    (by rw [← hproposed]; exact hstored.lookup_digestOf (hstored.cert _))
  rw [hheight] at hhandle
  unfold performPropose
  rw [hblock, ok_bind]
  constructor
  · rintro ⟨panic, hperform, hcrash⟩
    dsimp only at hperform
    -- an underflow and a lack of commitments are no crashes
    split at hperform
    · obtain rfl := Except.error.inj hperform
      cases hcrash
    next hfaulty =>
      split at hperform
      · obtain rfl := Except.error.inj hperform
        cases hcrash
      next hlength =>
        refine ⟨block, rfl, not_lt.mp hfaulty, not_lt.mp hlength, ?_⟩
        rintro ⟨hsigners, hfresh, hvote, hvoting⟩
        rw [if_neg (by
          rw [show (replica.takeSigners _).1.blockSigners = replica.blockSigners from rfl, hsigners]
          simp)] at hperform
        rcases bind_eq_error.mp hperform with hperform | ⟨_, -, hrest⟩
        · have hrefused := handle_eq_error.mp hperform
          exact hhandle.mp ⟨panic, hrefused, hcrash⟩ ⟨hfresh, hvote, hvoting⟩
        · cases hrest
  · rintro ⟨block', hblock', hfaulty, hlength, hnot⟩
    obtain rfl := Except.ok.inj hblock'
    dsimp only
    rw [if_neg (not_lt.mpr hfaulty)]
    split
    next hfew => exact absurd hfew (not_lt.mpr hlength)
    split
    next => exact ⟨.assert, rfl, trivial⟩
    next hsigners =>
      have hfree : ¬(replica.blockSigners.lookup (scheme.digest block)).isSome := hsigners
      have hnone : replica.blockSigners.lookup (scheme.digest block) = none := by simpa using hfree
      obtain ⟨panic, hcore', hcrash⟩ :=
        hhandle.mpr fun ⟨hfresh, hheight, hvoting⟩ => hnot ⟨hnone, hfresh, hheight, hvoting⟩
      exact ⟨panic, bind_eq_error.mpr (.inl (handle_eq_error.mpr hcore')), hcrash⟩

/-- Casting a vote fails only where the leader takes its own. -/
theorem castVote_error {vote : Message.VoteGeneric scheme} :
    replica.castVote vote = .error panic ↔
      replica.isPrimary = true ∧ replica.handleVoteGeneric vote = .error panic := by
  have hrefill : ∀ (taken : Replica scheme) (sent : List (Action scheme)),
      (if taken.nonces.size < taken.cryptoConfig.refillThreshold then
        (.ok (taken.refillNonces.1, sent ++ taken.refillNonces.2) : Except Panic _)
      else .ok (taken, sent)) ≠ .error panic := by
    intro taken sent
    split <;> simp
  unfold castVote
  cases hprimary : replica.isPrimary with
  | true =>
      rw [if_pos rfl]
      constructor
      · intro hcast
        rcases bind_eq_error.mp hcast with hvote | ⟨taken, -, hrest⟩
        · exact ⟨rfl, hvote⟩
        · rw [ok_bind] at hrest
          exact absurd hrest (hrefill taken [])
      · rintro ⟨-, hvote⟩
        rw [hvote]
        rfl
  | false =>
      constructor
      · intro hcast
        exact absurd hcast (hrefill _ _)
      · rintro ⟨hfalse, -⟩
        cases hfalse

theorem castVote_crash (hstored : replica.core.Stored) {vote : Message.VoteGeneric scheme} :
    (∃ panic, replica.castVote vote = .error panic ∧ panic.Crash) ↔
      replica.isPrimary = true ∧ replica.quorumCertScratches.lookup vote.node = none := by
  constructor
  · rintro ⟨panic, hcast, hcrash⟩
    obtain ⟨hprimary, hvote⟩ := castVote_error.mp hcast
    exact ⟨hprimary, handleVoteGeneric_crash hstored hvote hcrash⟩
  · rintro ⟨hprimary, hscratch⟩
    exact ⟨.unwrap, castVote_error.mpr ⟨hprimary, handleVoteGeneric_unknown hscratch⟩, trivial⟩

/-- Performing a vote crashes on a commitment without a nonce, and on a leader on a block
whose votes are not collected. -/
theorem performVote_crash (hstored : replica.core.Stored) {key : Nat} {signers : Signers scheme}
    (hkey : key < replica.core.nodes.length)
    (hsigners : replica.blockSigners.lookup (replica.core.digestOf key) = some signers) :
    (∃ panic, replica.performVote key = .error panic ∧ panic.Crash) ↔
      ∃ publicCommitments, replica.listed signers = some publicCommitments ∧
        (replica.nonces.lookup publicCommitments = none ∨ ∃ nonce share,
          replica.nonces.lookup publicCommitments = some nonce ∧
          scheme.signShare replica.cryptoConfig.keyShare nonce (replica.core.digestOf key) signers =
            some share ∧
          replica.isPrimary = true ∧
          replica.quorumCertScratches.lookup (replica.core.digestOf key) = none) := by
  have hdigest : (replica.core.nodeAt key).digest = replica.core.digestOf key := rfl
  unfold performVote
  rw [ReplicaCore.Stored.node_ok hkey, ok_bind, hdigest, hsigners]
  dsimp only
  have hsame : ∀ blockSigners, listed { replica with blockSigners } signers =
      replica.listed signers := fun _ => rfl
  rw [hsame]
  cases hlisted : replica.listed signers with
  | none => simp
  | some publicCommitments =>
      cases hnonce : replica.nonces.lookup publicCommitments with
      | none =>
          refine iff_of_true ⟨.unwrap, ?_, trivial⟩ ⟨publicCommitments, rfl, .inl hnonce⟩
          simp [hnonce]
      | some nonce =>
          cases hsign : scheme.signShare replica.cryptoConfig.keyShare nonce
              (replica.core.digestOf key) signers with
          | none => simp [hnonce, hsign]
          | some share =>
              simp only [hnonce, hsign, Option.some.injEq]
              rw [castVote_crash (by exact hstored)]
              constructor
              · rintro ⟨hprimary, hscratch⟩
                exact ⟨_, rfl, .inr ⟨nonce, share, hnonce, hsign, hprimary, hscratch⟩⟩
              · rintro ⟨_, rfl, hnone | ⟨_, _, -, -, hprimary, hscratch⟩⟩
                · cases hnonce.symm.trans hnone
                · exact ⟨hprimary, hscratch⟩

/-- Calls other than the receipt of a vote or a block do not crash. -/
theorem call_crash (hstored : replica.core.Stored) (hidle : replica.Idle) {call : Call scheme}
    (hcall : replica.call call = .error panic) (hcrash : panic.Crash) :
    replica.Unforeseen (some call) := by
  cases call with
  | init | tick => cases hcall
  | request command =>
      rcases bind_eq_error.mp hcall with hhandle | ⟨_, -, hrest⟩
      · cases hstored.handle_crash (handle_eq_error.mp hhandle) hcrash
      · cases hrest
  | receive message =>
      rcases bind_eq_error.mp hcall with hreceive | ⟨_, -, hrest⟩
      · cases message with
        | generic generic block =>
            obtain ⟨-, hadmits, hsigners⟩ := receiveGeneric_error.mp hreceive
            exact .block hidle hadmits hsigners
        | voteGeneric vote => exact .vote hidle (handleVoteGeneric_crash hstored hreceive hcrash)
        | publicCommitmentsSupply index supply => cases hreceive
      · cases hrest

end Replica

/-- What is in the queue of a leader has its keys in the store. -/
theorem LocalRun.plans (hrun : LocalRun coreConfig cryptoConfig history replica) :
    ∀ data ∈ proposals (Replica.performedIn history ++ replica.coreActions),
      data.parent < replica.core.nodes.length ∧
        data.justify < replica.core.quorumCerts.length := by
  refine (hrun.core_invariant (fun core pushed => core.Stored ∧ ∀ data ∈ proposals pushed,
    data.parent < core.nodes.length ∧ data.justify < core.quorumCerts.length)
    ⟨ReplicaCore.new_stored _, by simp [proposals]⟩ ?_).2
  rintro core coreEvent core' pushed pushed' ⟨hstored, hplans⟩ hhandle
  obtain ⟨hstored', hgrows⟩ := hstored.handle hhandle
  refine ⟨hstored', ?_⟩
  intro data hdata
  rw [proposals_append] at hdata
  rcases List.mem_append.mp hdata with hold | hnew
  · obtain ⟨hparent, hjustify⟩ := hplans data hold
    exact ⟨hgrows.lt_length hparent, hjustify.trans_le hgrows.certs.length_le⟩
  · exact hstored.handle_plans hhandle data hnew

/-- What crashes has not been foreseen. -/
theorem LocalRun.unforeseen (hrun : LocalRun coreConfig cryptoConfig history replica)
    {call? : Option (Replica.Call scheme)} (h : replica.Crashes call?) :
    replica.Unforeseen call? := by
  have hstored := hrun.stored
  obtain ⟨admitted, hadmitting⟩ := hrun.admitting
  revert h
  rintro ⟨panic, ⟨hidle, hcall⟩ | ⟨hpending, hrelease⟩ | @⟨action, rest, hpending, hqueue, hperform⟩,
    hcrash⟩
  · exact Replica.call_crash hstored hidle hcall hcrash
  · exact absurd hcrash (hadmitting.buffers.release_not_crash hstored hpending hrelease)
  · have hmem : action ∈ Replica.performedIn history ++ replica.coreActions := by
      rw [hqueue]
      exact List.mem_append_right _ List.mem_cons_self
    cases action with
    | propose data =>
        obtain ⟨hparent, hjustify⟩ := hrun.plans data (List.mem_filterMap.mpr ⟨_, hmem, rfl⟩)
        obtain ⟨block, hblock, hfaulty, hlength, hnot⟩ := (@Replica.performPropose_crash _
          { replica with coreActions := rest } hstored data hparent hjustify).mp
            ⟨panic, hperform, hcrash⟩
        refine .proposal hpending hqueue hblock hfaulty hlength ?_
        rintro ⟨hsigners, hfresh, hheight, hvoting⟩
        exact hnot ⟨hsigners, hfresh, hheight, hvoting⟩
    | vote key =>
        obtain ⟨hkey, hsome⟩ := hrun.signable key (hqueue ▸ List.mem_cons_self)
        obtain ⟨signers, hsigners⟩ := Option.isSome_iff_exists.mp hsome
        obtain ⟨publicCommitments, hlisted, hcause⟩ := (@Replica.performVote_crash _
          { replica with coreActions := rest } hstored key signers hkey hsigners).mp
            ⟨panic, hperform, hcrash⟩
        rcases hcause with hnonce | ⟨nonce, share, hnonce, hsign, hprimary, hscratch⟩
        · exact .nonce hpending hqueue hsigners hlisted hnonce
        · exact .ownVote hpending hqueue hsigners hlisted hnonce hsign hprimary hscratch
    | finalize key =>
        obtain ⟨top, hcommitted⟩ :=
          hrun.disciplined.committed key (List.mem_filterMap.mpr ⟨_, hmem, rfl⟩)
        have hkey : key < replica.core.nodes.length :=
          (hstored.ancestor_le hcommitted.ancestor).trans_lt (hstored.block2_lt top)
        rw [Replica.perform, Replica.performFinalize,
          show ReplicaCore.node _ key = .ok _ from ReplicaCore.Stored.node_ok hkey,
          ok_bind] at hperform
        cases hperform

/-- A replica crashes exactly on what its code does not foresee. -/
theorem crashes_iff (hrun : LocalRun coreConfig cryptoConfig history replica)
    (call? : Option (Replica.Call scheme)) : replica.Crashes call? ↔ replica.Unforeseen call? := by
  refine ⟨hrun.unforeseen, ?_⟩
  have hstored := hrun.stored
  have hcrash : ∀ {action : ReplicaCoreAction} {rest : ReplicaCoreActions},
      replica.pending = [] → replica.coreActions = action :: rest →
      (∃ panic, Replica.perform { replica with coreActions := rest } action = .error panic ∧
        panic.Crash) → replica.Crashes none := by
    rintro action rest hpending hqueue ⟨panic, hperform, hcrash⟩
    exact ⟨panic, .perform hpending hqueue hperform, hcrash⟩
  intro h
  cases h with
  | block hidle hadmits hsigners =>
      have hassert := Replica.receiveGeneric_error.mpr ⟨rfl, hadmits, hsigners⟩
      exact ⟨.assert, .call hidle (bind_eq_error.mpr (.inl hassert)), trivial⟩
  | vote hidle hscratch =>
      have hunwrap := Replica.handleVoteGeneric_unknown hscratch
      exact ⟨.unwrap, .call hidle (bind_eq_error.mpr (.inl hunwrap)), trivial⟩
  | @proposal data rest block hpending hqueue hblock hfaulty hlength hnot =>
      obtain ⟨hparent, hjustify⟩ := hrun.plans data (List.mem_filterMap.mpr
        ⟨.propose data, List.mem_append_right _ (hqueue ▸ List.mem_cons_self), rfl⟩)
      apply hcrash hpending hqueue
      apply (@Replica.performPropose_crash _ { replica with coreActions := rest } hstored data
        hparent hjustify).mpr
      refine ⟨block, hblock, hfaulty, hlength, ?_⟩
      rintro ⟨hsigners, hfresh, hheight, hvoting⟩
      exact hnot ⟨hsigners, hfresh, hheight, hvoting⟩
  | @nonce key rest signers publicCommitments hpending hqueue hsigners hlisted hnonce =>
      obtain ⟨hkey, -⟩ := hrun.signable key (hqueue ▸ List.mem_cons_self)
      apply hcrash hpending hqueue
      apply (@Replica.performVote_crash _ { replica with coreActions := rest } hstored key signers
        hkey hsigners).mpr
      exact ⟨publicCommitments, hlisted, .inl hnonce⟩
  | @ownVote key rest signers publicCommitments nonce share hpending hqueue hsigners hlisted hnonce
      hsign hprimary hscratch =>
      obtain ⟨hkey, -⟩ := hrun.signable key (hqueue ▸ List.mem_cons_self)
      apply hcrash hpending hqueue
      apply (@Replica.performVote_crash _ { replica with coreActions := rest } hstored key signers
        hkey hsigners).mpr
      exact ⟨publicCommitments, hlisted, .inr ⟨nonce, share, hnonce, hsign, hprimary, hscratch⟩⟩

/-- A new replica crashes on a vote. -/
theorem crashes_fails : ¬∀ (scheme : ThresholdScheme) (coreConfig : ReplicaCoreConfig)
    (cryptoConfig : CryptoConfig scheme) (history : List (Replica.Event scheme))
    (replica : Replica scheme) (message : ToReplica scheme),
    LocalRun coreConfig cryptoConfig history replica →
    ¬replica.Crashes (some (.receive message)) := by
  intro hclaim
  let vote : Message.VoteGeneric .transparent :=
    { node := .zero, partialSig := .givre (0, .zero), signerIndex := 0 }
  have hunwrap := @Replica.handleVoteGeneric_unknown _
    (Replica.new ((Group.four ∅).coreConfig 1) ((Group.four ∅).cryptoConfig 1)) vote rfl
  exact hclaim .transparent ((Group.four ∅).coreConfig 1) ((Group.four ∅).cryptoConfig 1) [] _
    (.voteGeneric vote) (.start rfl)
    ⟨.unwrap, .call ⟨rfl, rfl⟩ (bind_eq_error.mpr (.inl hunwrap)), trivial⟩

end Hotstuff

end BftKit
