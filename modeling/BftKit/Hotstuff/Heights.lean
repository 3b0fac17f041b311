import BftKit.Hotstuff.Crashes
import BftKit.Hotstuff.Line

/-! # Running out of heights

The height of a proposal is one more than that of its parent, which fails at the end of the
range. What a leader still has to propose is bounded by what waits in its pool and by the
extra rounds, so it cannot get there unless it has been asked for too much.
-/

namespace BftKit.Hotstuff

open Foundation Threshold

variable {scheme : ThresholdScheme}

/-- What an event may add to the nodes of a leader, now or later: a request takes a node of
its own and three empty ones. -/
def ReplicaCoreEvent.effort : ReplicaCoreEvent scheme → Nat
  | .request _ => 4
  | .proposal _ _ | .proposed _ _ => 1
  | .quorumCert _ => 0

namespace ReplicaCore

variable {core core' : ReplicaCore scheme} {event : ReplicaCoreEvent scheme}
  {pushed : ReplicaCoreActions} {panic : Panic}

/-- The nodes of a leader, with those that it may still have to propose. -/
def ahead (core : ReplicaCore scheme) : Nat :=
  core.nodes.length + 4 * core.pool.pending.length + core.numExtraRound

/-- No node is higher than its key allows in a line. -/
def Low (core : ReplicaCore scheme) : Prop := ∀ key, core.heightOf key < core.nodes.length

theorem Line.low (h : Line core) : core.Low := by
  intro key
  by_cases hkey : key < core.nodes.length
  · rw [h.linked.height key hkey]
    exact hkey
  · rw [heightOf, nodeAt, List.getD_eq_default _ _ (not_lt.mp hkey)]
    exact h.stored.nodes_pos

theorem SameStore.low (h : SameStore core core') (hlow : core.Low) : core'.Low := by
  intro key
  rw [h.heightOf, h.nodes]
  exact hlow key

theorem Ingested.low {blockDigest : Digest} {block : Message.Block scheme}
    (h : Ingested core blockDigest block core') (hlow : core.Low)
    (hblock : block.height ≤ core.nodes.length) : core'.Low := by
  intro key
  rw [h.length]
  rcases Nat.lt_trichotomy key core.nodes.length with hlt | rfl | hgt
  · rw [h.grows.heightOf hlt]
    exact (hlow key).trans (Nat.lt_succ_self _)
  · rw [h.height]
    exact Nat.lt_succ_of_le hblock
  · rw [heightOf, nodeAt, List.getD_eq_default]
    · exact Nat.succ_pos _
    · rw [h.length]
      exact hgt

theorem Reacted.low (h : Reacted core event core' pushed) (hlow : core.Low)
    (hblock : ∀ blockDigest block, event = .proposal blockDigest block ∨
      event = .proposed blockDigest block → block.height ≤ core.nodes.length) : core'.Low := by
  cases h with
  | request => exact hlow
  | proposal hingested _ hupdated =>
      have hstored := hingested.low hlow (hblock _ _ (.inl rfl))
      refine hupdated.sameStore.low (SameStore.low ?_ hstored)
      exact ⟨rfl, rfl, rfl, rfl, rfl⟩
  | proposed hingested _ hupdated =>
      have hstored := hingested.low hlow (hblock _ _ (.inr rfl))
      refine hupdated.sameStore.low (SameStore.low ?_ hstored)
      exact ⟨rfl, rfl, rfl, rfl, rfl⟩
  | @quorumCert quorumCert key =>
      have hadded : Low { core with
          quorumCerts := core.quorumCerts ++ [⟨key, quorumCert.sig⟩] } := hlow
      exact (raised_sameStore _ _).low hadded

theorem Reacted.ahead (h : Reacted core event core' pushed) :
    core'.ahead ≤ core.ahead + event.effort := by
  have hextra := h.numExtraRound
  unfold ReplicaCore.ahead
  rw [hextra]
  cases h with
  | @request command pool hpool =>
      have hlength := hpool.length_le
      change core.nodes.length + 4 * pool.pending.length + core.numExtraRound ≤
        core.nodes.length + 4 * core.pool.pending.length + core.numExtraRound + 4
      omega
  | @proposal _ _ stored _ _ _ hingested _ hupdated | @proposed _ _ stored _ _ hingested _ hupdated =>
      have hsame : stored.pool = core.pool := by rw [hingested.rest]
      have hlength := hupdated.pool.length_le
      change _ ≤ stored.pool.pending.length + 0 at hlength
      rw [hsame] at hlength
      have hnodes : core'.nodes.length = core.nodes.length + 1 := by
        rw [hupdated.sameStore.nodes]
        exact hingested.length
      change _ ≤ core.nodes.length + 4 * core.pool.pending.length + core.numExtraRound + 1
      omega
  | quorumCert =>
      rw [(raised_sameStore _ _).nodes]
      refine le_of_eq ?_
      unfold raised
      split <;> rfl

/-- A proposal takes from what is ahead. -/
theorem Beat.ahead (h : Beat core core' pushed) (hstored : Stored core) :
    core'.ahead + (proposals pushed).length ≤ core.ahead := by
  obtain ⟨log, hlog⟩ := hstored.pool
  cases h with
  | wait => exact le_rfl
  | @backup pool _ _ _ hclose | @rest pool _ _ hclose =>
      have hlength := hlog.closeBatch_length hclose
      change core.nodes.length + 4 * pool.pending.length + core.numExtraRound + 0 ≤
        core.nodes.length + 4 * core.pool.pending.length + core.numExtraRound
      omega
  | @extra pool commands numExtraRound _ _ hclose _ hextra =>
      have hlength := hlog.closeBatch_length hclose
      change core.nodes.length + 4 * pool.pending.length + numExtraRound + 1 ≤
        core.nodes.length + 4 * core.pool.pending.length + core.numExtraRound
      omega
  | @propose pool commands _ _ hclose hne =>
      have hlength := hlog.closeBatch_length hclose
      have hpos := List.length_pos_of_ne_nil hne
      rw [Option.getD_some] at hlength
      change core.nodes.length + 4 * pool.pending.length + 3 + 1 ≤
        core.nodes.length + 4 * core.pool.pending.length + core.numExtraRound
      omega

theorem Stored.handle_ahead (h : Stored core) (hhandle : core.handle event = .ok (core', pushed)) :
    core'.ahead + (proposals pushed).length ≤ core.ahead + event.effort := by
  obtain ⟨middle, reactions, beats, hreacted, hbeat, rfl⟩ := h.handle_ok hhandle
  rw [proposals_append, hreacted.proposals, List.nil_append]
  exact (hbeat.ahead (hreacted.stored h)).trans hreacted.ahead

/-- A beat overflows only on a leader. -/
theorem Stored.handle_overflow (h : Stored core) (hhandle : core.handle event = .error .overflow) :
    ∃ middle reactions, Reacted core event middle reactions ∧ BeatRefused middle .overflow := by
  rcases h.handle_error hhandle with hrefused | hrefused
  · cases hrefused with
    | proposal hrefused | proposed hrefused => cases hrefused
  · exact hrefused

theorem BeatRefused.leader (h : BeatRefused core .overflow) (hstored : Stored core) :
    core.config.id = 0 := by
  cases h with
  | batchSize _ hclose =>
      obtain ⟨log, hlog⟩ := hstored.pool
      cases (hlog.closeBatch_error hclose).1
  | overflow _ hid => exact hid

/-- The end of the range is out of reach while there is room for what is ahead. -/
theorem Stored.overflow_ahead (h : Stored core) (hlow : core.Low)
    (hblock : ∀ blockDigest block, event = .proposal blockDigest block ∨
      event = .proposed blockDigest block → block.height ≤ core.nodes.length)
    (hhandle : core.handle event = .error .overflow) : 2 ^ 32 < core.ahead + event.effort := by
  obtain ⟨middle, reactions, hreacted, hrefused⟩ := h.handle_overflow hhandle
  obtain ⟨log, hlog⟩ := (hreacted.stored h).pool
  refine lt_of_lt_of_le ?_ hreacted.ahead
  cases hrefused with
  | batchSize _ hclose => cases (hlog.closeBatch_error hclose).1
  | overflow _ _ hclose hdue hroom =>
      have hheight := hreacted.low hlow hblock middle.blockLeaf
      have hlength := hlog.closeBatch_length hclose
      unfold ReplicaCore.ahead
      rcases hdue with hne | hextra
      · have hpos := List.length_pos_of_ne_nil hne
        omega
      · omega

end ReplicaCore

namespace Replica

variable {replica : Replica scheme}

/-- The events that a core is given next, on calls and iterations that may not succeed. -/
inductive Asks (replica : Replica scheme) :
    Option (Call scheme) → ReplicaCoreEvent scheme → Prop
  | request {command} (hidle : replica.Idle) :
      Asks replica (some (.request command)) (.request command)
  | vote {vote sig} (hidle : replica.Idle) :
      Asks replica (some (.receive (.voteGeneric vote))) (.quorumCert ⟨vote.node, sig⟩)
  | release {blockDigest block rest} (hpending : replica.pending = (blockDigest, block) :: rest) :
      Asks replica none (.proposal blockDigest block)
  | propose {data rest block} (hpending : replica.pending = [])
      (hqueue : replica.coreActions = .propose data :: rest)
      (hblock : replica.proposalBlock data = .ok block) :
      Asks replica none (.proposed (scheme.digest block) block)
  | ownVote {digest sig} (hpending : replica.pending = []) :
      Asks replica none (.quorumCert ⟨digest, sig⟩)

theorem handleVoteGeneric_overflow {vote : Message.VoteGeneric scheme}
    (hvote : replica.handleVoteGeneric vote = .error .overflow) :
    ∃ sig, replica.core.handle (.quorumCert ⟨vote.node, sig⟩) = .error .overflow := by
  unfold handleVoteGeneric at hvote
  split at hvote
  · cases hvote
  · split at hvote
    · cases hvote
    · cases hvote
    next sig _ =>
      dsimp only at hvote
      split at hvote
      · have hcore := handle_eq_error.mp hvote
        exact ⟨sig, hcore⟩
      · cases hvote

theorem performPropose_overflow {data : NodeData} {block : Message.Block scheme}
    (hblock : replica.proposalBlock data = .ok block)
    (hperform : replica.performPropose data = .error .overflow) :
    replica.core.handle (.proposed (scheme.digest block) block) = .error .overflow := by
  unfold performPropose at hperform
  rw [hblock, ok_bind] at hperform
  dsimp only at hperform
  split at hperform
  · cases hperform
  · split at hperform
    · cases hperform
    · split at hperform
      · cases hperform
      · rcases bind_eq_error.mp hperform with hhandle | ⟨_, -, hrest⟩
        · have hcore := handle_eq_error.mp hhandle
          exact hcore
        · cases hrest

theorem performVote_overflow (hstored : replica.core.Stored) {key : Nat} {signers : Signers scheme}
    (hkey : key < replica.core.nodes.length)
    (hsigners : replica.blockSigners.lookup (replica.core.digestOf key) = some signers)
    (hperform : replica.performVote key = .error .overflow) :
    ∃ digest sig, replica.core.handle (.quorumCert ⟨digest, sig⟩) = .error .overflow := by
  unfold performVote at hperform
  have hdigest : (replica.core.nodeAt key).digest = replica.core.digestOf key := rfl
  rw [ReplicaCore.Stored.node_ok hkey, ok_bind, hdigest, hsigners] at hperform
  dsimp only at hperform
  split at hperform
  · cases hperform
  · split at hperform
    · cases hperform
    · split at hperform
      · cases hperform
      · have hvote := (castVote_error.mp hperform).2
        obtain ⟨sig, hhandle⟩ := handleVoteGeneric_overflow hvote
        exact ⟨_, sig, hhandle⟩

end Replica

variable {coreConfig : ReplicaCoreConfig} {cryptoConfig : CryptoConfig scheme}
  {history : List (Replica.Event scheme)} {replica : Replica scheme}

/-- A replica overflows in the core. -/
theorem LocalRun.overflows (hrun : LocalRun coreConfig cryptoConfig history replica)
    {call? : Option (Replica.Call scheme)} (h : replica.Panics .overflow call?) :
    ∃ event, replica.Asks call? event ∧ replica.core.handle event = .error .overflow := by
  have hstored := hrun.stored
  cases h with
  | @call call hidle hcall =>
      cases call with
      | init | tick => cases hcall
      | request command =>
          rcases bind_eq_error.mp hcall with hhandle | ⟨_, -, hrest⟩
          · exact ⟨_, .request hidle, Replica.handle_eq_error.mp hhandle⟩
          · cases hrest
      | receive message =>
          rcases bind_eq_error.mp hcall with hreceive | ⟨_, -, hrest⟩
          · cases message with
            | generic generic block => cases (Replica.receiveGeneric_error.mp hreceive).1
            | voteGeneric vote =>
                obtain ⟨sig, hhandle⟩ := Replica.handleVoteGeneric_overflow hreceive
                exact ⟨_, .vote hidle, hhandle⟩
            | publicCommitmentsSupply => cases hreceive
          · cases hrest
  | release hpending hrelease =>
      unfold Replica.release at hrelease
      split at hrelease
      · have hcore := Replica.handle_eq_error.mp hrelease
        exact ⟨_, .release hpending, hcore⟩
      · cases hrelease
  | @perform action rest hpending hqueue hperform =>
      cases action with
      | propose data =>
          obtain ⟨hparent, hjustify⟩ := hrun.plans data (List.mem_filterMap.mpr
            ⟨.propose data, List.mem_append_right _ (hqueue ▸ List.mem_cons_self), rfl⟩)
          have hblock := Replica.proposalBlock_ok hstored hparent hjustify
          exact ⟨_, .propose hpending hqueue hblock,
            @Replica.performPropose_overflow _ { replica with coreActions := rest } _ _ hblock
              hperform⟩
      | vote key =>
          obtain ⟨hkey, hsome⟩ := hrun.signable key (hqueue ▸ List.mem_cons_self)
          obtain ⟨signers, hsigners⟩ := Option.isSome_iff_exists.mp hsome
          obtain ⟨digest, sig, hhandle⟩ := @Replica.performVote_overflow _
            { replica with coreActions := rest } hstored key signers hkey hsigners hperform
          exact ⟨_, .ownVote hpending, hhandle⟩
      | finalize key =>
          rcases bind_eq_error.mp hperform with hnode | ⟨_, -, hrest⟩
          · unfold ReplicaCore.node at hnode
            split at hnode <;> cases hnode
          · cases hrest

end BftKit.Hotstuff
