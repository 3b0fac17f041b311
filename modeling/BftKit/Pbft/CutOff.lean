import BftKit.Pbft.Attribution

/-! # Backups that are cut off

A backup that has a block answers the primary only when it gets the PrePrepare again: a
Prepare between backups is sent once. A backup that has lost more of them than there may
be faults is never prepared, and when that happens to more backups than there may be
faults, the block is never committed.
-/

namespace BftKit.Pbft

open Foundation

variable {crypto : Crypto}

namespace Replica

variable {messages : List (ToReplica crypto)} {blockNum : Nat} {vote : Vote crypto}

theorem mem_preparesFor : vote ∈ preparesFor blockNum messages ↔
    .prepare vote ∈ messages ∧ vote.blockNum = blockNum := by
  simp only [preparesFor, List.mem_filter, List.mem_filterMap, decide_eq_true_eq]
  constructor
  · rintro ⟨⟨message, hmem, hvote⟩, hnum⟩
    cases message with
    | prepare other =>
        obtain rfl := Option.some.inj hvote
        exact ⟨hmem, hnum⟩
    | request | prePrepare | commit => cases hvote
  · rintro ⟨hmem, hnum⟩
    exact ⟨⟨_, hmem, rfl⟩, hnum⟩

theorem mem_commitsFor : vote ∈ commitsFor blockNum messages ↔
    .commit vote ∈ messages ∧ vote.blockNum = blockNum := by
  simp only [commitsFor, List.mem_filter, List.mem_filterMap, decide_eq_true_eq]
  constructor
  · rintro ⟨⟨message, hmem, hvote⟩, hnum⟩
    cases message with
    | commit other =>
        obtain rfl := Option.some.inj hvote
        exact ⟨hmem, hnum⟩
    | request | prePrepare | prepare => cases hvote
  · rintro ⟨hmem, hnum⟩
    exact ⟨⟨_, hmem, rfl⟩, hnum⟩

end Replica

namespace Group

open Replica

/-- All replicas but the primary. -/
def backups (group : Group) : Finset Nat :=
  (Finset.range group.spec.numReplica).erase (group.spec.primary 0)

/-- Whose Prepares for the block number, to this replica, are missing. -/
def lostPrepares (missing : List (Nat × ToReplica crypto)) (who blockNum : Nat) : Finset Nat :=
  ((preparesFor blockNum (view who missing)).map (·.replicaId)).toFinset

/-- The backups that miss more Prepares for the block number than there may be faults. -/
def cutOff (group : Group) (missing : List (Nat × ToReplica crypto)) (blockNum : Nat) :
    Finset Nat :=
  group.backups.filter fun who => group.spec.numFaulty < (lostPrepares missing who blockNum).card

/-- There are backups, and not too many of them are cut off. -/
def Repairable (group : Group) (missing : List (Nat × ToReplica crypto)) (blockNum : Nat) : Prop :=
  1 < group.spec.numReplica ∧ (group.cutOff missing blockNum).card ≤ group.spec.numFaulty

instance (group : Group) (missing : List (Nat × ToReplica crypto)) (blockNum : Nat) :
    Decidable (group.Repairable missing blockNum) :=
  inferInstanceAs (Decidable (_ ∧ _))

variable {group : Group} {missing : List (Nat × ToReplica crypto)} {who blockNum : Nat}
  {vote : Vote crypto} {block : Block crypto}

theorem mem_backups :
    who ∈ group.backups ↔ who ≠ group.spec.primary 0 ∧ who < group.spec.numReplica := by
  simp [backups]

theorem card_backups (hpos : 0 < group.spec.numReplica) :
    group.backups.card + 1 = group.spec.numReplica := by
  have hmem : group.spec.primary 0 ∈ Finset.range group.spec.numReplica :=
    Finset.mem_range.mpr (Nat.mod_lt _ hpos)
  rw [backups, Finset.card_erase_add_one hmem, Finset.card_range]

theorem mem_lostPrepares {id : Nat} : id ∈ lostPrepares missing who blockNum ↔
    ∃ vote, (who, .prepare vote) ∈ missing ∧ vote.blockNum = blockNum ∧ vote.replicaId = id := by
  simp only [lostPrepares, List.mem_toFinset, List.mem_map, mem_preparesFor, mem_view, and_assoc]

theorem cutOff_subset : group.cutOff missing blockNum ⊆ group.backups :=
  Finset.filter_subset _ _

variable {history : List (Incident Nat (Invocation crypto) (ToReplica crypto))}
  {network : Network Nat (Replica crypto) (ToReplica crypto)}

section

variable (hverifies : crypto.Verifies) (hrun : (group.protocol crypto).LossyRun history network)

include hverifies hrun

/-! ## What votes say of their senders -/

/-- A Prepare comes from a backup, and not from its receiver. -/
theorem LossyRun.prepare_backup
    (hsent : (who, .prepare vote) ∈ (group.protocol crypto).sent (steps history)) :
    vote.replicaId ∈ group.backups ∧ (who ≠ group.spec.primary 0 → vote.replicaId ≠ who) := by
  obtain ⟨flight, hnetwork, -⟩ := Protocol.LossyRun.networkRun hrun
  have hharmonious := NetworkRun.harmonious hverifies hnetwork
  obtain ⟨hlt, hne⟩ := hharmonious.prepare_backup hnetwork hsent
  refine ⟨mem_backups.mpr ⟨hne, hlt⟩, fun hbackup => ?_⟩
  obtain ⟨-, event, hevent, action, haction, hdelivery⟩ :=
    hharmonious.vote_sent hnetwork hsent rfl
  exact Ne.symm (hharmonious.prepare_event hbackup hlt hevent haction hdelivery).2.2

/-- A Commit comes from a replica that is prepared. -/
theorem LossyRun.commit_prepared
    (hsent : (who, .commit vote) ∈ (group.protocol crypto).sent (steps history)) :
    vote.replicaId < group.spec.numReplica ∧ ∃ block : Block crypto,
      (network.states vote.replicaId).core.blocks[vote.blockNum]? = some block ∧
        block.prepareQuorum.isSome := by
  obtain ⟨flight, hnetwork, -⟩ := Protocol.LossyRun.networkRun hrun
  have hharmonious := NetworkRun.harmonious hverifies hnetwork
  obtain ⟨hlt, hmessage⟩ := hharmonious.vote_sentMessages hnetwork hsent rfl
  exact ⟨hlt, CorrectRun.commit_prepared (hharmonious.runs _ hlt) hmessage⟩

/-! ## What has to have arrived -/

omit hverifies

/-- A backup counts itself and those whose Prepares it has received. -/
theorem LossyRun.received_of_preparers {digest : Digest} {id : Nat}
    (hid : id ∈ preparers (group.config who) (delivered (eventsOf who (steps history))) blockNum
      digest) :
    id = who ∨ ∃ vote : Vote crypto, vote.blockNum = blockNum ∧ vote.replicaId = id ∧
      (who, .prepare vote) ∈ (group.protocol crypto).received (steps history) := by
  rcases Finset.mem_insert.mp hid with rfl | hvoter
  · exact .inl rfl
  · obtain ⟨vote, hvote, -, rfl⟩ := mem_voters.mp hvoter
    obtain ⟨hdelivered, hnum⟩ := mem_preparesFor.mp hvote
    exact .inr ⟨vote, hnum, rfl, (LossyRun.mem_delivered hrun).mp hdelivered⟩

include hverifies

/-- A prepared backup has counted enough. -/
theorem LossyRun.enough_of_prepared (hwho : who ∈ group.backups)
    (hblock : (network.states who).core.blocks[blockNum]? = some block)
    (hprepared : block.prepareQuorum.isSome) :
    Enough (group.config who) ((preparers (group.config who)
      (delivered (eventsOf who (steps history))) blockNum block.digest).card + 1) := by
  obtain ⟨hne, hlt⟩ := mem_backups.mp hwho
  have hcorrect := (LossyRun.harmonious hverifies hrun).runs who hlt
  have htally := (hcorrect.tallied (Ne.symm hne)).tally blockNum
  rw [hblock] at htally
  cases htally with
  | accepted _ _ hnone | preparing _ _ hnone => simp [hnone] at hprepared
  | prepared _ _ _ _ henough | committing _ _ _ _ henough | committed _ _ _ henough =>
      exact henough

/-- A backup that is prepared is not cut off. -/
theorem LossyRun.not_cutOff (hwho : who ∈ group.backups)
    (hblock : (network.states who).core.blocks[blockNum]? = some block)
    (hprepared : block.prepareQuorum.isSome) : who ∉ group.cutOff (lost history) blockNum := by
  obtain ⟨hne, hlt⟩ := mem_backups.mp hwho
  -- whose Prepare is lost is not counted, as it was sent once
  have hdisjoint : Disjoint (lostPrepares (lost history) who blockNum)
      (preparers (group.config who) (delivered (eventsOf who (steps history))) blockNum
        block.digest) := by
    rw [Finset.disjoint_left]
    intro id hlost hid
    obtain ⟨vote, hmissing, hnum, rfl⟩ := mem_lostPrepares.mp hlost
    have hsent := Protocol.LossyRun.sent_of_lost hrun hmissing
    rcases LossyRun.received_of_preparers hrun hid with heq | ⟨vote', hnum', heq, hreceived⟩
    · exact (LossyRun.prepare_backup hverifies hrun hsent).2 hne heq
    · exact LossyRun.not_received_of_lost hverifies hrun hne hmissing hreceived
        (hnum.trans hnum'.symm) heq.symm
  have hsub : lostPrepares (lost history) who blockNum ∪ preparers (group.config who)
      (delivered (eventsOf who (steps history))) blockNum block.digest ⊆ group.backups := by
    intro id hid
    rcases Finset.mem_union.mp hid with hlost | hid
    · obtain ⟨vote, hmissing, -, rfl⟩ := mem_lostPrepares.mp hlost
      exact (LossyRun.prepare_backup hverifies hrun
        (Protocol.LossyRun.sent_of_lost hrun hmissing)).1
    · rcases LossyRun.received_of_preparers hrun hid with rfl | ⟨vote, -, rfl, hreceived⟩
      · exact hwho
      · exact (LossyRun.prepare_backup hverifies hrun
          (Protocol.LossyRun.sent_of_arrives hrun (.inr hreceived))).1
  have hcard := Finset.card_le_card hsub
  rw [Finset.card_union_of_disjoint hdisjoint] at hcard
  have hbackups := card_backups (Nat.zero_lt_of_lt hlt)
  have henough : group.spec.numReplica ≤ _ + 1 + group.spec.numFaulty :=
    LossyRun.enough_of_prepared hverifies hrun hwho hblock hprepared
  intro hcut
  have hmore := (Finset.mem_filter.mp hcut).2
  omega

/-- What the primary has committed was repairable. -/
theorem LossyRun.repairable_of_committed (hpos : 0 < group.spec.numReplica)
    (hblock : (network.states (group.spec.primary 0)).core.blocks[blockNum]? = some block)
    (hcommitted : block.commitQuorum.isSome) : group.Repairable (lost history) blockNum := by
  have hlt : group.spec.primary 0 < group.spec.numReplica := primary_lt hpos
  have hcorrect := (LossyRun.harmonious hverifies hrun).runs _ hlt
  have htally := (hcorrect.primaryTallied rfl).tally blockNum
  rw [hblock] at htally
  cases htally with
  | preparing _ hnone | prepared _ _ hnone | committing _ _ hnone => simp [hnone] at hcommitted
  | committed _ _ hsome hquorum =>
      have harrived : ∀ {message},
          message ∈ delivered (eventsOf (group.spec.primary 0) (steps history)) →
          (group.spec.primary 0, message) ∈ (group.protocol crypto).sent (steps history) := by
        intro message hdelivered
        exact Protocol.LossyRun.sent_of_arrives hrun
          (.inr ((LossyRun.mem_delivered hrun).mp hdelivered))
      constructor
      · obtain ⟨vote, hvote⟩ := List.exists_mem_of_ne_nil _ hsome
        obtain ⟨hbackup, -⟩ := LossyRun.prepare_backup hverifies hrun
          (harrived (mem_preparesFor.mp hvote).1)
        obtain ⟨hne, hid⟩ := mem_backups.mp hbackup
        omega
      · have hsub : committers (group.config (group.spec.primary 0))
            (delivered (eventsOf (group.spec.primary 0) (steps history))) blockNum block.digest ⊆
            (Finset.range group.spec.numReplica) \ group.cutOff (lost history) blockNum := by
          intro id hid
          rw [Finset.mem_sdiff, Finset.mem_range]
          rcases Finset.mem_insert.mp hid with rfl | hvoter
          · exact ⟨hlt, fun hcut => (mem_backups.mp (cutOff_subset hcut)).1 rfl⟩
          · obtain ⟨vote, hvote, -, rfl⟩ := mem_voters.mp hvoter
            obtain ⟨hdelivered, rfl⟩ := mem_commitsFor.mp hvote
            obtain ⟨hid, stored, hstored, hprepared⟩ :=
              LossyRun.commit_prepared hverifies hrun (harrived hdelivered)
            refine ⟨hid, fun hcut => ?_⟩
            exact LossyRun.not_cutOff hverifies hrun (cutOff_subset hcut) hstored hprepared
              hcut
        have hcut : group.cutOff (lost history) blockNum ⊆ Finset.range group.spec.numReplica :=
          cutOff_subset.trans (Finset.erase_subset _ _)
        have hcard := Finset.card_le_card hsub
        rw [Finset.card_sdiff_of_subset hcut, Finset.card_range] at hcard
        have hall := Finset.card_le_card hcut
        rw [Finset.card_range] at hall
        have hspec : group.spec.numReplica ≤ _ + group.spec.numFaulty := hquorum
        omega

end

end Group

end BftKit.Pbft
