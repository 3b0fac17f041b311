import Mathlib.Data.Finset.Prod
import BftKit.Pbft.CutOff
import BftKit.Pbft.NetworkReplay
import BftKit.Pbft.Resending

/-! # What sending again can repair

From every state of a lossy run in which a block is repairable, ticks and deliveries lead
to its commitment: all backups get the block, then all Prepares between backups are in
that are not lost, then all backups answer the primary. A tick stops sending a block again
once it is committed, which is the way out of each of these stages.
-/

namespace BftKit.Pbft.Group

open Foundation Replica

variable {crypto : Crypto} {group : Group} {missing : List (Nat × ToReplica crypto)}
  {who other blockNum : Nat}

/-! ## Goals -/

/-- A replica has a block for the number, as far along as the condition says. -/
def Holds (group : Group) (who blockNum : Nat) (condition : Block crypto → Prop) :
    (group.protocol crypto).Goal :=
  fun _ network => ∃ block : Block crypto,
    (network.states who).core.blocks[blockNum]? = some block ∧ condition block

/-- The Prepare of one backup for the block number has reached another, or is lost. -/
def Counted (group : Group) (blockNum sender receiver : Nat) : (group.protocol crypto).Goal :=
  fun history _ => ∃ vote : Vote crypto, vote.blockNum = blockNum ∧ vote.replicaId = sender ∧
    ((receiver, .prepare vote) ∈ (group.protocol crypto).received (steps history) ∨
      (receiver, .prepare vote) ∈ lost history)

/-- The primary has received the Prepare of a backup, and its Commit unless it is cut off. -/
def Answered (group : Group) (missing : List (Nat × ToReplica crypto)) (blockNum who : Nat) :
    (group.protocol crypto).Goal :=
  fun history _ => ∃ vote : Vote crypto, vote.blockNum = blockNum ∧ vote.replicaId = who ∧
    (group.spec.primary 0, .prepare vote) ∈ (group.protocol crypto).received (steps history) ∧
    (who ∉ group.cutOff missing blockNum →
      (group.spec.primary 0, .commit vote) ∈ (group.protocol crypto).received (steps history))

/-- The primary has a block for the number, and these messages are missing. -/
def Issued (group : Group) (missing : List (Nat × ToReplica crypto)) (blockNum : Nat) :
    (group.protocol crypto).Goal :=
  fun history network => lost history = missing ∧
    group.Holds (group.spec.primary 0) blockNum (fun _ => True) history network

/-- The primary has committed the block number. -/
def Committed (group : Group) (blockNum : Nat) : (group.protocol crypto).Goal :=
  group.Holds (group.spec.primary 0) blockNum fun block => block.commitQuorum.isSome

/-- All backups have blocks for the number, as far along as the condition says. -/
def Spread (group : Group) (blockNum : Nat) (condition : Nat → Block crypto → Prop) :
    (group.protocol crypto).Goal :=
  fun history network => ∀ who, who ∈ group.backups →
    group.Holds who blockNum (condition who) history network

/-- Later versions of a block meet the condition when it does. -/
def Lasting (condition : Block crypto → Prop) : Prop :=
  ∀ block block' : Block crypto,
    (block.prepareQuorum.isSome → block'.prepareQuorum = block.prepareQuorum) →
    (block.commitQuorum.isSome → block'.commitQuorum = block.commitQuorum) →
    condition block → condition block'

theorem lasting_true : Lasting fun _ : Block crypto => True :=
  fun _ _ _ _ _ => trivial

theorem lasting_prepared (condition : Prop) :
    Lasting fun block : Block crypto => condition → block.prepareQuorum.isSome := by
  intro block block' hprepare _ hprepared hcondition
  rw [hprepare (hprepared hcondition)]
  exact hprepared hcondition

theorem lasting_committed : Lasting fun block : Block crypto => block.commitQuorum.isSome := by
  intro block block' _ hcommit hcommitted
  rwa [hcommit hcommitted]

theorem stable_holds (hverifies : crypto.Verifies) {condition : Block crypto → Prop}
    (hlasting : Lasting condition) (who blockNum : Nat) :
    (group.protocol crypto).Stable (group.Holds who blockNum condition) := by
  intro history network party invocation next hrun hholds hstep
  obtain ⟨block, hblock, hcondition⟩ := hholds
  obtain ⟨block', hblock', -, -, hprepare, hcommit⟩ :=
    LossyRun.keeps hverifies hrun hstep who blockNum block hblock
  exact ⟨block', hblock', hlasting block block' hprepare hcommit hcondition⟩

theorem stable_counted (blockNum sender receiver : Nat) :
    (group.protocol crypto).Stable (group.Counted blockNum sender receiver) := by
  intro history network party invocation next hrun hcounted hstep
  obtain ⟨vote, hnum, hid, hreceived | hlost⟩ := hcounted
  · exact ⟨vote, hnum, hid, .inl (Protocol.stable_received _ hrun hreceived hstep)⟩
  · refine ⟨vote, hnum, hid, .inr ?_⟩
    rwa [lost_concat_step]

theorem stable_answered (missing : List (Nat × ToReplica crypto)) (blockNum who : Nat) :
    (group.protocol crypto).Stable (group.Answered missing blockNum who) := by
  intro history network party invocation next hrun hanswered hstep
  obtain ⟨vote, hnum, hid, hprepare, hcommit⟩ := hanswered
  exact ⟨vote, hnum, hid, Protocol.stable_received _ hrun hprepare hstep,
    fun hnot => Protocol.stable_received _ hrun (hcommit hnot) hstep⟩

theorem stable_committed (hverifies : crypto.Verifies) (blockNum : Nat) :
    (group.protocol crypto).Stable (group.Committed blockNum) :=
  stable_holds hverifies lasting_committed _ blockNum

theorem stable_issued (hverifies : crypto.Verifies) (missing : List (Nat × ToReplica crypto))
    (blockNum : Nat) : (group.protocol crypto).Stable (group.Issued missing blockNum) :=
  (Protocol.stable_lost missing).and (stable_holds hverifies lasting_true _ blockNum)

theorem stable_spread (hverifies : crypto.Verifies) {condition : Nat → Block crypto → Prop}
    (hlasting : ∀ who, Lasting (condition who)) (blockNum : Nat) :
    (group.protocol crypto).Stable (group.Spread blockNum condition) :=
  .all fun who => .imp (stable_holds hverifies (hlasting who) who blockNum)

variable {history : List (Incident Nat (Invocation crypto) (ToReplica crypto))}
  {network : Network Nat (Replica crypto) (ToReplica crypto)}

section

variable (hverifies : crypto.Verifies) (hfaulty : group.spec.numFaulty ≤ group.spec.numReplica)
  (hrun : (group.protocol crypto).LossyRun history network)

include hverifies hfaulty hrun

/-! ## One backup at a time -/

/-- A block at the primary that is not committed can be brought to any backup. -/
theorem LossyRun.reaches_stored (hwho : who ∈ group.backups)
    (hstored : group.Holds (group.spec.primary 0) blockNum (fun _ => True) history network)
    (hopen : ¬ group.Committed blockNum history network) :
    (group.protocol crypto).Reaches group.Repairs (group.Holds who blockNum fun _ => True)
      history network := by
  obtain ⟨hne, hlt⟩ := mem_backups.mp hwho
  obtain ⟨block, hblock, -⟩ := hstored
  have hnone : block.commitQuorum = none := by
    by_contra hsome
    exact hopen ⟨block, hblock, Option.isSome_iff_ne_none.mpr hsome⟩
  apply (LossyRun.reaches_offered hverifies hrun hfaulty hlt hne hblock hnone).bind hrun
  rintro history network hrun ⟨sent, rfl, hflight⟩
  obtain ⟨invocation, next, hcall, hstep, ⟨accepted, haccepted⟩, -⟩ :=
    LossyRun.offer hverifies hrun hfaulty hlt hne hflight
  refine .step ?_ hstep (.of_goal ⟨accepted, haccepted, trivial⟩)
  rw [Repairs, hcall]
  trivial

/-- A backup with the block has sent its Prepare to the others. -/
theorem LossyRun.reaches_counted (hwho : who ∈ group.backups) (hother : other ∈ group.backups)
    (hne : other ≠ who) (hstored : group.Holds who blockNum (fun _ => True) history network) :
    (group.protocol crypto).Reaches group.Repairs (group.Counted blockNum who other)
      history network := by
  obtain ⟨hbackup, hlt⟩ := mem_backups.mp hwho
  obtain ⟨block, hblock, -⟩ := hstored
  obtain ⟨vote, hnum, -, hid, hevent⟩ :=
    ((LossyRun.harmonious hverifies hrun).runs who hlt).prepares (Ne.symm hbackup)
      (LossyRun.idle hrun who) hblock
  have hsent : (other, .prepare vote) ∈ (group.protocol crypto).sent (steps history) := by
    refine mem_sent.mpr ⟨who, _, hevent, _, List.mem_singleton_self _, ?_⟩
    exact ReplicaAction.mem_deliveries.mpr (.inr ⟨rfl, (mem_backups.mp hother).2, hne⟩)
  rcases Protocol.LossyRun.sent_cases hrun hsent with harrives | hlost
  · apply (LossyRun.reaches_received hverifies hrun hfaulty (mem_backups.mp hother).2
      harrives).mono hrun
    intro history network _ hreceived
    exact ⟨vote, hnum, hid, .inl hreceived⟩
  · exact .of_goal ⟨vote, hnum, hid, .inr hlost⟩

/-- A backup with a block that is not committed can be made to answer the primary. -/
theorem LossyRun.reaches_answered (hwho : who ∈ group.backups)
    (hstored : group.Holds (group.spec.primary 0) blockNum (fun _ => True) history network)
    (hprepared : group.Holds who blockNum
      (fun block => who ∉ group.cutOff missing blockNum → block.prepareQuorum.isSome)
      history network)
    (hopen : ¬ group.Committed blockNum history network) :
    (group.protocol crypto).Reaches group.Repairs (group.Answered missing blockNum who)
      history network := by
  obtain ⟨hne, hlt⟩ := mem_backups.mp hwho
  have hprimary := primary_lt hlt
  obtain ⟨block, hblock, -⟩ := hstored
  have hnone : block.commitQuorum = none := by
    by_contra hsome
    exact hopen ⟨block, hblock, Option.isSome_iff_ne_none.mpr hsome⟩
  have hoffered := LossyRun.reaches_offered hverifies hrun hfaulty hlt hne hblock hnone
  apply (hoffered.keep hrun (stable_holds hverifies (lasting_prepared _) who blockNum)
    hprepared).bind hrun
  rintro history network hrun ⟨⟨held, hheld, hprepared⟩, sent, rfl, hflight⟩
  obtain ⟨invocation, next, hcall, hstep, -, hanswer⟩ :=
    LossyRun.offer hverifies hrun hfaulty hlt hne hflight
  obtain ⟨vote, hnum, hid, hprepare, hcommit⟩ := hanswer held hheld
  have hallowed : group.Repairs who invocation := by
    rw [Repairs, hcall]
    trivial
  have hrun' := Run.step hrun (.step hstep)
  refine .step hallowed hstep ?_
  -- first the Prepare, then the Commit
  have hfirst := (LossyRun.reaches_received hverifies hrun' hfaulty hprimary (.inl hprepare)).keep
    hrun' (Protocol.stable_arrives (group.spec.primary 0, ToReplica.commit vote)).imp
    fun hnot => .inl (hcommit (hprepared hnot))
  apply hfirst.bind hrun'
  rintro history network hrun ⟨harrives, hreceived⟩
  by_cases hcut : who ∈ group.cutOff missing sent.blockNum
  · exact .of_goal ⟨vote, hnum, hid, hreceived, fun hnot => absurd hcut hnot⟩
  · have hsecond := (LossyRun.reaches_received hverifies hrun hfaulty hprimary
      (harrives hcut)).keep hrun (Protocol.stable_received _) hreceived
    apply hsecond.mono hrun
    rintro history network - ⟨hreceived, hcommitted⟩
    exact ⟨vote, hnum, hid, hreceived, fun _ => hcommitted⟩

/-! ## What the votes amount to -/

omit hfaulty

/-- A vote for a block number is for the block that a replica has under it. -/
theorem LossyRun.digest_of_received (hwho : who < group.spec.numReplica)
    {message : ToReplica crypto} {vote : Vote crypto}
    (hvote : message = .prepare vote ∨ message = .commit vote)
    (hreceived : (other, message) ∈ (group.protocol crypto).received (steps history))
    {block : Block crypto}
    (hblock : (network.states who).core.blocks[vote.blockNum]? = some block) :
    vote.digest = block.digest := by
  have hbacked := (LossyRun.sound hverifies hrun (.inr hreceived)).backed
  obtain ⟨stored, hstored, hdigest⟩ : ∃ stored : Block crypto,
      (network.states (group.spec.primary 0)).core.blocks[vote.blockNum]? = some stored ∧
        stored.digest = vote.digest := by
    rcases hvote with rfl | rfl <;> exact hbacked
  obtain ⟨stored', hstored', hsame⟩ := LossyRun.same_block hverifies hrun hwho hblock
  obtain rfl := Option.some.inj (hstored.symm.trans hstored')
  exact hdigest.symm.trans hsame

/-- A received Prepare counts. -/
theorem LossyRun.prepare_voter (hwho : who < group.spec.numReplica) {vote : Vote crypto}
    (hreceived : (who, .prepare vote) ∈ (group.protocol crypto).received (steps history))
    {block : Block crypto}
    (hblock : (network.states who).core.blocks[vote.blockNum]? = some block) :
    vote.replicaId ∈ voters block.digest (preparesFor vote.blockNum
      (delivered (eventsOf who (steps history)))) := by
  refine mem_voters.mpr ⟨vote, ?_, ?_, rfl⟩
  · exact mem_preparesFor.mpr ⟨(LossyRun.mem_delivered hrun).mpr hreceived, rfl⟩
  · exact LossyRun.digest_of_received hverifies hrun hwho (.inl rfl) hreceived hblock

/-- A received Commit counts. -/
theorem LossyRun.commit_voter (hwho : who < group.spec.numReplica) {vote : Vote crypto}
    (hreceived : (who, .commit vote) ∈ (group.protocol crypto).received (steps history))
    {block : Block crypto}
    (hblock : (network.states who).core.blocks[vote.blockNum]? = some block) :
    vote.replicaId ∈ voters block.digest (commitsFor vote.blockNum
      (delivered (eventsOf who (steps history)))) := by
  refine mem_voters.mpr ⟨vote, ?_, ?_, rfl⟩
  · exact mem_commitsFor.mpr ⟨(LossyRun.mem_delivered hrun).mpr hreceived, rfl⟩
  · exact LossyRun.digest_of_received hverifies hrun hwho (.inr rfl) hreceived hblock

/-- A backup that is not cut off is prepared, once all that is not lost has come. -/
theorem LossyRun.prepared_of_counted (hwho : who ∈ group.backups)
    (hnot : who ∉ group.cutOff (lost history) blockNum)
    (hstored : group.Holds who blockNum (fun _ => True) history network)
    (hcounted : ∀ other ∈ group.backups, other ≠ who →
      group.Counted blockNum other who history network) :
    group.Holds who blockNum (fun block => block.prepareQuorum.isSome) history network := by
  obtain ⟨hne, hlt⟩ := mem_backups.mp hwho
  obtain ⟨block, hblock, -⟩ := hstored
  have hcorrect := (LossyRun.harmonious hverifies hrun).runs who hlt
  have htally := (hcorrect.tallied (Ne.symm hne)).tally blockNum
  rw [hblock, LossyRun.idle hrun who] at htally
  refine ⟨block, hblock, ?_⟩
  cases htally with
  | accepted _ hqueue => simp at hqueue
  | prepared _ _ hprepared | committing _ _ hprepared | committed _ hprepared => exact hprepared
  | preparing _ _ _ _ _ hfew =>
      have hsub : group.backups ⊆ preparers (group.config who)
          (delivered (eventsOf who (steps history))) blockNum block.digest ∪
            lostPrepares (lost history) who blockNum := by
        intro id hid
        rw [Finset.mem_union]
        by_cases heq : id = who
        · exact .inl (Finset.mem_insert.mpr (.inl heq))
        · obtain ⟨vote, rfl, rfl, hreceived | hlost⟩ := hcounted id hid heq
          · exact .inl (Finset.mem_insert_of_mem
              (LossyRun.prepare_voter hverifies hrun hlt hreceived hblock))
          · exact .inr (mem_lostPrepares.mpr ⟨vote, hlost, rfl, rfl⟩)
      have hcard := (Finset.card_le_card hsub).trans (Finset.card_union_le _ _)
      have hbackups := card_backups (Nat.zero_lt_of_lt hlt)
      have hlost : (lostPrepares (lost history) who blockNum).card ≤ group.spec.numFaulty := by
        by_contra hmore
        exact hnot (Finset.mem_filter.mpr ⟨hwho, not_le.mp hmore⟩)
      refine absurd ?_ hfew
      change group.spec.numReplica ≤ _ + 1 + group.spec.numFaulty
      omega

/-- With the answers of all backups the primary commits. -/
theorem LossyRun.committed_of_answered (hrepairable : group.Repairable missing blockNum)
    (hstored : group.Holds (group.spec.primary 0) blockNum (fun _ => True) history network)
    (hanswered : ∀ who ∈ group.backups, group.Answered missing blockNum who history network) :
    group.Committed blockNum history network := by
  obtain ⟨hsize, hfew⟩ := hrepairable
  have hlt : group.spec.primary 0 < group.spec.numReplica :=
    primary_lt (Nat.zero_lt_of_lt hsize)
  obtain ⟨block, hblock, -⟩ := hstored
  have hcorrect := (LossyRun.harmonious hverifies hrun).runs _ hlt
  have htally := (hcorrect.primaryTallied rfl).tally blockNum
  have hbackups := card_backups (Nat.zero_lt_of_lt hsize)
  rw [hblock, LossyRun.idle hrun] at htally
  refine ⟨block, hblock, ?_⟩
  cases htally with
  | prepared hqueue => simp at hqueue
  | committed _ hcommitted => exact hcommitted
  | preparing _ _ _ hwaits =>
      -- all backups have prepared, and the primary counts itself
      have hvoters : group.backups ⊆ voters block.digest (preparesFor blockNum
          (delivered (eventsOf (group.spec.primary 0) (steps history)))) := by
        intro id hid
        obtain ⟨vote, rfl, rfl, hreceived, -⟩ := hanswered id hid
        exact LossyRun.prepare_voter hverifies hrun hlt hreceived hblock
      have hcard := Finset.card_le_card hvoters
      rcases hwaits with hnone | hwaits
      · rw [hnone] at hcard
        change group.backups.card ≤ 0 at hcard
        omega
      · refine absurd ?_ hwaits
        change group.spec.numReplica ≤ _ + 1 + group.spec.numFaulty
        omega
  | committing _ _ _ _ _ hwaits =>
      -- so have the backups that are not cut off, of which there are n - f - 1
      have hcommitters : insert (group.spec.primary 0)
          (group.backups \ group.cutOff missing blockNum) ⊆
          committers (group.config (group.spec.primary 0))
            (delivered (eventsOf (group.spec.primary 0) (steps history))) blockNum
            block.digest := by
        intro id hid
        rcases Finset.mem_insert.mp hid with rfl | hid
        · exact Finset.mem_insert_self _ _
        · obtain ⟨hid, hnot⟩ := Finset.mem_sdiff.mp hid
          obtain ⟨vote, rfl, rfl, -, hcommit⟩ := hanswered id hid
          exact Finset.mem_insert_of_mem
            (LossyRun.commit_voter hverifies hrun hlt (hcommit hnot) hblock)
      have hcard := Finset.card_le_card hcommitters
      have hprimary : group.spec.primary 0 ∉ group.backups \ group.cutOff missing blockNum := by
        rw [Finset.mem_sdiff, mem_backups]
        exact fun h => h.1.1 rfl
      rw [Finset.card_insert_of_notMem hprimary, Finset.card_sdiff_of_subset cutOff_subset] at hcard
      refine absurd ?_ hwaits
      change group.spec.numReplica ≤ _ + group.spec.numFaulty
      have hle := Finset.card_le_card (cutOff_subset : group.cutOff missing blockNum ⊆ _)
      omega

/-! ## Blocks one after another -/

include hfaulty

/-- A block at the primary can be brought to all backups. -/
theorem LossyRun.reaches_spread (hissued : group.Issued missing blockNum history network) :
    (group.protocol crypto).Reaches group.Repairs (fun history network =>
      group.Committed blockNum history network ∨ group.Issued missing blockNum history network ∧
        group.Spread blockNum (fun _ _ => True) history network) history network := by
  have hall : (group.protocol crypto).Reaches group.Repairs (fun history network =>
      group.Committed blockNum history network ∨ group.Issued missing blockNum history network ∧
        ∀ who ∈ group.backups.toList, group.Holds who blockNum (fun _ => True) history network)
      history network := by
    refine Protocol.Reaches.all_or (stable_committed hverifies blockNum)
      (stable_issued hverifies missing blockNum)
      (fun who => stable_holds hverifies lasting_true who blockNum) _ ?_ hrun hissued
    intro who hwho history network hrun hissued hopen
    exact LossyRun.reaches_stored hverifies hfaulty hrun (Finset.mem_toList.mp hwho) hissued.2 hopen
  apply hall.mono hrun
  intro history network _ hreached
  exact hreached.imp_right fun h => ⟨h.1, fun who hwho => h.2 who (Finset.mem_toList.mpr hwho)⟩

/-- From there all backups can be prepared that are not cut off. -/
theorem LossyRun.reaches_prepared (hissued : group.Issued missing blockNum history network)
    (hspread : group.Spread blockNum (fun _ _ => True) history network) :
    (group.protocol crypto).Reaches group.Repairs (fun history network =>
      group.Issued missing blockNum history network ∧ group.Spread blockNum (fun who block =>
        who ∉ group.cutOff missing blockNum → block.prepareQuorum.isSome) history network)
      history network := by
  have hall : (group.protocol crypto).Reaches group.Repairs (fun history network =>
      (group.Issued missing blockNum history network ∧
        group.Spread blockNum (fun _ _ => True) history network) ∧
      ∀ pair ∈ (group.backups ×ˢ group.backups).toList, pair.1 ≠ pair.2 →
        group.Counted blockNum pair.1 pair.2 history network) history network := by
    refine Protocol.Reaches.all ((stable_issued hverifies missing blockNum).and
      (stable_spread hverifies (fun _ => lasting_true) blockNum))
      (fun pair : Nat × Nat => .imp (stable_counted blockNum pair.1 pair.2)) _ ?_ hrun
      ⟨hissued, hspread⟩
    rintro pair hpair history network hrun ⟨-, hspread⟩
    obtain ⟨hwho, hother⟩ := Finset.mem_product.mp (Finset.mem_toList.mp hpair)
    by_cases heq : pair.1 = pair.2
    · exact .of_goal fun hne => absurd heq hne
    · apply (LossyRun.reaches_counted hverifies hfaulty hrun hwho hother (Ne.symm heq)
        (hspread _ hwho)).mono hrun
      exact fun _ _ _ hcounted _ => hcounted
  apply hall.mono hrun
  rintro history network hrun ⟨⟨⟨rfl, hstored⟩, hspread⟩, hcounted⟩
  refine ⟨⟨rfl, hstored⟩, fun who hwho => ?_⟩
  by_cases hcut : who ∈ group.cutOff (lost history) blockNum
  · obtain ⟨block, hblock, -⟩ := hspread who hwho
    exact ⟨block, hblock, fun hnot => absurd hcut hnot⟩
  · obtain ⟨block, hblock, hprepared⟩ := LossyRun.prepared_of_counted hverifies hrun hwho hcut
      (hspread who hwho) fun other hother hne =>
        hcounted (other, who) (Finset.mem_toList.mpr (Finset.mk_mem_product hother hwho)) hne
    exact ⟨block, hblock, fun _ => hprepared⟩

/-- A repairable block can be committed by the primary. -/
theorem LossyRun.reaches_committed (hrepairable : group.Repairable missing blockNum)
    (hissued : group.Issued missing blockNum history network) :
    (group.protocol crypto).Reaches group.Repairs (group.Committed blockNum) history network := by
  apply (LossyRun.reaches_spread hverifies hfaulty hrun hissued).bind hrun
  rintro history network hrun (hdone | ⟨hissued, hspread⟩)
  · exact .of_goal hdone
  apply (LossyRun.reaches_prepared hverifies hfaulty hrun hissued hspread).bind hrun
  intro history network hrun hprepared
  have hall : (group.protocol crypto).Reaches group.Repairs (fun history network =>
      group.Committed blockNum history network ∨
        (group.Issued missing blockNum history network ∧ group.Spread blockNum (fun who block =>
          who ∉ group.cutOff missing blockNum → block.prepareQuorum.isSome) history network) ∧
        ∀ who ∈ group.backups.toList, group.Answered missing blockNum who history network)
      history network := by
    refine Protocol.Reaches.all_or (stable_committed hverifies blockNum)
      ((stable_issued hverifies missing blockNum).and
        (stable_spread hverifies (fun _ => lasting_prepared _) blockNum))
      (stable_answered missing blockNum) _ ?_ hrun hprepared
    intro who hwho history network hrun ⟨hissued, hprepared⟩ hopen
    replace hwho := Finset.mem_toList.mp hwho
    exact LossyRun.reaches_answered hverifies hfaulty hrun hwho hissued.2 (hprepared who hwho) hopen
  apply hall.mono hrun
  rintro history network hrun (hdone | ⟨⟨hissued, -⟩, hanswered⟩)
  · exact hdone
  · exact LossyRun.committed_of_answered hverifies hrun hrepairable hissued.2
      fun who hwho => hanswered who (Finset.mem_toList.mpr hwho)

/-! ## All that has been proposed -/

omit hfaulty

/-- The primary has finalized a run of block numbers it has committed. -/
theorem LossyRun.finalized_of_committed (hpos : 0 < group.spec.numReplica) {num : Nat}
    (hcommitted : ∀ blockNum, 1 ≤ blockNum → blockNum ≤ num →
      group.Committed blockNum history network) :
    num ≤ (network.states (group.spec.primary 0)).core.finalizeNum := by
  have hcorrect := (LossyRun.harmonious hverifies hrun).runs _ (primary_lt hpos)
  by_contra hlt
  obtain ⟨block, hblock, hdone⟩ :=
    hcommitted ((network.states (group.spec.primary 0)).core.finalizeNum + 1) (by omega) (by omega)
  have hprepared := (CorrectRun.accountable hcorrect).coherent.prepared _ block hblock hdone
  exact (hcorrect.primaryTallied rfl).settled block hblock ⟨hprepared, hdone⟩

/-- The primary has blocks for the numbers up to that of its last proposal. -/
theorem LossyRun.issued (hpos : 0 < group.spec.numReplica) {blockNum : Nat} (hge : 1 ≤ blockNum)
    (hle : blockNum ≤ (network.states (group.spec.primary 0)).core.proposeNum) :
    group.Issued (lost history) blockNum history network := by
  have h := (CorrectRun.accountable
    ((LossyRun.harmonious hverifies hrun).runs _ (primary_lt hpos))).coherent
  rw [(h.idle (LossyRun.idle hrun _)).2.1] at hle
  obtain ⟨block, hblock, -⟩ := h.stored (h.isPrimary_eq.trans (beq_self_eq_true _)) hge hle
  exact ⟨rfl, block, hblock, trivial⟩

end

/-- Ticks of the primary and deliveries can make it finalize all that it has proposed. -/
def Recovers (group : Group) (history : List (Incident Nat (Invocation crypto) (ToReplica crypto)))
    (network : Network Nat (Replica crypto) (ToReplica crypto)) : Prop :=
  (group.protocol crypto).Reaches group.Repairs (fun _ final =>
    (network.states (group.spec.primary 0)).core.proposeNum ≤
      (final.states (group.spec.primary 0)).core.finalizeNum) history network

section

variable (hsize : 3 * group.spec.numFaulty + 1 ≤ group.spec.numReplica)
  (hverifies : crypto.Verifies) (hrun : (group.protocol crypto).LossyRun history network)

include hsize hverifies hrun

/-- Repairing one block leaves the others repairable. -/
theorem LossyRun.recovers (hrepairable : ∀ blockNum, 1 ≤ blockNum →
    blockNum ≤ (network.states (group.spec.primary 0)).core.proposeNum →
    group.Repairable (lost history) blockNum) : group.Recovers history network := by
  have hfaulty : group.spec.numFaulty ≤ group.spec.numReplica := by omega
  have hpos : 0 < group.spec.numReplica := by omega
  generalize hnum : (network.states (group.spec.primary 0)).core.proposeNum = num at hrepairable
  generalize hmissing : lost history = missing at hrepairable
  have hissued : ∀ blockNum, 1 ≤ blockNum ∧ blockNum ≤ num →
      group.Issued missing blockNum history network := by
    rintro blockNum ⟨hge, hle⟩
    rw [← hmissing]
    exact LossyRun.issued hverifies hrun hpos hge (hnum ▸ hle)
  have hall : (group.protocol crypto).Reaches group.Repairs (fun history network =>
      (∀ blockNum, 1 ≤ blockNum ∧ blockNum ≤ num → group.Issued missing blockNum history network) ∧
      ∀ blockNum ∈ List.range' 1 num, group.Committed blockNum history network)
      history network := by
    refine Protocol.Reaches.all
      (.all fun blockNum => .imp (stable_issued hverifies missing blockNum))
      (stable_committed hverifies) _ ?_ hrun hissued
    intro blockNum hmem history network hrun hissued
    rw [List.mem_range'_1] at hmem
    have hbounds : 1 ≤ blockNum ∧ blockNum ≤ num := by omega
    exact LossyRun.reaches_committed hverifies hfaulty hrun
      (hrepairable blockNum hbounds.1 hbounds.2) (hissued blockNum hbounds)
  apply hall.mono hrun
  intro history network hrun ⟨_, hcommitted⟩
  rw [hnum]
  refine LossyRun.finalized_of_committed hverifies hrun hpos fun blockNum hge hle => ?_
  exact hcommitted blockNum (List.mem_range'_1.mpr ⟨hge, by omega⟩)

/-- What is finalized in the end was repairable, and nothing has been lost since. -/
theorem LossyRun.repairable (hrecovers : group.Recovers history network) {blockNum : Nat}
    (hge : 1 ≤ blockNum)
    (hle : blockNum ≤ (network.states (group.spec.primary 0)).core.proposeNum) :
    group.Repairable (lost history) blockNum := by
  have hpos : 0 < group.spec.numReplica := by omega
  obtain ⟨entries, final, hrepair, hfinalized⟩ := hrecovers
  have hrun' := Protocol.LossyRun.repair hrun hrepair
  have hlost := (Protocol.stable_lost (lost history)).repair hrun hrepair rfl
  obtain ⟨block, hblock, hcommitted⟩ := (CorrectRun.accountable
    ((LossyRun.harmonious hverifies hrun').runs _ (primary_lt hpos))).coherent.committed blockNum
    hge (hle.trans hfinalized)
  rw [← hlost]
  exact LossyRun.repairable_of_committed hverifies hrun' hpos hblock hcommitted

end

/-- From a state of a lossy run, the primary can be made to finalize all that it has
proposed if and only if every block it has proposed is repairable. Whether it is depends on
the lost messages alone. The replicas follow the code, and what they sign verifies. -/
theorem recovers_iff (hsize : 3 * group.spec.numFaulty + 1 ≤ group.spec.numReplica)
    (hverifies : crypto.Verifies) (hrun : (group.protocol crypto).LossyRun history network) :
    group.Recovers history network ↔ ∀ blockNum, 1 ≤ blockNum →
      blockNum ≤ (network.states (group.spec.primary 0)).core.proposeNum →
      group.Repairable (lost history) blockNum :=
  ⟨fun hrecovers _ hge hle => LossyRun.repairable hsize hverifies hrun hrecovers hge hle,
    LossyRun.recovers hsize hverifies hrun⟩

/-- With one backup cut off, the block can still be finalized. -/
theorem recovers_one_cutOff : ∃ history network,
    ((four ∅).protocol .transparent).LossyRun history network ∧
      (network.states 0).core.proposeNum = 1 ∧ (four ∅).cutOff (lost history) 1 = {1} ∧
      (four ∅).Recovers history network := by
  have hreplay : ∃ run ∈ (four ∅).replayNetwork (fourLosses [1, 3, 5]),
      (run.2.states 0).core.proposeNum = 1 ∧ (four ∅).cutOff (lost run.1) 1 = {1} := by
    decide +kernel
  obtain ⟨⟨history, network⟩, hreplay, hnum, hcut⟩ := hreplay
  have hrun := replayNetwork_run hreplay
  refine ⟨history, network, hrun, hnum, hcut, ?_⟩
  refine (recovers_iff (by decide) Crypto.transparent_verifies hrun).mpr fun blockNum hge hle => ?_
  obtain rfl : blockNum = 1 := le_antisymm (hle.trans hnum.le) hge
  exact ⟨by decide, by rw [hcut]; decide⟩

/-- With two of three backups cut off, no ticks and deliveries finalize the block. -/
theorem not_recovers : ¬ ∀ (group : Group)
    (history : List (Incident Nat (Invocation .transparent) (ToReplica .transparent)))
    (network : Network Nat (Replica .transparent) (ToReplica .transparent)),
    3 * group.spec.numFaulty + 1 ≤ group.spec.numReplica →
    (group.protocol .transparent).LossyRun history network → group.Recovers history network := by
  intro hclaim
  have hreplay : ∃ run ∈ (four ∅).replayNetwork (fourLosses [1, 3, 5, 5]),
      1 ≤ (run.2.states 0).core.proposeNum ∧ ¬ (four ∅).Repairable (lost run.1) 1 := by
    decide +kernel
  obtain ⟨⟨history, network⟩, hreplay, hnum, hnot⟩ := hreplay
  have hrun := replayNetwork_run hreplay
  exact hnot (LossyRun.repairable (by decide) Crypto.transparent_verifies hrun
    (hclaim _ history network (by decide) hrun) le_rfl hnum)

end BftKit.Pbft.Group
