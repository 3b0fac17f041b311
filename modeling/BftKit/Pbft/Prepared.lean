import BftKit.Pbft.Agreement

/-! # Prepared certificates

The prepare threshold counts the PrePrepare as one more vote, for the primary. A
Prepare under the primary's own id then counts the primary twice, and prepared
certificates for one block number may differ. Without such Prepares they do not.
-/

namespace BftKit.Pbft

open Foundation

variable {crypto : Crypto}

namespace Group

/-- Prepare quorums that honest replicas hold under one number are for one digest. -/
def PreparedUnique (group : Group) (states : Nat → Replica crypto) : Prop :=
  ∀ left right, group.Honest left → group.Honest right →
    ∀ (blockNum : Nat) (block block' : Block crypto),
      (states left).core.blocks[blockNum]? = some block → block.prepareQuorum.isSome →
      (states right).core.blocks[blockNum]? = some block' → block'.prepareQuorum.isSome →
      block.digest = block'.digest

/-- A step puts the id of a faulty primary into a prepare quorum: it counts a
Prepare that names the primary, on arrival or among the early ones. -/
def CountsPrimary (group : Group) (replica : Replica crypto) (event : Replica.Event crypto) :
    Prop :=
  group.spec.primary 0 ∈ group.faulty ∧
    ((∃ (vote : Vote crypto) (block : Block crypto),
        event = .call (.receive (.prepare vote)) [] ∧ vote.replicaId = group.spec.primary 0 ∧
        replica.Admits vote vote.viewNum vote.replicaId vote.sig ∧
        replica.core.isPrepared vote.blockNum = false ∧
        replica.core.blocks[vote.blockNum]? = some block ∧ vote.digest = block.digest) ∨
      ∃ blockNum digest actions, event = .perform (.prepare blockNum digest) actions ∧
        ∃ vote ∈ (replica.scratchAt blockNum).prepareVotes,
          vote.replicaId = group.spec.primary 0 ∧ vote.digest = digest)

/-- A step of the group that does not count the primary twice. -/
def SingleStep (group : Group) (who : Nat) (history : History crypto) (replica : Replica crypto)
    (event : Replica.Event crypto) (next : Replica crypto) : Prop :=
  group.Step who history replica event next ∧ ¬group.CountsPrimary replica event

variable {group : Group} {history : History crypto} {states : Nat → Replica crypto}

/-- The sources of runs that do not count the primary twice. -/
def singleSources (group : Group) (history : History crypto) : Replica.Sources crypto :=
  { group.sources history with
    prepare := fun vote => group.Vouched history vote ∧
      ¬(group.spec.primary 0 ∈ group.faulty ∧ vote.replicaId = group.spec.primary 0) }

theorem singleSources_sub (entry : Nat × Replica.Event crypto) :
    (group.singleSources history).Sub (group.singleSources (history ++ [entry])) :=
  { sources_sub entry with
    prepare := fun _ hvote => ⟨hvote.1.mono entry, hvote.2⟩ }

theorem SingleStep.admitted {who : Nat} {replica next : Replica crypto}
    {event : Replica.Event crypto} (hstep : group.SingleStep who history replica event next)
    (haccountable : Replica.Accountable (group.config who) (view who history) replica) :
    Replica.Admitted (group.singleSources history) replica event := by
  have hadmitted := hstep.1.admitted haccountable
  refine ⟨hadmitted.prePrepare, hadmitted.early, ?_, ?_, hadmitted.commit⟩
  · intro vote block hevent hadmits hopen hblock hdigest
    refine ⟨hadmitted.prepare vote block hevent hadmits hopen hblock hdigest, ?_⟩
    rintro ⟨hfaulty, hid⟩
    exact hstep.2 ⟨hfaulty, .inl ⟨vote, block, hevent, hid, hadmits, hopen, hblock, hdigest⟩⟩
  · intro blockNum digest actions hevent vote hvote hearly hdigest
    refine ⟨hearly, ?_⟩
    rintro ⟨hfaulty, hid⟩
    exact hstep.2 ⟨hfaulty, .inr ⟨blockNum, digest, actions, hevent, vote, hvote, hid, hdigest⟩⟩

/-- A faulty primary that signs two PrePrepares under one number, and a Prepare for
each, gets both prepared: one replica's own vote is enough for either. -/
theorem preparedUnique_fails : ∃ group : Group,
    3 * group.spec.numFaulty + 1 ≤ group.spec.numReplica ∧
    group.faulty.card ≤ group.spec.numFaulty ∧
    ∃ (history : History .transparent) (states : Nat → Replica .transparent),
      GroupRun group history states ∧ ¬group.PreparedUnique states := by
  have hreplay : ∃ run ∈ (four {0}).replay [
        (1, .receive (.prePrepare (fourPrePrepare 1 [ping 0]) [ping 0])),
        (1, .receive (.prepare (fourVote 0 1 [ping 0]))),
        (2, .receive (.prePrepare (fourPrePrepare 1 [ping 1]) [ping 1])),
        (2, .receive (.prepare (fourVote 0 1 [ping 1])))],
      ∃ block ∈ (run.2 1).core.blocks[1]?, ∃ block' ∈ (run.2 2).core.blocks[1]?,
        block.prepareQuorum.isSome ∧ block'.prepareQuorum.isSome ∧
          block.digest ≠ block'.digest := by
    decide +kernel
  obtain ⟨⟨history, states⟩, hrun, block, hblock, block', hblock', hprepared, hprepared', hne⟩ :=
    hreplay
  refine ⟨four {0}, by decide, by decide, history, states, replay_run hrun,
    fun hunique => hne ?_⟩
  exact hunique 1 2 (by decide) (by decide) 1 block block' hblock hprepared hblock' hprepared'

/-- In every run that never counts a faulty primary twice, prepare quorums under
one number are for one digest. At most `numFaulty` replicas of `3 * numFaulty + 1` are faulty.
Which Prepares are to be kept out can be told from them and the state that they meet. -/
theorem preparedUnique (hsize : 3 * group.spec.numFaulty + 1 ≤ group.spec.numReplica)
    (hfaulty : group.faulty.card ≤ group.spec.numFaulty)
    (hrun : Run (fun states => ∀ who, group.Start who (states who)) (interleave group.SingleStep)
      history states) : group.PreparedUnique states := by
  have hgroup : GroupRun group history states :=
    hrun.mono (fun _ h => h) fun _ _ _ _ ⟨target, h, hnext⟩ => ⟨target, h.1, hnext⟩
  intro left right hleft hright blockNum block block' hblock hprepared hblock' hprepared'
  have hpos : 0 < group.spec.numReplica := by omega
  have hlt : group.spec.primary 0 < group.spec.numReplica := Nat.mod_lt _ hpos
  by_cases hprimary : group.spec.primary 0 ∈ group.faulty
  · obtain ⟨quorum, hquorum⟩ := Option.isSome_iff_exists.mp hprepared
    obtain ⟨quorum', hquorum'⟩ := Option.isSome_iff_exists.mp hprepared'
    have hevidence : ∀ {who}, group.Honest who →
        Replica.Evidence (group.config who) (group.singleSources history)
          (states who).core.blocks (states who).blockScratches :=
      fun hwho => evidence_of_run (fun _ entry => singleSources_sub entry)
        (fun _ _ _ _ _ h => h.1) (fun _ _ _ _ _ h => h.admitted) hrun hwho
    obtain ⟨hcard, hids⟩ :=
      ((hevidence hleft).certified blockNum block hblock).prepared quorum hquorum
    obtain ⟨hcard', hids'⟩ :=
      ((hevidence hright).certified blockNum block' hblock').prepared quorum' hquorum'
    -- the voters are drawn from the replicas other than the primary
    have hsub : ∀ {who digest} {keys : Finset Nat}, group.Honest who →
        (∀ id ∈ keys, Replica.Backer (group.config who) (group.singleSources history).prepare
          blockNum digest id) →
        keys ⊆ (Finset.range group.spec.numReplica).erase (group.spec.primary 0) := by
      intro who digest keys hwho hkeys id hid
      rw [Finset.mem_erase, Finset.mem_range]
      refine ⟨?_, backer_lt (fun vote hvote => hvote.1.1) hwho (hkeys id hid)⟩
      rintro rfl
      rcases hkeys _ hid with hself | ⟨vote, hvote, -, -, hname⟩
      · have hwho' : group.spec.primary 0 = who := hself
        exact hwho.2 (hwho' ▸ hprimary)
      · exact hvote.2 ⟨hprimary, hname⟩
    obtain ⟨voter, hmem, hmem', hgood⟩ := exists_common_voter (hsub hleft hids) (hsub hright hids')
      (show ((Finset.range group.spec.numReplica).erase (group.spec.primary 0)).card +
          (group.faulty.erase (group.spec.primary 0)).card <
          quorum.keys.card + quorum'.keys.card by
        have hone : 1 ≤ group.faulty.card := Finset.card_pos.mpr ⟨_, hprimary⟩
        rw [Finset.card_erase_of_mem (Finset.mem_range.mpr hlt), Finset.card_range,
          Finset.card_erase_of_mem hprimary]
        simp only [config, Map.size] at hcard hcard'
        omega)
    obtain ⟨hne, hvoterLt⟩ := Finset.mem_erase.mp (hsub hleft hids hmem)
    have hvoter : group.Honest voter :=
      ⟨Finset.mem_range.mp hvoterLt, fun hbad => hgood (Finset.mem_erase.mpr ⟨hne, hbad⟩)⟩
    have hvouched : ∀ {who digest}, Replica.Backer (group.config who)
        (group.singleSources history).prepare blockNum digest voter →
        Replica.Backer (group.config who) (group.Vouched history) blockNum digest voter :=
      fun hbacker => hbacker.mono fun _ hvote => hvote.1
    obtain ⟨stored, hstored, hdigest⟩ := hgroup.backer hvoter hblock (hvouched (hids voter hmem))
    obtain ⟨stored', hstored', hdigest'⟩ :=
      hgroup.backer hvoter hblock' (hvouched (hids' voter hmem'))
    rw [← hdigest, ← hdigest', Option.some.inj (hstored.symm.trans hstored')]
  · -- an honest primary signs one PrePrepare under each number
    obtain ⟨stored, hstored, hdigest⟩ := hgroup.accepted ⟨hlt, hprimary⟩ hleft hblock
    obtain ⟨stored', hstored', hdigest'⟩ := hgroup.accepted ⟨hlt, hprimary⟩ hright hblock'
    rw [← hdigest, ← hdigest', Option.some.inj (hstored.symm.trans hstored')]

/-- The normal case among four honest replicas is such a run. -/
theorem preparedUnique_normalCase :
    ∃ (history : History .transparent) (states : Nat → Replica .transparent),
      GroupRun (four ∅) history states ∧ (four ∅).PreparedUnique states ∧
      (∃ block ∈ (states 0).core.blocks[1]?, block.prepareQuorum.isSome) ∧
      ∃ block ∈ (states 1).core.blocks[1]?, block.prepareQuorum.isSome := by
  have hreplay : ∃ run ∈ (four ∅).replay fourNormalCase,
      (∃ block ∈ (run.2 0).core.blocks[1]?, block.prepareQuorum.isSome) ∧
      ∃ block ∈ (run.2 1).core.blocks[1]?, block.prepareQuorum.isSome := by
    decide +kernel
  obtain ⟨⟨history, states⟩, hrun, hprepared⟩ := hreplay
  replace hrun := replay_run hrun
  have hsingle : Run (fun states => ∀ who, (four ∅).Start who (states who))
      (interleave (four ∅).SingleStep) history states := by
    refine hrun.mono (fun _ h => h) ?_
    rintro _ _ _ _ ⟨target, hstep, hnext⟩
    exact ⟨target, ⟨hstep, fun hcounts => absurd hcounts.1 (by decide)⟩, hnext⟩
  exact ⟨history, states, hrun, preparedUnique (by decide) (by decide) hsingle, hprepared⟩

end Group

end BftKit.Pbft
