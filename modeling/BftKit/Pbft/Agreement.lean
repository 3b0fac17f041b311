import BftKit.Foundation.Log
import BftKit.Foundation.Quorum
import BftKit.Pbft.MainPath

/-! # Agreement

Honest replicas finalize the same commands under the same block number. Two
commit quorums share an honest replica, and an honest replica stores one block
under a number, whichever message made it sign a vote.
-/

namespace BftKit.Pbft

open Foundation

variable {crypto : Crypto}

namespace Group

variable {group : Group} {history : History crypto} {states : Nat → Replica crypto}
  {left right blockNum : Nat}

/-- Members of a quorum are replicas of the group. -/
theorem backer_lt {votes : Vote crypto → Prop} {who id : Nat} {digest : Digest}
    (hvotes : ∀ vote, votes vote → vote.replicaId < group.spec.numReplica)
    (hhonest : group.Honest who)
    (hbacker : Replica.Backer (group.config who) votes blockNum digest id) :
    id < group.spec.numReplica := by
  rcases hbacker with rfl | ⟨vote, hvote, -, -, rfl⟩
  · exact hhonest.1
  · exact hvotes vote hvote

/-- Blocks committed under one number have one digest. -/
theorem committed_digest (hsize : 3 * group.spec.numFaulty + 1 ≤ group.spec.numReplica)
    (hfaulty : group.faulty.card ≤ group.spec.numFaulty) (hrun : GroupRun group history states)
    (hleft : group.Honest left) (hright : group.Honest right) {block block' : Block crypto}
    (hblock : (states left).core.blocks[blockNum]? = some block)
    (hcommitted : block.commitQuorum.isSome)
    (hblock' : (states right).core.blocks[blockNum]? = some block')
    (hcommitted' : block'.commitQuorum.isSome) : block.digest = block'.digest := by
  obtain ⟨quorum, hquorum⟩ := Option.isSome_iff_exists.mp hcommitted
  obtain ⟨quorum', hquorum'⟩ := Option.isSome_iff_exists.mp hcommitted'
  obtain ⟨hcard, hids⟩ :=
    ((hrun.evidence hleft).certified blockNum block hblock).committed quorum hquorum
  obtain ⟨hcard', hids'⟩ :=
    ((hrun.evidence hright).certified blockNum block' hblock').committed quorum' hquorum'
  have hsub : ∀ {who digest} {keys : Finset Nat}, group.Honest who →
      (∀ id ∈ keys, Replica.Backer (group.config who) (group.Vouched history) blockNum digest id) →
      keys ⊆ Finset.range group.spec.numReplica := by
    intro who digest keys hwho hkeys id hid
    exact Finset.mem_range.mpr (backer_lt (fun vote hvote => hvote.1) hwho (hkeys id hid))
  obtain ⟨voter, hmem, hmem', hgood⟩ := exists_common_voter (hsub hleft hids) (hsub hright hids')
    (show (Finset.range group.spec.numReplica).card + group.faulty.card <
        quorum.keys.card + quorum'.keys.card by
      rw [Finset.card_range]
      simp only [config, Map.size] at hcard hcard'
      omega)
  have hvoter : group.Honest voter :=
    ⟨Finset.mem_range.mp (hsub hleft hids hmem), hgood⟩
  -- the common voter has one block under this number
  obtain ⟨stored, hstored, hdigest⟩ := hrun.backer hvoter hblock (hids voter hmem)
  obtain ⟨stored', hstored', hdigest'⟩ := hrun.backer hvoter hblock' (hids' voter hmem')
  rw [← hdigest, ← hdigest', Option.some.inj (hstored.symm.trans hstored')]

/-- The commands that some honest replica finalizes. -/
def finalizedLists (group : Group) (history : History crypto) : Set (List Command) :=
  { commands | ∃ who, group.Honest who ∧ commands ∈ finalizedLog (view who history) }

/-- Commands finalized under one number are the same. -/
theorem finalized_commands (hsize : 3 * group.spec.numFaulty + 1 ≤ group.spec.numReplica)
    (hfaulty : group.faulty.card ≤ group.spec.numFaulty)
    (hcollision : Set.InjOn (blockDigest crypto) (group.finalizedLists history))
    (hrun : GroupRun group history states) (hleft : group.Honest left)
    (hright : group.Honest right) {index : Nat} {commands commands' : List Command}
    (hat : (finalizedLog (view left history))[index]? = some commands)
    (hat' : (finalizedLog (view right history))[index]? = some commands') :
    commands = commands' := by
  obtain ⟨block, hblock, hcommitted, hdigest⟩ := (hrun.accountable hleft).block_of_log hat
  obtain ⟨block', hblock', hcommitted', hdigest'⟩ := (hrun.accountable hright).block_of_log hat'
  have hsame := committed_digest hsize hfaulty hrun hleft hright hblock hcommitted hblock' hcommitted'
  rw [hdigest, hdigest'] at hsame
  exact hcollision ⟨left, hleft, List.mem_of_getElem? hat⟩
    ⟨right, hright, List.mem_of_getElem? hat'⟩ hsame

/-- PBFT agreement: with at most `numFaulty` faulty replicas of `3 * numFaulty + 1`,
honest replicas finalize the same commands under a block number, and their logs
extend one another. Faulty replicas send what they like, but forge no signatures of honest
ones. Delivery is arbitrary. The lists that honest replicas finalize are taken to have
different digests, which their encoding does not provide. -/
theorem agreement (hsize : 3 * group.spec.numFaulty + 1 ≤ group.spec.numReplica)
    (hfaulty : group.faulty.card ≤ group.spec.numFaulty) (hrun : GroupRun group history states)
    (hcollision : Set.InjOn (blockDigest crypto) (group.finalizedLists history))
    (hleft : group.Honest left) (hright : group.Honest right) :
    (∀ blockNum commands commands',
      .perform (.finalize blockNum) [.finalize commands] ∈ view left history →
      .perform (.finalize blockNum) [.finalize commands'] ∈ view right history →
      commands = commands') ∧
    (finalizedLog (view left history) <+: finalizedLog (view right history) ∨
      finalizedLog (view right history) <+: finalizedLog (view left history)) := by
  constructor
  · intro blockNum commands commands' hmem hmem'
    have hat := ((hrun.accountable hleft).log_of_finalize hmem).2
    have hat' := ((hrun.accountable hright).log_of_finalize hmem').2
    exact finalized_commands hsize hfaulty hcollision hrun hleft hright hat hat'
  · exact prefix_total_of_agree fun index _ _ =>
      finalized_commands hsize hfaulty hcollision hrun hleft hright

/-- In the normal case among four, two replicas finalize the command. -/
theorem agreement_normalCase :
    ∃ history : History .transparent, finalizedLog (view 0 history) = [[ping 0]] ∧
      finalizedLog (view 1 history) = [[ping 0]] ∧
      (finalizedLog (view 0 history) <+: finalizedLog (view 1 history) ∨
        finalizedLog (view 1 history) <+: finalizedLog (view 0 history)) := by
  have hreplay : ∃ run ∈ (four ∅).replay fourNormalCase,
      finalizedLog (view 0 run.1) = [[ping 0]] ∧ finalizedLog (view 1 run.1) = [[ping 0]] ∧
      ∀ who < 4, ∀ commands ∈ finalizedLog (view who run.1), commands = [ping 0] := by
    decide +kernel
  obtain ⟨⟨history, states⟩, hrun, hleft, hright, hall⟩ := hreplay
  refine ⟨history, hleft, hright, ?_⟩
  have hcollision : Set.InjOn (blockDigest .transparent) ((four ∅).finalizedLists history) := by
    rintro commands ⟨who, hwho, hmem⟩ commands' ⟨who', hwho', hmem'⟩ -
    rw [hall who hwho.1 commands hmem, hall who' hwho'.1 commands' hmem']
  exact (agreement (by decide) (by decide) (replay_run hrun) hcollision
    (show (four ∅).Honest 0 by decide) (show (four ∅).Honest 1 by decide)).2

end Group

end BftKit.Pbft
