import BftKit.Hotstuff.Awaiting
import BftKit.Hotstuff.Bookkeeping
import BftKit.Hotstuff.Pipeline
import BftKit.Hotstuff.Requests

/-! # When nothing is in flight any more

Replicas that follow the code vote for each block as soon as they have it. So when all
messages are delivered, the leader has got the certificate of its last block, and it goes
on until there is nothing left to finalize.
-/

namespace BftKit.Hotstuff

open Foundation Threshold CommandPool

variable {scheme : ThresholdScheme}

/-! ## Votes -/

section

variable {coreConfig : ReplicaCoreConfig} {cryptoConfig : CryptoConfig scheme}
  {history : List (Replica.Event scheme)} {replica : Replica scheme}

/-- A replica has done its part for a block: if it is listed, it has signed, and as a backup
it has sent its vote. -/
def Replica.Votes (history : List (Replica.Event scheme)) (index : Nat)
    (generic : Message.Generic scheme) : Prop :=
  index ∈ generic.signers.map Prod.fst → generic.block ∈ Replica.signed history ∧
    (index ≠ 0 → ∃ vote ∈ Replica.sentIn ToReplica.vote? history,
      vote.node = generic.block ∧ vote.signerIndex = index)

theorem Replica.Votes.concat {index : Nat} {generic : Message.Generic scheme}
    (h : Replica.Votes history index generic) (event : Replica.Event scheme) :
    Replica.Votes (history ++ [event]) index generic := by
  intro hlisted
  obtain ⟨hsigned, hsent⟩ := h hlisted
  rw [Replica.signed_concat, Replica.sentIn_concat]
  refine ⟨List.mem_append_left _ hsigned, fun hbackup => ?_⟩
  obtain ⟨vote, hvote, hlaw⟩ := hsent hbackup
  exact ⟨vote, List.mem_append_left _ hvote, hlaw⟩

theorem Replica.listed_isSome {signers : Signers scheme}
    (hlisted : replica.signerIndex ∈ signers.map Prod.fst) : (replica.listed signers).isSome := by
  obtain ⟨signer, hsigner, hindex⟩ := List.mem_map.mp hlisted
  rw [Replica.listed, Option.isSome_map, List.find?_isSome]
  exact ⟨signer, hsigner, beq_iff_eq.mpr hindex⟩

/-- A vote that is performed is cast, if its signer is listed and signing works. -/
theorem Replica.Effect.votes {next : Replica scheme} {event : Replica.Event scheme} {key : Nat}
    (heffect : Replica.Effect replica event next) (hstored : replica.core.Stored)
    (hperformed : event.performed? = some (.vote key))
    (hsign : ∀ {other signers publicCommitments nonce},
      Replica.Spending replica event other signers publicCommitments nonce →
        (scheme.signShare replica.cryptoConfig.keyShare nonce (replica.core.digestOf other)
          signers).isSome) :
    key < replica.core.nodes.length ∧ ∃ signers,
      replica.blockSigners.lookup (replica.core.digestOf key) = some signers ∧
      (replica.signerIndex ∈ signers.map Prod.fst →
        event.signed? = some (replica.core.digestOf key) ∧
          (replica.isPrimary = false → ∃ vote ∈ event.messages ToReplica.vote?,
            vote.node = replica.core.digestOf key ∧ vote.signerIndex = replica.signerIndex)) := by
  have hpolls := heffect.polls hstored
  cases heffect with
  | init | tick | request | ignore | accept | park | vote | supply | defer | release =>
      cases hperformed
  | propose | finalize => cases hperformed
  | @perform performed rest node signers next actions _ hqueue hnode hsigners =>
      obtain rfl : performed = key := ReplicaCoreAction.vote.inj (Option.some.inj hperformed)
      have hdigest : node.digest = replica.core.digestOf performed := by
        rw [ReplicaCore.digestOf, ReplicaCore.nodeAt_eq hnode]
      rw [hdigest] at hsigners hpolls hsign ⊢
      refine ⟨(List.getElem?_eq_some_iff.mp hnode).1, signers, hsigners, fun hlisted => ?_⟩
      obtain ⟨publicCommitments, hlisted⟩ := Option.isSome_iff_exists.mp
        (Replica.listed_isSome hlisted)
      rw [hlisted] at hpolls hsign ⊢
      refine ⟨rfl, fun hbackup => ?_⟩
      cases hpolls with
      | keep hspent => cases hspent
      | propose hevent | take hevent => cases hevent
      | cast hspending _ _ hcast =>
          have hsame := (Prod.mk.inj (Option.some.inj hspending.spent)).2
          have hsome := hsign hspending
          cases hcast with
          | unsigned hnone =>
              rw [hnone] at hsome
              cases hsome
          | send _ _ hsent =>
              rw [hsent]
              exact ⟨_, List.mem_singleton_self _, hsame.symm, rfl⟩
          | own _ hprimary =>
              rw [hbackup] at hprimary
              cases hprimary

/-- Replicas do their part for every block that they are done voting for. -/
theorem LocalRun.votes (hrun : LocalRun coreConfig cryptoConfig history replica)
    (hfresh : (Replica.drawn cryptoConfig.keyShare replica.numDraw).Nodup)
    (hsign : ∀ entry ∈ Replica.known history, ∀ digest draw,
      (coreConfig.id, (scheme.commit cryptoConfig.keyShare draw).1) ∈ entry.1.signers →
      (scheme.signShare cryptoConfig.keyShare (scheme.commit cryptoConfig.keyShare draw).2 digest
        entry.1.signers).isSome) {key : Nat} (hkey : .vote key ∈ Replica.performedIn history) :
    ∃ entry ∈ Replica.known history, entry.1.block = replica.core.digestOf key ∧
      Replica.Votes history coreConfig.id entry.1 := by
  induction hrun with
  | start => cases hkey
  | @step history replica event next hprev hstep ih =>
      have hstored := LocalRun.stored hprev
      have hgrows := hstep.effect.grows hstored
      have hfresh' := hfresh.sublist
        (Replica.drawn_prefix _ (hstep.effect.numDraw_le hstored)).sublist
      rw [Replica.performedIn_concat] at hkey
      rcases List.mem_append.mp hkey with hold | hnew
      · have hlt := ((LocalRun.disciplined hprev).voted key (List.mem_filterMap.mpr
          ⟨_, List.mem_append_left _ hold, rfl⟩)).lt
        rw [hgrows.digestOf hlt]
        obtain ⟨entry, hentry, hblock, hvotes⟩ := ih hfresh'
          (fun entry hentry => hsign entry (Replica.mem_known_concat.mpr (.inl hentry))) hold
        exact ⟨entry, Replica.mem_known_concat.mpr (.inl hentry), hblock, hvotes.concat event⟩
      · have hconfig := LocalRun.config hprev
        have hcrypto := LocalRun.cryptoConfig_eq hprev
        obtain ⟨hlt, signers, hsigners, hcast⟩ :=
          hstep.effect.votes hstored (Option.mem_toList.mp hnew) (by
          intro other signers publicCommitments nonce hspending
          obtain ⟨entry, hentry, -, rfl⟩ := LocalRun.signers_source hprev hspending.signers
          obtain ⟨draw, -, hcommit⟩ :=
            (LocalRun.spends hprev hfresh').nonce _ _ hspending.nonce
          have hlisted := Replica.mem_of_listed hspending.listed
          rw [Replica.signerIndex, hconfig] at hlisted
          rw [hcrypto] at hcommit ⊢
          have hsome := hsign entry (Replica.mem_known_concat.mpr (.inl hentry))
            (replica.core.digestOf other) draw
          rw [hcommit] at hsome
          exact hsome hlisted)
        rw [hgrows.digestOf hlt]
        obtain ⟨entry, hentry, hblock, rfl⟩ := LocalRun.signers_source hprev hsigners
        refine ⟨entry, Replica.mem_known_concat.mpr (.inl hentry), hblock, fun hlisted => ?_⟩
        rw [Replica.signerIndex, Replica.isPrimary, hconfig] at hcast
        obtain ⟨hsigned, hsent⟩ := hcast hlisted
        rw [Replica.signed_concat, Replica.sentIn_concat, hblock]
        refine ⟨List.mem_append_right _ (Option.mem_toList.mpr hsigned), fun hbackup => ?_⟩
        obtain ⟨vote, hvote, hlaw⟩ := hsent (beq_eq_false_iff_ne.mpr hbackup.symm)
        exact ⟨vote, List.mem_append_right _ hvote, hlaw⟩

end

/-! ## Networks -/

namespace Group

/-- All messages are delivered, and nobody has anything left to do. -/
structure Quiet (group : Group scheme) (network : Network Nat (Replica scheme) (ToReplica scheme)) :
    Prop where
  flight : network.flight = []
  idle : ∀ who < group.spec.numReplica, (network.states who).Idle

variable {group : Group scheme} {history : History scheme}
  {network : Network Nat (Replica scheme) (ToReplica scheme)} {who : Nat}

section

variable (hrun : group.NetworkRun history network)

include hrun

/-- A vote in a network without messages has been received by the leader. -/
theorem NetworkRun.delivered_vote (hflight : network.flight = [])
    {vote : Message.VoteGeneric scheme}
    (hvote : vote ∈ Replica.sentIn ToReplica.vote? (view who history)) :
    vote ∈ Replica.receivedIn ToReplica.vote? (view 0 history) := by
  obtain ⟨event, hevent, hmessage⟩ := List.mem_flatMap.mp hvote
  obtain ⟨action, haction, hpick⟩ := List.mem_filterMap.mp hmessage
  obtain ⟨message, hmessage, hvote⟩ := Option.bind_eq_some_iff.mp hpick
  obtain rfl : message = .voteGeneric vote := by
    cases message with
    | voteGeneric => rw [Option.some.inj hvote]
    | generic | publicCommitmentsSupply => cases hvote
  have hsent : (0, ToReplica.voteGeneric vote) ∈ group.protocol.sent history := by
    refine List.mem_flatMap.mpr ⟨(who, event), mem_view.mp hevent,
      List.mem_flatMap.mpr ⟨action, haction, ?_⟩⟩
    rcases NetworkRun.action_cases hrun (mem_view.mp hevent) haction with
      ⟨_, rfl, -⟩ | ⟨generic, block, rfl⟩ | ⟨commands, rfl⟩
    · obtain rfl := Option.some.inj hmessage
      exact List.mem_singleton_self _
    · cases Option.some.inj hmessage
    · cases hmessage
  have haccount := Protocol.NetworkRun.account hrun
  rw [hflight, List.nil_append] at haccount
  obtain ⟨⟨_, event⟩, hmem, hreceives⟩ := List.mem_filterMap.mp (haccount.mem_iff.mpr hsent)
  obtain ⟨message, hreceives, heq⟩ := Option.map_eq_some_iff.mp hreceives
  obtain ⟨rfl, rfl⟩ := Prod.mk.inj heq
  refine List.mem_filterMap.mpr ⟨event, mem_view.mpr hmem, ?_⟩
  rw [show event.receives = _ from hreceives]
  rfl

variable (hsound : AggregateSound scheme) (hquiet : group.Quiet network)
  (hkeys : ∀ who < group.spec.numReplica,
    scheme.sharedPublicKey (group.keyShare who) = scheme.sharedPublicKey (group.keyShare 0))

include hsound hquiet hkeys

/-- Everyone has stored all blocks. -/
theorem NetworkRun.length_of_quiet (hwho : who < group.spec.numReplica) :
    (network.states who).core.nodes.length = (Replica.generics (view 0 history)).length + 1 := by
  obtain ⟨hlined, hstores, hcaught⟩ := NetworkRun.lined hrun hsound (hkeys who hwho)
  by_cases hleader : who = 0
  · subst hleader
    exact ((NetworkRun.localRun hrun 0).proposes hsound rfl (NetworkRun.leader_received hrun)).length
  · obtain ⟨-, hgap⟩ := hcaught hleader (hquiet.idle who hwho)
    have hpos := hlined.line.stored.nodes_pos
    have hle := hstores.length hpos
    rw [List.length_map] at hle
    have haccount := NetworkRun.account_backup hrun hwho hleader
    rw [hquiet.flight, List.filterMap_nil, List.nil_append] at haccount
    -- the block after the last stored one would have been received
    by_contra hne
    have hlt : (network.states who).core.nodes.length - 1 <
        (Replica.generics (view 0 history)).length := by omega
    exact hgap _ (haccount.mem_iff.mpr (List.getElem_mem hlt)) (List.getElem?_eq_getElem hlt)

/-- Everyone stores the blocks where the leader has put them. -/
theorem NetworkRun.digest_of_quiet (hwho : who < group.spec.numReplica) {index : Nat}
    {entry : Message.Generic scheme × Message.Block scheme}
    (hentry : (Replica.generics (view 0 history))[index]? = some entry) :
    (network.states who).core.digestOf (index + 1) = entry.1.block := by
  have hlength := NetworkRun.length_of_quiet hrun hsound hquiet hkeys hwho
  have hlt := (List.getElem?_eq_some_iff.mp hentry).1
  obtain ⟨block, hblock, hrepresents⟩ :=
    (NetworkRun.lined hrun hsound (hkeys who hwho)).2.1 index (by omega)
  rw [List.getElem?_map, hentry] at hblock
  obtain rfl := Option.some.inj hblock
  rw [hrepresents.digest]
  exact ((NetworkRun.issues hrun).1.digest entry (List.mem_of_getElem? hentry)).symm

variable (hfresh : group.Fresh network.states) (hcooperates : group.Cooperates)

include hfresh hcooperates

/-- All votes on all blocks have been taken. -/
theorem NetworkRun.taken_of_quiet {entry : Message.Generic scheme × Message.Block scheme}
    (hentry : entry ∈ Replica.generics (view 0 history))
    (hlisted : who ∈ entry.1.signers.map Prod.fst) : Taken (view 0 history) entry.1.block who := by
  have hwho : who < group.spec.numReplica := by
    obtain ⟨signer, hsigner, rfl⟩ := List.mem_map.mp hlisted
    exact ((NetworkRun.listing hrun hentry).drawn signer hsigner).1
  have hlocal := NetworkRun.localRun hrun who
  obtain ⟨hlined, -⟩ := NetworkRun.lined hrun hsound (hkeys who hwho)
  have hlength := NetworkRun.length_of_quiet hrun hsound hquiet hkeys hwho
  obtain ⟨index, hindex⟩ := List.mem_iff_getElem?.mp hentry
  have hlt := (List.getElem?_eq_some_iff.mp hindex).1
  -- the replica is done voting for the block
  have hperformed : .vote (index + 1) ∈ Replica.performedIn (view who history) := by
    have hvotes := hlined.votes
    rw [(hquiet.idle who hwho).2, List.append_nil] at hvotes
    have hmem : index + 1 ∈ votes (Replica.performedIn (view who history)) := by
      rw [hvotes, List.mem_range'_1]
      omega
    obtain ⟨action, haction, hvote⟩ := List.mem_filterMap.mp hmem
    cases action with
    | vote key =>
        obtain rfl := Option.some.inj hvote
        exact haction
    | propose | finalize => cases hvote
  have hsign : ∀ entry ∈ Replica.known (view who history), ∀ digest draw,
      (who, (scheme.commit (group.keyShare who) draw).1) ∈ entry.1.signers →
      (scheme.signShare (group.keyShare who) (scheme.commit (group.keyShare who) draw).2 digest
        entry.1.signers).isSome :=
    fun entry hentry digest draw => hcooperates.sign entry.1.signers digest who draw
      (NetworkRun.listing hrun (NetworkRun.known_subset hrun who hentry))
  obtain ⟨entry', hentry', hblock, hvotes⟩ :=
    hlocal.votes (NetworkRun.drawn_nodup hrun hfresh who) hsign hperformed
  obtain rfl : entry' = entry := by
    apply NetworkRun.block_unique hrun (NetworkRun.known_subset hrun who hentry') hentry
    rw [hblock]
    exact NetworkRun.digest_of_quiet hrun hsound hquiet hkeys hwho hindex
  obtain ⟨hsigned, hsent⟩ := hvotes hlisted
  by_cases hleader : who = 0
  · subst hleader
    exact .inr ⟨rfl, hsigned⟩
  · obtain ⟨vote, hvote, hnode, hindex⟩ := hsent hleader
    exact .inl ⟨vote, NetworkRun.delivered_vote hrun hquiet.flight hvote, hnode, hindex⟩

/-- No scratch is left of a block that the leader has proposed. -/
theorem NetworkRun.collected_of_quiet (hfaulty : group.spec.numFaulty < group.spec.numReplica)
    {entry : Message.Generic scheme × Message.Block scheme}
    (hentry : entry ∈ Replica.generics (view 0 history)) :
    (network.states 0).quorumCertScratches.lookup entry.1.block = none := by
  cases NetworkRun.polled hrun hfresh hcooperates entry hentry with
  | complete hnone => exact hnone
  | @waiting shares hscratch hkeys' =>
      -- all votes have been taken, and with them the last one that completes the quorum
      exfalso
      have hlisting := NetworkRun.listing hrun hentry
      have hmin : scheme.minSigners (group.cryptoConfig 0).keyShare =
          group.spec.numReplica - group.spec.numFaulty := hcooperates.minSigners
      have hall : ∀ index ∈ entry.1.signers.map Prod.fst, (shares[index]?).isSome :=
        fun index hindex => (hkeys' index).mpr
          (NetworkRun.taken_of_quiet hrun hsound hquiet hkeys hfresh hcooperates hentry hindex)
      have hsize := length_le_size hlisting.nodup hall
      obtain ⟨_, heq, hshort⟩ := (NetworkRun.localRun hrun 0).short (by omega) _ _ hscratch
      obtain rfl := PartialSigs.givre.inj heq
      rw [List.length_map, hlisting.length] at hsize
      omega

/-- The leader's last block is certified. -/
theorem NetworkRun.high_of_quiet (hfaulty : group.spec.numFaulty < group.spec.numReplica) :
    (network.states 0).core.highNode = (network.states 0).core.blockLeaf := by
  by_contra hwait
  obtain ⟨-, hleads⟩ := NetworkRun.issues hrun
  have hlength := NetworkRun.length_of_quiet hrun hsound hquiet hkeys (Nat.zero_lt_of_lt hfaulty)
  have hhigh := hleads.core.high
  rw [hleads.core.leaf] at hwait
  have hlt : (network.states 0).core.nodes.length - 2 <
      (Replica.generics (view 0 history)).length := by omega
  have hlast : (network.states 0).core.nodes.length - 2 + 1 =
      (network.states 0).core.nodes.length - 1 := by omega
  obtain ⟨entry, hentry⟩ : ∃ entry, (Replica.generics (view 0 history))[
      (network.states 0).core.nodes.length - 2]? = some entry :=
    ⟨_, List.getElem?_eq_getElem hlt⟩
  have hdigest := NetworkRun.digest_of_quiet hrun hsound hquiet hkeys (Nat.zero_lt_of_lt hfaulty)
    hentry
  -- it would collect the votes on its last block
  obtain ⟨scratch, hscratch⟩ := Option.isSome_iff_exists.mp
    ((NetworkRun.localRun hrun 0).awaits rfl (NetworkRun.leader_received hrun)
      (hleads.core.leaf ▸ hwait))
  rw [← hlast, hdigest] at hscratch
  cases hscratch.symm.trans (NetworkRun.collected_of_quiet hrun hsound hquiet hkeys hfresh
    hcooperates hfaulty (List.mem_of_getElem? hentry))

/-- The leader has nothing left to propose, and everyone has finalized its whole log. -/
theorem NetworkRun.log_of_quiet (hfaulty : group.spec.numFaulty < group.spec.numReplica)
    (hwho : who < group.spec.numReplica) :
    (network.states 0).core.pool.pending = [] ∧
      (Replica.finalizedIn (view who history)).flatten = (network.states 0).core.log := by
  have hzero := Nat.zero_lt_of_lt hfaulty
  have hlength := NetworkRun.length_of_quiet hrun hsound hquiet hkeys hwho
  have hlength' := NetworkRun.length_of_quiet hrun hsound hquiet hkeys hzero
  obtain ⟨hlined, hstores, -⟩ := NetworkRun.lined hrun hsound (hkeys who hwho)
  obtain ⟨count, -, -, hfinalized, hcount⟩ :=
    (NetworkRun.localRun hrun who).finalizedIn_take hlined hstores
  obtain rfl := hcount (hquiet.idle who hwho).2
  obtain ⟨hissues, ⟨hleads, -, -⟩⟩ := NetworkRun.issues hrun
  have hstored := hleads.line.stored
  rw [(hquiet.idle 0 hzero).2] at hleads
  cases hleads.plans with
  | none hrest hcover =>
      obtain ⟨hpending, hextra⟩ := hrest
        (NetworkRun.high_of_quiet hrun hsound hquiet hkeys hfresh hcooperates hfaulty)
      refine ⟨hpending, ?_⟩
      rw [hextra] at hcover
      -- the last three blocks are empty
      have hempty : (((Replica.generics (view 0 history)).map Prod.snd).drop
          ((network.states who).core.nodes.length - 4)).flatMap Message.Block.commands = [] := by
        rw [List.flatMap_eq_nil_iff]
        intro block hblock
        obtain ⟨index, hindex⟩ := List.mem_iff_getElem?.mp hblock
        rw [List.getElem?_drop] at hindex
        by_contra hcommands
        have hlt := (List.getElem?_eq_some_iff.mp hindex).1
        rw [List.length_map] at hlt
        obtain ⟨block', hblock', hrepresents⟩ :=
          hissues.stores ((network.states who).core.nodes.length - 4 + index) (by omega)
        obtain rfl := Option.some.inj (hblock'.symm.trans hindex)
        have hbelow := hcover _ (by omega) (hrepresents.commands ▸ hcommands)
        omega
      rw [hissues.stores.log hstored (by rw [hlength', List.length_map]), hfinalized]
      conv_rhs => rw [← List.take_append_drop ((network.states who).core.nodes.length - 4)
        ((Replica.generics (view 0 history)).map Prod.snd)]
      rw [List.map_append, List.flatten_append, ← List.flatMap_def, ← List.flatMap_def, hempty,
        List.append_nil]

/-- A close-loop leader has got finalized what it has been asked for, and nothing else. -/
theorem NetworkRun.requests_of_quiet (hfaulty : group.spec.numFaulty < group.spec.numReplica)
    (hwho : who < group.spec.numReplica) (hvariant : group.openLoop 0 = false) :
    (∀ command ∈ Replica.requests (view 0 history),
      Covered (Replica.finalizedIn (view who history)).flatten command) ∧
    (Replica.finalizedIn (view who history)).flatten ⊆ Replica.requests (view 0 history) := by
  obtain ⟨hpending, hlog⟩ :=
    NetworkRun.log_of_quiet hrun hsound hquiet hkeys hfresh hcooperates hfaulty hwho
  obtain ⟨hproposed, haccounts⟩ := (NetworkRun.localRun hrun 0).accounts rfl hvariant
    (NetworkRun.leader_received hrun)
  obtain ⟨-, -, -, hcovered, -, hknown⟩ := haccounts
  rw [hpending, (hquiet.idle 0 (Nat.zero_lt_of_lt hfaulty)).2, List.append_nil, List.append_nil,
    ← hproposed, ← hlog] at hcovered hknown
  exact ⟨hcovered, hknown⟩

end

/-- Once nothing is in flight and nobody has anything left to do, all replicas have finalized
the same log: all that the leader has proposed. The leader waits for no vote, as its last
block is certified and no scratch is left of any of its blocks. It has nothing pending, and
what a close-loop leader has been asked for is covered by the log.

The run is one of replicas that follow the code, in any interleaving. The threshold keys
work: what the listed replicas sign aggregates, an aggregate verifies, and all replicas have
the same public key. No two draws of a replica give the same commitment. -/
theorem pipeline_quiescent (hrun : group.NetworkRun history network) (hsound : AggregateSound scheme)
    (hfresh : group.Fresh network.states) (hcooperates : group.Cooperates)
    (hkeys : ∀ who < group.spec.numReplica,
      scheme.sharedPublicKey (group.keyShare who) = scheme.sharedPublicKey (group.keyShare 0))
    (hfaulty : group.spec.numFaulty < group.spec.numReplica) (hquiet : group.Quiet network)
    (hwho : who < group.spec.numReplica) :
    (Replica.finalizedIn (view who history)).flatten =
        (Replica.generics (view 0 history)).flatMap (fun entry => entry.2.commands) ∧
      ((network.states 0).core.highNode = (network.states 0).core.blockLeaf ∧
        ∀ entry ∈ Replica.generics (view 0 history),
          (network.states 0).quorumCertScratches.lookup entry.1.block = none) ∧
      (network.states 0).core.pool.pending = [] ∧
      (group.openLoop 0 = false → ∀ command ∈ Replica.requests (view 0 history),
        Covered (Replica.finalizedIn (view who history)).flatten command) := by
  obtain ⟨hpending, hlog⟩ :=
    NetworkRun.log_of_quiet hrun hsound hquiet hkeys hfresh hcooperates hfaulty hwho
  obtain ⟨hissues, hleads⟩ := NetworkRun.issues hrun
  have hhigh := NetworkRun.high_of_quiet hrun hsound hquiet hkeys hfresh hcooperates hfaulty
  refine ⟨?_, ⟨hhigh, fun entry hentry => ?_⟩, hpending, fun hvariant command hcommand => ?_⟩
  · rw [hlog, hissues.stores.log hleads.core.line.stored (by rw [hissues.length, List.length_map]),
      List.map_map, ← List.flatMap_def]
    rfl
  · exact NetworkRun.collected_of_quiet hrun hsound hquiet hkeys hfresh hcooperates hfaulty hentry
  · exact (NetworkRun.requests_of_quiet hrun hsound hquiet hkeys hfresh hcooperates hfaulty hwho
      hvariant).1 command hcommand

/-- A client's command is finalized by the last of four replicas, with three empty blocks
after it. -/
theorem pipeline_quiescent_four :
    ∃ (history : History .transparent)
      (network : Network Nat (Replica .transparent) (ToReplica .transparent)),
      (four ∅).NetworkRun history network ∧
      (Replica.generics (view 0 history)).length = 4 ∧
      Replica.finalizedIn (view 3 history) = [[ping 0]] ∧
      ∀ command ∈ Replica.requests (view 0 history), Covered [ping 0] command := by
  have hreplay : ∃ run ∈ replayNetwork (four ∅) (fourQueue 20),
      run.2.flight.isEmpty ∧ (∀ who ∈ List.range 4, (run.2.states who).Idle) ∧
      (Replica.generics (view 0 run.1)).length = 4 ∧
      Replica.finalizedIn (view 3 run.1) = [[ping 0]] := by
    decide +kernel
  obtain ⟨⟨history, network⟩, hreplay, hflight, hidle, hlength, hfinalized⟩ := hreplay
  have hrun := replayNetwork_run hreplay
  have hquiet : (four ∅).Quiet network :=
    ⟨List.isEmpty_iff.mp hflight, fun who hwho => hidle who (List.mem_range.mpr hwho)⟩
  have hcovered := (pipeline_quiescent hrun transparent_aggregateSound (four_fresh network.states)
    four_cooperates (fun _ _ => rfl) (by decide) hquiet
    (by decide : 3 < (four ∅).spec.numReplica)).2.2.2 rfl
  rw [hfinalized] at hcovered
  exact ⟨history, network, hrun, hlength, hfinalized, hcovered⟩

end Group

end BftKit.Hotstuff
