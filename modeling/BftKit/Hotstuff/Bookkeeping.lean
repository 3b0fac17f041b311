import BftKit.Crypto.Collecting
import BftKit.Hotstuff.Freshness
import BftKit.Hotstuff.NetworkReplay

/-! # Bookkeeping of signatures

In a network of replicas that follow the code, the leader collects the votes on a block
from when it sends it until all of the listed signers have voted.
-/

namespace BftKit.Hotstuff

open Foundation Threshold

variable {scheme : ThresholdScheme}

namespace Group

/-- Signers for a block: a quorum, with a commitment of each of its members. -/
structure Listing (group : Group scheme) (signers : Signers scheme) : Prop where
  length : signers.length = group.spec.numReplica - group.spec.numFaulty
  nodup : (signers.map Prod.fst).Nodup
  drawn : ∀ signer ∈ signers, signer.1 < group.spec.numReplica ∧
    ∃ draw, (scheme.commit (group.keyShare signer.1) draw).1 = signer.2

/-- Signing and aggregation succeed on the inputs of honest signers that match. -/
structure Cooperates (group : Group scheme) : Prop where
  minSigners : scheme.minSigners (group.keyShare 0) =
    group.spec.numReplica - group.spec.numFaulty
  sign : ∀ signers digest who draw, group.Listing signers →
    (who, (scheme.commit (group.keyShare who) draw).1) ∈ signers →
    (scheme.signShare (group.keyShare who) (scheme.commit (group.keyShare who) draw).2 digest
      signers).isSome
  aggregate : ∀ (generic : Message.Generic scheme) taken, group.Listing generic.signers →
    taken.map (fun entry => (entry.1, entry.2.1)) = generic.signers →
    (∀ entry ∈ taken, SignedBy (group.keyShare entry.1) entry.1 generic entry.2.2) →
    (scheme.aggregate (group.keyShare 0) taken generic.block).isSome

/-- A block is one that a leader has sent, or is about to send. -/
inductive Planned (history : List (Replica.Event scheme)) (leader : Replica scheme)
    (block : Message.Block scheme) : Prop
  | sent {generic} (hsent : (generic, block) ∈ Replica.generics history)
  | next {data rest} (hqueue : leader.coreActions = .propose data :: rest)
      (hblock : leader.proposalBlock data = .ok block)

/-- The blocks of a leader collide neither with each other nor with genesis. -/
structure Distinguishes (history : List (Replica.Event scheme)) (leader : Replica scheme) :
    Prop where
  blocks : ∀ block block', Planned history leader block → Planned history leader block' →
    scheme.digest block = scheme.digest block' → block.SameHashed block'
  genesis : ∀ block, Planned history leader block → scheme.digest block ≠ .zero

variable {group : Group scheme} {history : History scheme}
  {network next : Network Nat (Replica scheme) (ToReplica scheme)} {who : Nat}
  {entry entry' : Message.Generic scheme × Message.Block scheme}

theorem NetworkRun.listing (hrun : group.NetworkRun history network)
    (hentry : entry ∈ Replica.generics (view 0 history)) : group.Listing entry.1.signers := by
  obtain ⟨hlength, hnodup⟩ := (NetworkRun.localRun hrun 0).listings entry hentry
  refine ⟨hlength, hnodup, ?_⟩
  rintro ⟨who, publicCommitments⟩ hsigner
  obtain ⟨hwho, hdrawn⟩ := NetworkRun.listed_drawn hrun
    (List.mem_flatMap.mpr ⟨entry, hentry, hsigner⟩)
  obtain ⟨draw, -, hcommit⟩ := Replica.mem_drawn.mp hdrawn
  exact ⟨hwho, draw, hcommit⟩

theorem NetworkRun.issues (hrun : group.NetworkRun history network) :
    Replica.Issues (Replica.generics (view 0 history)) (network.states 0).core ∧
      (network.states 0).Leads := by
  have hleader := NetworkRun.localRun hrun 0
  have hreceived := NetworkRun.leader_received hrun
  exact ⟨hleader.issues rfl hreceived, (hleader.leads rfl hreceived).1⟩

/-- The leader sends no two blocks under one digest. -/
theorem NetworkRun.blocks_nodup (hrun : group.NetworkRun history network) :
    ((Replica.generics (view 0 history)).map fun entry => entry.1.block).Nodup := by
  obtain ⟨hissues, hleads⟩ := NetworkRun.issues hrun
  have hrow := hissues.row hleads.core.line
  have hdigest : ∀ (index : Nat) (entry : Message.Generic scheme × Message.Block scheme),
      (Replica.generics (view 0 history))[index]? = some entry →
      entry.1.block = digestAt ((Replica.generics (view 0 history)).map Prod.snd) (index + 1) := by
    intro index entry hentry
    rw [hissues.digest entry (List.mem_iff_getElem?.mpr ⟨index, hentry⟩)]
    exact (digestAt_succ (by rw [List.getElem?_map, hentry]; rfl)).symm
  rw [List.Nodup, List.pairwise_map, List.pairwise_iff_getElem]
  intro index index' hindex hindex' hlt heq
  rw [hdigest index _ (List.getElem?_eq_getElem hindex),
    hdigest index' _ (List.getElem?_eq_getElem hindex')] at heq
  have hsame := hrow.distinct _ (by rw [List.length_map]; exact hindex) _
    (by rw [List.length_map]; exact hindex') heq
  omega

theorem NetworkRun.block_unique (hrun : group.NetworkRun history network)
    (hentry : entry ∈ Replica.generics (view 0 history))
    (hentry' : entry' ∈ Replica.generics (view 0 history))
    (hblock : entry.1.block = entry'.1.block) : entry = entry' :=
  List.inj_on_of_nodup_map (NetworkRun.blocks_nodup hrun) hentry hentry' hblock

/-- The votes of a replica among messages. -/
def voteOf (index : Nat) (message : ToReplica scheme) : Option (Message.VoteGeneric scheme) :=
  message.vote?.bind fun vote => if vote.signerIndex = index then some vote else none

theorem NetworkRun.ballots (hrun : group.NetworkRun history network)
    (hfresh : group.Fresh network.states) {vote : Message.VoteGeneric scheme}
    (hvote : vote ∈ Replica.sentIn ToReplica.vote? (view who history)) :
    ∃ entry ∈ Replica.generics (view 0 history), Ballot (group.keyShare who) who entry.1 vote := by
  obtain ⟨entry, hentry, hballot⟩ := (NetworkRun.localRun hrun who).ballots
    (NetworkRun.drawn_nodup hrun hfresh who) vote hvote
  exact ⟨entry, NetworkRun.known_subset hrun who hentry, hballot⟩

/-- Votes are sent to the leader, by backups that the voted block lists. -/
theorem NetworkRun.sent_vote (hrun : group.NetworkRun history network)
    (hfresh : group.Fresh network.states) {vote : Message.VoteGeneric scheme}
    (hsent : (who, ToReplica.voteGeneric vote) ∈ group.protocol.sent history) :
    who = 0 ∧ vote.signerIndex ≠ 0 ∧ ∃ entry ∈ Replica.generics (view 0 history),
      Ballot (group.keyShare vote.signerIndex) vote.signerIndex entry.1 vote := by
  obtain ⟨sender, event, hevent, action, haction, hdelivery⟩ := mem_sent hsent
  obtain ⟨rfl, hvote⟩ : who = 0 ∧ vote ∈ Replica.sentIn ToReplica.vote? (view sender history) := by
    rcases NetworkRun.action_cases hrun (mem_view.mp hevent) haction with
      ⟨message, rfl, -⟩ | ⟨generic, block, rfl⟩ | ⟨commands, rfl⟩
    · obtain ⟨rfl, rfl⟩ := Prod.mk.inj (List.mem_singleton.mp hdelivery)
      exact ⟨rfl, List.mem_flatMap.mpr ⟨event, hevent, List.mem_filterMap.mpr ⟨_, haction, rfl⟩⟩⟩
    · obtain ⟨id, -, heq⟩ := List.mem_map.mp hdelivery
      cases heq
    · cases hdelivery
  obtain ⟨entry, hentry, hballot⟩ := NetworkRun.ballots hrun hfresh hvote
  rw [hballot.signerIndex]
  refine ⟨rfl, ?_, entry, hentry, hballot⟩
  rintro rfl
  rw [(NetworkRun.localRun hrun 0).votes_leader rfl] at hvote
  cases hvote

/-- A vote has been taken by the leader. -/
def Taken (history : List (Replica.Event scheme)) (digest : Digest) (index : Nat) : Prop :=
  (∃ vote ∈ Replica.receivedIn ToReplica.vote? history,
    vote.node = digest ∧ vote.signerIndex = index) ∨ index = 0 ∧ digest ∈ Replica.signed history

theorem NetworkRun.received_vote (hrun : group.NetworkRun history network)
    (hfresh : group.Fresh network.states) {vote : Message.VoteGeneric scheme}
    (hreceived : vote ∈ Replica.receivedIn ToReplica.vote? (view 0 history)) :
    vote.signerIndex ≠ 0 ∧ ∃ entry ∈ Replica.generics (view 0 history),
      Ballot (group.keyShare vote.signerIndex) vote.signerIndex entry.1 vote := by
  obtain ⟨event, hevent, hpick⟩ := List.mem_filterMap.mp hreceived
  obtain ⟨message, hmessage, hvote⟩ := Option.bind_eq_some_iff.mp hpick
  have hfound : message = .voteGeneric vote := by
    cases message with
    | voteGeneric => rw [Option.some.inj hvote]
    | generic | publicCommitmentsSupply => cases hvote
  subst hfound
  have hmem : (0, ToReplica.voteGeneric vote) ∈ group.protocol.received history := by
    refine List.mem_filterMap.mpr ⟨(0, event), mem_view.mp hevent, ?_⟩
    exact congrArg (Option.map (Prod.mk 0)) hmessage
  exact (NetworkRun.sent_vote hrun hfresh
    ((Protocol.NetworkRun.account hrun).mem_iff.mp (List.mem_append_right _ hmem))).2

/-- The leader has taken votes of signers only. -/
theorem NetworkRun.taken_listed (hrun : group.NetworkRun history network)
    (hfresh : group.Fresh network.states) {digest : Digest} {index : Nat}
    (htaken : Taken (view 0 history) digest index) :
    ∃ entry ∈ Replica.generics (view 0 history),
      entry.1.block = digest ∧ index ∈ entry.1.signers.map Prod.fst := by
  rcases htaken with ⟨vote, hvote, rfl, rfl⟩ | ⟨rfl, hsigned⟩
  · obtain ⟨-, entry, hentry, hballot⟩ := NetworkRun.received_vote hrun hfresh hvote
    obtain ⟨share, -, publicCommitments, draw, hsigner, -⟩ := hballot.share
    exact ⟨entry, hentry, hballot.node.symm, List.mem_map.mpr ⟨_, hsigner, rfl⟩⟩
  · rw [Replica.signed_eq_spentIn] at hsigned
    obtain ⟨⟨publicCommitments, _⟩, hspent, rfl⟩ := List.mem_map.mp hsigned
    obtain ⟨entry, hentry, hblock, hsigner⟩ := NetworkRun.spent_source hrun hspent
    exact ⟨entry, hentry, hblock, List.mem_map.mpr ⟨_, hsigner, rfl⟩⟩

/-- A vote in flight has not been taken. -/
theorem NetworkRun.flying (hrun : group.NetworkRun history network)
    (hfresh : group.Fresh network.states) {vote : Message.VoteGeneric scheme}
    (hflight : (0, ToReplica.voteGeneric vote) ∈ network.flight) :
    ¬Taken (view 0 history) vote.node vote.signerIndex := by
  have hsent := (Protocol.NetworkRun.account hrun).mem_iff.mp (List.mem_append_left _ hflight)
  obtain ⟨-, hbackup, -⟩ := NetworkRun.sent_vote hrun hfresh hsent
  rintro (⟨vote', hvote', hnode, hindex⟩ | ⟨hzero, -⟩)
  · have hlocal := NetworkRun.localRun hrun vote.signerIndex
    have hothers : ∀ other, other ≠ vote.signerIndex →
        Replica.sentIn (voteOf vote.signerIndex) (view other history) = [] := by
      intro other hne
      refine (Replica.sentIn_bind _ _ _).trans (List.filterMap_eq_nil_iff.mpr ?_)
      intro vote' hvote'
      obtain ⟨entry, -, hballot⟩ := NetworkRun.ballots hrun hfresh hvote'
      rw [if_neg]
      rwa [hballot.signerIndex]
    have haccount := @NetworkRun.account_leader _ group history network vote.signerIndex _ hrun
      (voteOf vote.signerIndex) (fun _ _ => rfl) hothers
    have hnodup : ((Replica.sentIn (voteOf vote.signerIndex)
        (view vote.signerIndex history)).map Message.VoteGeneric.node).Nodup := by
      have hfilter : Replica.sentIn (voteOf vote.signerIndex) (view vote.signerIndex history) =
          (Replica.sentIn ToReplica.vote? (view vote.signerIndex history)).filter
            fun other => other.signerIndex = vote.signerIndex := by
        rw [← List.filterMap_eq_filter]
        refine (Replica.sentIn_bind _ _ _).trans (List.filterMap_congr fun other _ => ?_)
        simp [Option.guard]
      refine (hlocal.signed_nodup.sublist hlocal.votes_sublist).sublist (List.Sublist.map _ ?_)
      rw [hfilter]
      exact List.filter_sublist
    have hboth := (haccount.map Message.VoteGeneric.node).nodup_iff.mpr hnodup
    rw [List.map_append] at hboth
    refine (List.nodup_append.mp hboth).2.2 vote.node ?_ vote'.node ?_ hnode.symm
    · refine List.mem_map.mpr ⟨vote, List.mem_filterMap.mpr ⟨_, hflight, ?_⟩, rfl⟩
      rw [toLeader, if_pos rfl]
      exact if_pos rfl
    · refine List.mem_map.mpr ⟨vote', ?_, rfl⟩
      rw [show Replica.receivedIn (voteOf vote.signerIndex) (view 0 history) = _ from
        Replica.receivedIn_bind _ _ _]
      exact List.mem_filterMap.mpr ⟨vote', hvote', if_pos hindex⟩
  · exact hbackup hzero

/-- The leader waits for votes on a block, or has got all of them. -/
inductive Polled (group : Group scheme) (taken : Digest → Nat → Prop)
    (scratches : Map Digest (QuorumCertScratch scheme)) (generic : Message.Generic scheme) : Prop
  | waiting {shares}
      (hscratch : scratches.lookup generic.block =
        some { partialSigs := .givre shares, signers := generic.signers })
      (hkeys : ∀ index, (shares[index]?).isSome ↔ taken generic.block index)
      (hshares : ∀ index share, shares[index]? = some share →
        SignedBy (group.keyShare index) index generic share)
  | complete (hscratch : scratches.lookup generic.block = none)
      (hall : ∀ signer ∈ generic.signers, taken generic.block signer.1)

/-- What a vote that is waited for adds to the collected ones. -/
structure Adds (group : Group scheme) (taken : Digest → Nat → Prop) (leader : Replica scheme)
    (generic : Message.Generic scheme) (vote : Message.VoteGeneric scheme)
    (shares : Std.ExtTreeMap Nat scheme.GivreSigShare) (share : scheme.GivreSigShare)
    (partialSigs : PartialSigs scheme) (result : Option (Sig scheme)) : Prop where
  scratch : leader.quorumCertScratches.lookup vote.node =
    some { partialSigs := .givre shares, signers := generic.signers }
  keys : ∀ index, (shares[index]?).isSome ↔ taken generic.block index
  signed : ∀ index share', (shares.insert vote.signerIndex share)[index]? = some share' →
    SignedBy (group.keyShare index) index generic share'
  add : (PartialSigs.givre shares).addPartial vote.signerIndex vote.partialSig
    (.givre { keyShare := leader.cryptoConfig.keyShare, signers := generic.signers
              digest := vote.node }) = (partialSigs, .ok result)
  kept : result = none → partialSigs = .givre (shares.insert vote.signerIndex share)
  completed : result.isSome ↔
    ∀ signer ∈ generic.signers, ((shares.insert vote.signerIndex share)[signer.1]?).isSome

section

variable {taken : Digest → Nat → Prop} {leader : Replica scheme}
  {generic : Message.Generic scheme} {vote : Message.VoteGeneric scheme}

theorem getElem?_insert_share (shares : Std.ExtTreeMap Nat scheme.GivreSigShare)
    (index other : Nat) (share : scheme.GivreSigShare) :
    (shares.insert index share)[other]? = if other = index then some share else shares[other]? := by
  rw [Std.ExtTreeMap.getElem?_insert]
  by_cases heq : other = index
  · rw [if_pos heq, if_pos (compare_eq_iff_eq.mpr heq.symm)]
  · rw [if_neg heq, if_neg fun hcompare => heq (compare_eq_iff_eq.mp hcompare).symm]

/-- A vote of a signer that has not voted is waited for, and fails to aggregate in no case. -/
theorem Polled.adds (h : Polled group taken leader.quorumCertScratches generic)
    (hcooperates : group.Cooperates) (hlisting : group.Listing generic.signers)
    (hkeyShare : leader.cryptoConfig.keyShare = group.keyShare 0)
    (hlisted : ∀ index, taken generic.block index → index ∈ generic.signers.map Prod.fst)
    (hballot : Ballot (group.keyShare vote.signerIndex) vote.signerIndex generic vote)
    (hfree : ¬taken generic.block vote.signerIndex) :
    ∃ shares share partialSigs result,
      Adds group taken leader generic vote shares share partialSigs result := by
  obtain ⟨share, hvoted, hsigned⟩ := hballot.share
  obtain ⟨publicCommitments, draw, hsigner, hcommit, hsign⟩ := hsigned
  have hindex : vote.signerIndex ∈ generic.signers.map Prod.fst := List.mem_map.mpr ⟨_, hsigner, rfl⟩
  cases h with
  | complete _ hall => exact absurd (hall _ hsigner) hfree
  | @waiting shares hscratch hkeys hshares =>
      have hsigned' : ∀ index share', (shares.insert vote.signerIndex share)[index]? = some share' →
          SignedBy (group.keyShare index) index generic share' := by
        intro index share' hlookup
        rw [getElem?_insert_share] at hlookup
        split at hlookup
        next heq =>
          obtain rfl := Option.some.inj hlookup
          rw [heq]
          exact ⟨publicCommitments, draw, hsigner, hcommit, hsign⟩
        next => exact hshares index share' hlookup
      obtain ⟨partialSigs, result, hadd, hkept, hcompleted⟩ := @addPartial_listed _
        leader.cryptoConfig.keyShare vote.node generic.signers shares vote.signerIndex share
        hlisting.nodup (by rw [hkeyShare, hcooperates.minSigners, hlisting.length])
        (fun index hsome => hlisted index ((hkeys index).mp hsome)) hindex (by
          intro aggregated hsigners hfound
          rw [hkeyShare, hballot.node]
          exact hcooperates.aggregate generic aggregated hlisting hsigners
            fun entry hentry => hsigned' _ _ (hfound entry hentry))
      refine ⟨shares, share, partialSigs, result, ?_, hkeys, hsigned', ?_, hkept, hcompleted⟩
      · rw [hballot.node, hscratch]
      · rw [hvoted]
        exact hadd

/-- A counted vote is taken. -/
theorem Adds.polled {shares : Std.ExtTreeMap Nat scheme.GivreSigShare}
    {share : scheme.GivreSigShare} {partialSigs : PartialSigs scheme} {result : Option (Sig scheme)}
    (h : Adds group taken leader generic vote shares share partialSigs result)
    (hnode : vote.node = generic.block) {scratches : Map Digest (QuorumCertScratch scheme)}
    (hcounted : Replica.Counted leader vote scratches) {taken' : Digest → Nat → Prop}
    (htaken : ∀ digest index, taken' digest index ↔
      taken digest index ∨ digest = vote.node ∧ index = vote.signerIndex) :
    Polled group taken' scratches generic := by
  have hkeys : ∀ index, ((shares.insert vote.signerIndex share)[index]?).isSome ↔
      taken' generic.block index := by
    intro index
    rw [getElem?_insert_share, htaken, ← h.keys, hnode]
    by_cases heq : index = vote.signerIndex <;> simp [heq]
  have hscratch : ∀ {scratch}, leader.quorumCertScratches.lookup vote.node = some scratch →
      scratch = { partialSigs := .givre shares, signers := generic.signers } :=
    fun hlookup => Option.some.inj (hlookup.symm.trans h.scratch)
  cases hcounted with
  | @share scratch partialSigs' hlookup hadd =>
      obtain rfl := hscratch hlookup
      obtain ⟨rfl, hresult⟩ := Prod.mk.inj (h.add.symm.trans hadd)
      obtain rfl := h.kept (Except.ok.inj hresult)
      refine .waiting ?_ hkeys h.signed
      rw [hnode, Map.lookup_insert, if_pos rfl]
  | @quorum scratch partialSigs' sig hlookup hadd =>
      obtain rfl := hscratch hlookup
      obtain ⟨-, hresult⟩ := Prod.mk.inj (h.add.symm.trans hadd)
      obtain rfl := Except.ok.inj hresult
      refine .complete ?_ ?_
      · rw [hnode, Map.lookup_erase, if_pos rfl]
      · intro signer hsigner
        rw [← hkeys]
        exact h.completed.mp rfl signer hsigner

/-- The votes on other blocks stay as they are. -/
theorem Polled.other (h : Polled group taken leader.quorumCertScratches generic)
    (hne : generic.block ≠ vote.node) {scratches : Map Digest (QuorumCertScratch scheme)}
    (hcounted : Replica.Counted leader vote scratches) {taken' : Digest → Nat → Prop}
    (htaken : ∀ digest index, taken' digest index ↔
      taken digest index ∨ digest = vote.node ∧ index = vote.signerIndex) :
    Polled group taken' scratches generic := by
  have hscratches : scratches.lookup generic.block =
      leader.quorumCertScratches.lookup generic.block := by
    cases hcounted with
    | share => rw [Map.lookup_insert, if_neg hne]
    | quorum => rw [Map.lookup_erase, if_neg hne]
  have htaken' : ∀ index, taken' generic.block index ↔ taken generic.block index := by
    intro index
    rw [htaken]
    exact or_iff_left fun heq => hne heq.1
  cases h with
  | waiting hscratch hkeys hshares =>
      refine .waiting (hscratches.trans hscratch) (fun index => ?_) hshares
      rw [htaken', hkeys]
  | complete hscratch hall =>
      refine .complete (hscratches.trans hscratch) fun signer hsigner => ?_
      rw [htaken']
      exact hall signer hsigner

end

theorem taken_concat {history : List (Replica.Event scheme)} {event : Replica.Event scheme}
    {digest : Digest} {index : Nat} :
    Taken (history ++ [event]) digest index ↔ Taken history digest index ∨
      (∃ vote, event.receives.bind ToReplica.vote? = some vote ∧
        vote.node = digest ∧ vote.signerIndex = index) ∨
      index = 0 ∧ event.signed? = some digest := by
  unfold Taken
  rw [Replica.receivedIn_concat, Replica.signed_concat]
  simp only [List.mem_append, Option.mem_toList]
  constructor
  · rintro (⟨vote, hold | hnew, hvote⟩ | ⟨hzero, hold | hnew⟩)
    · exact .inl (.inl ⟨vote, hold, hvote⟩)
    · exact .inr (.inl ⟨vote, hnew, hvote⟩)
    · exact .inl (.inr ⟨hzero, hold⟩)
    · exact .inr (.inr ⟨hzero, hnew⟩)
  · rintro ((⟨vote, hold, hvote⟩ | ⟨hzero, hold⟩) | ⟨vote, hnew, hvote⟩ | ⟨hzero, hnew⟩)
    · exact .inl ⟨vote, .inl hold, hvote⟩
    · exact .inr ⟨hzero, .inl hold⟩
    · exact .inl ⟨vote, .inr hnew, hvote⟩
    · exact .inr ⟨hzero, .inr hnew⟩

/-- A vote adds to the collected ones when its signer has not voted. -/
theorem NetworkRun.adds (hrun : group.NetworkRun history network)
    (hfresh : group.Fresh network.states) (hcooperates : group.Cooperates)
    (hentry : entry ∈ Replica.generics (view 0 history))
    (hpolled : Polled group (Taken (view 0 history)) (network.states 0).quorumCertScratches entry.1)
    {vote : Message.VoteGeneric scheme}
    (hballot : Ballot (group.keyShare vote.signerIndex) vote.signerIndex entry.1 vote)
    (hfree : ¬Taken (view 0 history) vote.node vote.signerIndex) :
    ∃ shares share partialSigs result,
      Adds group (Taken (view 0 history)) (network.states 0) entry.1 vote shares share partialSigs
        result := by
  refine hpolled.adds hcooperates (NetworkRun.listing hrun hentry) ?_ ?_ hballot ?_
  · exact congrArg CryptoConfig.keyShare (NetworkRun.localRun hrun 0).cryptoConfig_eq
  · intro index htaken
    obtain ⟨entry', hentry', hblock, hlisted⟩ := NetworkRun.taken_listed hrun hfresh htaken
    rwa [NetworkRun.block_unique hrun hentry hentry' hblock.symm]
  · rwa [← hballot.node]

theorem NetworkRun.counted (hrun : group.NetworkRun history network)
    (hfresh : group.Fresh network.states) (hcooperates : group.Cooperates)
    (hpolled : ∀ entry ∈ Replica.generics (view 0 history),
      Polled group (Taken (view 0 history)) (network.states 0).quorumCertScratches entry.1)
    {vote : Message.VoteGeneric scheme}
    (hentry : entry ∈ Replica.generics (view 0 history))
    (hballot : Ballot (group.keyShare vote.signerIndex) vote.signerIndex entry.1 vote)
    (hfree : ¬Taken (view 0 history) vote.node vote.signerIndex)
    {scratches : Map Digest (QuorumCertScratch scheme)}
    (hcounted : Replica.Counted (network.states 0) vote scratches) {taken : Digest → Nat → Prop}
    (htaken : ∀ digest index, taken digest index ↔
      Taken (view 0 history) digest index ∨ digest = vote.node ∧ index = vote.signerIndex) :
    ∀ entry ∈ Replica.generics (view 0 history), Polled group taken scratches entry.1 := by
  intro entry' hentry'
  by_cases hblock : entry'.1.block = vote.node
  · obtain rfl := NetworkRun.block_unique hrun hentry' hentry (hblock.trans hballot.node)
    obtain ⟨shares, share, partialSigs, result, hadds⟩ :=
      NetworkRun.adds hrun hfresh hcooperates hentry' (hpolled _ hentry') hballot hfree
    exact hadds.polled hballot.node hcounted htaken
  · exact (hpolled _ hentry').other hblock hcounted htaken

/-- The leader's own vote, when it is about to be cast. -/
theorem NetworkRun.own_ballot (hrun : group.NetworkRun history network)
    (hfresh : group.Fresh network.states) {event : Replica.Event scheme} {key : Nat}
    {signers : Signers scheme} {publicCommitments : scheme.GivrePublicCommitments}
    {nonce : scheme.GivreSecretNonces}
    (hspending : Replica.Spending (network.states 0) event key signers publicCommitments nonce)
    {share : scheme.GivreSigShare}
    (hsign : scheme.signShare (network.states 0).cryptoConfig.keyShare nonce
      ((network.states 0).core.digestOf key) signers = some share) :
    (∃ entry ∈ Replica.generics (view 0 history), Ballot (group.keyShare 0) 0 entry.1
        { node := (network.states 0).core.digestOf key, partialSig := .givre share
          signerIndex := (network.states 0).signerIndex }) ∧
      (network.states 0).signerIndex = 0 ∧
      ¬Taken (view 0 history) ((network.states 0).core.digestOf key) 0 := by
  have hleader := NetworkRun.localRun hrun 0
  obtain ⟨entry, hentry, -, -, hballot⟩ :=
    hleader.ballot (NetworkRun.drawn_nodup hrun hfresh 0) hspending hsign
  refine ⟨⟨entry, NetworkRun.known_subset hrun 0 hentry, hballot⟩, hballot.signerIndex, ?_⟩
  rintro (⟨vote, hvote, -, hindex⟩ | ⟨-, hsigned⟩)
  · exact (NetworkRun.received_vote hrun hfresh hvote).1 hindex
  · exact hleader.unsigned (List.mem_filterMap.mpr ⟨_, hspending.queued, rfl⟩) hsigned

/-- The leader can sign what it is to vote for. -/
theorem NetworkRun.signable (hrun : group.NetworkRun history network)
    (hfresh : group.Fresh network.states) (hcooperates : group.Cooperates)
    {event : Replica.Event scheme} {key : Nat} {signers : Signers scheme}
    {publicCommitments : scheme.GivrePublicCommitments} {nonce : scheme.GivreSecretNonces}
    (hspending : Replica.Spending (network.states who) event key signers publicCommitments nonce) :
    (scheme.signShare (network.states who).cryptoConfig.keyShare nonce
      ((network.states who).core.digestOf key) signers).isSome := by
  have hlocal := NetworkRun.localRun hrun who
  obtain ⟨entry, hentry, -, rfl⟩ := hlocal.signers_source hspending.signers
  have hlisted := Replica.mem_of_listed hspending.listed
  rw [show (network.states who).signerIndex = who from
    congrArg ReplicaCoreConfig.id hlocal.config] at hlisted
  obtain ⟨draw, -, hcommit⟩ :=
    (hlocal.spends (NetworkRun.drawn_nodup hrun hfresh who)).nonce _ _ hspending.nonce
  rw [hlocal.cryptoConfig_eq] at hcommit ⊢
  have hlisting := NetworkRun.listing hrun (NetworkRun.known_subset hrun who hentry)
  have hsign := hcooperates.sign entry.1.signers ((network.states who).core.digestOf key) who draw
    hlisting
  change scheme.commit (group.keyShare who) draw = _ at hcommit
  rw [hcommit] at hsign
  exact hsign hlisted

/-- A new block has no votes yet. -/
theorem NetworkRun.polled_propose (hrun : group.NetworkRun history network)
    (hfresh : group.Fresh network.states)
    (hpolled : ∀ entry ∈ Replica.generics (view 0 history),
      Polled group (Taken (view 0 history)) (network.states 0).quorumCertScratches entry.1)
    {generic : Message.Generic scheme}
    (hnew : ∀ entry ∈ Replica.generics (view 0 history), entry.1.block ≠ generic.block)
    {scratches : Map Digest (QuorumCertScratch scheme)}
    (hscratches : scratches = (network.states 0).quorumCertScratches.insert generic.block
      { partialSigs := .givre ∅, signers := generic.signers }) :
    (∀ entry ∈ Replica.generics (view 0 history),
        Polled group (Taken (view 0 history)) scratches entry.1) ∧
      Polled group (Taken (view 0 history)) scratches generic := by
  subst hscratches
  constructor
  · intro entry hentry
    have hlookup : ∀ scratch,
        ((network.states 0).quorumCertScratches.insert generic.block scratch).lookup
          entry.1.block = (network.states 0).quorumCertScratches.lookup entry.1.block := by
      intro scratch
      rw [Map.lookup_insert, if_neg (hnew entry hentry)]
    cases hpolled entry hentry with
    | waiting hscratch hkeys hshares => exact .waiting ((hlookup _).trans hscratch) hkeys hshares
    | complete hscratch hall => exact .complete ((hlookup _).trans hscratch) hall
  · refine .waiting (by rw [Map.lookup_insert, if_pos rfl]) ?_ ?_
    · intro index
      refine iff_of_false (by simp) fun htaken => ?_
      obtain ⟨entry, hentry, hblock, -⟩ := NetworkRun.taken_listed hrun hfresh htaken
      exact hnew entry hentry hblock
    · intro index share hshare
      simp at hshare

/-- The leader collects the votes on all of its blocks. -/
theorem NetworkRun.polled (hrun : group.NetworkRun history network)
    (hfresh : group.Fresh network.states) (hcooperates : group.Cooperates) :
    ∀ entry ∈ Replica.generics (view 0 history),
      Polled group (Taken (view 0 history)) (network.states 0).quorumCertScratches entry.1 := by
  induction hrun with
  | start =>
      intro entry hentry
      cases hentry
  | @step history network label next hprev hstep ih =>
      have hfresh' := hfresh.prev hprev hstep
      have hpolled := ih hfresh'
      obtain ⟨who, event⟩ := label
      obtain ⟨hlocal, hothers⟩ := hstep.localStep
      by_cases hwho : who = 0
      · subst hwho
        have hblocks := NetworkRun.blocks_nodup (.step hprev hstep)
        rw [view_append, view_singleton_self] at hblocks ⊢
        have hleader := NetworkRun.localRun hprev 0
        have heffect : Replica.Effect (network.states 0) event (next.states 0) := hlocal.2.effect
        have hsigned : event.signed? = event.spent?.map Prod.snd := by cases event <;> rfl
        -- what is taken does not change when no vote comes in and none is cast
        have hkeep : event.receives.bind ToReplica.vote? = none → event.spent? = none →
            Taken (view 0 history ++ [event]) = Taken (view 0 history) := by
          intro hreceives hspent
          funext digest index
          rw [taken_concat, hreceives, hsigned, hspent]
          simp
        rw [Replica.generics_concat] at hblocks ⊢
        cases heffect.polls hleader.stored with
        | keep hspent hgenerics hreceives _ hscratches =>
            rw [hgenerics, List.append_nil, hkeep hreceives hspent, hscratches]
            exact hpolled
        | propose hevent _ hscratches =>
            subst hevent
            rw [hkeep rfl rfl]
            rw [List.map_append] at hblocks
            have hdisjoint := (List.nodup_append.mp hblocks).2.2
            obtain ⟨hold, hnew⟩ := NetworkRun.polled_propose hprev hfresh' hpolled
              (fun entry hentry heq => hdisjoint _ (List.mem_map_of_mem hentry) _
                (List.mem_singleton_self _) heq) hscratches
            intro entry hentry
            rcases List.mem_append.mp hentry with hentry | hentry
            · exact hold entry hentry
            · obtain rfl := List.mem_singleton.mp hentry
              exact hnew
        | @take vote hevent hcounted =>
            subst hevent
            have hflight := hstep.mem_flight rfl
            have hsent := (Protocol.NetworkRun.account hprev).mem_iff.mp
              (List.mem_append_left _ hflight)
            obtain ⟨-, -, entry, hentry, hballot⟩ := NetworkRun.sent_vote hprev hfresh' hsent
            have hgenerics : (Replica.Event.call (.receive (.voteGeneric vote)) [] :
              Replica.Event scheme).generics = [] := rfl
            rw [hgenerics, List.append_nil]
            refine NetworkRun.counted hprev hfresh' hcooperates hpolled hentry hballot
              (NetworkRun.flying hprev hfresh' hflight) hcounted fun digest index => ?_
            rw [taken_concat]
            simp [Replica.Event.receives, ToReplica.vote?, Replica.Event.signed?, eq_comm]
        | @cast key signers publicCommitments nonce hspending hgenerics hreceives hcast =>
            rw [hgenerics, List.append_nil]
            cases hcast with
            | unsigned hsign =>
                have hsome := NetworkRun.signable hprev hfresh' hcooperates hspending
                rw [hsign] at hsome
                cases hsome
            | send _ hprimary =>
                rw [Replica.isPrimary, hleader.config] at hprimary
                cases hprimary
            | own hsign _ _ hcounted =>
                obtain ⟨⟨entry, hentry, hballot⟩, hindex, hfree⟩ :=
                  NetworkRun.own_ballot hprev hfresh' hspending hsign
                rw [hindex] at hballot hcounted
                refine NetworkRun.counted hprev hfresh' hcooperates hpolled hentry hballot
                  hfree hcounted fun digest index => ?_
                rw [taken_concat, hreceives, hsigned, hspending.spent]
                simp [eq_comm, and_comm]
      · rw [view_append, view_singleton_of_ne hwho, List.append_nil, hothers 0 (Ne.symm hwho)]
        exact hpolled

section

variable {coreConfig : ReplicaCoreConfig} {cryptoConfig : CryptoConfig scheme}
  {history : List (Replica.Event scheme)} {leader : Replica scheme}

/-- The next proposal of a leader differs from all that it has sent. -/
theorem Distinguishes.proposal_new (hdistinguishes : Distinguishes history leader)
    (hissues : Replica.Issues (Replica.generics history) leader.core) (hleads : leader.Leads)
    {data : NodeData} {rest : ReplicaCoreActions} (hqueue : leader.coreActions = .propose data :: rest)
    {block : Message.Block scheme} (hblock : leader.proposalBlock data = .ok block) :
    ∀ entry ∈ Replica.generics history, scheme.digest entry.2 ≠ scheme.digest block := by
  obtain ⟨hplanned, -⟩ := hleads.planned hqueue
  obtain ⟨hnext, -⟩ := Replica.Leads.next_of_proposalBlock hplanned hblock
  rintro ⟨generic, block'⟩ hentry hdigest
  obtain ⟨-, -, -, hheight⟩ :=
    hdistinguishes.blocks block' block (.sent hentry) (.next hqueue hblock) hdigest
  obtain ⟨index, hindex⟩ := List.mem_iff_getElem?.mp hentry
  have hrow := hissues.row hleads.core.line
  have hheight' := hrow.height index block' (by rw [List.getElem?_map, hindex]; rfl)
  have hlt := (List.getElem?_eq_some_iff.mp hindex).1
  have hlength := hissues.length
  rw [hnext.height] at hheight
  omega

/-- A leader that has received no blocks can store and vote for its next proposal. -/
theorem Distinguishes.proposable (hdistinguishes : Distinguishes history leader)
    (hleader : LocalRun coreConfig cryptoConfig history leader) (hid : coreConfig.id = 0)
    (hreceived : Replica.received history = []) {data : NodeData} {rest : ReplicaCoreActions}
    (hqueue : leader.coreActions = .propose data :: rest) {block : Message.Block scheme}
    (hblock : leader.proposalBlock data = .ok block) : leader.Proposable data block := by
  have hissues := hleader.issues hid hreceived
  have hleads := (hleader.leads hid hreceived).1
  have hnew := hdistinguishes.proposal_new hissues hleads hqueue hblock
  obtain ⟨hplanned, -⟩ := hleads.planned hqueue
  have hline := hplanned.line
  have hstored := hline.stored
  have hpos := hstored.nodes_pos
  have hlast : leader.core.nodes.length - 1 < leader.core.nodes.length := by omega
  have hlock : leader.core.blockLock < leader.core.nodes.length := hstored.lock
  -- what is planned goes on top of the last node
  obtain ⟨hparent, hheight⟩ : data.parent = leader.core.nodes.length - 1 ∧
      data.height = leader.core.nodes.length := by
    have hleaf := hplanned.leaf
    cases hplanned.plans with
    | one =>
        refine ⟨hleaf, ?_⟩
        change leader.core.heightOf leader.core.blockLeaf + 1 = _
        rw [hleaf, hline.linked.height _ hlast]
        omega
  constructor
  · rw [Option.eq_none_iff_forall_ne_some]
    intro signers hsigners
    obtain ⟨entry, hentry, hdigest, -⟩ := hleader.signers_source hsigners
    rw [Replica.known, hreceived, List.nil_append] at hentry
    exact hnew entry hentry ((hissues.digest entry hentry).symm.trans hdigest)
  · rw [Option.eq_none_iff_forall_ne_some]
    intro key hkey
    obtain ⟨hlt, hdigest⟩ := (hstored.index _ _).mp hkey
    cases key with
    | zero =>
        rw [hstored.digestOf_zero] at hdigest
        exact hdistinguishes.genesis block (.next hqueue hblock) hdigest.symm
    | succ index =>
        obtain ⟨block', hblock', hrepresents⟩ := hissues.stores index hlt
        obtain ⟨entry, hentry, rfl⟩ := List.mem_map.mp (List.mem_of_getElem? hblock')
        exact hnew entry hentry (hrepresents.digest.symm.trans hdigest)
  · rw [hheight, hline.vote]
    exact hlast
  · refine .inl ⟨?_, ?_⟩
    · rw [hheight, hline.linked.height _ hlock]
      exact hlock
    · rw [hparent]
      obtain ⟨verdict, hverdict, hextends⟩ := hstored.extendsNode_ok hlast hlock
      rw [hverdict, hextends.mpr (hline.linked.reaches hlast (by omega))]

end

/-- A vote is about to be counted: it can be delivered to the leader, or is its own. -/
inductive Arrives (network : Network Nat (Replica scheme) (ToReplica scheme))
    (vote : Message.VoteGeneric scheme) : Prop
  | message (hflight : (0, ToReplica.voteGeneric vote) ∈ network.flight)
  | own {key rest signers publicCommitments nonce share}
      (hqueue : (network.states 0).coreActions = .vote key :: rest)
      (hsigners : (network.states 0).blockSigners.lookup ((network.states 0).core.digestOf key) =
        some signers)
      (hlisted : (network.states 0).listed signers = some publicCommitments)
      (hnonce : (network.states 0).nonces.lookup publicCommitments = some nonce)
      (hsign : scheme.signShare (network.states 0).cryptoConfig.keyShare nonce
        ((network.states 0).core.digestOf key) signers = some share)
      (hvote : vote = { node := (network.states 0).core.digestOf key, partialSig := .givre share
                        signerIndex := (network.states 0).signerIndex })

/-- The leader waits for a vote, whose share is aggregated exactly if it is the last one
of those that are listed. -/
def Collects (leader : Replica scheme) (vote : Message.VoteGeneric scheme) : Prop :=
  ∃ scratch shares partialSigs result,
    leader.quorumCertScratches.lookup vote.node = some scratch ∧
    scratch.partialSigs = .givre shares ∧
    vote.signerIndex ∈ scratch.signers.map Prod.fst ∧ shares[vote.signerIndex]? = none ∧
    scratch.partialSigs.addPartial vote.signerIndex vote.partialSig
      (leader.aggregateContext scratch vote.node) = (partialSigs, .ok result) ∧
    (result.isSome ↔ ∀ signer ∈ scratch.signers,
      signer.1 = vote.signerIndex ∨ (shares[signer.1]?).isSome)

/-- The bookkeeping of signatures is in order. -/
structure Bookkeeping (history : History scheme)
    (network : Network Nat (Replica scheme) (ToReplica scheme)) : Prop where
  listed : ((Replica.listedIn (view 0 history)).map Prod.snd).Nodup
  spent : (history.filterMap fun entry => entry.2.spent?.map Prod.fst).Nodup
  signable : ∀ who, ∀ key ∈ votes (network.states who).coreActions,
    key < (network.states who).core.nodes.length ∧
      ∃ signers, (network.states who).blockSigners.lookup
          ((network.states who).core.digestOf key) = some signers ∧
        ∀ publicCommitments, (network.states who).listed signers = some publicCommitments →
          ((network.states who).nonces.lookup publicCommitments).isSome
  collects : ∀ vote, Arrives network vote → Collects (network.states 0) vote
  /-- Neither the next iteration of a replica crashes nor a call that does not make up
  a message. -/
  sound : ∀ who call?, (∀ message, call? = some (.receive message) →
    (who, message) ∈ network.flight) → ¬(network.states who).Crashes call?

theorem NetworkRun.stocked (hrun : group.NetworkRun history network)
    (hfresh : group.Fresh network.states) {key : Nat}
    (hkey : key ∈ votes (network.states who).coreActions) {signers : Signers scheme}
    (hsigners : (network.states who).blockSigners.lookup ((network.states who).core.digestOf key) =
      some signers) {publicCommitments : scheme.GivrePublicCommitments}
    (hlisted : (network.states who).listed signers = some publicCommitments) :
    ((network.states who).nonces.lookup publicCommitments).isSome := by
  have hlocal := NetworkRun.localRun hrun who
  obtain ⟨entry, hentry, hblock, rfl⟩ := hlocal.signers_source hsigners
  have hsent := NetworkRun.known_subset hrun who hentry
  have hsigner := Replica.mem_of_listed hlisted
  rw [show (network.states who).signerIndex = who from
    congrArg ReplicaCoreConfig.id hlocal.config] at hsigner
  have hspends := hlocal.spends (NetworkRun.drawn_nodup hrun hfresh who)
  obtain ⟨-, hdrawn⟩ :=
    NetworkRun.listed_drawn hrun (List.mem_flatMap.mpr ⟨entry, hsent, hsigner⟩)
  rw [← show (network.states who).cryptoConfig.keyShare = group.keyShare who from
    congrArg CryptoConfig.keyShare hlocal.cryptoConfig_eq] at hdrawn
  refine (hspends.kept _ hdrawn).resolve_right fun hspent => ?_
  -- it would have been spent on the same block
  obtain ⟨⟨_, digest⟩, hmem, rfl⟩ := List.mem_map.mp hspent
  obtain ⟨entry', hentry', hblock', hsigner'⟩ := NetworkRun.spent_source hrun hmem
  obtain rfl := NetworkRun.listed_unique hrun hfresh hsent hentry' hsigner hsigner'
  refine hlocal.unsigned hkey ?_
  rw [Replica.signed_eq_spentIn, ← hblock, hblock']
  exact List.mem_map_of_mem hmem

theorem NetworkRun.collects (hrun : group.NetworkRun history network)
    (hfresh : group.Fresh network.states) (hcooperates : group.Cooperates)
    {vote : Message.VoteGeneric scheme} (harrives : Arrives network vote) :
    Collects (network.states 0) vote := by
  have hballot : (∃ entry ∈ Replica.generics (view 0 history),
      Ballot (group.keyShare vote.signerIndex) vote.signerIndex entry.1 vote) ∧
      ¬Taken (view 0 history) vote.node vote.signerIndex := by
    cases harrives with
    | message hflight =>
        have hsent := (Protocol.NetworkRun.account hrun).mem_iff.mp (List.mem_append_left _ hflight)
        exact ⟨(NetworkRun.sent_vote hrun hfresh hsent).2.2, NetworkRun.flying hrun hfresh hflight⟩
    | @own key rest signers publicCommitments nonce share hqueue hsigners hlisted hnonce hsign hvote =>
        have hqueued : .vote key ∈ (network.states 0).coreActions := hqueue ▸ List.mem_cons_self
        have hlt := ((NetworkRun.localRun hrun 0).signable key
          (List.mem_filterMap.mpr ⟨_, hqueued, rfl⟩)).1
        have hspending : Replica.Spending (network.states 0) (.perform (.vote key)
            (some (publicCommitments, (network.states 0).core.digestOf key)) []) key signers
            publicCommitments nonce :=
          ⟨hqueued, hlt, hlisted, rfl, hsigners, hnonce⟩
        obtain ⟨hballot, hindex, hfree⟩ := NetworkRun.own_ballot hrun hfresh hspending hsign
        subst hvote
        dsimp only
        rw [hindex] at hballot ⊢
        exact ⟨hballot, hfree⟩
  obtain ⟨⟨entry, hentry, hballot⟩, hfree⟩ := hballot
  obtain ⟨shares, share, partialSigs, result, hadds⟩ := NetworkRun.adds hrun hfresh hcooperates
    hentry (NetworkRun.polled hrun hfresh hcooperates entry hentry) hballot hfree
  obtain ⟨_, -, publicCommitments, draw, hsigner, -⟩ := hballot.share
  refine ⟨_, shares, partialSigs, result, hadds.scratch, rfl,
    List.mem_map.mpr ⟨_, hsigner, rfl⟩, ?_, hadds.add, ?_⟩
  · rw [Option.eq_none_iff_forall_ne_some]
    intro share' hshare'
    rw [hballot.node] at hfree
    exact hfree ((hadds.keys _).mp (by rw [hshare']; rfl))
  · rw [hadds.completed]
    refine forall₂_congr fun signer _ => ?_
    rw [getElem?_insert_share]
    by_cases heq : signer.1 = vote.signerIndex <;> simp [heq]

/-- Signing bookkeeping is in order in every reachable state of a network of replicas
that follow the code. Messages may be lost and reordered. No two draws give one commitment,
signing and aggregation succeed on inputs that match, and the leader's blocks have different
digests. -/
theorem bookkeeping (hrun : group.NetworkRun history network)
    (hfresh : group.Fresh network.states) (hcooperates : group.Cooperates)
    (hdistinguishes : Distinguishes (view 0 history) (network.states 0)) :
    Bookkeeping history network := by
  have hcollects : ∀ vote, Arrives network vote →
      (network.states 0).quorumCertScratches.lookup vote.node ≠ none := by
    intro vote harrives hnone
    obtain ⟨scratch, _, _, _, hscratch, -⟩ := NetworkRun.collects hrun hfresh hcooperates harrives
    cases hnone.symm.trans hscratch
  constructor
  · exact NetworkRun.listed_nodup hrun hfresh
  · exact NetworkRun.spent_nodup hrun hfresh
  · intro who key hkey
    obtain ⟨hlt, hsome⟩ := (NetworkRun.localRun hrun who).signable key hkey
    obtain ⟨signers, hsigners⟩ := Option.isSome_iff_exists.mp hsome
    exact ⟨hlt, signers, hsigners, fun _ => NetworkRun.stocked hrun hfresh hkey hsigners⟩
  · intro vote
    exact NetworkRun.collects hrun hfresh hcooperates
  · intro who call? hdelivered hcrashes
    have hlocal := NetworkRun.localRun hrun who
    have hsent : ∀ message, (who, message) ∈ network.flight →
        (who, message) ∈ group.protocol.sent history :=
      fun message hflight => (Protocol.NetworkRun.account hrun).mem_iff.mp
        (List.mem_append_left _ hflight)
    have hvote : ∀ {key rest}, (network.states who).coreActions = .vote key :: rest →
        key ∈ votes (network.states who).coreActions :=
      fun hqueue => List.mem_filterMap.mpr ⟨_, hqueue ▸ List.mem_cons_self, rfl⟩
    cases hlocal.unforeseen hcrashes with
    | @block generic block hidle hadmits hsigners =>
        have hflight := hdelivered _ rfl
        obtain ⟨⟨hwho, hbackup⟩, -⟩ := NetworkRun.sent_generic hrun (hsent _ hflight)
        obtain ⟨signers, hlookup⟩ := Option.isSome_iff_exists.mp hsigners
        obtain ⟨entry, hentry, hblock, -⟩ := hlocal.signers_source hlookup
        rw [Replica.known, hlocal.generics_nil hbackup, List.append_nil] at hentry
        -- the block would have been sent twice
        have hnodup := ((NetworkRun.account_backup hrun hwho hbackup).map
          fun entry => entry.1.block).nodup_iff.mpr (NetworkRun.blocks_nodup hrun)
        rw [List.map_append] at hnodup
        refine (List.nodup_append.mp hnodup).2.2 generic.block ?_ entry.1.block ?_ hblock.symm
        · refine List.mem_map.mpr ⟨(generic, block), List.mem_filterMap.mpr ⟨_, hflight, ?_⟩, rfl⟩
          exact if_pos rfl
        · exact List.mem_map_of_mem hentry
    | @vote vote hidle hscratch =>
        have hflight := hdelivered _ rfl
        obtain ⟨rfl, -⟩ := NetworkRun.sent_vote hrun hfresh (hsent _ hflight)
        exact hcollects vote (.message hflight) hscratch
    | proposal hpending hqueue hblock hfaulty hlength hnot =>
        have hleader : who = 0 := by
          by_contra hbackup
          have hnone := hlocal.no_proposals hbackup
          rw [hqueue, proposals_append, List.append_eq_nil_iff] at hnone
          cases hnone.2
        subst hleader
        exact hnot (hdistinguishes.proposable hlocal rfl (NetworkRun.leader_received hrun) hqueue
          hblock)
    | nonce hpending hqueue hsigners hlisted hnonce =>
        have hsome := NetworkRun.stocked hrun hfresh (hvote hqueue) hsigners hlisted
        rw [hnonce] at hsome
        cases hsome
    | ownVote hpending hqueue hsigners hlisted hnonce hsign hprimary hscratch =>
        have hleader : who = 0 := by
          rw [Replica.isPrimary, hlocal.config] at hprimary
          exact (beq_iff_eq.mp hprimary).symm
        subst hleader
        exact hcollects _ (.own hqueue hsigners hlisted hnonce hsign rfl) hscratch

/-! ## A run of four replicas -/

theorem four_fresh (states : Nat → Replica .transparent) : (four ∅).Fresh states := by
  intro who _ who' _ draw _ draw' _ heq
  exact Prod.mk.inj heq

theorem four_cooperates : (four ∅).Cooperates where
  minSigners := rfl
  sign := by
    intro signers digest who draw _ hsigner
    exact congrArg Option.isSome (if_pos hsigner)
  aggregate := by
    intro generic taken hlisting htaken hsigned
    have hlength : 3 ≤ taken.length := by
      rw [← List.length_map, htaken, hlisting.length]
      rfl
    have hnodup : (taken.map Prod.fst).Nodup := by
      have hfirst : taken.map Prod.fst = generic.signers.map Prod.fst := by
        rw [← htaken, List.map_map]
        rfl
      rw [hfirst]
      exact hlisting.nodup
    refine congrArg Option.isSome (if_pos ⟨⟨hlength, hnodup⟩, ?_⟩)
    intro entry hentry
    obtain ⟨_, draw, hsigner, rfl, hshare⟩ := hsigned entry hentry
    have hfound : some (entry.1, generic.block) = some entry.2.2 := (if_pos hsigner).symm.trans hshare
    exact (Option.some.inj hfound).symm

/-- None of the blocks that the leader of the four has sent collide. -/
def SentDistinct (history : List (Replica.Event .transparent)) : Prop :=
  ∀ block ∈ (Replica.generics history).map Prod.snd, fourDigest block ≠ .zero ∧
    ∀ block' ∈ (Replica.generics history).map Prod.snd,
      fourDigest block = fourDigest block' → block.SameHashed block'

instance (history : List (Replica.Event .transparent)) : Decidable (SentDistinct history) := by
  unfold SentDistinct
  infer_instance

theorem SentDistinct.distinguishes {history : List (Replica.Event .transparent)}
    {leader : Replica .transparent} (h : SentDistinct history) (hqueue : leader.coreActions = []) :
    Distinguishes history leader := by
  have hsent : ∀ {block}, Planned history leader block →
      block ∈ (Replica.generics history).map Prod.snd := by
    intro block hplanned
    cases hplanned with
    | sent hsent => exact List.mem_map_of_mem hsent
    | next hnext => cases hqueue.symm.trans hnext
  constructor
  · intro block block' hplanned hplanned' heq
    exact (h block (hsent hplanned)).2 block' (hsent hplanned') heq
  · intro block hplanned
    exact (h block (hsent hplanned)).1

/-- Four replicas, with two votes on the last of four blocks on their way. -/
theorem bookkeeping_four :
    ∃ (history : History .transparent)
      (network : Network Nat (Replica .transparent) (ToReplica .transparent)),
      (Replica.listedIn (view 0 history)).length = 12 ∧
      (network.flight.filterMap (toLeader ToReplica.vote?)).length = 2 ∧
      Bookkeeping history network := by
  have hreplay : ∃ run ∈ replayNetwork (four ∅) (fourQueue 17),
      ((Replica.listedIn (view 0 run.1)).length = 12 ∧
        (run.2.flight.filterMap (toLeader ToReplica.vote?)).length = 2) ∧
      SentDistinct (view 0 run.1) ∧ (run.2.states 0).Idle := by
    decide +kernel
  obtain ⟨⟨history, network⟩, hrun, ⟨hlisted, hvotes⟩, hdistinct, hidle⟩ := hreplay
  have hbookkeeping := bookkeeping (replayNetwork_run hrun) (four_fresh network.states)
    four_cooperates (hdistinct.distinguishes hidle.2)
  exact ⟨history, network, hlisted, hvotes, hbookkeeping⟩

end Group

end BftKit.Hotstuff
