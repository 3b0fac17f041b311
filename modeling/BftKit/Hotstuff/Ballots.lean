import BftKit.Hotstuff.Crashes
import BftKit.Hotstuff.Nonces

/-! # Ballots

A replica votes once for each block that lists it, with a share that it signs for the
listed commitment. The leader collects the shares of the signers of a block until it
has all of them.
-/

namespace BftKit.Hotstuff

open Foundation Threshold

variable {scheme : ThresholdScheme}

/-- A share that a signer of a block has signed, for the commitment that is listed. -/
def SignedBy (keyShare : scheme.GivreKeyShare) (index : Nat) (generic : Message.Generic scheme)
    (share : scheme.GivreSigShare) : Prop :=
  ∃ publicCommitments draw, (index, publicCommitments) ∈ generic.signers ∧
    (scheme.commit keyShare draw).1 = publicCommitments ∧
    scheme.signShare keyShare (scheme.commit keyShare draw).2 generic.block generic.signers =
      some share

/-- A vote for a block with a share that one of its signers has signed. -/
structure Ballot (keyShare : scheme.GivreKeyShare) (index : Nat) (generic : Message.Generic scheme)
    (vote : Message.VoteGeneric scheme) : Prop where
  node : vote.node = generic.block
  signerIndex : vote.signerIndex = index
  share : ∃ share, vote.partialSig = .givre share ∧ SignedBy keyShare index generic share

namespace Replica

variable {replica next : Replica scheme} {event : Event scheme} {digest : Digest}
  {signers : Signers scheme} {vote : Message.VoteGeneric scheme}

theorem mem_of_listed {publicCommitments : scheme.GivrePublicCommitments}
    (h : replica.listed signers = some publicCommitments) :
    (replica.signerIndex, publicCommitments) ∈ signers := by
  obtain ⟨⟨index, taken⟩, hfind, rfl⟩ := Option.map_eq_some_iff.mp h
  have hindex := List.find?_some hfind
  obtain rfl : index = replica.signerIndex := by simpa using hindex
  exact List.mem_of_find?_eq_some hfind

/-- The signers of a block come with it. -/
theorem Effect.signers_source (h : Effect replica event next)
    (hlookup : next.blockSigners.lookup digest = some signers) :
    replica.blockSigners.lookup digest = some signers ∨
      ∃ entry ∈ event.received?.toList ++ event.generics,
        entry.1.block = digest ∧ entry.1.signers = signers := by
  have hinsert : ∀ {generic : Message.Generic scheme} {block : Message.Block scheme},
      (replica.blockSigners.insert generic.block generic.signers).lookup digest = some signers →
      (generic, block) ∈ event.received?.toList ++ event.generics →
      replica.blockSigners.lookup digest = some signers ∨
        ∃ entry ∈ event.received?.toList ++ event.generics,
          entry.1.block = digest ∧ entry.1.signers = signers := by
    intro generic block hlookup hmem
    rw [Map.lookup_insert] at hlookup
    split at hlookup
    next heq => exact .inr ⟨_, hmem, heq.symm, Option.some.inj hlookup⟩
    next => exact .inl hlookup
  cases h with
  | init =>
      refine .inl ?_
      rw [← hlookup]
      unfold refillNonces
      split <;> rfl
  | tick | ignore | supply | defer | finalize => exact .inl hlookup
  | request _ hhandle | release _ _ hhandle =>
      obtain ⟨core, pushed, -, rfl⟩ := handle_eq_ok.mp hhandle
      exact .inl hlookup
  | accept | park => exact hinsert hlookup (List.mem_append_left _ (List.mem_singleton_self _))
  | vote _ htaken => exact .inl (by rwa [← htaken.blockSigners])
  | @propose data rest block next _ _ _ _ _ _ hhandle =>
      obtain ⟨core, pushed, -, rfl⟩ := handle_eq_ok.mp hhandle
      exact @hinsert { block := scheme.digest block, signers := _ } block hlookup
        (List.mem_append_right _ (List.mem_singleton_self _))
  | perform _ _ _ _ hvote =>
      rw [hvote.blockSigners, Map.lookup_erase] at hlookup
      split at hlookup
      next => cases hlookup
      next => exact .inl hlookup

/-- The blocks that a replica has received or sent. -/
def known (history : List (Event scheme)) : List (Message.Generic scheme × Message.Block scheme) :=
  received history ++ generics history

theorem mem_known_concat {history : List (Event scheme)} {event : Event scheme}
    {entry : Message.Generic scheme × Message.Block scheme} :
    entry ∈ known (history ++ [event]) ↔
      entry ∈ known history ∨ entry ∈ event.received?.toList ++ event.generics := by
  unfold known
  rw [received_concat, generics_concat]
  simp only [List.mem_append]
  tauto

end Replica

section

variable {coreConfig : ReplicaCoreConfig} {cryptoConfig : CryptoConfig scheme}
  {history : List (Replica.Event scheme)} {replica : Replica scheme}

theorem LocalRun.signers_source (hrun : LocalRun coreConfig cryptoConfig history replica)
    {digest : Digest} {signers : Signers scheme}
    (hlookup : replica.blockSigners.lookup digest = some signers) :
    ∃ entry ∈ Replica.known history, entry.1.block = digest ∧ entry.1.signers = signers := by
  induction hrun with
  | start hinit =>
      subst hinit
      cases hlookup
  | @step history replica event next hprev hstep ih =>
      rcases hstep.effect.signers_source hlookup with hold | ⟨entry, hentry, hsource⟩
      · obtain ⟨entry, hentry, hsource⟩ := ih hold
        exact ⟨entry, Replica.mem_known_concat.mpr (.inl hentry), hsource⟩
      · exact ⟨entry, Replica.mem_known_concat.mpr (.inr hentry), hsource⟩

/-- A spent nonce goes with a commitment that the signed block lists. -/
theorem LocalRun.spent_source (hrun : LocalRun coreConfig cryptoConfig history replica)
    {publicCommitments : scheme.GivrePublicCommitments} {digest : Digest}
    (hspent : (publicCommitments, digest) ∈ Replica.spentIn history) :
    ∃ entry ∈ Replica.known history,
      entry.1.block = digest ∧ (coreConfig.id, publicCommitments) ∈ entry.1.signers := by
  induction hrun with
  | start => cases hspent
  | @step history replica event next hprev hstep ih =>
      rw [Replica.spentIn_concat] at hspent
      rcases List.mem_append.mp hspent with hold | hnew
      · obtain ⟨entry, hentry, hsource⟩ := ih hold
        exact ⟨entry, Replica.mem_known_concat.mpr (.inl hentry), hsource⟩
      · rcases hstep.effect.spending with hnone | ⟨key, signers, publicCommitments', nonce, hspending⟩
        · rw [hnone] at hnew
          cases hnew
        · rw [hspending.spent] at hnew
          obtain ⟨rfl, rfl⟩ := Prod.mk.inj (List.mem_singleton.mp hnew)
          obtain ⟨entry, hentry, hblock, hsigners⟩ := LocalRun.signers_source hprev hspending.signers
          refine ⟨entry, Replica.mem_known_concat.mpr (.inl hentry), hblock, ?_⟩
          have hlisted := Replica.mem_of_listed hspending.listed
          rw [Replica.signerIndex, LocalRun.config hprev] at hlisted
          rwa [hsigners]

/-- What is still to be voted for has not been signed. -/
theorem LocalRun.unsigned (hrun : LocalRun coreConfig cryptoConfig history replica) {key : Nat}
    (hkey : key ∈ votes replica.coreActions) :
    replica.core.digestOf key ∉ Replica.signed history := by
  intro hsigned
  have hlt : ∀ key ∈ votes (Replica.performedIn history ++ replica.coreActions),
      key < replica.core.nodes.length := fun key hkey => (hrun.disciplined.voted key hkey).lt
  have hvotes := hrun.votes_nodup
  rw [votes_append] at hvotes hlt
  obtain ⟨key', hkey', hdigest⟩ := List.mem_map.mp (hrun.signed_sublist.subset hsigned)
  obtain rfl := hrun.stored.key_unique (hlt key' (List.mem_append_left _ hkey'))
    (hlt key (List.mem_append_right _ hkey)) hdigest
  exact (List.nodup_append.mp hvotes).2.2 _ hkey' _ hkey rfl

/-- A replica signs no digest twice. -/
theorem LocalRun.signed_nodup (hrun : LocalRun coreConfig cryptoConfig history replica) :
    (Replica.signed history).Nodup := by
  have hvotes := hrun.votes_nodup
  rw [votes_append] at hvotes
  refine List.Nodup.sublist hrun.signed_sublist ?_
  refine (List.nodup_append.mp hvotes).1.map_on ?_
  intro key hkey key' hkey' heq
  have hlt : ∀ key ∈ votes (Replica.performedIn history), key < replica.core.nodes.length := by
    intro key hkey
    exact (hrun.disciplined.voted key (by rw [votes_append]; exact List.mem_append_left _ hkey)).lt
  exact hrun.stored.key_unique (hlt key hkey) (hlt key' hkey') heq

end

namespace Replica

variable {replica next : Replica scheme} {event : Event scheme}

/-- How a vote changes the collected ones. -/
inductive Counted (replica : Replica scheme) (vote : Message.VoteGeneric scheme) :
    Map Digest (QuorumCertScratch scheme) → Prop
  | share {scratch partialSigs}
      (hscratch : replica.quorumCertScratches.lookup vote.node = some scratch)
      (hadd : scratch.partialSigs.addPartial vote.signerIndex vote.partialSig
        (replica.aggregateContext scratch vote.node) = (partialSigs, .ok none)) :
      Counted replica vote
        (replica.quorumCertScratches.insert vote.node { scratch with partialSigs })
  | quorum {scratch partialSigs sig}
      (hscratch : replica.quorumCertScratches.lookup vote.node = some scratch)
      (hadd : scratch.partialSigs.addPartial vote.signerIndex vote.partialSig
        (replica.aggregateContext scratch vote.node) = (partialSigs, .ok (some sig))) :
      Counted replica vote (replica.quorumCertScratches.erase vote.node)

theorem VoteTaken.counted {vote : Message.VoteGeneric scheme} (h : VoteTaken replica vote next) :
    Counted replica vote next.quorumCertScratches := by
  cases h with
  | share hscratch hadd => exact .share hscratch hadd
  | quorum hscratch hadd hhandle =>
      obtain ⟨core, pushed, -, rfl⟩ := handle_eq_ok.mp hhandle
      exact .quorum hscratch hadd

/-- What a replica does with its own vote. -/
inductive Casts (replica : Replica scheme) (digest : Digest) (signers : Signers scheme)
    (nonce : scheme.GivreSecretNonces) (sent : List (Message.VoteGeneric scheme))
    (scratches : Map Digest (QuorumCertScratch scheme)) : Prop
  | unsigned
      (hsign : scheme.signShare replica.cryptoConfig.keyShare nonce digest signers = none)
      (hsent : sent = []) (hscratches : scratches = replica.quorumCertScratches)
  | send {share}
      (hsign : scheme.signShare replica.cryptoConfig.keyShare nonce digest signers = some share)
      (hprimary : replica.isPrimary = false)
      (hsent : sent =
        [{ node := digest, partialSig := .givre share, signerIndex := replica.signerIndex }])
      (hscratches : scratches = replica.quorumCertScratches)
  | own {share}
      (hsign : scheme.signShare replica.cryptoConfig.keyShare nonce digest signers = some share)
      (hprimary : replica.isPrimary = true) (hsent : sent = [])
      (hcounted : Counted replica
        { node := digest, partialSig := .givre share, signerIndex := replica.signerIndex } scratches)

/-- What a step does to the votes. -/
inductive Polls (replica : Replica scheme) (event : Event scheme) (next : Replica scheme) : Prop
  | keep (hspent : event.spent? = none) (hgenerics : event.generics = [])
      (hreceives : event.receives.bind ToReplica.vote? = none)
      (hsent : event.messages ToReplica.vote? = [])
      (hscratches : next.quorumCertScratches = replica.quorumCertScratches)
  | propose {data block}
      (hevent : event = .perform (.propose data) none [.sendToAllReplicas (.generic
        { block := scheme.digest block
          signers := (replica.takeSigners replica.numSigner).2 } block)])
      (hfresh : replica.core.nodeIndex.lookup (scheme.digest block) = none)
      (hscratches : next.quorumCertScratches =
        replica.quorumCertScratches.insert (scheme.digest block)
          { partialSigs := .givre ∅, signers := (replica.takeSigners replica.numSigner).2 })
  | take {vote} (hevent : event = .call (.receive (.voteGeneric vote)) [])
      (hcounted : Counted replica vote next.quorumCertScratches)
  | cast {key signers publicCommitments nonce}
      (hspending : Spending replica event key signers publicCommitments nonce)
      (hgenerics : event.generics = []) (hreceives : event.receives.bind ToReplica.vote? = none)
      (hcast : Casts replica (replica.core.digestOf key) signers nonce
        (event.messages ToReplica.vote?) next.quorumCertScratches)

theorem Refilled.votes {actions : List (Action scheme)} (h : Refilled replica next actions) :
    actions.filterMap (fun action => action.message?.bind ToReplica.vote?) = [] ∧
      next.quorumCertScratches = replica.quorumCertScratches := by
  cases h with
  | enough => exact ⟨rfl, rfl⟩
  | refill =>
      unfold refillNonces
      split <;> exact ⟨rfl, rfl⟩

theorem VoteCast.casts {rest : ReplicaCoreActions} {digest : Digest} {signers : Signers scheme}
    {publicCommitments : scheme.GivrePublicCommitments} {nonce : scheme.GivreSecretNonces}
    {share : scheme.GivreSigShare} {actions : List (Action scheme)}
    (hsign : scheme.signShare replica.cryptoConfig.keyShare nonce digest signers = some share)
    (h : VoteCast
      { replica with
        coreActions := rest
        blockSigners := replica.blockSigners.erase digest
        nonces := replica.nonces.erase publicCommitments }
      { node := digest, partialSig := .givre share, signerIndex := replica.signerIndex }
      next actions) :
    Casts replica digest signers nonce
      (actions.filterMap fun action => action.message?.bind ToReplica.vote?)
      next.quorumCertScratches := by
  cases h with
  | @leader taken _ _ hprimary htaken hrefilled =>
      obtain ⟨hsent, hscratches⟩ := hrefilled.votes
      rw [hsent, hscratches]
      refine .own hsign hprimary rfl ?_
      -- neither the queue nor the nonces matter to the count
      have hcounted := htaken.counted
      generalize taken.quorumCertScratches = scratches at hcounted ⊢
      cases hcounted with
      | share hscratch hadd => exact .share hscratch hadd
      | quorum hscratch hadd => exact .quorum hscratch hadd
  | backup hprimary hrefilled =>
      obtain ⟨hsent, hscratches⟩ := hrefilled.votes
      refine .send hsign hprimary ?_ hscratches
      exact congrArg (_ :: ·) hsent

theorem Effect.polls (h : Effect replica event next) (hstored : replica.core.Stored) :
    Polls replica event next := by
  have hspending := h.spending
  cases h with
  | init =>
      have hrefilled : (replica.refillNonces.2.filterMap
          fun action => action.message?.bind ToReplica.vote?) = [] ∧
          (replica.refillNonces.2.filterMap
            fun action => action.message?.bind ToReplica.generic?) = [] ∧
          replica.refillNonces.1.quorumCertScratches = replica.quorumCertScratches := by
        unfold refillNonces
        split <;> exact ⟨rfl, rfl, rfl⟩
      exact .keep rfl hrefilled.2.1 rfl hrefilled.1 hrefilled.2.2
  | tick | ignore | accept | park | supply | defer | finalize => exact .keep rfl rfl rfl rfl rfl
  | request _ hhandle | release _ _ hhandle =>
      obtain ⟨core, pushed, -, rfl⟩ := handle_eq_ok.mp hhandle
      exact .keep rfl rfl rfl rfl rfl
  | vote _ htaken => exact .take rfl htaken.counted
  | propose _ _ _ _ _ _ hhandle =>
      obtain ⟨core, pushed, hcore, rfl⟩ := handle_eq_ok.mp hhandle
      obtain ⟨middle, reactions, beats, hreacted, -, -⟩ := hstored.handle_ok hcore
      cases hreacted with
      | proposed hingested => exact .propose rfl hingested.fresh rfl
  | @perform key rest node signers next actions _ hqueue hnode hsigners hvote =>
      -- the nonce that is spent is the one that signs
      have hcast : ∀ {publicCommitments nonce}, replica.listed signers = some publicCommitments →
          replica.nonces.lookup publicCommitments = some nonce →
          ∃ key', Spending replica (.perform (.vote key)
            ((replica.listed signers).map fun publicCommitments => (publicCommitments, node.digest))
            actions) key' signers publicCommitments nonce ∧
            replica.core.digestOf key' = node.digest := by
        intro publicCommitments nonce hlisted hnonce
        rcases hspending with hnone | ⟨key', signers', publicCommitments', nonce', hspending⟩
        · rw [hlisted] at hnone
          cases hnone
        · have hspent := hspending.spent
          rw [hlisted] at hspent
          obtain ⟨rfl, hdigest⟩ := Prod.mk.inj (Option.some.inj hspent)
          obtain rfl := Option.some.inj
            ((hsigners.symm.trans (by rw [hdigest])).trans hspending.signers)
          obtain rfl := Option.some.inj (hnonce.symm.trans hspending.nonce)
          exact ⟨key', hspending, hdigest.symm⟩
      have hgenerics := hvote.generics
      cases hvote with
      | unlisted hlisted =>
          have hlisted' : replica.listed signers = none := hlisted
          rw [hlisted']
          exact .keep rfl rfl rfl rfl rfl
      | unsigned hlisted hnonce hsign =>
          obtain ⟨key', hspending, hdigest⟩ := hcast hlisted hnonce
          rw [← hdigest] at hsign
          exact .cast hspending rfl rfl (.unsigned hsign rfl rfl)
      | @signed publicCommitments nonce share _ _ hlisted hnonce hsign hvote =>
          obtain ⟨key', hspending, hdigest⟩ := hcast hlisted hnonce
          have hcasts : Casts replica node.digest signers nonce _ next.quorumCertScratches :=
            VoteCast.casts hsign hvote
          rw [← hdigest] at hcasts
          exact .cast hspending hgenerics rfl hcasts

end Replica

section

variable {coreConfig : ReplicaCoreConfig} {cryptoConfig : CryptoConfig scheme}
  {history : List (Replica.Event scheme)} {replica : Replica scheme}

/-- Votes are sent for what has been signed. -/
theorem LocalRun.votes_sublist (hrun : LocalRun coreConfig cryptoConfig history replica) :
    ((Replica.sentIn ToReplica.vote? history).map Message.VoteGeneric.node).Sublist
      (Replica.signed history) := by
  induction hrun with
  | start => exact List.nil_sublist _
  | @step history replica event next hprev hstep ih =>
      rw [Replica.sentIn_concat, List.map_append, Replica.signed_concat]
      refine ih.append ?_
      cases hstep.effect.polls (LocalRun.stored hprev) with
      | keep _ _ _ hsent =>
          rw [hsent]
          exact List.nil_sublist _
      | propose hevent | take hevent =>
          subst hevent
          exact List.nil_sublist _
      | cast hspending _ _ hcast =>
          cases hcast with
          | unsigned _ hsent | own _ _ hsent =>
              rw [hsent]
              exact List.nil_sublist _
          | send _ _ hsent =>
              have hsigned : event.signed? = event.spent?.map Prod.snd := by
                cases event <;> rfl
              rw [hsent, hsigned, hspending.spent]
              exact List.Sublist.refl _

/-- A leader sends no votes. -/
theorem LocalRun.votes_leader (hrun : LocalRun coreConfig cryptoConfig history replica)
    (hleader : coreConfig.id = 0) : Replica.sentIn ToReplica.vote? history = [] := by
  induction hrun with
  | start => rfl
  | @step history replica event next hprev hstep ih =>
      rw [Replica.sentIn_concat, ih, List.nil_append]
      cases hstep.effect.polls (LocalRun.stored hprev) with
      | keep _ _ _ hsent => exact hsent
      | propose hevent | take hevent =>
          subst hevent
          rfl
      | cast _ _ _ hcast =>
          cases hcast with
          | unsigned _ hsent | own _ _ hsent => exact hsent
          | send _ hprimary =>
              rw [Replica.isPrimary, LocalRun.config hprev, hleader] at hprimary
              cases hprimary

/-- A share that is signed with a nonce in stock makes a ballot. -/
theorem LocalRun.ballot (hrun : LocalRun coreConfig cryptoConfig history replica)
    (hfresh : (Replica.drawn cryptoConfig.keyShare replica.numDraw).Nodup)
    {event : Replica.Event scheme} {key : Nat} {signers : Signers scheme}
    {publicCommitments : scheme.GivrePublicCommitments} {nonce : scheme.GivreSecretNonces}
    (hspending : Replica.Spending replica event key signers publicCommitments nonce)
    {share : scheme.GivreSigShare} (hsign : scheme.signShare replica.cryptoConfig.keyShare nonce
      (replica.core.digestOf key) signers = some share) :
    ∃ entry ∈ Replica.known history, entry.1.block = replica.core.digestOf key ∧
      entry.1.signers = signers ∧ Ballot cryptoConfig.keyShare coreConfig.id entry.1
        { node := replica.core.digestOf key, partialSig := .givre share
          signerIndex := replica.signerIndex } := by
  obtain ⟨⟨header, block⟩, hentry, hblock, hsigners⟩ := hrun.signers_source hspending.signers
  obtain ⟨draw, -, hcommit⟩ := (hrun.spends hfresh).nonce _ _ hspending.nonce
  have hlisted := Replica.mem_of_listed hspending.listed
  have hindex : replica.signerIndex = coreConfig.id := congrArg ReplicaCoreConfig.id hrun.config
  rw [hrun.cryptoConfig_eq] at hcommit hsign
  rw [hindex] at hlisted
  refine ⟨(header, block), hentry, hblock, hsigners, hblock.symm, hindex, share, rfl, ?_⟩
  refine ⟨publicCommitments, draw, ?_, ?_, ?_⟩
  · rwa [hsigners]
  · rw [hcommit]
  · rw [hcommit, hblock, hsigners]
    exact hsign

theorem LocalRun.ballots (hrun : LocalRun coreConfig cryptoConfig history replica)
    (hfresh : (Replica.drawn cryptoConfig.keyShare replica.numDraw).Nodup) :
    ∀ vote ∈ Replica.sentIn ToReplica.vote? history,
      ∃ entry ∈ Replica.known history, Ballot cryptoConfig.keyShare coreConfig.id entry.1 vote := by
  induction hrun with
  | start =>
      intro vote hvote
      cases hvote
  | @step history replica event next hprev hstep ih =>
      have hstored := LocalRun.stored hprev
      have hfresh' := hfresh.sublist
        (Replica.drawn_prefix _ (hstep.effect.numDraw_le hstored)).sublist
      intro vote hvote
      rw [Replica.sentIn_concat] at hvote
      rcases List.mem_append.mp hvote with hold | hnew
      · obtain ⟨entry, hentry, hballot⟩ := ih hfresh' vote hold
        exact ⟨entry, Replica.mem_known_concat.mpr (.inl hentry), hballot⟩
      · cases hstep.effect.polls hstored with
        | keep _ _ _ hsent =>
            rw [hsent] at hnew
            cases hnew
        | propose hevent | take hevent =>
            subst hevent
            cases hnew
        | cast hspending _ _ hcast =>
            cases hcast with
            | unsigned _ hsent | own _ _ hsent =>
                rw [hsent] at hnew
                cases hnew
            | send hsign _ hsent =>
                rw [hsent] at hnew
                obtain rfl := List.mem_singleton.mp hnew
                obtain ⟨entry, hentry, -, -, hballot⟩ :=
                  LocalRun.ballot hprev hfresh' hspending hsign
                exact ⟨entry, Replica.mem_known_concat.mpr (.inl hentry), hballot⟩

end

end BftKit.Hotstuff
