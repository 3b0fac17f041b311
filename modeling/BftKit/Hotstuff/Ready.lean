import BftKit.Hotstuff.Awaiting
import BftKit.Hotstuff.Bookkeeping
import BftKit.Hotstuff.Heights
import BftKit.Hotstuff.Promises

/-! # Replicas that do not crash

A replica whose calls are foreseen crashes neither on them nor on what comes of them. A
backup keeps its promises. A leader votes only for its own proposals, each before the next
one, and lists itself there with a commitment of its own that nothing else takes.
-/

namespace BftKit.Hotstuff

open Foundation Threshold

variable {scheme : ThresholdScheme}

namespace Replica

variable {replica next : Replica scheme} {event : Event scheme}

/-- The commitments of its own that a leader has not listed yet. -/
def reserve (replica : Replica scheme) : List scheme.GivrePublicCommitments :=
  replica.publicCommitmentsPool.getD replica.signerIndex []

/-- No commitment can be listed twice, and each has its nonce. -/
structure Stocked (replica : Replica scheme) : Prop where
  nodup : replica.reserve.Nodup
  nonce : ∀ publicCommitments ∈ replica.reserve, (replica.nonces.lookup publicCommitments).isSome

/-- A leader waits for the votes on the only node that it is about to vote for, with a
commitment that it will not list again. -/
structure Voting (replica : Replica scheme) (key : Nat) : Prop where
  only : votes replica.coreActions = [key]
  last : key = replica.core.nodes.length - 1
  waits : replica.core.highNode ≠ replica.core.blockLeaf
  commitment : ∀ publicCommitments,
    replica.listing (replica.core.digestOf key) = some publicCommitments →
      (replica.nonces.lookup publicCommitments).isSome ∧ publicCommitments ∉ replica.reserve

/-- A leader that can go on. -/
structure Ready (replica : Replica scheme) : Prop where
  stocked : replica.Stocked
  voting : ∀ key ∈ votes replica.coreActions, replica.Voting key
  room : replica.core.ahead + (proposals replica.coreActions).length ≤ 2 ^ 32

/-! ## Commitments -/

/-- A replica does not spend what it may still list. -/
theorem Ready.unspent (h : replica.Ready) (heffect : Effect replica event next)
    {publicCommitments : scheme.GivrePublicCommitments} (hmem : publicCommitments ∈ replica.reserve)
    (digest : Digest) : event.spent? ≠ some (publicCommitments, digest) := by
  intro hspent
  rcases heffect.spending with hnone | ⟨key, signers, spent, nonce, hspending⟩
  · cases hnone.symm.trans hspent
  · obtain ⟨rfl, -⟩ := Prod.mk.inj (Option.some.inj (hspending.spent.symm.trans hspent))
    have hkey : key ∈ votes replica.coreActions :=
      List.mem_filterMap.mpr ⟨_, hspending.queued, rfl⟩
    have hlisting : replica.listing (replica.core.digestOf key) = some spent :=
      listing_eq_some.mpr ⟨signers, hspending.signers, hspending.listed⟩
    exact ((h.voting key hkey).commitment _ hlisting).2 hmem

theorem Ready.restock (h : replica.Ready) (heffect : Effect replica event next)
    (hstored : replica.core.Stored) (hprimary : replica.isPrimary = true)
    (hexpects : replica.Expects event) : next.Stocked := by
  have hconfig := (heffect.grows hstored).config
  have hindex : next.signerIndex = replica.signerIndex := congrArg ReplicaCoreConfig.id hconfig
  have htrades := heffect.trades hstored
  have hless : next.reserve.Sublist replica.reserve → next.Stocked := by
    intro hsublist
    refine ⟨h.stocked.nodup.sublist hsublist, fun publicCommitments hmem => ?_⟩
    have hmem' := hsublist.subset hmem
    exact htrades.nonces (h.stocked.nonce _ hmem') (h.unspent heffect hmem')
  cases htrades with
  | stock hrestocked =>
      generalize event.messages ToReplica.supply? = sent at hrestocked
      cases hrestocked with
      | enough _ _ hpool | backup _ _ _ hpool =>
          refine hless ?_
          rw [reserve, reserve, hpool, hindex, spend_pool]
      | leader _ hnonces _ hpool =>
          have hreserve : next.reserve = (replica.drawSupply.map Prod.fst).dedup := by
            rw [reserve, hpool, hindex, spend_signerIndex, spend_drawSupply, getD_insert, if_pos rfl]
          refine ⟨?_, fun publicCommitments hmem => ?_⟩
          · rw [hreserve]
            exact List.nodup_dedup _
          · rw [hreserve, List.mem_dedup] at hmem
            rw [hnonces, Map.isSome_lookup_extend, spend_drawSupply]
            exact .inl hmem
  | @supply index supply hevent hnext =>
      subst hevent hnext
      by_cases heq : index = replica.signerIndex
      · obtain ⟨hnodup, hnonces⟩ := hexpects hprimary heq
        have hreserve : (replica.receiveSupply index supply).reserve = replica.reserve ++ supply := by
          rw [reserve, receiveSupply, getD_insert, heq]
          exact if_pos rfl
        rw [heq] at hnodup
        refine ⟨?_, fun publicCommitments hmem => ?_⟩
        · rw [hreserve]
          exact hnodup
        · rw [hreserve] at hmem
          rcases List.mem_append.mp hmem with hold | hnew
          · exact h.stocked.nonce _ hold
          · exact hnonces _ hnew
      · have hreserve : (replica.receiveSupply index supply).reserve = replica.reserve := by
          rw [reserve, receiveSupply, getD_insert]
          exact if_neg (Ne.symm heq)
        exact hless (hreserve ▸ List.Sublist.refl _)
  | propose _ _ _ _ hpool =>
      refine hless ?_
      rw [reserve, hpool, hindex, getD_takeSigners]
      split
      · exact List.dropLast_sublist _
      · exact List.Sublist.refl _

/-! ## Votes -/

/-- Votes are queued by proposals and by released blocks only. -/
theorem CoreStep.votes_eq (h : CoreStep replica event next) (hstored : replica.core.Stored)
    (hpending : replica.pending = []) (hother : ∀ data, event.performed? ≠ some (.propose data)) :
    votes (event.performed?.toList ++ next.coreActions) = votes replica.coreActions := by
  cases h with
  | keep _ hqueue => rw [hqueue]
  | give hgives hhandle hqueue =>
      rw [hqueue, votes_append]
      rcases hstored.handle_votes hhandle with hnone | ⟨-, blockDigest, block, rfl | rfl⟩
      · rw [hnone, List.append_nil]
      · cases hgives with
        | proposal hnonempty => cases hpending.symm.trans hnonempty
      · cases hgives with
        | proposed => exact absurd rfl (hother _)

/-- A leader proposes after its last vote, and lists itself from its reserve. -/
theorem Ready.propose (h : replica.Ready) (hleads : replica.Leads) {data : NodeData}
    {rest : ReplicaCoreActions} (hqueue : replica.coreActions = .propose data :: rest)
    {block : Message.Block scheme} (hblock : replica.proposalBlock data = .ok block)
    (hhandle : (Replica.prepared
        { (replica.takeSigners replica.numSigner).1 with coreActions := rest }
        (scheme.digest block) (replica.takeSigners replica.numSigner).2).handle
      (.proposed (scheme.digest block) block) = .ok next) :
    ∀ key ∈ votes next.coreActions, next.Voting key := by
  obtain ⟨core, pushed, hcore, rfl⟩ := handle_eq_ok.mp hhandle
  have hstored := hleads.core.line.stored
  obtain ⟨hplanned, -⟩ := hleads.planned hqueue
  obtain ⟨hnext, hcommands, -⟩ := Leads.next_of_proposalBlock hplanned hblock
  obtain ⟨-, hwait, hlength, hdigest⟩ := hplanned.proposed hnext hcommands hcore
  have hhigh : replica.core.highNode = replica.core.blockLeaf := by
    cases hplanned.plans with
    | one hhigh => exact hhigh
  have hrest : votes rest = [] := by
    refine List.eq_nil_iff_forall_not_mem.mpr fun key hkey => ?_
    have hkey' : key ∈ votes replica.coreActions := by
      rw [hqueue]
      exact hkey
    exact (h.voting key hkey').waits hhigh
  intro key hkey
  change key ∈ votes (rest ++ pushed) at hkey
  have hvotes : votes (rest ++ pushed) = [replica.core.nodes.length] := by
    rw [votes_append, hrest, List.nil_append] at hkey ⊢
    rcases hstored.handle_votes hcore with hnone | ⟨hone, -⟩
    · rw [hnone] at hkey
      cases hkey
    · exact hone
  rw [hvotes] at hkey
  obtain rfl := List.mem_singleton.mp hkey
  refine ⟨hvotes, ?_, hwait, fun publicCommitments hlisting => ?_⟩
  · change _ = core.nodes.length - 1
    rw [hlength, Nat.add_sub_cancel]
  · obtain ⟨signers, hsigners, hlisted⟩ := listing_eq_some.mp hlisting
    change (replica.blockSigners.insert _ _).lookup (core.digestOf replica.core.nodes.length) = _
      at hsigners
    rw [hdigest, Map.lookup_insert, if_pos rfl] at hsigners
    obtain rfl := Option.some.inj hsigners
    have hconfig : core.config = replica.core.config := (hstored.handle hcore).2.config
    rw [listed_congr hconfig] at hlisted
    -- it is the last commitment of the reserve, which is taken from there
    have hsigner := mem_of_listed hlisted
    obtain ⟨front, hfront⟩ := List.getLast?_eq_some_iff.mp (takeSigners_last hsigner)
    have hreserve : replica.reserve = front ++ [publicCommitments] := hfront
    refine ⟨h.stocked.nonce _ (by rw [hreserve]; simp), ?_⟩
    have hnodup := h.stocked.nodup
    rw [hreserve, List.nodup_append] at hnodup
    have hleft : (replica.takeSigners replica.numSigner).1.publicCommitmentsPool.getD
        replica.signerIndex [] = front := by
      rw [getD_takeSigners, if_pos (List.mem_map.mpr ⟨_, hsigner, rfl⟩)]
      change replica.reserve.dropLast = front
      rw [hreserve, List.dropLast_concat]
    change publicCommitments ∉ (replica.takeSigners replica.numSigner).1.publicCommitmentsPool.getD
      core.config.id []
    rw [hconfig]
    change publicCommitments ∉ (replica.takeSigners replica.numSigner).1.publicCommitmentsPool.getD
      replica.signerIndex []
    rw [hleft]
    exact fun hmem => hnodup.2.2 _ hmem _ (List.mem_singleton_self _) rfl

theorem Ready.votes (h : replica.Ready) (hleads : replica.Leads)
    (heffect : Effect replica event next) : ∀ key ∈ votes next.coreActions, next.Voting key := by
  have hvotes := heffect.core.votes_eq hleads.core.line.stored hleads.pending
  have hidle : replica.Idle → event.performed? = none →
      ∀ key ∈ Hotstuff.votes next.coreActions, next.Voting key := by
    intro hidle hnone key hkey
    have hvotes := hvotes (by simp [hnone])
    rw [hnone, hidle.2] at hvotes
    cases hvotes ▸ hkey
  cases heffect with
  | init h | tick h | request h | ignore h | accept h | park h | vote h | supply h =>
      exact hidle h rfl
  | defer hpending | release hpending => cases hleads.pending.symm.trans hpending
  | propose _ hqueue hblock _ _ _ hhandle => exact h.propose hleads hqueue hblock hhandle
  | @perform key rest node signers next actions _ hqueue =>
      -- the only vote is the one that is performed
      intro key' hkey'
      have hvotes : key :: Hotstuff.votes next.coreActions = Hotstuff.votes replica.coreActions :=
        hvotes (by simp [Event.performed?])
      have hkey : key ∈ Hotstuff.votes replica.coreActions := by
        rw [← hvotes]
        exact List.mem_cons_self
      rw [(h.voting key hkey).only] at hvotes
      rw [(List.cons.inj hvotes).2] at hkey'
      cases hkey'
  | @finalize key rest node _ hqueue =>
      intro key' hkey'
      have hvotes : Hotstuff.votes rest = Hotstuff.votes replica.coreActions := by
        rw [hqueue]
        rfl
      obtain ⟨honly, hlast, hwaits, hcommitment⟩ := h.voting key' (hvotes ▸ hkey')
      exact ⟨hvotes.trans honly, hlast, hwaits, hcommitment⟩

/-! ## Heights -/

theorem Leads.hasRoom_iff (h : replica.Leads) :
    replica.core.HasRoom ↔ replica.core.ahead + 4 ≤ 2 ^ 32 := by
  have hline := h.core.line
  have hpos := hline.stored.nodes_pos
  have hleaf := h.core.leaf
  have hheight := hline.linked.height replica.core.blockLeaf (by omega)
  unfold ReplicaCore.HasRoom ReplicaCore.ahead
  omega

/-- There is room for all that is proposed and for all that may be. -/
theorem Ready.proposals (h : replica.Ready) (hleads : replica.Leads)
    (hstep : Step replica event next) (hprimary : replica.isPrimary = true)
    (hexpects : replica.Expects event) :
    next.core.ahead + (Hotstuff.proposals next.coreActions).length ≤ 2 ^ 32 := by
  have hstored := hleads.core.line.stored
  have hroom := h.room
  cases hstep.effect.core with
  | keep hcore hqueue =>
      rw [← hqueue, proposals_append, List.length_append] at hroom
      rw [hcore]
      omega
  | @give coreEvent pushed hgives hhandle hqueue =>
      have hahead := hstored.handle_ahead hhandle
      have hlength := congrArg (fun queue => (Hotstuff.proposals queue).length) hqueue
      simp only [proposals_append, List.length_append] at hlength
      cases hgives with
      | request =>
          cases hstep with
          | call hidle =>
              have hrequest := hleads.hasRoom_iff.mp (hexpects hprimary)
              have hnone : Hotstuff.proposals replica.coreActions = [] := by
                rw [hidle.2]
                rfl
              rw [hnone, List.length_nil] at hlength
              change _ ≤ replica.core.ahead + 4 at hahead
              omega
      | proposal hpending => cases hleads.pending.symm.trans hpending
      | proposed =>
          -- the proposal that is performed makes room for its node
          change 1 + _ = _ at hlength
          change _ ≤ replica.core.ahead + 1 at hahead
          omega
      | quorumCert =>
          change _ ≤ replica.core.ahead + 0 at hahead
          omega

theorem Ready.step (h : replica.Ready) (hleads : replica.Leads) (hstep : Step replica event next)
    (hprimary : replica.isPrimary = true) (hexpects : replica.Expects event) : next.Ready where
  stocked := h.restock hstep.effect hleads.core.line.stored hprimary hexpects
  voting := h.votes hleads hstep.effect
  room := h.proposals hleads hstep hprimary hexpects

theorem new_ready (coreConfig : ReplicaCoreConfig) (cryptoConfig : CryptoConfig scheme) :
    (Replica.new coreConfig cryptoConfig).Ready where
  stocked := ⟨List.nodup_nil, fun _ hmem => by cases hmem⟩
  voting := fun _ hkey => by cases hkey
  room := by
    have hpending : (ReplicaCore.new scheme coreConfig).pool.pending = [] := by
      unfold ReplicaCore.new
      dsimp only
      split <;> rfl
    change 1 + 4 * (ReplicaCore.new scheme coreConfig).pool.pending.length + 0 + 0 ≤ 2 ^ 32
    rw [hpending]
    decide

end Replica

variable {coreConfig : ReplicaCoreConfig} {cryptoConfig : CryptoConfig scheme}
  {history : List (Replica.Event scheme)} {replica : Replica scheme}

theorem LocalRun.isPrimary_iff (hrun : LocalRun coreConfig cryptoConfig history replica) :
    replica.isPrimary = true ↔ coreConfig.id = 0 := by
  rw [Replica.isPrimary, hrun.config, beq_iff_eq]
  exact eq_comm

/-- A leader whose calls are foreseen is where it would be without the blocks that it has
received. -/
theorem GuardedRun.quiet (hrun : GuardedRun Replica.Expects coreConfig cryptoConfig history replica)
    (hleader : coreConfig.id = 0) :
    ∃ quiet, LocalRun coreConfig cryptoConfig quiet replica ∧ Replica.received quiet = [] ∧
      Replica.generics quiet = Replica.generics history := by
  induction hrun with
  | start hinit => exact ⟨[], .start hinit, rfl, rfl⟩
  | @step history replica event next hprev hstep ih =>
      obtain ⟨quiet, hlocal, hreceived, hgenerics⟩ := ih
      have hprimary := (GuardedRun.localRun hprev).isPrimary_iff.mpr hleader
      have hkeep : event.received? = none → ∃ quiet, LocalRun coreConfig cryptoConfig quiet next ∧
          Replica.received quiet = [] ∧
          Replica.generics quiet = Replica.generics (history ++ [event]) := by
        intro hnone
        refine ⟨quiet ++ [event], .step hlocal hstep.1, ?_, ?_⟩
        · rw [Replica.received_concat, hreceived, hnone]
          rfl
        · rw [Replica.generics_concat, Replica.generics_concat, hgenerics]
      obtain ⟨hstep, hexpects⟩ := hstep
      cases hstep.effect with
      | ignore =>
          refine ⟨quiet, hlocal, hreceived, ?_⟩
          rw [Replica.generics_concat, hgenerics]
          exact (List.append_nil _).symm
      | accept _ hadmits | park _ hadmits =>
          have hbackup := (hexpects hadmits).backup
          rw [hprimary] at hbackup
          cases hbackup
      | init | tick | request | vote | supply | defer | release | propose | perform | finalize =>
          exact hkeep rfl

theorem GuardedRun.ready (hrun : GuardedRun Replica.Expects coreConfig cryptoConfig history replica)
    (hleader : coreConfig.id = 0) : replica.Ready := by
  induction hrun with
  | start hinit =>
      subst hinit
      exact Replica.new_ready coreConfig cryptoConfig
  | @step history replica event next hprev hstep ih =>
      obtain ⟨quiet, hlocal, hreceived, -⟩ := GuardedRun.quiet hprev hleader
      exact ih.step (hlocal.leads hleader hreceived).1 hstep.1
        (hlocal.isPrimary_iff.mpr hleader) hstep.2

/-- A leader whose calls are foreseen does not crash on its own blocks and votes. -/
theorem GuardedRun.leader_safe
    (hrun : GuardedRun Replica.Expects coreConfig cryptoConfig history replica)
    (hleader : coreConfig.id = 0) (hdistinguishes : Group.Distinguishes history replica)
    {call? : Option (Replica.Call scheme)}
    (hcall : ∀ call, call? = some call → replica.Foreseen call) :
    ¬replica.Unforeseen call? := by
  obtain ⟨quiet, hlocal, hreceived, hgenerics⟩ := GuardedRun.quiet hrun hleader
  have hready := GuardedRun.ready hrun hleader
  intro h
  cases h with
  | block _ hadmits =>
      have hbackup := (hcall _ rfl hadmits).backup
      rw [hlocal.isPrimary_iff.mpr hleader] at hbackup
      cases hbackup
  | vote _ hscratch =>
      have hsome := hcall _ rfl
      simp [Replica.Foreseen, hscratch] at hsome
  | proposal _ hqueue hblock _ _ hnot =>
      have hplanned : ∀ {block}, Group.Planned quiet replica block →
          Group.Planned history replica block := by
        rintro block (hsent | @⟨data, rest, hqueue, hblock⟩)
        · exact .sent (hgenerics ▸ hsent)
        · exact .next hqueue hblock
      have hdistinguishes' : Group.Distinguishes quiet replica :=
        ⟨fun _ _ h h' => hdistinguishes.blocks _ _ (hplanned h) (hplanned h'),
          fun _ h => hdistinguishes.genesis _ (hplanned h)⟩
      exact hnot (hdistinguishes'.proposable hlocal hleader hreceived hqueue hblock)
  | @nonce key _ _ _ _ hqueue hsigners hlisted hnonce =>
      have hvoting := hready.voting key (by rw [hqueue]; exact List.mem_cons_self)
      have hsome := (hvoting.commitment _ (Replica.listing_eq_some.mpr ⟨_, hsigners, hlisted⟩)).1
      rw [hnonce] at hsome
      cases hsome
  | @ownVote key _ _ _ _ _ _ hqueue _ _ _ _ _ hscratch =>
      have hvoting := hready.voting key (by rw [hqueue]; exact List.mem_cons_self)
      have hsome := hlocal.awaits hleader hreceived hvoting.waits
      rw [← hvoting.last, hscratch] at hsome
      cases hsome

/-- Nor does a backup, on the blocks of others. -/
theorem GuardedRun.backup_safe
    (hrun : GuardedRun Replica.Expects coreConfig cryptoConfig history replica)
    (hbackup : coreConfig.id ≠ 0) {call? : Option (Replica.Call scheme)}
    (hcall : ∀ call, call? = some call → replica.Foreseen call) : ¬replica.Unforeseen call? := by
  have hlocal := GuardedRun.localRun hrun
  intro h
  cases h with
  | block _ hadmits hsigners =>
      rw [(hcall _ rfl hadmits).signers] at hsigners
      cases hsigners
  | vote _ hscratch =>
      have hsome := hcall _ rfl
      simp [Replica.Foreseen, hscratch] at hsome
  | proposal _ hqueue =>
      have hnone := hlocal.no_proposals hbackup
      rw [proposals_append, hqueue] at hnone
      cases (List.append_eq_nil_iff.mp hnone).2
  | @nonce key _ _ _ hpending hqueue hsigners hlisted hnonce =>
      have hkey : key ∈ votes replica.coreActions := by
        rw [hqueue]
        exact List.mem_cons_self
      have hsome := ((GuardedRun.keeps hrun hbackup).of_empty hpending).nonce _ _
        (.queued hkey rfl (Replica.listing_eq_some.mpr ⟨_, hsigners, hlisted⟩))
      rw [hnonce] at hsome
      cases hsome
  | ownVote _ _ _ _ _ _ hprimary => exact hbackup (hlocal.isPrimary_iff.mp hprimary)

/-- Nor does a replica run out of heights. -/
theorem GuardedRun.no_overflow
    (hrun : GuardedRun Replica.Expects coreConfig cryptoConfig history replica)
    {call? : Option (Replica.Call scheme)}
    (hcall : ∀ call, call? = some call → replica.Foreseen call) :
    ¬replica.Panics .overflow call? := by
  have hlocal := GuardedRun.localRun hrun
  intro h
  obtain ⟨event, hasks, hhandle⟩ := hlocal.overflows h
  obtain ⟨middle, reactions, hreacted, hrefused⟩ := hlocal.stored.handle_overflow hhandle
  have hleader : coreConfig.id = 0 := by
    have hid := hrefused.leader (hreacted.stored hlocal.stored)
    rwa [hreacted.grows.config, hlocal.config] at hid
  obtain ⟨quiet, hlocal', hreceived, -⟩ := GuardedRun.quiet hrun hleader
  have hleads := (hlocal'.leads hleader hreceived).1
  have hroom := (GuardedRun.ready hrun hleader).room
  have hahead : (∀ blockDigest block, event = .proposal blockDigest block ∨
      event = .proposed blockDigest block → block.height ≤ replica.core.nodes.length) →
      2 ^ 32 < replica.core.ahead + event.effort :=
    fun hblock => hlocal.stored.overflow_ahead hleads.core.line.low hblock hhandle
  cases hasks with
  | request =>
      have hahead : 2 ^ 32 < replica.core.ahead + 4 := hahead (by simp)
      have hrequest := hleads.hasRoom_iff.mp (hcall _ rfl (hlocal.isPrimary_iff.mpr hleader))
      omega
  | vote | ownVote =>
      have hahead : 2 ^ 32 < replica.core.ahead + 0 := hahead (by simp)
      omega
  | release hpending => cases hleads.pending.symm.trans hpending
  | propose _ hqueue hblock =>
      obtain ⟨hnext, -⟩ := Replica.Leads.next_of_proposalBlock (hleads.planned hqueue).1 hblock
      have hahead : 2 ^ 32 < replica.core.ahead + 1 := by
        refine hahead ?_
        rintro _ _ (heq | heq)
        · cases heq
        · obtain ⟨-, rfl⟩ := ReplicaCoreEvent.proposed.inj heq
          exact hnext.height.le
      have hone : 1 ≤ (proposals replica.coreActions).length := by
        rw [hqueue]
        exact Nat.succ_le_succ (Nat.zero_le _)
      omega

/-- In runs of a leader or a backup whose calls are all foreseen, no call that is foreseen
crashes, nor does an iteration of the loops. The messages are arbitrary otherwise, and so
are the keys and the configuration. Of the leader it is assumed that the digests of its own
proposals do not collide. -/
theorem no_crash (hrun : GuardedRun Replica.Expects coreConfig cryptoConfig history replica)
    (hdistinguishes : coreConfig.id = 0 → Group.Distinguishes history replica)
    (call? : Option (Replica.Call scheme))
    (hcall : ∀ call, call? = some call → replica.Foreseen call) :
    ¬replica.Crashes call? ∧ ¬replica.Panics .overflow call? := by
  refine ⟨fun hcrashes => ?_, GuardedRun.no_overflow hrun hcall⟩
  have hunforeseen := (GuardedRun.localRun hrun).unforeseen hcrashes
  by_cases hleader : coreConfig.id = 0
  · exact GuardedRun.leader_safe hrun hleader (hdistinguishes hleader) hcall hunforeseen
  · exact GuardedRun.backup_safe hrun hleader hcall hunforeseen

/-- A leader that has got a command finalized takes the next one, and a backup that has
parked a block the one that it misses. -/
theorem no_crash_four :
    (∃ (history : List (Replica.Event .transparent)) (leader : Replica .transparent),
      finalizations (Replica.performedIn history) = [1] ∧
      ¬leader.Crashes (some (.request (Group.ping 1))) ∧
      ¬leader.Panics .overflow (some (.request (Group.ping 1)))) ∧
    ∃ (history : List (Replica.Event .transparent)) (backup : Replica .transparent),
      (Replica.signed history).length = 1 ∧ backup.reorderingBlocks.keys.card = 1 ∧
      ¬backup.Crashes (some (Group.deliver 1 (Group.fourChild Group.fourFirst []) 1).2) ∧
      ¬backup.Panics .overflow
        (some (Group.deliver 1 (Group.fourChild Group.fourFirst []) 1).2) := by
  constructor
  · have hreplay : ∃ run ∈ Group.replay Replica.Expects (Group.four ∅) Group.fourLead,
        finalizations (Replica.performedIn (view 0 run.1)) = [1] ∧
        Group.SentDistinct (view 0 run.1) ∧ (run.2 0).Idle ∧
        (run.2 0).Foreseen (.request (Group.ping 1)) := by
      decide +kernel
    obtain ⟨⟨history, states⟩, hrun, hfinalized, hdistinct, hidle, hforeseen⟩ := hreplay
    have hhonest : (Group.four ∅).Honest 0 := by decide
    have hlocal := (Group.replay_run hrun).localRun hhonest
    exact ⟨view 0 history, states 0, hfinalized,
      no_crash hlocal (fun _ => hdistinct.distinguishes hidle.2) _
        fun _ heq => Option.some.inj heq ▸ hforeseen⟩
  · have hreplay : ∃ run ∈ Group.replay Replica.Expects (Group.four ∅) Group.fourGap,
        (Replica.signed (view 1 run.1)).length = 1 ∧
        (run.2 1).reorderingBlocks.keys.card = 1 ∧
        (run.2 1).Foreseen (Group.deliver 1 (Group.fourChild Group.fourFirst []) 1).2 := by
      decide +kernel
    obtain ⟨⟨history, states⟩, hrun, hsigned, hparked, hforeseen⟩ := hreplay
    have hhonest : (Group.four ∅).Honest 1 := by decide
    have hlocal := (Group.replay_run hrun).localRun hhonest
    exact ⟨view 1 history, states 1, hsigned, hparked,
      no_crash hlocal (fun hleader => absurd hleader (by decide)) _
        fun _ heq => Option.some.inj heq ▸ hforeseen⟩

end BftKit.Hotstuff
