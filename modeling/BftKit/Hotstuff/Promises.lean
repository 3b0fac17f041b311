import BftKit.Hotstuff.Foreseen

/-! # What a backup has promised

A block that lists a backup and that the backup may vote for is a promise: the nonce of
the commitment is there until the vote, and no vote for another height takes it. Foreseen
calls add no promise that cannot be kept, and the loops only ever redeem one.
-/

namespace BftKit.Hotstuff

open Foundation Threshold

variable {scheme : ThresholdScheme}

namespace ReplicaCore

variable {core core' : ReplicaCore scheme} {pushed : ReplicaCoreActions}

/-- A block that is voted for was votable. -/
theorem Stored.handle_votable (h : Stored core) {blockDigest : Digest}
    {block : Message.Block scheme}
    (hhandle : core.handle (.proposal blockDigest block) = .ok (core', pushed)) :
    votes pushed = [] ∨ votes pushed = [core.nodes.length] ∧ core.Votable block := by
  obtain ⟨middle, reactions, beats, hreacted, hbeat, rfl⟩ := h.handle_ok hhandle
  rw [votes_append, hbeat.pushed.1, List.append_nil]
  cases hreacted with
  | @proposal _ _ stored voting _ path hingested hvoting =>
      rw [votes_append, votes_finalize, List.append_nil]
      cases voting with
      | false => exact .inl rfl
      | true =>
          have hmay := (hingested.mayVote_iff h hingested.parent hingested.justified).mp
            (hvoting.mp rfl)
          refine .inr ⟨rfl, hmay.1, ?_⟩
          intro parent hparent justified hjustified
          obtain rfl := Option.some.inj (hingested.parent.symm.trans hparent)
          obtain rfl := Option.some.inj (hingested.justified.symm.trans hjustified)
          exact hmay.2

end ReplicaCore

namespace Replica

variable {replica next : Replica scheme} {event : Event scheme} {height : Nat}
  {publicCommitments : scheme.GivrePublicCommitments}

/-- A commitment is listed for a node that is to be voted for, or for a block that may be. -/
inductive Promised (replica : Replica scheme) (height : Nat)
    (publicCommitments : scheme.GivrePublicCommitments) : Prop
  | queued {key} (hkey : key ∈ votes replica.coreActions)
      (hheight : replica.core.heightOf key = height)
      (hlisting : replica.listing (replica.core.digestOf key) = some publicCommitments)
  | waiting {spot entry} (hmem : entry ∈ replica.waitingAt spot) (hheight : entry.2.height = height)
      (habove : replica.core.voteHeight < height)
      (hlisting : replica.listing entry.1 = some publicCommitments)

/-- What has been promised can be kept. -/
structure Honours (replica : Replica scheme) : Prop where
  nonce : ∀ height publicCommitments, replica.Promised height publicCommitments →
    (replica.nonces.lookup publicCommitments).isSome
  once : ∀ height height' publicCommitments, replica.Promised height publicCommitments →
    replica.Promised height' publicCommitments → height = height'

/-- No vote is queued, no block is kept and no signers are that have not been before. -/
structure Narrows (replica next : Replica scheme) : Prop where
  grows : ReplicaCore.Grows replica.core next.core
  voteHeight : replica.core.voteHeight ≤ next.core.voteHeight
  votes : ∀ key ∈ votes next.coreActions, key ∈ votes replica.coreActions
  waiting : ∀ spot, ∀ entry ∈ next.waitingAt spot, ∃ spot', entry ∈ replica.waitingAt spot'
  signers : ∀ digest signers, next.blockSigners.lookup digest = some signers →
    replica.blockSigners.lookup digest = some signers

theorem listing_eq_some {digest : Digest} : replica.listing digest = some publicCommitments ↔
    ∃ signers, replica.blockSigners.lookup digest = some signers ∧
      replica.listed signers = some publicCommitments :=
  Option.bind_eq_some_iff

theorem listed_congr (hconfig : next.core.config = replica.core.config)
    (signers : Signers scheme) : next.listed signers = replica.listed signers := by
  rw [listed, listed, signerIndex, signerIndex, hconfig]

/-- What is promised afterwards has been promised before. -/
theorem Narrows.promised (h : Narrows replica next)
    (hlt : ∀ key ∈ Hotstuff.votes replica.coreActions, key < replica.core.nodes.length)
    (hpromised : next.Promised height publicCommitments) :
    replica.Promised height publicCommitments := by
  have hlisting : ∀ digest, next.listing digest = some publicCommitments →
      replica.listing digest = some publicCommitments := by
    intro digest hsome
    obtain ⟨signers, hlookup, hlisted⟩ := listing_eq_some.mp hsome
    rw [listed_congr h.grows.config] at hlisted
    exact listing_eq_some.mpr ⟨signers, h.signers digest signers hlookup, hlisted⟩
  cases hpromised with
  | queued hkey hheight hsome =>
      have hold := h.votes _ hkey
      rw [h.grows.heightOf (hlt _ hold)] at hheight
      rw [h.grows.digestOf (hlt _ hold)] at hsome
      exact .queued hold hheight (hlisting _ hsome)
  | waiting hmem hheight habove hsome =>
      obtain ⟨spot, hold⟩ := h.waiting _ _ hmem
      exact .waiting hold hheight (h.voteHeight.trans_lt habove) (hlisting _ hsome)

theorem Honours.narrow (h : replica.Honours) (hnarrows : Narrows replica next)
    (hlt : ∀ key ∈ votes replica.coreActions, key < replica.core.nodes.length)
    (hnonces : ∀ height publicCommitments, next.Promised height publicCommitments →
      (replica.nonces.lookup publicCommitments).isSome →
      (next.nonces.lookup publicCommitments).isSome) : next.Honours where
  nonce height publicCommitments hpromised :=
    hnonces height publicCommitments hpromised (h.nonce _ _ (hnarrows.promised hlt hpromised))
  once _ _ _ hpromised hpromised' :=
    h.once _ _ _ (hnarrows.promised hlt hpromised) (hnarrows.promised hlt hpromised')

/-- One more promise, which can be kept beside the others. -/
theorem Honours.extend (h : replica.Honours) {found : Option scheme.GivrePublicCommitments}
    (hpromised : ∀ height' publicCommitments, next.Promised height' publicCommitments →
      replica.Promised height' publicCommitments ∨ height' = height ∧ found = some publicCommitments)
    (hfound : ∀ publicCommitments, found = some publicCommitments →
      (replica.nonces.lookup publicCommitments).isSome ∧
        ∀ height', replica.Promised height' publicCommitments → height' = height)
    (hnonces : next.nonces = replica.nonces) : next.Honours where
  nonce height' publicCommitments hnext := by
    rw [hnonces]
    rcases hpromised height' publicCommitments hnext with hold | ⟨-, hnew⟩
    · exact h.nonce _ _ hold
    · exact (hfound publicCommitments hnew).1
  once height₁ height₂ publicCommitments hnext₁ hnext₂ := by
    rcases hpromised _ _ hnext₁ with hold₁ | ⟨rfl, hnew₁⟩ <;>
      rcases hpromised _ _ hnext₂ with hold₂ | ⟨rfl, hnew₂⟩
    · exact h.once _ _ _ hold₁ hold₂
    · exact (hfound _ hnew₂).2 _ hold₁
    · exact ((hfound _ hnew₁).2 _ hold₂).symm
    · rfl

/-- The promises of a backup, but for a block on the stack that it is not going to vote for. -/
inductive Keeps (replica : Replica scheme) : Prop
  | honours (h : replica.Honours)
  | refuses {entry} (hpending : replica.pending = [entry]) (hqueue : replica.coreActions = [])
      (hjustify : (replica.core.nodeIndex.lookup entry.2.justify.node).isSome)
      (hnot : ¬replica.core.Votable entry.2)
      (h : Honours { replica with pending := [] })

/-- Only the nonce that is spent is lost. -/
theorem Trades.nonces (h : Trades replica event next)
    (hsome : (replica.nonces.lookup publicCommitments).isSome)
    (hne : ∀ digest, event.spent? ≠ some (publicCommitments, digest)) :
    (next.nonces.lookup publicCommitments).isSome := by
  have hspend : ((replica.spend event).nonces.lookup publicCommitments).isSome := by
    unfold spend
    split
    next => exact hsome
    next spent digest hspent =>
      change ((replica.nonces.erase spent).lookup publicCommitments).isSome
      rw [Map.lookup_erase]
      split
      next heq => exact absurd (heq ▸ hspent) (hne digest)
      next => exact hsome
  cases h with
  | stock hrestocked =>
      generalize event.messages ToReplica.supply? = sent at hrestocked
      cases hrestocked with
      | enough hnonces => rwa [hnonces]
      | leader _ hnonces | backup _ hnonces =>
          rw [hnonces, Map.isSome_lookup_extend]
          exact .inr hspend
  | supply hevent hnext =>
      rw [hnext]
      exact hsome
  | propose _ _ hnonces => rwa [hnonces]

/-! ## Steps that promise nothing -/

namespace Narrows

theorem trans {last : Replica scheme} (h : Narrows replica next) (h' : Narrows next last) :
    Narrows replica last where
  grows := h.grows.trans h'.grows
  voteHeight := h.voteHeight.trans h'.voteHeight
  votes key hkey := h.votes key (h'.votes key hkey)
  waiting spot entry hmem := by
    obtain ⟨spot', hmem'⟩ := h'.waiting spot entry hmem
    exact h.waiting spot' entry hmem'
  signers digest signers hlookup := h.signers _ _ (h'.signers _ _ hlookup)

theorem congr (hcore : next.core = replica.core)
    (hqueue : Hotstuff.votes next.coreActions = Hotstuff.votes replica.coreActions)
    (hpending : next.pending = replica.pending)
    (hparked : next.reorderingBlocks = replica.reorderingBlocks)
    (hsigners : next.blockSigners = replica.blockSigners) : Narrows replica next where
  grows := hcore ▸ .refl _
  voteHeight := hcore ▸ le_rfl
  votes key hkey := hqueue ▸ hkey
  waiting spot entry hmem := by
    refine ⟨spot, ?_⟩
    cases spot with
    | none => rwa [waitingAt, hpending] at hmem
    | some digest => rwa [waitingAt, hparked] at hmem
  signers digest signers hlookup := hsigners ▸ hlookup

theorem refilled {actions : List (Action scheme)} (h : Refilled replica next actions) :
    Narrows replica next := by
  cases h with
  | enough => exact congr rfl rfl rfl rfl rfl
  | refill => apply congr <;> unfold refillNonces <;> split <;> rfl

theorem handle (hstored : replica.core.Stored) {coreEvent : ReplicaCoreEvent scheme}
    (hvotes : ∀ core pushed, replica.core.handle coreEvent = .ok (core, pushed) →
      Hotstuff.votes pushed = [])
    (hhandle : replica.handle coreEvent = .ok next) : Narrows replica next := by
  obtain ⟨core, pushed, hcore, rfl⟩ := handle_eq_ok.mp hhandle
  refine ⟨(hstored.handle hcore).2, hstored.handle_voteHeight hcore, ?_,
    fun spot entry hmem => ⟨spot, ?_⟩, fun _ _ hlookup => hlookup⟩
  · intro key hkey
    rwa [votes_append, hvotes core pushed hcore, List.append_nil] at hkey
  · cases spot <;> exact hmem

/-- Only blocks are voted for. -/
theorem handle_other (hstored : replica.core.Stored) {coreEvent : ReplicaCoreEvent scheme}
    (hother : ∀ blockDigest block, coreEvent ≠ .proposal blockDigest block ∧
      coreEvent ≠ .proposed blockDigest block)
    (hhandle : replica.handle coreEvent = .ok next) : Narrows replica next := by
  refine handle hstored ?_ hhandle
  intro core pushed hcore
  rcases hstored.handle_votes hcore with hnone | ⟨-, blockDigest, block, hevent⟩
  · exact hnone
  · obtain ⟨hproposal, hproposed⟩ := hother blockDigest block
    exact absurd hevent (not_or.mpr ⟨hproposal, hproposed⟩)

theorem taken (hstored : replica.core.Stored) {vote : Message.VoteGeneric scheme}
    (htaken : VoteTaken replica vote next) : Narrows replica next := by
  cases htaken with
  | share => exact congr rfl rfl rfl rfl rfl
  | quorum _ _ hhandle =>
      have herased : Narrows replica { replica with
          quorumCertScratches := replica.quorumCertScratches.erase vote.node } :=
        congr rfl rfl rfl rfl rfl
      refine herased.trans (handle_other (by exact hstored) ?_ hhandle)
      exact fun _ _ => ⟨nofun, nofun⟩

theorem pop {entry : Digest × Message.Block scheme} {rest : List (Digest × Message.Block scheme)}
    (hpending : replica.pending = entry :: rest) :
    Narrows replica { replica with pending := rest } where
  grows := .refl _
  voteHeight := le_rfl
  votes _ hkey := hkey
  waiting spot other hmem := by
    refine ⟨spot, ?_⟩
    cases spot with
    | none =>
        rw [waitingAt, hpending]
        exact List.mem_cons_of_mem entry (show other ∈ rest from hmem)
    | some digest => exact hmem
  signers _ _ hlookup := hlookup

theorem defer {entry : Digest × Message.Block scheme}
    {rest : List (Digest × Message.Block scheme)} (hpending : replica.pending = entry :: rest)
    (digest : Digest) :
    Narrows replica (Replica.park { replica with pending := rest } digest entry) where
  grows := .refl _
  voteHeight := le_rfl
  votes _ hkey := hkey
  waiting spot other hmem := by
    rw [waitingAt_park] at hmem
    split at hmem
    · rcases List.mem_append.mp hmem with hmem | hmem
      · exact (pop hpending).waiting _ _ hmem
      · rw [List.mem_singleton.mp hmem]
        exact ⟨none, by rw [waitingAt, hpending]; exact List.mem_cons_self⟩
    · exact (pop hpending).waiting _ _ hmem
  signers _ _ hlookup := hlookup

end Narrows

/-! ## Blocks -/

variable {admitted : List (Digest × Message.Block scheme)}

/-- A block that is received is the only new promise. -/
theorem Promised.receive (hbuffers : Buffers admitted replica) {generic : Message.Generic scheme}
    {block : Message.Block scheme} (hfresh : replica.blockSigners.lookup generic.block = none)
    (hcore : next.core = replica.core) (hqueue : next.coreActions = [])
    (hsigners : next.blockSigners = replica.blockSigners.insert generic.block generic.signers)
    (hat : ∀ spot, ∀ entry ∈ next.waitingAt spot,
      entry ∈ replica.waitingAt spot ∨ entry = (generic.block, block))
    (h : next.Promised height publicCommitments) :
    replica.Promised height publicCommitments ∨ block.height = height ∧
      replica.core.voteHeight < height ∧ replica.listed generic.signers = some publicCommitments := by
  cases h with
  | queued hkey =>
      rw [hqueue] at hkey
      cases hkey
  | @waiting spot entry hmem hheight habove hlisting =>
      rw [hcore] at habove
      obtain ⟨signers, hlookup, hlisted⟩ := listing_eq_some.mp hlisting
      rw [listed_congr (congrArg ReplicaCore.config hcore)] at hlisted
      rw [hsigners, Map.lookup_insert] at hlookup
      rcases hat spot entry hmem with hold | rfl
      · have hne : entry.1 ≠ generic.block := by
          intro heq
          have hsome := (hbuffers.waiting spot entry hold).2.2
          rw [heq, hfresh] at hsome
          cases hsome
        rw [if_neg hne] at hlookup
        exact .inl (.waiting hold hheight habove (listing_eq_some.mpr ⟨signers, hlookup, hlisted⟩))
      · rw [if_pos rfl] at hlookup
        obtain rfl := Option.some.inj hlookup
        exact .inr ⟨hheight, habove, hlisted⟩

/-- Between calls only blocks that are parked are promised anything. -/
theorem CanAnswer.promised (h : replica.CanAnswer height publicCommitments) (hidle : replica.Idle)
    {height' : Nat} (hpromised : replica.Promised height' publicCommitments) : height' = height := by
  cases hpromised with
  | queued hkey =>
      rw [hidle.2] at hkey
      cases hkey
  | @waiting spot entry hmem hheight habove hlisting =>
      cases spot with
      | none =>
          rw [waitingAt, hidle.1] at hmem
          cases hmem
      | some digest =>
          have hparked : digest ∈ replica.reorderingBlocks.keys := by
            rw [Map.mem_keys_iff_lookup]
            cases hlookup : replica.reorderingBlocks.lookup digest with
            | none => simp [waitingAt, hlookup] at hmem
            | some parked => exact ⟨parked, rfl⟩
          rw [← hheight]
          exact h.2 digest hparked entry hmem (hheight ▸ habove) hlisting

/-- A block that the replica can answer for may be promised. -/
theorem Honours.receive (h : replica.Honours) (hbuffers : Buffers admitted replica)
    (hidle : replica.Idle) {generic : Message.Generic scheme} {block : Message.Block scheme}
    (hanswerable : replica.Answerable generic block)
    (hvotable : replica.core.voteHeight < block.height →
      replica.core.Votable block)
    (hcore : next.core = replica.core) (hqueue : next.coreActions = [])
    (hsigners : next.blockSigners = replica.blockSigners.insert generic.block generic.signers)
    (hnonces : next.nonces = replica.nonces)
    (hat : ∀ spot, ∀ entry ∈ next.waitingAt spot,
      entry ∈ replica.waitingAt spot ∨ entry = (generic.block, block)) : next.Honours := by
  by_cases habove : replica.core.voteHeight < block.height
  · refine @Honours.extend _ _ _ block.height h (replica.listed generic.signers) ?_ ?_ hnonces
    · intro height publicCommitments hpromised
      rcases hpromised.receive hbuffers hanswerable.signers hcore hqueue hsigners hat with
        hold | ⟨hheight, -, hlisted⟩
      · exact .inl hold
      · exact .inr ⟨hheight.symm, hlisted⟩
    · intro publicCommitments hlisted
      have hanswer := hanswerable.commitment (hvotable habove) publicCommitments hlisted
      exact ⟨hanswer.1, fun height hpromised => hanswer.promised hidle hpromised⟩
  · refine @Honours.extend _ _ _ block.height h none ?_ nofun hnonces
    intro height publicCommitments hpromised
    rcases hpromised.receive hbuffers hanswerable.signers hcore hqueue hsigners hat with
      hold | ⟨hheight, hbelow, -⟩
    · exact .inl hold
    · exact absurd (hheight ▸ hbelow) habove

/-- A released block hands its promise over to a vote, if there is one. -/
theorem Honours.release {entry : Digest × Message.Block scheme}
    {rest : List (Digest × Message.Block scheme)}
    (h : Honours { replica with pending := rest }) (hstored : replica.core.Stored)
    (hlt : ∀ key ∈ votes replica.coreActions, key < replica.core.nodes.length)
    (hdigest : scheme.digest entry.2 = entry.1)
    (hvoted : replica.core.Votable entry.2 → ∀ publicCommitments,
      replica.listing entry.1 = some publicCommitments →
      (replica.nonces.lookup publicCommitments).isSome ∧
        ∀ height, Promised { replica with pending := rest } height publicCommitments →
          height = entry.2.height)
    (hhandle : (unpark { replica with pending := rest } entry.1).handle
      (.proposal entry.1 entry.2) = .ok next) : next.Honours := by
  have hunpark : Narrows { replica with pending := rest }
      (unpark { replica with pending := rest } entry.1) := by
    refine ⟨.refl _, le_rfl, fun _ hkey => hkey, ?_, fun _ _ hlookup => hlookup⟩
    intro spot other hmem
    rw [waitingAt_unpark] at hmem
    split at hmem
    · rcases List.mem_append.mp hmem with hmem | hmem
      · exact ⟨_, List.mem_reverse.mp hmem⟩
      · exact ⟨none, hmem⟩
    · split at hmem
      · cases hmem
      · exact ⟨spot, hmem⟩
  set popped : Replica scheme := { replica with pending := rest } with hpopped
  obtain ⟨core, pushed, hcore, rfl⟩ := handle_eq_ok.mp hhandle
  obtain ⟨-, hgrows⟩ := hstored.handle hcore
  obtain ⟨hrepresents, hlength⟩ := hstored.handle_block (.inl rfl) hdigest hcore
  -- what is promised apart from a vote for the block
  have hold : ∀ {height publicCommitments},
      Promised { popped.unpark entry.1 with
        core, coreActions := replica.coreActions ++ pushed } height publicCommitments →
      popped.Promised height publicCommitments ∨
        votes pushed = [replica.core.nodes.length] ∧ replica.core.Votable entry.2 ∧
          height = entry.2.height ∧ replica.listing entry.1 = some publicCommitments := by
    intro height publicCommitments hpromised
    have hlisted : ∀ signers, listed { popped.unpark entry.1 with
        core, coreActions := replica.coreActions ++ pushed } signers = replica.listed signers :=
      listed_congr hgrows.config
    cases hpromised with
    | @queued key hkey hheight hlisting =>
        obtain ⟨signers, hlookup, hsome⟩ := listing_eq_some.mp hlisting
        rw [hlisted] at hsome
        rw [votes_append] at hkey
        rcases List.mem_append.mp hkey with hkey | hkey
        · refine .inl (.queued hkey ?_ ?_)
          · exact (hgrows.heightOf (hlt key hkey)).symm.trans hheight
          · refine listing_eq_some.mpr ⟨signers, ?_, hsome⟩
            rw [← hgrows.digestOf (hlt key hkey)]
            exact hlookup
        · rcases hstored.handle_votable hcore with hnone | ⟨hnew, hvotable⟩
          · rw [hnone] at hkey
            cases hkey
          · rw [hnew] at hkey
            obtain rfl := List.mem_singleton.mp hkey
            refine .inr ⟨hnew, hvotable, ?_, ?_⟩
            · exact hheight.symm.trans hrepresents.height
            · refine listing_eq_some.mpr ⟨signers, ?_, hsome⟩
              rw [← hdigest, ← hrepresents.digest]
              exact hlookup
    | @waiting spot other hmem hheight habove hlisting =>
        obtain ⟨spot', hmem'⟩ := hunpark.waiting spot other (by cases spot <;> exact hmem)
        obtain ⟨signers, hlookup, hsome⟩ := listing_eq_some.mp hlisting
        rw [hlisted] at hsome
        exact .inl (.waiting hmem' hheight ((hstored.handle_voteHeight hcore).trans_lt habove)
          (listing_eq_some.mpr ⟨signers, hlookup, hsome⟩))
  by_cases hvotable : replica.core.Votable entry.2
  · refine @Honours.extend _ popped _ entry.2.height h (replica.listing entry.1) ?_
      (hvoted hvotable) rfl
    intro height publicCommitments hpromised
    exact (hold hpromised).imp_right fun hnew => hnew.2.2
  · refine @Honours.extend _ popped _ entry.2.height h none ?_ nofun rfl
    intro height publicCommitments hpromised
    exact (hold hpromised).imp_right fun hnew => absurd hnew.2.1 hvotable

/-! ## Votes -/

/-- A performed vote queues none, and only takes the signers of its node away. -/
theorem Narrows.votePerformed (hstored : replica.core.Stored) {rest : ReplicaCoreActions}
    {node : Node} {signers : Signers scheme} {actions : List (Action scheme)}
    (hvote : VotePerformed { replica with coreActions := rest } node signers next actions) :
    Narrows { replica with
      coreActions := rest, blockSigners := replica.blockSigners.erase node.digest } next := by
  cases hvote with
  | unlisted | unsigned => exact congr rfl rfl rfl rfl rfl
  | @signed publicCommitments nonce share _ _ _ _ _ hcast =>
      have hsigned : Narrows
          { replica with
            coreActions := rest, blockSigners := replica.blockSigners.erase node.digest }
          { replica with
            coreActions := rest, blockSigners := replica.blockSigners.erase node.digest
            nonces := replica.nonces.erase publicCommitments } :=
        congr rfl rfl rfl rfl rfl
      cases hcast with
      | leader _ htaken hrefilled =>
          exact (hsigned.trans (taken (by exact hstored) htaken)).trans (refilled hrefilled)
      | backup _ hrefilled => exact hsigned.trans (refilled hrefilled)

/-- A vote redeems a promise, and spends the nonce of no other. -/
theorem Honours.perform (h : replica.Honours) {pushed : ReplicaCoreActions}
    (hdisciplined : replica.core.Disciplined (pushed ++ replica.coreActions)) {key : Nat}
    {rest : ReplicaCoreActions} {node : Node} {signers : Signers scheme}
    {actions : List (Action scheme)} (hqueue : replica.coreActions = .vote key :: rest)
    (hnode : replica.core.nodes[key]? = some node)
    (hsigners : replica.blockSigners.lookup node.digest = some signers)
    (hvote : VotePerformed { replica with coreActions := rest } node signers next actions)
    (htrades : Trades replica (.perform (.vote key)
      ((replica.listed signers).map fun publicCommitments => (publicCommitments, node.digest))
      actions) next) : next.Honours := by
  have hbase := Narrows.votePerformed hdisciplined.stored hvote
  have hvotes : votes replica.coreActions = key :: votes rest := by
    rw [hqueue]
    rfl
  have hqueued : ∀ key ∈ votes replica.coreActions, replica.core.Voted key := by
    intro key hkey
    refine hdisciplined.voted key ?_
    rw [votes_append]
    exact List.mem_append_right _ hkey
  have hdigest : replica.core.digestOf key = node.digest := by
    rw [ReplicaCore.digestOf, ReplicaCore.nodeAt_eq hnode]
  have htaken : Narrows replica { replica with
      coreActions := rest, blockSigners := replica.blockSigners.erase node.digest } := by
    refine ⟨.refl _, le_rfl, ?_, ?_, ?_⟩
    · intro other hother
      rw [hvotes]
      exact List.mem_cons_of_mem key hother
    · exact fun spot entry hmem => ⟨spot, by cases spot <;> exact hmem⟩
    · intro digest signers hlookup
      change (replica.blockSigners.erase node.digest).lookup digest = _ at hlookup
      rw [Map.lookup_erase] at hlookup
      split at hlookup
      · cases hlookup
      · exact hlookup
  have hnarrows := htaken.trans hbase
  refine h.narrow hnarrows (fun key hkey => (hqueued key hkey).lt) ?_
  intro height publicCommitments hpromised hsome
  refine htrades.nonces hsome ?_
  intro digest hspent
  -- the nonce that is spent is promised for the height of the node only
  obtain ⟨publicCommitments', hlisted, heq⟩ := Option.map_eq_some_iff.mp hspent
  obtain ⟨rfl, -⟩ := Prod.mk.inj heq
  have hmine : replica.Promised (replica.core.heightOf key) publicCommitments' := by
    refine .queued (hvotes ▸ List.mem_cons_self) rfl ?_
    exact listing_eq_some.mpr ⟨signers, hdigest ▸ hsigners, hlisted⟩
  have hheight := h.once _ _ _ (hnarrows.promised (fun key hkey => (hqueued key hkey).lt) hpromised)
    hmine
  cases hpromised with
  | @queued other hother hheight' =>
      have hrest : other ∈ votes rest := hbase.votes other hother
      have hfollows := hdisciplined.follows
      rw [votes_append, hvotes] at hfollows
      have hlt := ((List.pairwise_cons.mp (List.pairwise_append.mp hfollows).2.1).1 other hrest).height
      have hother := (hqueued other (hvotes ▸ List.mem_cons_of_mem _ hrest)).lt
      rw [hnarrows.grows.heightOf hother] at hheight'
      omega
  | waiting _ _ habove =>
      have hle := (hqueued key (hvotes ▸ List.mem_cons_self)).height_le
      have hrises := hnarrows.voteHeight
      omega

/-! ## Steps -/

theorem Keeps.of_empty (h : replica.Keeps) (hpending : replica.pending = []) : replica.Honours := by
  cases h with
  | honours h => exact h
  | refuses hentry => cases hpending.symm.trans hentry

/-- What is popped off the stack is promised no more. -/
theorem Honours.pop (h : replica.Honours) {entry : Digest × Message.Block scheme}
    {rest : List (Digest × Message.Block scheme)} (hpending : replica.pending = entry :: rest)
    (hlt : ∀ key ∈ votes replica.coreActions, key < replica.core.nodes.length) :
    Honours { replica with pending := rest } :=
  h.narrow (.pop hpending) hlt fun _ _ _ hsome => hsome

theorem Keeps.accept (h : replica.Honours) (hbuffers : Buffers admitted replica)
    (hidle : replica.Idle) {generic : Message.Generic scheme} {block : Message.Block scheme}
    (hanswerable : replica.Answerable generic block) :
    Keeps { replica with
      blockSigners := replica.blockSigners.insert generic.block generic.signers
      pending := [(generic.block, block)] } := by
  by_cases hvotable : replica.core.voteHeight < block.height → replica.core.Votable block
  · refine .honours (h.receive hbuffers hidle hanswerable hvotable rfl hidle.2 rfl rfl ?_)
    intro spot entry hmem
    cases spot with
    | none => exact .inr (List.mem_singleton.mp hmem)
    | some digest => exact .inl hmem
  · obtain ⟨habove, hnot⟩ := Classical.not_imp.mp hvotable
    refine .refuses rfl hidle.2 ?_ hnot ?_
    · -- a block whose justification is not known may turn out to be votable
      by_contra hunknown
      refine hnot ⟨habove, fun parent _ justified hjustified => ?_⟩
      exact absurd (Option.isSome_of_mem hjustified) hunknown
    · refine @Honours.extend _ _ _ block.height h none ?_ nofun rfl
      intro height publicCommitments hpromised
      refine .inl ?_
      have hfresh := hanswerable.signers
      cases hpromised with
      | queued hkey =>
          change _ ∈ votes replica.coreActions at hkey
          rw [hidle.2] at hkey
          cases hkey
      | @waiting spot entry hmem hheight hbelow hlisting =>
          cases spot with
          | none => cases hmem
          | some digest =>
              have hold : entry ∈ replica.waitingAt (some digest) := hmem
              have hsome := (hbuffers.waiting (some digest) entry hold).2.2
              obtain ⟨signers, hlookup, hlisted⟩ := listing_eq_some.mp hlisting
              refine .waiting hold hheight hbelow (listing_eq_some.mpr ⟨signers, ?_, hlisted⟩)
              change (replica.blockSigners.insert _ _).lookup entry.1 = _ at hlookup
              rw [Map.lookup_insert] at hlookup
              split at hlookup
              next heq =>
                rw [heq, hfresh] at hsome
                cases hsome
              next => exact hlookup

/-- A backup keeps its promises as long as the calls on it are foreseen. -/
theorem Keeps.step (h : replica.Keeps) (hbuffers : Buffers admitted replica)
    {pushed : ReplicaCoreActions}
    (hdisciplined : replica.core.Disciplined (pushed ++ replica.coreActions))
    (hnone : proposals replica.coreActions = []) (heffect : Effect replica event next)
    (hexpects : replica.Expects event) : next.Keeps := by
  have hstored := hdisciplined.stored
  have htrades := heffect.trades hstored
  have hlt : ∀ key ∈ votes replica.coreActions, key < replica.core.nodes.length := by
    intro key hkey
    refine (hdisciplined.voted key ?_).lt
    rw [votes_append]
    exact List.mem_append_right _ hkey
  have hnarrow : replica.Honours → Narrows replica next → event.spent? = none → next.Keeps := by
    intro h hnarrows hspent
    refine .honours (h.narrow hnarrows hlt fun _ _ _ hsome => htrades.nonces hsome ?_)
    exact fun _ heq => absurd (hspent.symm.trans heq) nofun
  cases heffect with
  | init hidle =>
      refine hnarrow (h.of_empty hidle.1) ?_ rfl
      apply Narrows.congr <;> unfold refillNonces <;> split <;> rfl
  | tick | ignore => exact h
  | request hidle hhandle =>
      refine hnarrow (h.of_empty hidle.1) (Narrows.handle_other hstored ?_ hhandle) rfl
      exact fun _ _ => ⟨nofun, nofun⟩
  | accept hidle hadmits => exact Keeps.accept (h.of_empty hidle.1) hbuffers hidle (hexpects hadmits)
  | @park generic block hidle hadmits _ hparent =>
      refine .honours ((h.of_empty hidle.1).receive hbuffers hidle (hexpects hadmits) ?_ rfl hidle.2
        rfl rfl ?_)
      · intro habove
        refine ⟨habove, fun parent hknown => ?_⟩
        cases hparent.symm.trans hknown
      · intro spot entry hmem
        rw [waitingAt_park] at hmem
        split at hmem
        · rcases List.mem_append.mp hmem with hold | hnew
          · exact .inl (by cases spot <;> exact hold)
          · exact .inr (List.mem_singleton.mp hnew)
        · exact .inl (by cases spot <;> exact hmem)
  | vote hidle htaken => exact hnarrow (h.of_empty hidle.1) (Narrows.taken hstored htaken) rfl
  | supply hidle => exact hnarrow (h.of_empty hidle.1) (Narrows.congr rfl rfl rfl rfl rfl) rfl
  | @defer blockDigest block rest hpending hjustify =>
      cases h with
      | honours h => exact hnarrow h (Narrows.defer hpending _) rfl
      | refuses hentry _ hknown =>
          obtain ⟨rfl, -⟩ := List.cons.inj (hentry.symm.trans hpending)
          rw [hjustify] at hknown
          cases hknown
  | @release blockDigest block rest next hpending hjustify hhandle =>
      have hdigest := hbuffers.digest _ (hbuffers.head hpending).1
      refine .honours ?_
      cases h with
      | honours h =>
          refine Honours.release (h.pop hpending hlt) hstored hlt hdigest ?_ hhandle
          intro hvotable publicCommitments hlisting
          have hmine : replica.Promised block.height publicCommitments := by
            refine @Promised.waiting _ _ _ _ none (blockDigest, block) ?_ rfl hvotable.1 hlisting
            rw [waitingAt, hpending]
            exact List.mem_cons_self
          refine ⟨h.nonce _ _ hmine, fun height hpromised => h.once _ _ _ ?_ hmine⟩
          exact (Narrows.pop hpending).promised hlt hpromised
      | refuses hentry _ _ hnot h =>
          obtain ⟨rfl, rfl⟩ := List.cons.inj (hentry.symm.trans hpending)
          exact Honours.release h hstored hlt hdigest (fun hvotable => absurd hvotable hnot) hhandle
  | propose _ hqueue =>
      rw [hqueue] at hnone
      cases hnone
  | perform hpending hqueue hnode hsigners hvote =>
      exact .honours ((h.of_empty hpending).perform hdisciplined hqueue hnode hsigners hvote htrades)
  | @finalize key rest node hpending hqueue =>
      refine hnarrow (h.of_empty hpending) (Narrows.congr rfl ?_ rfl rfl rfl) rfl
      rw [hqueue]
      rfl

end Replica

variable {coreConfig : ReplicaCoreConfig} {cryptoConfig : CryptoConfig scheme}
  {history : List (Replica.Event scheme)} {replica : Replica scheme}

/-- In runs whose calls are foreseen, a backup keeps its promises. -/
theorem GuardedRun.keeps (hrun : GuardedRun Replica.Expects coreConfig cryptoConfig history replica)
    (hbackup : coreConfig.id ≠ 0) : replica.Keeps := by
  induction hrun with
  | start hinit =>
      subst hinit
      have hnone : ∀ height publicCommitments,
          ¬(Replica.new coreConfig cryptoConfig).Promised height publicCommitments := by
        rintro height publicCommitments (hkey | @⟨spot, entry, hmem⟩)
        · cases hkey
        · cases spot <;> cases hmem
      exact .honours ⟨fun _ _ h => absurd h (hnone _ _), fun _ _ _ h => absurd h (hnone _ _)⟩
  | @step history replica event next hprev hstep ih =>
      have hlocal := GuardedRun.localRun hprev
      obtain ⟨admitted, hadmitting⟩ := hlocal.admitting
      have hnone := hlocal.no_proposals hbackup
      rw [proposals_append, List.append_eq_nil_iff] at hnone
      exact ih.step hadmitting.buffers hlocal.disciplined hnone.2 hstep.1.effect hstep.2

end BftKit.Hotstuff
