import BftKit.Hotstuff.Trace

/-! # Where blocks and certificates come from

A stored node comes from a block that the replica has received or sent, and whose
hash is its digest. A stored certificate verifies, or is one of genesis: what is not
verified on arrival is in the index already.
-/

namespace BftKit.Hotstuff

open Foundation Threshold

variable {scheme : ThresholdScheme}

/-- Aggregation checks the signature that it returns. -/
def AggregateSound (scheme : ThresholdScheme) : Prop :=
  ∀ keyShare signers digest sig, scheme.aggregate keyShare signers digest = some sig →
    scheme.verifyGivre (scheme.sharedPublicKey keyShare) digest sig = true

namespace ReplicaCore

/-- A node is stored as a block says. -/
structure Represents (core : ReplicaCore scheme) (key : Nat) (block : Message.Block scheme) :
    Prop where
  digest : core.digestOf key = scheme.digest block
  parent : core.digestOf (core.parentOf key) = block.parent
  justified : core.digestOf (core.justifiedOf key) = block.justify.node
  height : core.heightOf key = block.height
  commands : (core.nodeAt key).commands = block.commands

/-- A justification that is known, or else verifies. -/
def Justified (core : ReplicaCore scheme) (config : CryptoConfig scheme)
    (justify : Message.QuorumCert scheme) : Prop :=
  (core.quorumCertIndex.lookup justify.node).isSome ∨ config.Verifies justify

/-- Nodes come from a source of blocks, and certificates verify. -/
structure Vetted (source : Message.Block scheme → Prop) (config : CryptoConfig scheme)
    (core : ReplicaCore scheme) : Prop where
  nodes : ∀ key, 0 < key → key < core.nodes.length →
    ∃ block, source block ∧ core.Represents key block
  certs : ∀ cert < core.quorumCerts.length, (core.certAt cert).node = 0 ∨
    config.Verifies ⟨core.digestOf (core.certAt cert).node, (core.certAt cert).sig⟩

/-- An event brings a block from the source, or a certificate that verifies. -/
def Vets (source : Message.Block scheme → Prop) (config : CryptoConfig scheme)
    (core : ReplicaCore scheme) : ReplicaCoreEvent scheme → Prop
  | .request _ => True
  | .proposal blockDigest block | .proposed blockDigest block =>
      source block ∧ scheme.digest block = blockDigest ∧ core.Justified config block.justify
  | .quorumCert quorumCert => config.Verifies quorumCert

variable {core core' stored : ReplicaCore scheme} {source source' : Message.Block scheme → Prop}
  {config : CryptoConfig scheme} {event : ReplicaCoreEvent scheme} {pushed : ReplicaCoreActions}

theorem Represents.grows {key : Nat} {block : Message.Block scheme} (h : core.Represents key block)
    (hgrows : Grows core core') (hstored : Stored core) (hkey : key < core.nodes.length) :
    core'.Represents key block where
  digest := (hgrows.digestOf hkey).trans h.digest
  parent := by
    rw [hgrows.parentOf hkey, hgrows.digestOf ((hstored.parentOf_le key).trans_lt hkey)]
    exact h.parent
  justified := by
    rw [hgrows.justifiedOf hstored hkey, hgrows.digestOf (hstored.justifiedOf_lt key)]
    exact h.justified
  height := (hgrows.heightOf hkey).trans h.height
  commands := by
    rw [hgrows.nodeAt hkey]
    exact h.commands

/-- The node that a block is stored as. -/
theorem Ingested.represents {blockDigest : Digest} {block : Message.Block scheme}
    (h : Ingested core blockDigest block stored) (hstored : Stored core)
    (hdigest : scheme.digest block = blockDigest) : stored.Represents core.nodes.length block where
  digest := h.digest.trans hdigest.symm
  parent := by
    obtain ⟨hlt, hparent⟩ := (hstored.index _ _).mp h.parent
    rw [h.grows.digestOf hlt, hparent]
  justified := by
    obtain ⟨hlt, hjustified⟩ := (hstored.index _ _).mp h.justified
    rw [h.grows.digestOf hlt, hjustified]
  height := h.height
  commands := h.commands

namespace Vetted

theorem new (scheme : ThresholdScheme) (source : Message.Block scheme → Prop)
    (config : CryptoConfig scheme) (coreConfig : ReplicaCoreConfig) :
    Vetted source config (new scheme coreConfig) where
  nodes key hpos hlt := absurd (Nat.lt_one_iff.mp hlt) hpos.ne'
  certs cert hlt := by
    obtain rfl : cert = 0 := Nat.lt_one_iff.mp hlt
    exact .inl rfl

theorem mono (h : Vetted source config core) (hsource : ∀ block, source block → source' block) :
    Vetted source' config core where
  nodes key hpos hlt := by
    obtain ⟨block, hblock, hrepresents⟩ := h.nodes key hpos hlt
    exact ⟨block, hsource block hblock, hrepresents⟩
  certs := h.certs

theorem sameStore (h : Vetted source config core) (hstored : Stored core)
    (hsame : SameStore core core') : Vetted source config core' where
  nodes key hpos hlt := by
    rw [hsame.nodes] at hlt
    obtain ⟨block, hblock, hrepresents⟩ := h.nodes key hpos hlt
    exact ⟨block, hblock, hrepresents.grows hsame.grows hstored hlt⟩
  certs := by
    rw [hsame.quorumCerts, hsame.certAt, hsame.digestOf]
    exact h.certs

theorem addCert (h : Vetted source config core) (hstored : Stored core) {cert : QuorumCert scheme}
    (hverifies : config.Verifies ⟨core.digestOf cert.node, cert.sig⟩) :
    Vetted source config { core with quorumCerts := core.quorumCerts ++ [cert] } := by
  set added : ReplicaCore scheme := { core with
    quorumCerts := core.quorumCerts ++ [cert] } with hadded
  have hgrows : Grows core added := ⟨rfl, List.prefix_rfl, List.prefix_append _ _⟩
  constructor
  · intro key hpos hlt
    obtain ⟨block, hblock, hrepresents⟩ := h.nodes key hpos hlt
    exact ⟨block, hblock, hrepresents.grows hgrows hstored hlt⟩
  · intro key hlt
    rcases Nat.lt_or_ge key core.quorumCerts.length with hold | hnew
    · rw [hgrows.certAt hold]
      exact h.certs key hold
    · obtain rfl : key = core.quorumCerts.length := by
        rw [hadded, List.length_append, List.length_singleton] at hlt
        omega
      have hlast : added.certAt core.quorumCerts.length = cert := certAt_pushed rfl
      rw [hlast]
      exact .inr hverifies

theorem ingested {blockDigest : Digest} {block : Message.Block scheme}
    (h : Vetted source config core) (hstored : Stored core)
    (hingested : Ingested core blockDigest block stored) (hsource : source block)
    (hdigest : scheme.digest block = blockDigest)
    (hjustified : core.Justified config block.justify) :
    Vetted source config stored where
  nodes key hpos hlt := by
    rw [hingested.length] at hlt
    rcases Nat.lt_succ_iff_lt_or_eq.mp hlt with hold | rfl
    · obtain ⟨block', hblock, hrepresents⟩ := h.nodes key hpos hold
      exact ⟨block', hblock, hrepresents.grows hingested.grows hstored hold⟩
    · exact ⟨block, hsource, hingested.represents hstored hdigest⟩
  certs := by
    have hold : ∀ cert < core.quorumCerts.length, (stored.certAt cert).node = 0 ∨
        config.Verifies ⟨stored.digestOf (stored.certAt cert).node, (stored.certAt cert).sig⟩ := by
      intro cert hlt
      rw [hingested.grows.certAt hlt, hingested.grows.digestOf (hstored.cert cert)]
      exact h.certs cert hlt
    intro cert hlt
    rcases hingested.cert with ⟨heq, -⟩ | ⟨heq, hunknown⟩
    · exact hold cert (heq ▸ hlt)
    · rcases Nat.lt_or_ge cert core.quorumCerts.length with hlt' | hge
      · exact hold cert hlt'
      · obtain rfl : cert = core.quorumCerts.length := by
          rw [heq, List.length_append, List.length_singleton] at hlt
          omega
        have hlast : stored.certAt core.quorumCerts.length =
            ⟨stored.justifiedOf core.nodes.length, block.justify.sig⟩ := certAt_pushed heq
        rw [hlast, (hingested.represents hstored hdigest).justified]
        rcases hjustified with hknown | hverifies
        · rw [hunknown] at hknown
          cases hknown
        · exact .inr hverifies

theorem handle (h : Vetted source config core) (hstored : Stored core)
    (hvets : core.Vets source config event) (hhandle : core.handle event = .ok (core', pushed)) :
    Vetted source config core' := by
  obtain ⟨middle, reactions, beats, hreacted, hbeat, rfl⟩ := hstored.handle_ok hhandle
  have hmiddle_stored := hreacted.stored hstored
  suffices hmiddle : Vetted source config middle from
    hmiddle.sameStore hmiddle_stored hbeat.sameStore
  cases hreacted with
  | request => exact h.sameStore hstored ⟨rfl, rfl, rfl, rfl, rfl⟩
  | proposal hingested _ hupdated =>
      obtain ⟨hsource, hdigest, hjustified⟩ := hvets
      refine (h.ingested hstored hingested hsource hdigest hjustified).sameStore hingested.stored ?_
      have hvoted := hupdated.sameStore
      exact ⟨hvoted.config, hvoted.nodes, hvoted.nodeIndex, hvoted.quorumCerts,
        hvoted.quorumCertIndex⟩
  | proposed hingested _ hupdated =>
      obtain ⟨hsource, hdigest, hjustified⟩ := hvets
      refine (h.ingested hstored hingested hsource hdigest hjustified).sameStore hingested.stored ?_
      have hvoted := hupdated.sameStore
      exact ⟨hvoted.config, hvoted.nodes, hvoted.nodeIndex, hvoted.quorumCerts,
        hvoted.quorumCertIndex⟩
  | @quorumCert quorumCert key hknown =>
      obtain ⟨hlt, hdigest⟩ := (hstored.index _ _).mp hknown
      have hverifies : config.Verifies ⟨core.digestOf key, quorumCert.sig⟩ := hdigest ▸ hvets
      have hadded := @addCert _ _ _ _ h hstored ⟨key, quorumCert.sig⟩ hverifies
      exact hadded.sameStore (hstored.addCert _ hlt) (raised_sameStore _ _)

end Vetted

/-- Indexed certificates stay indexed. -/
theorem Stored.justified_handle (h : Stored core)
    (hhandle : core.handle event = .ok (core', pushed)) {justify : Message.QuorumCert scheme}
    (hjustified : core.Justified config justify) : core'.Justified config justify := by
  refine hjustified.imp_left fun hknown => ?_
  obtain ⟨middle, reactions, beats, hreacted, hbeat, rfl⟩ := h.handle_ok hhandle
  rw [hbeat.sameStore.quorumCertIndex]
  cases hreacted with
  | request => exact hknown
  | proposal hingested _ hupdated =>
      rw [hupdated.sameStore.quorumCertIndex]
      exact (hingested.certIndex _).mpr (.inl hknown)
  | proposed hingested _ hupdated =>
      rw [hupdated.sameStore.quorumCertIndex]
      exact (hingested.certIndex _).mpr (.inl hknown)
  | quorumCert =>
      rw [(raised_sameStore _ _).quorumCertIndex]
      exact hknown

end ReplicaCore

namespace Replica

/-- A block waits to be released, or for another block. -/
def Waits (replica : Replica scheme) (entry : Digest × Message.Block scheme) : Prop :=
  entry ∈ replica.pending ∨
    ∃ digest parked, replica.reorderingBlocks.lookup digest = some parked ∧ entry ∈ parked

variable {replica next : Replica scheme} {event : Event scheme}
  {entry : Digest × Message.Block scheme}

theorem waits_park {digest : Digest} {parked : Digest × Message.Block scheme}
    (h : (replica.park digest parked).Waits entry) : entry = parked ∨ replica.Waits entry := by
  rcases h with hpending | ⟨other, others, hlookup, hmem⟩
  · exact .inr (.inl hpending)
  · change (replica.reorderingBlocks.insert _ _).lookup other = _ at hlookup
    rw [Map.lookup_insert] at hlookup
    split at hlookup
    next =>
      obtain rfl := Option.some.inj hlookup
      rcases List.mem_append.mp hmem with hmem | hmem
      · cases hparked : replica.reorderingBlocks.lookup digest with
        | none => simp [hparked] at hmem
        | some others =>
            rw [hparked] at hmem
            exact .inr (.inr ⟨digest, others, hparked, hmem⟩)
      · exact .inl (List.mem_singleton.mp hmem)
    next => exact .inr (.inr ⟨other, others, hlookup, hmem⟩)

theorem waits_unpark {digest : Digest} (h : (replica.unpark digest).Waits entry) :
    replica.Waits entry := by
  rcases h with hpending | ⟨other, others, hlookup, hmem⟩
  · change entry ∈ ((replica.reorderingBlocks.lookup digest).getD []).reverse ++ _ at hpending
    rcases List.mem_append.mp hpending with hmem | hmem
    · cases hparked : replica.reorderingBlocks.lookup digest with
      | none => simp [hparked] at hmem
      | some others =>
          rw [hparked] at hmem
          exact .inr ⟨digest, others, hparked, List.mem_reverse.mp hmem⟩
    · exact .inl hmem
  · change (replica.reorderingBlocks.erase digest).lookup other = _ at hlookup
    rw [Map.lookup_erase] at hlookup
    split at hlookup
    next => cases hlookup
    next => exact .inr ⟨other, others, hlookup, hmem⟩

theorem Refilled.waiting {actions : List (Action scheme)} (h : Refilled replica next actions) :
    next.pending = replica.pending ∧ next.reorderingBlocks = replica.reorderingBlocks := by
  cases h with
  | enough => exact ⟨rfl, rfl⟩
  | refill =>
      unfold refillNonces
      split <;> exact ⟨rfl, rfl⟩

theorem VoteTaken.waiting {vote : Message.VoteGeneric scheme} (h : VoteTaken replica vote next) :
    next.pending = replica.pending ∧ next.reorderingBlocks = replica.reorderingBlocks := by
  cases h with
  | share => exact ⟨rfl, rfl⟩
  | quorum _ _ hhandle =>
      obtain ⟨core, actions, -, rfl⟩ := handle_eq_ok.mp hhandle
      exact ⟨rfl, rfl⟩

theorem VotePerformed.waiting {node : Node} {signers : Signers scheme}
    {actions : List (Action scheme)} (h : VotePerformed replica node signers next actions) :
    next.pending = replica.pending ∧ next.reorderingBlocks = replica.reorderingBlocks := by
  cases h with
  | unlisted | unsigned => exact ⟨rfl, rfl⟩
  | signed _ _ _ hcast =>
      cases hcast with
      | leader _ htaken hrefilled =>
          rw [hrefilled.waiting.1, hrefilled.waiting.2]
          exact htaken.waiting
      | backup _ hrefilled => exact hrefilled.waiting

theorem waits_congr (hwaiting : next.pending = replica.pending ∧
    next.reorderingBlocks = replica.reorderingBlocks) (h : next.Waits entry) :
    replica.Waits entry := by
  unfold Waits at h ⊢
  rwa [hwaiting.1, hwaiting.2] at h

/-- Only admitted blocks start to wait. -/
theorem Effect.waits (h : Effect replica event next) (hwaits : next.Waits entry) :
    replica.Waits entry ∨ ∃ generic block, event = .call (.receive (.generic generic block)) [] ∧
      replica.Admits generic block ∧ entry = (generic.block, block) := by
  cases h with
  | init =>
      have hwaiting : replica.refillNonces.1.pending = replica.pending ∧
          replica.refillNonces.1.reorderingBlocks = replica.reorderingBlocks := by
        unfold refillNonces
        split <;> exact ⟨rfl, rfl⟩
      exact .inl (waits_congr hwaiting hwaits)
  | request _ hhandle =>
      obtain ⟨core, actions, -, rfl⟩ := handle_eq_ok.mp hhandle
      exact .inl hwaits
  | tick | ignore | supply | finalize => exact .inl hwaits
  | accept _ hadmits =>
      rcases hwaits with hpending | hparked
      · exact .inr ⟨_, _, rfl, hadmits, List.mem_singleton.mp hpending⟩
      · exact .inl (.inr hparked)
  | park _ hadmits =>
      rcases waits_park hwaits with heq | hold
      · exact .inr ⟨_, _, rfl, hadmits, heq⟩
      · exact .inl hold
  | vote _ htaken => exact .inl (waits_congr htaken.waiting hwaits)
  | @defer blockDigest block rest hpending =>
      refine .inl ?_
      rcases waits_park hwaits with rfl | hold
      · exact .inl (hpending ▸ List.mem_cons_self)
      · exact hold.imp_left fun hmem => hpending ▸ List.mem_cons_of_mem _ hmem
  | release hpending _ hhandle =>
      obtain ⟨core, actions, -, rfl⟩ := handle_eq_ok.mp hhandle
      refine .inl ?_
      have hunparked := waits_unpark hwaits
      exact hunparked.imp_left fun hmem => hpending ▸ List.mem_cons_of_mem _ hmem
  | propose _ _ _ _ _ _ hhandle =>
      obtain ⟨core, actions, -, rfl⟩ := handle_eq_ok.mp hhandle
      exact .inl hwaits
  | perform _ _ _ _ hvote => exact .inl (waits_congr hvote.waiting hwaits)

theorem Admits.justified {generic : Message.Generic scheme} {block : Message.Block scheme}
    (h : replica.Admits generic block) :
    replica.core.Justified replica.cryptoConfig block.justify := by
  have hverified := h.verified
  unfold verifyJustify at hverified
  split at hverified
  next hknown => exact .inl hknown
  next => exact .inr hverified

/-- What is stored comes from a source, and so does what waits. -/
structure Vetted (source : Message.Block scheme → Prop) (replica : Replica scheme) : Prop where
  core : replica.core.Vetted source replica.cryptoConfig
  waiting : ∀ entry, replica.Waits entry → source entry.2 ∧ scheme.digest entry.2 = entry.1 ∧
    replica.core.Justified replica.cryptoConfig entry.2.justify

variable {source : Message.Block scheme → Prop}

/-- A proposal carries its justification. -/
theorem Vetted.proposal {data : NodeData} {block : Message.Block scheme} (h : Vetted source replica)
    (hstored : replica.core.Stored) (hblock : replica.proposalBlock data = .ok block) :
    replica.core.Justified replica.cryptoConfig block.justify := by
  unfold proposalBlock at hblock
  simp only [bind_eq_ok] at hblock
  obtain ⟨justify, hjustify, justified, hjustified, parent, -, heq⟩ := hblock
  obtain rfl := Except.ok.inj heq
  unfold ReplicaCore.quorumCert at hjustify
  split at hjustify
  next => cases hjustify
  next cert hcert =>
    obtain rfl := Except.ok.inj hjustify
    obtain ⟨hlt, -⟩ := List.getElem?_eq_some_iff.mp hcert
    have hat : replica.core.certAt data.justify = cert := ReplicaCore.certAt_eq hcert
    have hdigest : justified.digest = replica.core.digestOf cert.node := by
      have hcert_lt := hstored.cert data.justify
      rw [hat] at hcert_lt
      rw [ReplicaCore.Stored.node_ok hcert_lt] at hjustified
      rw [← Except.ok.inj hjustified, ReplicaCore.digestOf]
    have hcerts := h.core.certs data.justify hlt
    rw [hat] at hcerts
    rcases hcerts with hzero | hverifies
    · refine .inl ?_
      rw [hdigest, hzero, hstored.digestOf_zero, hstored.certIndex_zero]
      rfl
    · exact .inr (by rw [hdigest]; exact hverifies)

theorem Gives.vets {coreEvent : ReplicaCoreEvent scheme} (h : Gives replica event coreEvent)
    (hsound : AggregateSound scheme) (hstored : replica.core.Stored)
    (hvetted : Vetted source replica) (hshown : ∀ block ∈ event.shown, source block) :
    replica.core.Vets source replica.cryptoConfig coreEvent := by
  cases h with
  | request => trivial
  | proposal hpending => exact hvetted.waiting _ (.inl (hpending ▸ List.mem_cons_self))
  | proposed _ hblock =>
      exact ⟨hshown _ (by simp [Event.shown, Event.received?, Event.actions, ReplicaAction.message?,
        ToReplica.block?, ToReplica.generic?]), rfl, hvetted.proposal hstored hblock⟩
  | quorumCert haggregate =>
      exact congrArg Except.ok (hsound _ _ _ _ haggregate)

theorem Effect.vetted (h : Effect replica event next) (hsound : AggregateSound scheme)
    (hstored : replica.core.Stored) (hvetted : Vetted source replica)
    (hshown : ∀ block ∈ event.shown, source block) : Vetted source next := by
  have hconfig := h.cryptoConfig
  have hjustified : ∀ justify, replica.core.Justified replica.cryptoConfig justify →
      next.core.Justified replica.cryptoConfig justify := by
    intro justify hjustify
    cases h.core with
    | keep hcore => rwa [hcore]
    | give _ hhandle => exact hstored.justified_handle hhandle hjustify
  constructor
  · rw [hconfig]
    cases h.core with
    | keep hcore =>
        rw [hcore]
        exact hvetted.core
    | give hgives hhandle =>
        exact hvetted.core.handle hstored (hgives.vets hsound hstored hvetted hshown) hhandle
  · intro entry hwaits
    rw [hconfig]
    rcases h.waits hwaits with hold | ⟨generic, block, rfl, hadmits, rfl⟩
    · obtain ⟨hsource, hdigest, hjustify⟩ := hvetted.waiting entry hold
      exact ⟨hsource, hdigest, hjustified _ hjustify⟩
    · exact ⟨hshown block (by simp [Event.shown, Event.received?]), hadmits.digest,
        hjustified _ hadmits.justified⟩

theorem shown_append (first second : List (Event scheme)) :
    shown (first ++ second) = shown first ++ shown second :=
  List.flatMap_append

end Replica

variable {coreConfig : ReplicaCoreConfig} {cryptoConfig : CryptoConfig scheme}
  {history : List (Replica.Event scheme)} {replica : Replica scheme}

/-- In every run the blocks seen so far are the source. -/
theorem LocalRun.vetted (hrun : LocalRun coreConfig cryptoConfig history replica)
    (hsound : AggregateSound scheme) :
    replica.Vetted (· ∈ Replica.shown history) := by
  induction hrun with
  | start hinit =>
      subst hinit
      refine ⟨.new _ _ _ _, ?_⟩
      rintro entry (hpending | ⟨digest, parked, hlookup, -⟩)
      · cases hpending
      · cases hlookup
  | @step history replica event next hprev hstep ih =>
      have hvetted : replica.Vetted (· ∈ Replica.shown (history ++ [event])) := by
        refine ⟨ih.core.mono ?_, ?_⟩
        · intro block hblock
          rw [Replica.shown_append]
          exact List.mem_append_left _ hblock
        · intro entry hwaits
          obtain ⟨hsource, hrest⟩ := ih.waiting entry hwaits
          rw [Replica.shown_append]
          exact ⟨List.mem_append_left _ hsource, hrest⟩
      refine hstep.effect.vetted hsound (LocalRun.stored hprev) hvetted ?_
      intro block hblock
      rw [Replica.shown_append]
      exact List.mem_append_right _ (by simpa [Replica.shown] using hblock)

end BftKit.Hotstuff
