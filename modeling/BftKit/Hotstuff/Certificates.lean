import BftKit.Hotstuff.Row
import BftKit.Hotstuff.Safety

/-! # Sound certificates

A justification whose node is in the index already is not verified when it arrives.
It is not stored either, now or later: the index only grows. So every certificate but
the one of genesis verifies, and so does every justification that is sent.
-/

namespace BftKit.Hotstuff

open Foundation Threshold

variable {scheme : ThresholdScheme}

namespace ReplicaCore

/-- Certificates other than that of genesis verify on the digests of their nodes. -/
def Verified (config : CryptoConfig scheme) (core : ReplicaCore scheme) : Prop :=
  ∀ key, 0 < key → key < core.quorumCerts.length →
    config.Verifies ⟨core.digestOf (core.certAt key).node, (core.certAt key).sig⟩

variable {core core' stored : ReplicaCore scheme} {source : Message.Block scheme → Prop}
  {config : CryptoConfig scheme} {event : ReplicaCoreEvent scheme} {pushed : ReplicaCoreActions}

theorem Verified.grows (h : Verified config core) (hstored : Stored core)
    (hgrows : Grows core core')
    (hnew : ∀ key, core.quorumCerts.length ≤ key → key < core'.quorumCerts.length →
      config.Verifies ⟨core'.digestOf (core'.certAt key).node, (core'.certAt key).sig⟩) :
    Verified config core' := by
  intro key hpos hlt
  rcases Nat.lt_or_ge key core.quorumCerts.length with hold | hge
  · rw [hgrows.certAt hold, hgrows.digestOf (hstored.cert key)]
    exact h key hpos hold
  · exact hnew key hge hlt

/-- A certificate that comes with a block is about a node without one, so not about
genesis. -/
theorem Ingested.certified {blockDigest : Digest} {block : Message.Block scheme}
    (h : Ingested core blockDigest block stored) (hstored : Stored core)
    (hvetted : Vetted source config stored) {key : Nat} (hge : core.quorumCerts.length ≤ key)
    (hlt : key < stored.quorumCerts.length) :
    config.Verifies ⟨stored.digestOf (stored.certAt key).node, (stored.certAt key).sig⟩ := by
  rcases h.cert with ⟨heq, -⟩ | ⟨heq, hunknown⟩
  · rw [heq] at hlt
    exact absurd hlt (not_lt.mpr hge)
  · rcases hvetted.certs key hlt with hzero | hverifies
    · exfalso
      obtain rfl : key = core.quorumCerts.length := by
        rw [heq, List.length_append, List.length_singleton] at hlt
        omega
      have hlast : stored.certAt core.quorumCerts.length =
          ⟨stored.justifiedOf core.nodes.length, block.justify.sig⟩ := certAt_pushed heq
      have hjustified : stored.justifiedOf core.nodes.length = 0 := by
        rw [hlast] at hzero
        exact hzero
      have hindex := (hstored.index _ _).mp (hjustified ▸ h.justified)
      rw [← hindex.2, hstored.digestOf_zero, hstored.certIndex_zero] at hunknown
      cases hunknown
    · exact hverifies

theorem Verified.handle (h : Verified config core) (hstored : Stored core)
    (hvetted : Vetted source config core) (hvets : core.Vets source config event)
    (hhandle : core.handle event = .ok (core', pushed)) : Verified config core' := by
  obtain ⟨middle, reactions, beats, hreacted, hbeat, rfl⟩ := hstored.handle_ok hhandle
  have hgrows : Grows core core' := (hstored.handle hhandle).2
  have hingested : ∀ {blockDigest block stored}, Ingested core blockDigest block stored →
      SameStore stored middle → source block → scheme.digest block = blockDigest →
      core.Justified config block.justify → Verified config core' := by
    intro blockDigest block stored hingested hmiddle hsource hdigest hjustified
    have hsame := hmiddle.trans hbeat.sameStore
    refine h.grows hstored hgrows fun key hge hlt => ?_
    rw [hsame.quorumCerts] at hlt
    rw [hsame.certAt, hsame.digestOf]
    exact hingested.certified hstored
      (hvetted.ingested hstored hingested hsource hdigest hjustified) hge hlt
  cases hreacted with
  | request =>
      refine h.grows hstored hgrows fun key hge hlt => ?_
      rw [hbeat.sameStore.quorumCerts] at hlt
      exact absurd hlt (not_lt.mpr hge)
  | proposal hin _ hupdated =>
      obtain ⟨hsource, hdigest, hjustified⟩ := hvets
      have hsame := hupdated.sameStore
      exact hingested hin ⟨hsame.config, hsame.nodes, hsame.nodeIndex, hsame.quorumCerts,
        hsame.quorumCertIndex⟩ hsource hdigest hjustified
  | proposed hin _ hupdated =>
      obtain ⟨hsource, hdigest, hjustified⟩ := hvets
      have hsame := hupdated.sameStore
      exact hingested hin ⟨hsame.config, hsame.nodes, hsame.nodeIndex, hsame.quorumCerts,
        hsame.quorumCertIndex⟩ hsource hdigest hjustified
  | @quorumCert quorumCert node hknown =>
      have hsame := (raised_sameStore { core with
        quorumCerts := core.quorumCerts ++ [⟨node, quorumCert.sig⟩] }
        core.quorumCerts.length).trans hbeat.sameStore
      refine h.grows hstored hgrows fun key hge hlt => ?_
      obtain ⟨hnode, hdigest⟩ := (hstored.index _ _).mp hknown
      rw [hsame.quorumCerts, List.length_append, List.length_singleton] at hlt
      obtain rfl : key = core.quorumCerts.length := by omega
      have hlast : core'.certAt core.quorumCerts.length = ⟨node, quorumCert.sig⟩ :=
        certAt_pushed hsame.quorumCerts
      rw [hlast, hgrows.digestOf hnode, hdigest]
      exact hvets

end ReplicaCore

namespace Replica

/-- The certificates that a replica stores, indexes and sends are sound. -/
structure SoundCertificates (config : CryptoConfig scheme) (history : List (Event scheme))
    (replica : Replica scheme) : Prop where
  genesis : replica.core.quorumCerts[0]? = some ⟨0, .vec []⟩
  certs : ∀ key cert, 0 < key → replica.core.quorumCerts[key]? = some cert →
    ∃ node, replica.core.nodes[cert.node]? = some node ∧ config.Verifies ⟨node.digest, cert.sig⟩
  index : ∀ digest key, replica.core.quorumCertIndex.lookup digest = some key →
    ∃ cert node, replica.core.quorumCerts[key]? = some cert ∧
      replica.core.nodes[cert.node]? = some node ∧ node.digest = digest
  /-- A proposal that is sent carries the certificate of genesis or one that verifies. -/
  sent : ∀ entry ∈ generics history,
    entry.2.justify = ⟨.zero, .vec []⟩ ∨ config.Verifies entry.2.justify

variable {replica next : Replica scheme} {event : Event scheme}

/-- A proposal carries a stored certificate. -/
theorem proposalBlock_justify {data : NodeData} {block : Message.Block scheme}
    {config : CryptoConfig scheme} (hstored : replica.core.Stored)
    (hverified : replica.core.Verified config) (hblock : replica.proposalBlock data = .ok block) :
    block.justify = ⟨.zero, .vec []⟩ ∨ config.Verifies block.justify := by
  unfold proposalBlock at hblock
  simp only [bind_eq_ok] at hblock
  obtain ⟨justify, hjustify, justified, hjustified, parent, -, heq⟩ := hblock
  obtain rfl := Except.ok.inj heq
  unfold ReplicaCore.quorumCert at hjustify
  split at hjustify
  next => cases hjustify
  next cert hcert =>
    obtain rfl := Except.ok.inj hjustify
    obtain ⟨hlt, -⟩ := List.getElem?_eq_some_iff.mp hcert
    obtain rfl := ReplicaCore.certAt_eq hcert
    rw [ReplicaCore.Stored.node_ok (hstored.cert _)] at hjustified
    obtain rfl := Except.ok.inj hjustified
    rcases Nat.eq_zero_or_pos data.justify with hzero | hpos
    · left
      rw [hzero, hstored.genesisCert]
      exact congrArg₂ Message.QuorumCert.mk hstored.digestOf_zero rfl
    · exact .inr (hverified data.justify hpos hlt)

end Replica

variable {coreConfig : ReplicaCoreConfig} {cryptoConfig : CryptoConfig scheme}
  {history : List (Replica.Event scheme)} {replica : Replica scheme}

theorem LocalRun.verified (hrun : LocalRun coreConfig cryptoConfig history replica)
    (hsound : AggregateSound scheme) : replica.core.Verified cryptoConfig := by
  induction hrun with
  | start hinit =>
      subst hinit
      intro key hpos hlt
      exact absurd (Nat.lt_one_iff.mp hlt) hpos.ne'
  | @step history replica event next hprev hstep ih =>
      have hstored := LocalRun.stored hprev
      have hconfig := LocalRun.cryptoConfig_eq hprev
      have hvetted := LocalRun.vetted hprev hsound
      have hvetted' : replica.Vetted fun _ => True :=
        ⟨hvetted.core.mono fun _ _ => trivial, fun entry hwaits =>
          ⟨trivial, (hvetted.waiting entry hwaits).2⟩⟩
      rw [← hconfig] at ih ⊢
      cases hstep.effect.core with
      | keep hcore => rwa [hcore]
      | give hgives hhandle =>
          exact ih.handle hstored hvetted'.core
            (hgives.vets hsound hstored hvetted' fun _ _ => trivial) hhandle

theorem LocalRun.sent_verified (hrun : LocalRun coreConfig cryptoConfig history replica)
    (hsound : AggregateSound scheme) : ∀ entry ∈ Replica.generics history,
      entry.2.justify = ⟨.zero, .vec []⟩ ∨ cryptoConfig.Verifies entry.2.justify := by
  induction hrun with
  | start => simp [Replica.generics]
  | @step history replica event next hprev hstep ih =>
      intro entry hmem
      rw [Replica.generics_concat] at hmem
      rcases List.mem_append.mp hmem with hold | hnew
      · exact ih entry hold
      · rcases hstep.effect.generics with hnone | ⟨data, rest, block, signers, pushed, -, hblock,
          hsome, -⟩
        · rw [hnone] at hnew
          cases hnew
        · rw [hsome, List.mem_singleton] at hnew
          subst hnew
          exact Replica.proposalBlock_justify (LocalRun.stored hprev)
            (LocalRun.verified hprev hsound) hblock

/-- Whatever a replica receives, in any order, the certificates are sound in every
state that it reaches. This goes for every configuration and all keys, as long as aggregation
checks what it returns. -/
theorem certificates_sound (hrun : LocalRun coreConfig cryptoConfig history replica)
    (hsound : AggregateSound scheme) : replica.SoundCertificates cryptoConfig history := by
  have hstored := LocalRun.stored hrun
  have hverified := LocalRun.verified hrun hsound
  constructor
  · rw [ReplicaCore.getElem?_quorumCerts hstored.certs_pos, hstored.genesisCert]
  · intro key cert hpos hcert
    obtain ⟨hlt, -⟩ := List.getElem?_eq_some_iff.mp hcert
    obtain rfl := ReplicaCore.certAt_eq hcert
    exact ⟨_, ReplicaCore.getElem?_nodes (hstored.cert key), hverified key hpos hlt⟩
  · intro digest key hlookup
    obtain ⟨hlt, hdigest⟩ := hstored.certIndex digest key hlookup
    exact ⟨_, _, ReplicaCore.getElem?_quorumCerts hlt,
      ReplicaCore.getElem?_nodes (hstored.cert key), hdigest⟩
  · exact LocalRun.sent_verified hrun hsound

/-- A leader that aggregates four certificates and sends four blocks. -/
theorem certificates_sound_lead :
    ∃ (history : List (Replica.Event .transparent)) (replica : Replica .transparent),
      (Replica.generics history).length = 4 ∧ replica.core.quorumCerts.length = 8 ∧
      replica.SoundCertificates ((Group.four ∅).cryptoConfig 0) history := by
  have hreplay : ∃ run ∈ Group.replay (fun _ _ => True) (Group.four ∅) Group.fourLead,
      (Replica.generics (view 0 run.1)).length = 4 ∧
      (run.2 0).core.quorumCerts.length = 8 := by
    decide +kernel
  obtain ⟨⟨history, states⟩, hrun, hsent, hcerts⟩ := hreplay
  have hhonest : (Group.four ∅).Honest 0 := by decide
  exact ⟨view 0 history, states 0, hsent, hcerts,
    certificates_sound ((Group.replay_run hrun).groupRun.localRun hhonest)
      Group.transparent_aggregateSound⟩

end BftKit.Hotstuff
