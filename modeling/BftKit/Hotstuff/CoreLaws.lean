import BftKit.Hotstuff.Store

/-! # Laws of the core

What each event can do to a well-formed core, and how it can fail. Everything
proved about the core rests on these laws rather than on its code.
-/

namespace BftKit.Hotstuff

open Foundation Threshold

variable {scheme : ThresholdScheme}

namespace ReplicaCore

variable {core core' : ReplicaCore scheme}

theorem new_stored (config : ReplicaCoreConfig) : Stored (new scheme config) where
  nodes_pos := Nat.one_pos
  certs_pos := Nat.one_pos
  genesis := rfl
  genesisCert := rfl
  index := by
    intro digest key
    have hlookup : (new scheme config).nodeIndex.lookup digest =
        if digest = .zero then some 0 else none := by
      by_cases heq : digest = .zero
      · rw [if_pos heq, heq]
        exact Finmap.lookup_singleton_eq
      · rw [if_neg heq, Finmap.lookup_eq_none]
        exact fun hmem => heq ((Finmap.mem_singleton _ _ _).mp hmem)
    rw [hlookup]
    constructor
    · intro hsome
      split at hsome
      next heq =>
        obtain rfl := Option.some.inj hsome
        exact ⟨Nat.one_pos, heq.symm⟩
      next => cases hsome
    · rintro ⟨hlt, hdigest⟩
      obtain rfl : key = 0 := Nat.lt_one_iff.mp hlt
      exact if_pos hdigest.symm
  parent := by
    intro key hkey
    have hdefault : (new scheme config).nodeAt key = ReplicaCore.genesis :=
      List.getD_eq_default _ _ hkey
    rw [parentOf, hdefault]
    exact hkey
  justified := by
    intro key hkey
    have hdefault : (new scheme config).nodeAt key = ReplicaCore.genesis :=
      List.getD_eq_default _ _ hkey
    rw [justifiedOf, hdefault]
    exact hkey
  justify := by
    intro key
    cases key <;> exact Nat.one_pos
  cert := by
    intro key
    cases key <;> exact Nat.one_pos
  certIndex := by
    intro digest key hlookup
    have hmem : digest = .zero :=
      (Finmap.mem_singleton _ _ _).mp (Finmap.mem_of_lookup_eq_some hlookup)
    subst hmem
    obtain rfl := Option.some.inj (Finmap.lookup_singleton_eq.symm.trans hlookup)
    exact ⟨Nat.one_pos, rfl⟩
  certIndex_zero := Finmap.lookup_singleton_eq
  lock := Nat.one_pos
  execute := Nat.one_pos
  leaf := Nat.one_pos
  high := Nat.one_pos
  pool := by
    refine ⟨[], ?_⟩
    unfold new
    cases config.openLoop
    · exact CommandPool.closeLoop_new_issued
    · exact CommandPool.openLoop_new_issued

/-! ## Growing the store -/

theorem Stored.addCert (h : Stored core) (cert : QuorumCert scheme)
    (hnode : cert.node < core.nodes.length) :
    Stored { core with quorumCerts := core.quorumCerts ++ [cert] } := by
  have hgrows : Grows core { core with quorumCerts := core.quorumCerts ++ [cert] } :=
    ⟨rfl, List.prefix_rfl, List.prefix_append _ _⟩
  have hlength : core.quorumCerts.length < (core.quorumCerts ++ [cert]).length := by simp
  exact { h with
    certs_pos := h.certs_pos.trans hlength
    genesisCert := (hgrows.certAt h.certs_pos).trans h.genesisCert
    justified := by
      intro key hkey
      have hjustified := h.justified key hkey
      rwa [justifiedOf, ← hgrows.certAt (h.justify key)] at hjustified
    justify := fun key => (h.justify key).trans hlength
    cert := by
      intro key
      rw [certAt, List.getD_eq_getElem?_getD]
      rcases lt_trichotomy key core.quorumCerts.length with hlt | rfl | hlt
      · rw [List.getElem?_append_left hlt, ← List.getD_eq_getElem?_getD]
        exact h.cert key
      · rw [List.getElem?_concat_length]
        exact hnode
      · rw [List.getElem?_eq_none (by simp; omega)]
        exact h.nodes_pos
    certIndex := by
      intro digest key hlookup
      obtain ⟨hkey, hdigest⟩ := h.certIndex digest key hlookup
      rw [← hgrows.certAt hkey] at hdigest
      exact ⟨hkey.trans hlength, hdigest⟩
    high := h.high.trans hlength }

theorem Stored.indexCert (h : Stored core) {digest : Digest} {key : Nat}
    (hfresh : core.quorumCertIndex.lookup digest = none) (hkey : key < core.quorumCerts.length)
    (hdigest : core.digestOf (core.certAt key).node = digest) :
    Stored { core with quorumCertIndex := core.quorumCertIndex.insert digest key } := by
  have hne : Digest.zero ≠ digest := by
    rintro rfl
    cases hfresh.symm.trans h.certIndex_zero
  exact { h with
    certIndex := by
      intro other key' hlookup
      rw [Map.lookup_insert] at hlookup
      split at hlookup
      next heq =>
        obtain rfl := Option.some.inj hlookup
        exact ⟨hkey, hdigest.trans heq.symm⟩
      next => exact h.certIndex other key' hlookup
    certIndex_zero := by
      rw [Map.lookup_insert, if_neg hne]
      exact h.certIndex_zero }

theorem Stored.addNode (h : Stored core) {node : Node}
    (hparent : node.parent < core.nodes.length) (hjustify : node.justify < core.quorumCerts.length)
    (hfresh : core.nodeIndex.lookup node.digest = none) :
    Stored { core with
      nodes := core.nodes ++ [node]
      nodeIndex := core.nodeIndex.insert node.digest core.nodes.length } := by
  set next : ReplicaCore scheme := { core with
    nodes := core.nodes ++ [node]
    nodeIndex := core.nodeIndex.insert node.digest core.nodes.length } with hnext
  have hgrows : Grows core next := ⟨rfl, List.prefix_append _ _, List.prefix_rfl⟩
  have hlength : next.nodes.length = core.nodes.length + 1 := by simp [hnext]
  have hlast : next.nodeAt core.nodes.length = node := nodeAt_pushed rfl
  -- keys without a node read as genesis, as they did before
  have hbeyond : ∀ key, core.nodes.length < key → next.nodeAt key = ReplicaCore.genesis :=
    fun key hkey => List.getD_eq_default _ _ (by omega)
  have hcert : ∀ key, next.certAt key = core.certAt key := fun _ => rfl
  refine { h with
    nodes_pos := by omega
    genesis := (hgrows.nodeAt h.nodes_pos).trans h.genesis
    index := ?_
    parent := ?_
    justified := ?_
    justify := ?_
    cert := fun key => (h.cert key).trans (by omega)
    certIndex := ?_
    lock := h.lock.trans (by omega)
    execute := h.execute.trans (by omega)
    leaf := h.leaf.trans (by omega) }
  · intro digest key
    rw [Map.lookup_insert]
    split
    next heq =>
      subst heq
      constructor
      · intro hsome
        obtain rfl := Option.some.inj hsome
        exact ⟨by omega, by rw [digestOf, hlast]⟩
      · rintro ⟨hlt, hdigest⟩
        rcases Nat.lt_succ_iff_lt_or_eq.mp (hlength ▸ hlt) with hlt | rfl
        · rw [hgrows.digestOf hlt] at hdigest
          cases hfresh.symm.trans ((h.index _ key).mpr ⟨hlt, hdigest⟩)
        · rfl
    next hne =>
      rw [h.index]
      constructor
      · rintro ⟨hlt, hdigest⟩
        exact ⟨by omega, (hgrows.digestOf hlt).trans hdigest⟩
      · rintro ⟨hlt, hdigest⟩
        rcases Nat.lt_succ_iff_lt_or_eq.mp (hlength ▸ hlt) with hlt | rfl
        · exact ⟨hlt, (hgrows.digestOf hlt).symm.trans hdigest⟩
        · rw [digestOf, hlast] at hdigest
          exact absurd hdigest.symm hne
  · intro key hkey
    rcases lt_trichotomy key core.nodes.length with hlt | rfl | hlt
    · rw [hgrows.parentOf hlt]
      exact h.parent key hkey
    · rw [parentOf, hlast]
      exact hparent
    · rw [parentOf, hbeyond key hlt]
      exact hkey
  · intro key hkey
    rcases lt_trichotomy key core.nodes.length with hlt | rfl | hlt
    · rw [hgrows.justifiedOf h hlt]
      exact h.justified key hkey
    · rw [justifiedOf, hlast]
      exact h.cert _
    · rw [justifiedOf, hbeyond key hlt, hcert]
      change (core.certAt 0).node < key
      rw [h.genesisCert]
      exact hkey
  · intro key
    rcases lt_trichotomy key core.nodes.length with hlt | rfl | hlt
    · rw [hgrows.nodeAt hlt]
      exact h.justify key
    · rw [hlast]
      exact hjustify
    · rw [hbeyond key hlt]
      exact h.certs_pos
  · intro digest key hlookup
    obtain ⟨hkey, hdigest⟩ := h.certIndex digest key hlookup
    exact ⟨hkey, (hgrows.digestOf (h.cert key)).trans hdigest⟩

/-- A justification is found, or added when its node has none yet. -/
structure JustifyIngested (core : ReplicaCore scheme) (justify : Message.QuorumCert scheme)
    (core' : ReplicaCore scheme) (key : Nat) : Prop where
  known : core.nodeIndex.lookup justify.node = some (core'.certAt key).node
  key_lt : key < core'.quorumCerts.length
  cert : core'.quorumCerts = core.quorumCerts ∧
      (core.quorumCertIndex.lookup justify.node).isSome ∨
    core'.quorumCerts = core.quorumCerts ++ [⟨(core'.certAt key).node, justify.sig⟩] ∧
      core.quorumCertIndex.lookup justify.node = none
  certIndex : ∀ digest, (core'.quorumCertIndex.lookup digest).isSome ↔
    (core.quorumCertIndex.lookup digest).isSome ∨ digest = justify.node
  rest : core' = { core with
    quorumCerts := core'.quorumCerts
    quorumCertIndex := core'.quorumCertIndex }
  stored : Stored core'

theorem Stored.ingestJustify_cases (h : Stored core) (justify : Message.QuorumCert scheme) :
    (∃ core' key, core.ingestJustify justify = .ok (core', key) ∧
      JustifyIngested core justify core' key) ∨
    core.ingestJustify justify = .error .index ∧ core.nodeIndex.lookup justify.node = none := by
  unfold ingestJustify
  cases hcert : core.quorumCertIndex.lookup justify.node with
  | some key =>
      obtain ⟨hkey, hdigest⟩ := h.certIndex _ key hcert
      refine .inl ⟨core, key, rfl, ?_⟩
      exact {
        known := (h.index _ _).mpr ⟨h.cert key, hdigest⟩
        key_lt := hkey
        cert := .inl ⟨rfl, by rw [hcert]; rfl⟩
        certIndex := by
          intro digest
          refine ⟨.inl, ?_⟩
          rintro (hsome | rfl)
          · exact hsome
          · rw [hcert]
            rfl
        rest := rfl
        stored := h }
  | none =>
      unfold nodeKey
      cases hnode : core.nodeIndex.lookup justify.node with
      | none => exact .inr ⟨rfl, rfl⟩
      | some node =>
          -- the first certificate of the node is stored and indexed
          obtain ⟨hlt, hdigest⟩ := (h.index _ node).mp hnode
          have hadded := h.addCert ⟨node, justify.sig⟩ hlt
          set core₁ : ReplicaCore scheme := { core with
            quorumCerts := core.quorumCerts ++ [⟨node, justify.sig⟩] } with hcore₁
          have hlast : core₁.certAt core.quorumCerts.length = ⟨node, justify.sig⟩ :=
            certAt_pushed rfl
          have hlength : core.quorumCerts.length < core₁.quorumCerts.length := by simp [hcore₁]
          have hdigest₁ : core₁.digestOf (core₁.certAt core.quorumCerts.length).node =
              justify.node := by rw [hlast]; exact hdigest
          refine .inl ⟨_, core.quorumCerts.length, rfl, ?_⟩
          exact {
            known := hnode.trans (congrArg some (congrArg QuorumCert.node hlast).symm)
            key_lt := hlength
            cert := .inr ⟨by
              change core₁.quorumCerts = _ ++ [⟨(core₁.certAt core.quorumCerts.length).node, _⟩]
              rw [hlast], hcert⟩
            certIndex := by
              intro digest
              rw [Map.lookup_insert]
              split
              next heq => simp [heq]
              next hne => simp [hne]
            rest := rfl
            stored := hadded.indexCert hcert hlength hdigest₁ }

/-- A block is stored under the next key. -/
structure Ingested (core : ReplicaCore scheme) (blockDigest : Digest)
    (block : Message.Block scheme) (core' : ReplicaCore scheme) : Prop where
  fresh : core.nodeIndex.lookup blockDigest = none
  parent : core.nodeIndex.lookup block.parent = some (core'.parentOf core.nodes.length)
  justified :
    core.nodeIndex.lookup block.justify.node = some (core'.justifiedOf core.nodes.length)
  nodes : core'.nodes = core.nodes ++ [core'.nodeAt core.nodes.length]
  digest : core'.digestOf core.nodes.length = blockDigest
  commands : (core'.nodeAt core.nodes.length).commands = block.commands
  height : core'.heightOf core.nodes.length = block.height
  cert : core'.quorumCerts = core.quorumCerts ∧
      (core.quorumCertIndex.lookup block.justify.node).isSome ∨
    core'.quorumCerts =
        core.quorumCerts ++ [⟨core'.justifiedOf core.nodes.length, block.justify.sig⟩] ∧
      core.quorumCertIndex.lookup block.justify.node = none
  certIndex : ∀ digest, (core'.quorumCertIndex.lookup digest).isSome ↔
    (core.quorumCertIndex.lookup digest).isSome ∨ digest = block.justify.node
  rest : core' = { core with
    nodes := core'.nodes
    nodeIndex := core'.nodeIndex
    quorumCerts := core'.quorumCerts
    quorumCertIndex := core'.quorumCertIndex }
  stored : Stored core'

/-- A block is not stored without its parent and the node it justifies, or twice. -/
inductive IngestRefused (core : ReplicaCore scheme) (blockDigest : Digest)
    (block : Message.Block scheme) : Panic → Prop
  | justify (hunknown : core.nodeIndex.lookup block.justify.node = none) :
      IngestRefused core blockDigest block .index
  | parent (hunknown : core.nodeIndex.lookup block.parent = none) :
      IngestRefused core blockDigest block .index
  | known (hknown : (core.nodeIndex.lookup blockDigest).isSome) :
      IngestRefused core blockDigest block .assert

theorem Stored.ingest_cases (h : Stored core) (blockDigest : Digest)
    (block : Message.Block scheme) :
    (∃ core', core.ingest blockDigest block = .ok (core', core.nodes.length) ∧
      Ingested core blockDigest block core') ∨
    ∃ panic, core.ingest blockDigest block = .error panic ∧
      IngestRefused core blockDigest block panic := by
  unfold ingest
  rcases h.ingestJustify_cases block.justify with
    ⟨core₁, key, hjustify, hingested⟩ | ⟨hjustify, hunknown⟩
  · have hnodes : core₁.nodes = core.nodes := by rw [hingested.rest]
    have hindex : core₁.nodeIndex = core.nodeIndex := by rw [hingested.rest]
    simp only [hjustify, ok_bind, nodeKey]
    cases hparent : core₁.nodeIndex.lookup block.parent with
    | none => exact .inr ⟨_, rfl, .parent (hindex ▸ hparent)⟩
    | some parent =>
        simp only [ok_bind]
        cases hdigest : core₁.nodeIndex.lookup blockDigest with
        | some known => exact .inr ⟨_, rfl, .known (by rw [← hindex, hdigest]; rfl)⟩
        | none =>
            let node : Node := {
              parent
              commands := block.commands
              justify := key
              height := block.height
              height_lt := block.height_lt
              digest := blockDigest }
            have hparent_lt := ((hingested.stored.index _ parent).mp hparent).1
            set core₂ : ReplicaCore scheme := { core₁ with
              nodes := core.nodes ++ [node]
              nodeIndex := core₁.nodeIndex.insert blockDigest core.nodes.length } with hcore₂
            have hstored : Stored core₂ := by
              rw [hcore₂, ← hnodes]
              exact hingested.stored.addNode hparent_lt hingested.key_lt hdigest
            have hlast : core₂.nodeAt core.nodes.length = node := nodeAt_pushed rfl
            have hjustified : core₂.justifiedOf core.nodes.length = (core₁.certAt key).node := by
              rw [justifiedOf, hlast]
              rfl
            refine .inl ⟨core₂, by rw [if_neg (by simp), hnodes], ?_⟩
            exact {
              fresh := hindex ▸ hdigest
              parent := by rw [parentOf, hlast, ← hindex, hparent]
              justified := by rw [hjustified, hingested.known]
              nodes := by rw [hlast]
              digest := by rw [digestOf, hlast]
              commands := by rw [hlast]
              height := by rw [heightOf, hlast]
              cert := by
                rw [hjustified]
                exact hingested.cert
              certIndex := hingested.certIndex
              rest := by
                rw [hcore₂, hindex]
                conv_lhs => rw [hingested.rest]
              stored := hstored }
  · rw [hjustify]
    exact .inr ⟨_, rfl, .justify hunknown⟩

theorem Ingested.grows {blockDigest : Digest} {block : Message.Block scheme}
    (h : Ingested core blockDigest block core') : Grows core core' where
  config := by rw [h.rest]
  nodes := h.nodes ▸ List.prefix_append _ _
  certs := by
    rcases h.cert with ⟨heq, -⟩ | ⟨heq, -⟩
    · rw [heq]
    · rw [heq]
      exact List.prefix_append _ _

theorem Ingested.length {blockDigest : Digest} {block : Message.Block scheme}
    (h : Ingested core blockDigest block core') :
    core'.nodes.length = core.nodes.length + 1 := by
  rw [h.nodes, List.length_append, List.length_singleton]

end ReplicaCore

end BftKit.Hotstuff
