import BftKit.Hotstuff.Leader
import BftKit.Hotstuff.Vetting

/-! # Rows of blocks

The blocks that a leader proposes are a row: each is on top of the one before it, the
first one on top of genesis, and no two of their digests are equal.
-/

namespace BftKit.Hotstuff

open Foundation Threshold

variable {scheme : ThresholdScheme}

/-- The digests of genesis and of the blocks of a row, by height. -/
def digestAt (blocks : List (Message.Block scheme)) : Nat → Digest
  | 0 => .zero
  | index + 1 => (blocks[index]?.map scheme.digest).getD .zero

/-- Blocks that are each on top of the one before, which they justify. -/
structure Row (blocks : List (Message.Block scheme)) : Prop where
  parent : ∀ index block, blocks[index]? = some block → block.parent = digestAt blocks index
  justify : ∀ index block, blocks[index]? = some block →
    block.justify.node = digestAt blocks index
  height : ∀ index block, blocks[index]? = some block → block.height = index + 1
  distinct : ∀ height ≤ blocks.length, ∀ height' ≤ blocks.length,
    digestAt blocks height = digestAt blocks height' → height = height'

theorem digestAt_succ {blocks : List (Message.Block scheme)} {index : Nat}
    {block : Message.Block scheme} (hblock : blocks[index]? = some block) :
    digestAt blocks (index + 1) = scheme.digest block := by
  rw [digestAt, hblock]
  rfl

namespace ReplicaCore

/-- The nodes of a line are the first blocks of a row. -/
def Stores (core : ReplicaCore scheme) (blocks : List (Message.Block scheme)) : Prop :=
  ∀ index, index + 1 < core.nodes.length →
    ∃ block, blocks[index]? = some block ∧ core.Represents (index + 1) block

variable {core core' : ReplicaCore scheme} {blocks : List (Message.Block scheme)} {key : Nat}

theorem Stores.digestOf (h : core.Stores blocks) (hstored : Stored core)
    (hkey : key < core.nodes.length) : core.digestOf key = digestAt blocks key := by
  cases key with
  | zero => exact hstored.digestOf_zero
  | succ index =>
      obtain ⟨block, hblock, hrepresents⟩ := h index hkey
      rw [hrepresents.digest, digestAt_succ hblock]

theorem Stores.length (h : core.Stores blocks) (hpos : 0 < core.nodes.length) :
    core.nodes.length ≤ blocks.length + 1 := by
  by_contra hlt
  obtain ⟨block, hblock, -⟩ := h (core.nodes.length - 2) (by omega)
  have hindex := (List.getElem?_eq_some_iff.mp hblock).1
  omega

/-- The index finds the digests of the stored part of a row. -/
theorem Stores.lookup (h : core.Stores blocks) (hstored : Stored core) (hrow : Row blocks)
    {height : Nat} (hheight : height ≤ blocks.length) :
    core.nodeIndex.lookup (digestAt blocks height) =
      if height < core.nodes.length then some height else none := by
  have hlength := h.length hstored.nodes_pos
  split
  next hlt => rw [← h.digestOf hstored hlt, hstored.lookup_digestOf hlt]
  next hge =>
    rw [Option.eq_none_iff_forall_ne_some]
    intro key hlookup
    obtain ⟨hlt, hdigest⟩ := (hstored.index _ _).mp hlookup
    rw [h.digestOf hstored hlt] at hdigest
    exact hge (hrow.distinct key (by omega) height hheight hdigest ▸ hlt)

/-- A stored block stays where the next node goes above it. -/
theorem Stores.grows (h : core.Stores blocks) (hstored : Stored core) (hgrows : Grows core core')
    (hnodes : core'.nodes.length = core.nodes.length) : core'.Stores blocks := by
  intro index hindex
  rw [hnodes] at hindex
  obtain ⟨block, hblock, hrepresents⟩ := h index hindex
  exact ⟨block, hblock, hrepresents.grows hgrows hstored hindex⟩

/-- Events that bring a block store it. -/
theorem Stored.handle_block (h : Stored core) {event : ReplicaCoreEvent scheme}
    {blockDigest : Digest} {block : Message.Block scheme} {pushed : ReplicaCoreActions}
    (hevent : event = .proposal blockDigest block ∨ event = .proposed blockDigest block)
    (hdigest : scheme.digest block = blockDigest)
    (hhandle : core.handle event = .ok (core', pushed)) :
    core'.Represents core.nodes.length block ∧ core'.nodes.length = core.nodes.length + 1 := by
  obtain ⟨middle, reactions, beats, hreacted, hbeat, rfl⟩ := h.handle_ok hhandle
  have hadded : ∀ {stored voted : ReplicaCore scheme}, Ingested core blockDigest block stored →
      SameStore voted middle → SameStore stored voted →
      core'.Represents core.nodes.length block ∧ core'.nodes.length = core.nodes.length + 1 := by
    intro stored voted hingested hmiddle hvoted
    have hsame := (hvoted.trans hmiddle).trans hbeat.sameStore
    have hlength := hingested.length
    refine ⟨?_, by rw [hsame.nodes, hlength]⟩
    exact (hingested.represents h hdigest).grows hsame.grows hingested.stored (by omega)
  rcases hevent with rfl | rfl
  · cases hreacted with
    | proposal hingested _ hupdated =>
        exact hadded hingested hupdated.sameStore ⟨rfl, rfl, rfl, rfl, rfl⟩
  · cases hreacted with
    | proposed hingested _ hupdated =>
        exact hadded hingested hupdated.sameStore ⟨rfl, rfl, rfl, rfl, rfl⟩

/-- Other events store no block. -/
theorem Stored.handle_nodes (h : Stored core) {event : ReplicaCoreEvent scheme}
    {pushed : ReplicaCoreActions}
    (hevent : ∀ blockDigest block, event ≠ .proposal blockDigest block ∧
      event ≠ .proposed blockDigest block)
    (hhandle : core.handle event = .ok (core', pushed)) : core'.nodes = core.nodes := by
  obtain ⟨middle, reactions, beats, hreacted, hbeat, rfl⟩ := h.handle_ok hhandle
  rw [hbeat.sameStore.nodes]
  cases hreacted with
  | request => rfl
  | proposal => exact absurd rfl (hevent _ _).1
  | proposed => exact absurd rfl (hevent _ _).2
  | quorumCert => exact (raised_sameStore _ _).nodes

end ReplicaCore

namespace Replica

variable {replica next : Replica scheme} {event : Event scheme}

theorem refillNonces_generic (replica : Replica scheme) {action : Action scheme}
    (haction : action ∈ replica.refillNonces.2) :
    action = .sendToReplica replica.core.getLeader
      (.publicCommitmentsSupply replica.signerIndex (replica.drawSupply.map Prod.fst).dedup) := by
  unfold refillNonces at haction
  split at haction
  · cases haction
  · exact List.mem_singleton.mp haction

theorem Refilled.generic {actions : List (Action scheme)} (h : Refilled replica next actions) :
    actions.filterMap (fun action => action.message?.bind ToReplica.generic?) = [] := by
  rw [List.filterMap_eq_nil_iff]
  intro action haction
  cases h with
  | enough => cases haction
  | refill =>
      rw [refillNonces_generic replica haction]
      rfl

/-- Only performed proposals send blocks. -/
theorem Effect.generics (h : Effect replica event next) :
    event.generics = [] ∨ ∃ data rest block signers pushed,
      replica.coreActions = .propose data :: rest ∧ replica.proposalBlock data = .ok block ∧
      event.generics = [({ block := scheme.digest block, signers }, block)] ∧
      replica.core.handle (.proposed (scheme.digest block) block) = .ok (next.core, pushed) := by
  cases h with
  | init =>
      refine .inl (List.filterMap_eq_nil_iff.mpr ?_)
      intro action haction
      rw [refillNonces_generic replica haction]
      rfl
  | tick | request | ignore | accept | park | vote | supply | defer | release | finalize =>
      exact .inl rfl
  | propose _ hqueue hblock _ _ _ hhandle =>
      obtain ⟨core, pushed, hcore, rfl⟩ := handle_eq_ok.mp hhandle
      exact .inr ⟨_, _, _, _, pushed, hqueue, hblock, rfl, hcore⟩
  | perform _ _ _ _ hvote =>
      refine .inl ?_
      cases hvote with
      | unlisted | unsigned => rfl
      | signed _ _ _ hcast =>
          cases hcast with
          | leader _ _ hrefilled => exact hrefilled.generic
          | backup _ hrefilled => exact hrefilled.generic

/-- Steps store a block if they give one to the core. -/
theorem CoreStep.nodes (h : CoreStep replica event next) (hstored : replica.core.Stored) :
    next.core.nodes = replica.core.nodes ∨ ∃ blockDigest block,
      Gives replica event (.proposal blockDigest block) ∨
        Gives replica event (.proposed blockDigest block) := by
  cases h with
  | keep hcore => exact .inl (by rw [hcore])
  | @give coreEvent pushed hgives hhandle =>
      cases coreEvent with
      | request | quorumCert => exact .inl (hstored.handle_nodes (by simp) hhandle)
      | proposal blockDigest block => exact .inr ⟨blockDigest, block, .inl hgives⟩
      | proposed blockDigest block => exact .inr ⟨blockDigest, block, .inr hgives⟩

/-- Only releases and proposals store blocks. -/
theorem Effect.nodes (h : Effect replica event next) (hstored : replica.core.Stored)
    (hrelease : ∀ blockDigest block, event ≠ .release blockDigest block)
    (hpropose : ∀ data signed actions, event ≠ .perform (.propose data) signed actions) :
    next.core.nodes = replica.core.nodes := by
  rcases h.core.nodes hstored with hnodes | ⟨blockDigest, block, hgives | hgives⟩
  · exact hnodes
  · cases hgives with
    | proposal => exact absurd rfl (hrelease _ _)
  · cases hgives with
    | proposed => exact absurd rfl (hpropose _ _ _)

/-- The blocks that a leader has sent are those it stores. -/
structure Issues (sent : List (Message.Generic scheme × Message.Block scheme))
    (core : ReplicaCore scheme) : Prop where
  length : core.nodes.length = sent.length + 1
  stores : core.Stores (sent.map Prod.snd)
  digest : ∀ entry ∈ sent, entry.1.block = scheme.digest entry.2

theorem Issues.step {sent : List (Message.Generic scheme × Message.Block scheme)}
    (h : Issues sent replica.core) (hleads : Leads replica) (heffect : Effect replica event next) :
    Issues (sent ++ event.generics) next.core := by
  have hstored := hleads.core.line.stored
  have hgrows := heffect.grows hstored
  rcases heffect.generics with
    hnone | ⟨data, rest, block, signers, pushed, hqueue, hblock, hsome, hcore⟩
  · have hnodes : next.core.nodes = replica.core.nodes := by
      rcases heffect.core.nodes hstored with hnodes | ⟨blockDigest, block, hgives | hgives⟩
      · exact hnodes
      · cases hgives with
        | proposal hpending => cases hleads.pending.symm.trans hpending
      · cases hgives with
        | proposed => cases hnone
    rw [hnone, List.append_nil]
    refine ⟨?_, h.stores.grows hstored hgrows (by rw [hnodes]), h.digest⟩
    rw [hnodes, h.length]
  · obtain ⟨hrepresents, hlength⟩ := hstored.handle_block (.inr rfl) rfl hcore
    rw [hsome]
    constructor
    · rw [hlength, h.length, List.length_append, List.length_singleton]
    · intro index hindex
      rw [hlength, h.length] at hindex
      rw [List.map_append, List.map_singleton]
      rcases Nat.lt_or_ge index sent.length with hlt | hge
      · obtain ⟨block', hblock', hrepresents'⟩ := h.stores index (by rw [h.length]; omega)
        refine ⟨block', ?_, hrepresents'.grows hgrows hstored (by rw [h.length]; omega)⟩
        rw [List.getElem?_append_left (by rw [List.length_map]; exact hlt), hblock']
      · obtain rfl : index = sent.length := by omega
        refine ⟨block, ?_, ?_⟩
        · rw [List.getElem?_append_right (by rw [List.length_map]), List.length_map, Nat.sub_self]
          rfl
        · rw [← h.length]
          exact hrepresents
    · intro entry hentry
      rcases List.mem_append.mp hentry with hentry | hentry
      · exact h.digest entry hentry
      · rw [List.mem_singleton.mp hentry]

/-- What a leader has sent is a row. -/
theorem Issues.row {sent : List (Message.Generic scheme × Message.Block scheme)}
    {core : ReplicaCore scheme} (h : Issues sent core) (hline : core.Line) :
    Row (sent.map Prod.snd) := by
  have hlength : core.nodes.length = (sent.map Prod.snd).length + 1 := by
    rw [List.length_map, h.length]
  have hrepresents : ∀ index block, (sent.map Prod.snd)[index]? = some block →
      index + 1 < core.nodes.length ∧ core.Represents (index + 1) block := by
    intro index block hblock
    have hindex := (List.getElem?_eq_some_iff.mp hblock).1
    obtain ⟨block', hblock', hrepresents⟩ := h.stores index (by omega)
    obtain rfl := Option.some.inj (hblock.symm.trans hblock')
    exact ⟨by omega, hrepresents⟩
  constructor
  · intro index block hblock
    obtain ⟨hlt, hblock⟩ := hrepresents index block hblock
    rw [← hblock.parent, hline.linked.parent _ hlt, Nat.add_sub_cancel]
    exact h.stores.digestOf hline.stored (by omega)
  · intro index block hblock
    obtain ⟨hlt, hblock⟩ := hrepresents index block hblock
    rw [← hblock.justified, hline.linked.justified _ hlt, Nat.add_sub_cancel]
    exact h.stores.digestOf hline.stored (by omega)
  · intro index block hblock
    obtain ⟨hlt, hblock⟩ := hrepresents index block hblock
    rw [← hblock.height, hline.linked.height _ hlt]
  · intro height hheight height' hheight' hdigest
    rw [← h.stores.digestOf hline.stored (by omega), ← h.stores.digestOf hline.stored (by omega)]
      at hdigest
    exact hline.stored.key_unique (by omega) (by omega) hdigest

/-- The blocks that a leader has sent are those it stores, and certified but for the last. -/
structure Proposes (config : CryptoConfig scheme)
    (sent : List (Message.Generic scheme × Message.Block scheme)) (core : ReplicaCore scheme) :
    Prop where
  length : core.nodes.length = sent.length + 1
  stores : core.Stores (sent.map Prod.snd)
  digest : ∀ entry ∈ sent, entry.1.block = scheme.digest entry.2
  verified : ∀ index entry, sent[index + 1]? = some entry → config.Verifies entry.2.justify

theorem Proposes.issues {sent : List (Message.Generic scheme × Message.Block scheme)}
    {config : CryptoConfig scheme} {core : ReplicaCore scheme} (h : Proposes config sent core) :
    Issues sent core :=
  ⟨h.length, h.stores, h.digest⟩

theorem Proposes.step {sent : List (Message.Generic scheme × Message.Block scheme)}
    (h : Proposes replica.cryptoConfig sent replica.core) (hleads : Leads replica)
    {source : Message.Block scheme → Prop} (hvetted : replica.Vetted source)
    (heffect : Effect replica event next) :
    Proposes replica.cryptoConfig (sent ++ event.generics) next.core := by
  have hstored := hleads.core.line.stored
  obtain ⟨hlength, hstores, hdigest⟩ := h.issues.step hleads heffect
  refine ⟨hlength, hstores, hdigest, ?_⟩
  rcases heffect.generics with
    hnone | ⟨data, rest, block, signers, pushed, hqueue, hblock, hsome, hcore⟩
  · rw [hnone, List.append_nil]
    exact h.verified
  · obtain ⟨hplanned, -⟩ := hleads.planned hqueue
    obtain ⟨-, -, hnode, hsig⟩ := Leads.next_of_proposalBlock hplanned hblock
    rw [hsome]
    intro index entry hentry
    rcases Nat.lt_or_ge (index + 1) sent.length with hlt | hge
    · rw [List.getElem?_append_left hlt] at hentry
      exact h.verified index entry hentry
    · rw [List.getElem?_append_right hge] at hentry
      obtain ⟨hzero, hentry⟩ := List.getElem?_eq_some_iff.mp hentry
      have hindex : sent.length = index + 1 := by
        rw [List.length_singleton] at hzero
        omega
      have hentry_eq : entry.2 = block := by
        rw [← hentry]
        simp
      -- the highest certificate is not the one of genesis
      have hhigh : (replica.core.certAt replica.core.quorumCertHigh).node = index + 1 := by
        have hleaf := hplanned.leaf
        cases hplanned.plans with
        | one hhigh =>
            rw [h.length] at hleaf
            have hnode' : replica.core.highNode = index + 1 := by omega
            exact hnode'
      have hcert := hvetted.core.certs _ hstored.high
      rw [hhigh] at hcert
      rcases hcert with hcert | hcert
      · cases hcert
      · have hjustify : block.justify = ⟨replica.core.digestOf (index + 1),
            (replica.core.certAt replica.core.quorumCertHigh).sig⟩ := by
          have hlast : replica.core.nodes.length - 1 = index + 1 := by
            rw [h.length]
            omega
          rw [← hlast, ← hnode, ← hsig]
        rw [hentry_eq, hjustify]
        exact hcert

end Replica

variable {coreConfig : ReplicaCoreConfig} {cryptoConfig : CryptoConfig scheme}
  {history : List (Replica.Event scheme)} {replica : Replica scheme}

theorem Replica.generics_concat (history : List (Replica.Event scheme))
    (event : Replica.Event scheme) :
    Replica.generics (history ++ [event]) = Replica.generics history ++ event.generics := by
  simp [Replica.generics]

theorem LocalRun.issues (hrun : LocalRun coreConfig cryptoConfig history replica)
    (hleader : coreConfig.id = 0) (hreceived : Replica.received history = []) :
    Replica.Issues (Replica.generics history) replica.core := by
  induction hrun with
  | start hinit =>
      subst hinit
      refine ⟨rfl, ?_, by simp [Replica.generics]⟩
      intro index hindex
      exact absurd hindex (by simp [Replica.new, ReplicaCore.new])
  | @step history replica event next hprev hstep ih =>
      rw [Replica.received_concat, List.append_eq_nil_iff] at hreceived
      rw [Replica.generics_concat]
      exact (ih hreceived.1).step (LocalRun.leads hprev hleader hreceived.1).1 hstep.effect

theorem LocalRun.proposes (hrun : LocalRun coreConfig cryptoConfig history replica)
    (hsound : AggregateSound scheme) (hleader : coreConfig.id = 0)
    (hreceived : Replica.received history = []) :
    Replica.Proposes cryptoConfig (Replica.generics history) replica.core := by
  induction hrun with
  | start hinit =>
      subst hinit
      refine ⟨rfl, ?_, by simp [Replica.generics], by simp [Replica.generics]⟩
      intro index hindex
      exact absurd hindex (by simp [Replica.new, ReplicaCore.new])
  | @step history replica event next hprev hstep ih =>
      rw [Replica.received_concat, List.append_eq_nil_iff] at hreceived
      have hconfig := LocalRun.cryptoConfig_eq hprev
      have hproposes := ih hreceived.1
      rw [← hconfig] at hproposes ⊢
      rw [Replica.generics_concat]
      exact hproposes.step (LocalRun.leads hprev hleader hreceived.1).1
        (LocalRun.vetted hprev hsound) hstep.effect

end BftKit.Hotstuff
