import BftKit.Hotstuff.Line
import BftKit.Hotstuff.Replay

/-! # The leader

A leader that receives no blocks proposes one line, one block at a time: it waits for
the votes on its last block, and the beat after them plans the next one. Nodes with
commands are followed by the rounds that it takes to finalize them.
-/

namespace BftKit.Hotstuff

open Foundation Threshold

variable {scheme : ThresholdScheme}

namespace ReplicaCore

/-- The commands of the stored nodes. -/
def log (core : ReplicaCore scheme) : List Command := core.nodes.flatMap fun node => node.commands

/-- The core of a leader before a beat. -/
structure Led (core : ReplicaCore scheme) : Prop where
  line : Line core
  leader : core.config.id = 0
  leaf : core.blockLeaf = core.nodes.length - 1
  high : core.highNode = core.nodes.length - 1 ∨ core.highNode = core.nodes.length - 2
  /-- It takes three more rounds to finalize a node. -/
  cover : ∀ key < core.nodes.length, (core.nodeAt key).commands ≠ [] →
    key + 3 < core.nodes.length + core.numExtraRound
  issued : core.pool.Issued core.log

/-- The proposals of a leader that are not performed yet: none, while it waits or
rests, or one on top of the leaf. -/
inductive Plans (core : ReplicaCore scheme) : List NodeData → Prop
  | none (hrest : core.highNode = core.blockLeaf → core.pool.pending = [] ∧ core.numExtraRound = 0)
      (hcover : ∀ key < core.nodes.length, (core.nodeAt key).commands ≠ [] →
        key + 3 < core.nodes.length + core.numExtraRound)
      (hissued : core.pool.Issued core.log) : Plans core []
  | one {commands hroom} (hhigh : core.highNode = core.blockLeaf)
      (hcommands : commands ≠ [] → core.numExtraRound = 3)
      (hcover : ∀ key < core.nodes.length, (core.nodeAt key).commands ≠ [] →
        key + 3 < core.nodes.length + 1 + core.numExtraRound)
      (hissued : core.pool.Issued (core.log ++ commands)) :
      Plans core [core.leafBlock commands hroom]

/-- The core of a leader with its proposals. -/
structure Leads (core : ReplicaCore scheme) (planned : List NodeData) : Prop where
  line : Line core
  leader : core.config.id = 0
  leaf : core.blockLeaf = core.nodes.length - 1
  high : core.highNode = core.nodes.length - 1 ∨ core.highNode = core.nodes.length - 2
  plans : Plans core planned

variable {core core' stored : ReplicaCore scheme} {planned : List NodeData}
  {pushed : ReplicaCoreActions}

theorem Leads.led (h : Leads core []) : Led core := by
  obtain ⟨hline, hleader, hleaf, hhigh, hplans⟩ := h
  cases hplans with
  | none _ hcover hissued => exact ⟨hline, hleader, hleaf, hhigh, hcover, hissued⟩

/-- While a leader waits, it has no proposal. -/
theorem Leads.waiting (h : Leads core planned) (hwait : core.highNode ≠ core.blockLeaf) :
    planned = [] := by
  cases h.plans with
  | none => rfl
  | one hhigh => exact absurd hhigh hwait

/-- A beat rests only when nothing is left to do. -/
theorem Led.beat (h : Led core) (hbeat : Beat core core' pushed) :
    Leads core' (proposals pushed) := by
  have hline : Line core' :=
    (h.line.keep (hbeat.stored h.line.stored) hbeat.sameStore.grows hbeat.sameStore.nodes
      (by cases hbeat <;> exact ⟨rfl, rfl, rfl⟩) hbeat.pushed).line
  have hhigh' : core'.highNode = core.highNode := by cases hbeat <;> rfl
  have hleaf' : core'.blockLeaf = core.blockLeaf := by cases hbeat <;> rfl
  refine ⟨hline, ?_, ?_, ?_, ?_⟩
  · rw [hbeat.sameStore.config, h.leader]
  · rw [hleaf', hbeat.sameStore.nodes, h.leaf]
  · rw [hhigh', hbeat.sameStore.nodes]
    exact h.high
  · cases hbeat with
    | wait hwait => exact .none (fun hhigh => absurd hhigh hwait) h.cover h.issued
    | backup _ hid => exact absurd h.leader hid
    | rest _ _ hclose hextra =>
        refine .none (fun _ => ⟨CommandPool.closeBatch_none hclose, hextra⟩) h.cover ?_
        have hissued := (h.issued.closeBatch hclose).1
        rwa [Option.getD_none, List.append_nil] at hissued
    | @extra pool commands numExtraRound hhigh _ hclose hempty hextra =>
        have hissued := (h.issued.closeBatch hclose).1
        rw [hempty] at hissued
        refine @Plans.one _ _ [] _ hhigh (fun hne => absurd rfl hne) ?_ hissued
        intro key hkey hcommands
        have hcover := h.cover key hkey hcommands
        rw [hextra] at hcover
        change key + 3 < core.nodes.length + 1 + numExtraRound
        omega
    | @propose pool commands hhigh _ hclose hne =>
        refine @Plans.one _ _ commands _ hhigh (fun _ => rfl) ?_ (h.issued.closeBatch hclose).1
        intro key hkey _
        change key < core.nodes.length at hkey
        change key + 3 < core.nodes.length + 1 + 3
        omega

theorem Leads.new (scheme : ThresholdScheme) {config : ReplicaCoreConfig}
    (hleader : config.id = 0) :
    Leads (new scheme config) [] where
  line := .new scheme config
  leader := hleader
  leaf := rfl
  high := .inl rfl
  plans := by
    refine .none (fun _ => ⟨?_, rfl⟩) ?_ ?_
    · unfold ReplicaCore.new
      cases config.openLoop <;> rfl
    · intro key hkey hcommands
      obtain rfl : key = 0 := Nat.lt_one_iff.mp hkey
      exact absurd rfl hcommands
    · unfold ReplicaCore.new
      cases config.openLoop
      · exact CommandPool.closeLoop_new_issued
      · exact CommandPool.openLoop_new_issued

theorem Leads.request (h : Leads core []) {command : Command}
    (hhandle : core.handle (.request command) = .ok (core', pushed)) :
    Leads core' (proposals pushed) := by
  obtain ⟨middle, reactions, beats, hreacted, hbeat, rfl⟩ := h.line.stored.handle_ok hhandle
  have hled := h.led
  have hmiddle_stored := hreacted.stored h.line.stored
  cases hreacted with
  | request hpool =>
      rw [List.nil_append]
      refine Led.beat ?_ hbeat
      exact {
        line := (h.line.keep hmiddle_stored ⟨rfl, List.prefix_rfl, List.prefix_rfl⟩ rfl
          ⟨rfl, rfl, rfl⟩ ⟨votes_nil, finalizations_nil⟩).line
        leader := hled.leader
        leaf := hled.leaf
        high := hled.high
        cover := hled.cover
        issued := hpool.issued _ hled.issued }

/-- The certificate of the last node lets the leader go on. -/
theorem Leads.quorumCert (h : Leads core []) (hwait : core.highNode ≠ core.blockLeaf)
    {quorumCert : Message.QuorumCert scheme}
    (hnode : quorumCert.node = core.digestOf (core.nodes.length - 1))
    (hhandle : core.handle (.quorumCert quorumCert) = .ok (core', pushed)) :
    Leads core' (proposals pushed) ∧ core'.highNode = core'.blockLeaf ∧
      core'.nodes = core.nodes := by
  obtain ⟨middle, reactions, beats, hreacted, hbeat, rfl⟩ := h.line.stored.handle_ok hhandle
  have hled := h.led
  have hpos := h.line.stored.nodes_pos
  have hmiddle_stored := hreacted.stored h.line.stored
  have hhigh' : core'.highNode = middle.highNode := by cases hbeat <;> rfl
  have hleaf' : core'.blockLeaf = middle.blockLeaf := by cases hbeat <;> rfl
  have hmiddle : Advanced core core' (reactions ++ beats) := h.line.handle (by simp) hhandle
  cases hreacted with
  | @quorumCert _ key hknown =>
      rw [List.nil_append] at hmiddle ⊢
      obtain rfl : key = core.nodes.length - 1 := by
        have hlast : core.nodes.length - 1 < core.nodes.length := by omega
        rw [hnode, h.line.stored.lookup_digestOf hlast] at hknown
        exact (Option.some.inj hknown).symm
      set added : ReplicaCore scheme := { core with
        quorumCerts := core.quorumCerts ++ [⟨core.nodes.length - 1, quorumCert.sig⟩] }
      have hgrows : Grows core added := ⟨rfl, List.prefix_rfl, List.prefix_append _ _⟩
      have hcert : added.certAt core.quorumCerts.length = ⟨core.nodes.length - 1, quorumCert.sig⟩ :=
        certAt_pushed rfl
      have hold : added.highNode = core.highNode :=
        congrArg QuorumCert.node (hgrows.certAt h.line.stored.high)
      have hlow : core.highNode = core.nodes.length - 2 := by
        rcases h.high with hhigh | hhigh
        · exact absurd (hhigh.trans h.leaf.symm) hwait
        · exact hhigh
      have hlt : added.heightOf added.highNode <
          added.heightOf (added.certAt core.quorumCerts.length).node := by
        have hheight : ∀ key < core.nodes.length, added.heightOf key = key := h.line.linked.height
        rw [hcert, hold, hlow]
        rw [hlow, h.leaf] at hwait
        dsimp only
        rw [hheight _ (by omega), hheight _ (by omega)]
        omega
      have hraised : added.raised core.quorumCerts.length = { added with
          quorumCertHigh := core.quorumCerts.length
          blockLeaf := core.nodes.length - 1 } := by
        unfold raised
        rw [if_pos hlt, hcert]
      rw [hraised] at hbeat hhigh' hleaf' hmiddle_stored
      have hhigh : highNode { added with
          quorumCertHigh := core.quorumCerts.length
          blockLeaf := core.nodes.length - 1 } = core.nodes.length - 1 :=
        congrArg QuorumCert.node hcert
      refine ⟨Led.beat ?_ hbeat, ?_, hbeat.sameStore.nodes⟩
      · exact {
          line := (h.line.keep hmiddle_stored ⟨rfl, List.prefix_rfl, List.prefix_append _ _⟩ rfl
            ⟨rfl, rfl, rfl⟩ ⟨votes_nil, finalizations_nil⟩).line
          leader := hled.leader
          leaf := rfl
          high := .inl hhigh
          cover := hled.cover
          issued := hled.issued }
      · rw [hhigh', hleaf', hhigh]

theorem Leads.one {data : NodeData} (h : Leads core [data]) :
    core.highNode = core.nodes.length - 1 ∧
      (data.commands ≠ [] → core.numExtraRound = 3) ∧
      (∀ key < core.nodes.length, (core.nodeAt key).commands ≠ [] →
        key + 3 < core.nodes.length + 1 + core.numExtraRound) ∧
      core.pool.Issued (core.log ++ data.commands) := by
  cases h.plans with
  | one hhigh hextra hcover hissued => exact ⟨hhigh.trans h.leaf, hextra, hcover, hissued⟩

/-- An update on a new last node leaves the highest certificate where it is, as the
justification of the node is not higher. -/
theorem Leads.updated_high {data : NodeData} (h : Leads core [data]) {blockDigest : Digest}
    {block : Message.Block scheme} (hnext : core.Next block)
    (hingested : Ingested core blockDigest block stored) {path : List Nat}
    (hupdated : Updated { stored with
      voteHeight := block.height, blockLeaf := core.nodes.length } core.nodes.length core' path) :
    core'.highNode = core.nodes.length - 1 ∧ core'.blockLeaf = core.nodes.length := by
  have hpos := h.line.stored.nodes_pos
  set voted : ReplicaCore scheme := { stored with
    voteHeight := block.height, blockLeaf := core.nodes.length } with hvoted
  have hlinked := (h.line.ingested hnext hingested).sameStore
    (⟨rfl, rfl, rfl, rfl, rfl⟩ : SameStore stored voted)
  have hlength : voted.nodes.length = core.nodes.length + 1 := hingested.length
  have hold : voted.highNode = core.nodes.length - 1 := by
    have hhigh_cert : voted.quorumCertHigh = core.quorumCertHigh := by rw [hvoted, hingested.rest]
    rw [← h.one.1, highNode, hhigh_cert]
    exact congrArg QuorumCert.node (hingested.grows.certAt h.line.stored.high)
  have hkeep : (core'.quorumCertHigh, core'.blockLeaf) =
      (voted.quorumCertHigh, core.nodes.length) := by
    have hadvance := advanced_high voted core.nodes.length
    have hblock1 : voted.block1 core.nodes.length = core.nodes.length - 1 :=
      hlinked.justified _ (by omega)
    rw [hblock1, hold, if_neg (lt_irrefl _)] at hadvance
    rw [hupdated.rest]
    exact hadvance
  obtain ⟨hkeep_high, hkeep_leaf⟩ := Prod.mk.inj hkeep
  refine ⟨?_, hkeep_leaf⟩
  rw [highNode, hkeep_high, hupdated.sameStore.certAt]
  exact hold

/-- After the update the leader is ready for the next beat. -/
theorem Leads.updated {data : NodeData} (h : Leads core [data]) {blockDigest : Digest}
    {block : Message.Block scheme} (hnext : core.Next block)
    (hcommands : block.commands = data.commands)
    (hingested : Ingested core blockDigest block stored) {path : List Nat}
    (hupdated : Updated { stored with
      voteHeight := block.height, blockLeaf := core.nodes.length } core.nodes.length core' path) :
    Led core' := by
  obtain ⟨hhigh, hleaf⟩ := h.updated_high hnext hingested hupdated
  obtain ⟨-, hdata, hcover, hissued⟩ := h.one
  have hadvanced := h.line.updated hnext hingested hupdated ⟨rfl, rfl, rfl, rfl, rfl⟩ rfl rfl rfl
  set voted : ReplicaCore scheme := { stored with
    voteHeight := block.height, blockLeaf := core.nodes.length } with hvoted
  have hsame : SameStore stored core' :=
    (⟨rfl, rfl, rfl, rfl, rfl⟩ : SameStore stored voted).trans hupdated.sameStore
  have hgrows : Grows core core' := hingested.grows.trans hsame.grows
  have hnodes : core'.nodes = core.nodes ++ [stored.nodeAt core.nodes.length] := by
    rw [hsame.nodes]
    exact hingested.nodes
  have hlength : core'.nodes.length = core.nodes.length + 1 := by
    rw [hsame.nodes, hingested.length]
  have hextra : core'.numExtraRound = core.numExtraRound := by
    have hextra : core'.numExtraRound = (voted.advanced core.nodes.length).numExtraRound := by
      rw [hupdated.rest]
    rw [hextra, advanced_numExtraRound, hvoted, hingested.rest]
  refine ⟨hadvanced.line, ?_, ?_, ?_, ?_, ?_⟩
  · rw [hgrows.config, h.leader]
  · rw [hleaf, hlength, Nat.add_sub_cancel]
  · rw [hhigh, hlength]
    exact .inr rfl
  · intro key hkey hnonempty
    rw [hlength] at hkey ⊢
    rw [hextra]
    rcases Nat.lt_succ_iff_lt_or_eq.mp hkey with hlt | rfl
    · rw [hgrows.nodeAt hlt] at hnonempty
      exact hcover key hlt hnonempty
    · rw [hsame.nodeAt, hingested.commands, hcommands] at hnonempty
      rw [hdata hnonempty]
      omega
  · have hlog : core'.log = core.log ++ data.commands := by
      rw [log, hnodes, List.flatMap_append, List.flatMap_singleton, hingested.commands,
        hcommands, log]
    have hpool : voted.pool = core.pool := by rw [hvoted, hingested.rest]
    rw [hlog]
    exact hupdated.pool.issued _ (hpool ▸ hissued)

/-- A performed proposal joins the line, and the leader waits. -/
theorem Leads.proposed {data : NodeData} (h : Leads core [data]) {blockDigest : Digest}
    {block : Message.Block scheme} (hnext : core.Next block)
    (hcommands : block.commands = data.commands)
    (hhandle : core.handle (.proposed blockDigest block) = .ok (core', pushed)) :
    Leads core' (proposals pushed) ∧ core'.highNode ≠ core'.blockLeaf ∧
      core'.nodes.length = core.nodes.length + 1 ∧ core'.digestOf core.nodes.length = blockDigest := by
  obtain ⟨middle, reactions, beats, hreacted, hbeat, rfl⟩ := h.line.stored.handle_ok hhandle
  have hpos := h.line.stored.nodes_pos
  have hhigh' : core'.highNode = middle.highNode := by cases hbeat <;> rfl
  have hleaf' : core'.blockLeaf = middle.blockLeaf := by cases hbeat <;> rfl
  cases hreacted with
  | @proposed _ _ stored _ path hingested _ hupdated =>
      obtain ⟨hhigh, hleaf⟩ := h.updated_high hnext hingested hupdated
      have hproposals : proposals
          (.vote core.nodes.length :: path.map .finalize ++ beats) = proposals beats := by
        rw [proposals_append]
        exact congrArg (· ++ proposals beats) (proposals_finalize path)
      rw [hproposals]
      refine ⟨Led.beat (h.updated hnext hcommands hingested hupdated) hbeat, ?_, ?_, ?_⟩
      · rw [hhigh', hleaf', hhigh, hleaf]
        omega
      · rw [hbeat.sameStore.nodes, hupdated.sameStore.nodes]
        exact hingested.length
      · rw [hbeat.sameStore.digestOf, hupdated.sameStore.digestOf]
        exact hingested.digest

end ReplicaCore

namespace Replica

/-- A leader between two steps. -/
structure Leads (replica : Replica scheme) : Prop where
  core : replica.core.Leads (proposals replica.coreActions)
  pending : replica.pending = []
  /-- Votes are only collected for the last node, and while the leader waits. -/
  scratch : ∀ digest scratch, replica.quorumCertScratches.lookup digest = some scratch →
    digest = replica.core.digestOf (replica.core.nodes.length - 1) ∧
      replica.core.highNode ≠ replica.core.blockLeaf

variable {replica next : Replica scheme} {event : Event scheme}

namespace Leads

theorem congr (h : Leads replica) (hcore : next.core = replica.core)
    (hqueue : next.coreActions = replica.coreActions) (hpending : next.pending = replica.pending)
    (hscratches : next.quorumCertScratches = replica.quorumCertScratches) : Leads next := by
  obtain ⟨hleads, hnone, hscratch⟩ := h
  constructor
  · rwa [hcore, hqueue]
  · rwa [hpending]
  · rwa [hcore, hscratches]

/-- A performed action other than a proposal leaves the queue. -/
theorem perform (h : Leads replica) {action : ReplicaCoreAction} {rest : ReplicaCoreActions}
    (hqueue : replica.coreActions = action :: rest) (haction : action.proposal? = none) :
    Leads { replica with coreActions := rest } where
  core := by
    have hproposals : proposals replica.coreActions = proposals rest := by
      rw [hqueue]
      exact List.filterMap_cons_none haction
    exact hproposals ▸ h.core
  pending := h.pending
  scratch := h.scratch

theorem request (h : Leads replica) (hidle : replica.Idle) {command : Command}
    (hhandle : replica.handle (.request command) = .ok next) : Leads next := by
  obtain ⟨core, pushed, hcore, rfl⟩ := handle_eq_ok.mp hhandle
  have hleads := h.core
  rw [hidle.2] at hleads
  refine ⟨?_, h.pending, ?_⟩
  · rw [hidle.2]
    exact hleads.request hcore
  · obtain ⟨middle, reactions, beats, hreacted, hbeat, rfl⟩ := hleads.line.stored.handle_ok hcore
    intro digest scratch hlookup
    have hold := h.scratch digest scratch hlookup
    have hhigh : core.highNode = middle.highNode := by cases hbeat <;> rfl
    have hleaf : core.blockLeaf = middle.blockLeaf := by cases hbeat <;> rfl
    cases hreacted with
    | request =>
        refine ⟨?_, ?_⟩
        · rw [hbeat.sameStore.nodes, hbeat.sameStore.digestOf]
          exact hold.1
        · rw [hhigh, hleaf]
          exact hold.2

theorem taken (h : Leads replica) {vote : Message.VoteGeneric scheme}
    (htaken : VoteTaken replica vote next) : Leads next := by
  cases htaken with
  | @share scratch partialSigs hscratch hadd =>
      refine ⟨h.core, h.pending, ?_⟩
      intro digest scratch' hlookup
      rw [Map.lookup_insert] at hlookup
      split at hlookup
      next heq =>
        subst heq
        exact h.scratch _ scratch hscratch
      next => exact h.scratch digest scratch' hlookup
  | quorum hscratch hadd hhandle =>
      obtain ⟨hnode, hwait⟩ := h.scratch _ _ hscratch
      obtain ⟨core, pushed, hcore, rfl⟩ := handle_eq_ok.mp hhandle
      have hnone := h.core.waiting hwait
      have hleads := h.core
      rw [hnone] at hleads
      obtain ⟨hleads', -, -⟩ := hleads.quorumCert hwait hnode hcore
      refine ⟨?_, h.pending, ?_⟩
      · rw [proposals_append, hnone, List.nil_append]
        exact hleads'
      · -- the only votes that were collected have been erased
        intro digest scratch hlookup
        change (replica.quorumCertScratches.erase vote.node).lookup digest = _ at hlookup
        rw [Map.lookup_erase] at hlookup
        split at hlookup
        next => cases hlookup
        next hne => exact absurd ((h.scratch digest scratch hlookup).1.trans hnode.symm) hne

theorem refilled (h : Leads replica) {actions : List (Action scheme)}
    (hrefilled : Refilled replica next actions) : Leads next := by
  cases hrefilled with
  | enough => exact h
  | refill =>
      refine h.congr ?_ ?_ ?_ ?_ <;> unfold refillNonces <;> split <;> rfl

theorem votePerformed (h : Leads replica) {node : Node} {signers : Signers scheme}
    {actions : List (Action scheme)} (hvote : VotePerformed replica node signers next actions) :
    Leads next := by
  cases hvote with
  | unlisted | unsigned => exact h.congr rfl rfl rfl rfl
  | @signed publicCommitments nonce share _ _ _ _ _ hcast =>
      have hsigned : Leads { replica with
          blockSigners := replica.blockSigners.erase node.digest
          nonces := replica.nonces.erase publicCommitments } :=
        h.congr rfl rfl rfl rfl
      cases hcast with
      | leader _ htaken hrefilled => exact (hsigned.taken htaken).refilled hrefilled
      | backup hbackup =>
          have hprimary : replica.isPrimary = true := by
            rw [isPrimary, h.core.leader]
            rfl
          exact absurd hprimary (by rw [show replica.isPrimary = false from hbackup]; simp)

/-- A proposal at the head of the queue is the only one. -/
theorem planned (h : Leads replica) {data : NodeData} {rest : ReplicaCoreActions}
    (hqueue : replica.coreActions = .propose data :: rest) :
    replica.core.Leads [data] ∧ proposals rest = [] := by
  have hplanned : proposals replica.coreActions = data :: proposals rest := by
    rw [hqueue]
    rfl
  have hleads := h.core
  rw [hplanned] at hleads
  have hplans := hleads.plans
  generalize proposals rest = others at hplans hleads
  cases hplans
  exact ⟨hleads, rfl⟩

/-- The message form of a planned proposal goes on top of the line. -/
theorem next_of_proposalBlock {data : NodeData} {block : Message.Block scheme}
    (h : replica.core.Leads [data]) (hblock : replica.proposalBlock data = .ok block) :
    replica.core.Next block ∧ block.commands = data.commands ∧
      block.justify.node = replica.core.digestOf (replica.core.nodes.length - 1) ∧
      block.justify.sig = (replica.core.certAt replica.core.quorumCertHigh).sig := by
  have hstored := h.line.stored
  have hpos := hstored.nodes_pos
  have hleaf := h.leaf
  have hlast : replica.core.nodes.length - 1 < replica.core.nodes.length := by omega
  cases h.plans with
  | @one commands _ hhigh =>
      simp only [proposalBlock, ReplicaCore.leafBlock, bind_eq_ok] at hblock
      obtain ⟨cert, hcert, justified, hjustified, parent, hparent, heq⟩ := hblock
      obtain rfl := Except.ok.inj heq
      rw [ReplicaCore.Stored.quorumCert_ok hstored.high] at hcert
      obtain rfl := Except.ok.inj hcert
      have hnode : (replica.core.certAt replica.core.quorumCertHigh).node =
          replica.core.nodes.length - 1 := hhigh.trans hleaf
      rw [hnode, ReplicaCore.Stored.node_ok hlast] at hjustified
      rw [hleaf, ReplicaCore.Stored.node_ok hlast] at hparent
      obtain rfl := Except.ok.inj hjustified
      obtain rfl := Except.ok.inj hparent
      refine ⟨⟨hstored.lookup_digestOf hlast, hstored.lookup_digestOf hlast, ?_⟩, rfl, rfl, rfl⟩
      change replica.core.heightOf replica.core.blockLeaf + 1 = _
      rw [hleaf, h.line.linked.height _ hlast]
      exact Nat.sub_add_cancel hpos

theorem proposed (h : Leads replica) {data : NodeData} {rest : ReplicaCoreActions}
    (hqueue : replica.coreActions = .propose data :: rest) {block : Message.Block scheme}
    (hblock : replica.proposalBlock data = .ok block) {signers : Signers scheme}
    {pool : Std.ExtTreeMap Nat (List scheme.GivrePublicCommitments)}
    (hhandle : (prepared { replica with publicCommitmentsPool := pool, coreActions := rest }
      (scheme.digest block) signers).handle (.proposed (scheme.digest block) block) = .ok next) :
    Leads next := by
  obtain ⟨core, pushed, hcore, rfl⟩ := handle_eq_ok.mp hhandle
  obtain ⟨hleads, hnone⟩ := h.planned hqueue
  obtain ⟨hnext, hcommands, -⟩ := next_of_proposalBlock hleads hblock
  obtain ⟨hleads', hwait, hlength, hdigest⟩ := hleads.proposed hnext hcommands hcore
  have hhigh : replica.core.highNode = replica.core.blockLeaf := by
    cases hleads.plans with
    | one hhigh => exact hhigh
  refine ⟨?_, h.pending, ?_⟩
  · change core.Leads (proposals (rest ++ pushed))
    rw [proposals_append, hnone, List.nil_append]
    exact hleads'
  · intro digest scratch hlookup
    refine ⟨?_, hwait⟩
    change (replica.quorumCertScratches.insert _ _).lookup digest = _ at hlookup
    rw [Map.lookup_insert] at hlookup
    change digest = core.digestOf (core.nodes.length - 1)
    split at hlookup
    next heq => rw [heq, hlength, Nat.add_sub_cancel, hdigest]
    next => exact absurd hhigh (h.scratch digest scratch hlookup).2

/-- Steps that receive no block. -/
theorem step (h : Leads replica) (heffect : Effect replica event next)
    (hreceived : event.received? = none) : Leads next := by
  cases heffect with
  | init => refine h.congr ?_ ?_ ?_ ?_ <;> unfold refillNonces <;> split <;> rfl
  | tick | ignore => exact h
  | request hidle hhandle => exact h.request hidle hhandle
  | accept | park => cases hreceived
  | vote _ htaken => exact h.taken htaken
  | supply => exact h.congr rfl rfl rfl rfl
  | defer hpending | release hpending => cases h.pending.symm.trans hpending
  | propose _ hqueue hblock _ _ _ hhandle => exact h.proposed hqueue hblock hhandle
  | perform _ hqueue _ _ hvote => exact (h.perform hqueue rfl).votePerformed hvote
  | finalize _ hqueue => exact h.perform hqueue rfl

/-- The blocks that a leader gives to its core go on top of its line. -/
theorem gives_next (h : Leads replica) {blockDigest : Digest} {block : Message.Block scheme}
    (hgives : Gives replica event (.proposal blockDigest block) ∨
      Gives replica event (.proposed blockDigest block)) : replica.core.Next block := by
  rcases hgives with hgives | hgives
  · cases hgives with
    | proposal hpending => cases h.pending.symm.trans hpending
  · cases hgives with
    | proposed hqueue hblock => exact (next_of_proposalBlock (h.planned hqueue).1 hblock).1

end Leads

theorem received_concat (history : List (Event scheme)) (event : Event scheme) :
    received (history ++ [event]) = received history ++ event.received?.toList := by
  unfold received
  rw [List.filterMap_append]
  cases hreceived : event.received? <;> simp [hreceived]

end Replica

variable {coreConfig : ReplicaCoreConfig} {cryptoConfig : CryptoConfig scheme}
  {history : List (Replica.Event scheme)} {replica : Replica scheme}

theorem LocalRun.leads (hrun : LocalRun coreConfig cryptoConfig history replica)
    (hleader : coreConfig.id = 0) (hreceived : Replica.received history = []) :
    replica.Leads ∧ replica.Lined (Replica.performedIn history) := by
  induction hrun with
  | start hinit =>
      subst hinit
      refine ⟨⟨.new scheme hleader, rfl, ?_⟩, .new scheme coreConfig, rfl, rfl⟩
      intro digest scratch hlookup
      cases hlookup
  | @step history replica event next hprev hstep ih =>
      rw [Replica.received_concat, List.append_eq_nil_iff] at hreceived
      obtain ⟨hleads, hlined⟩ := ih hreceived.1
      rw [Replica.performedIn_concat]
      refine ⟨hleads.step hstep.effect ?_, hlined.step hstep.effect.core fun _ _ => hleads.gives_next⟩
      cases hevent : event.received? with
      | none => rfl
      | some received => simp [hevent] at hreceived

/-- A leader that has nothing to do. -/
structure Rests (history : List (Replica.Event scheme)) (replica : Replica scheme) : Prop where
  pending : replica.core.pool.pending = []
  extra : replica.core.numExtraRound = 0
  finalized : ∀ key, Ancestor replica.core.parentOf key replica.core.blockLeaf →
    (replica.core.nodeAt key).commands ≠ [] →
    key ∈ finalizations (Replica.performedIn history)

/-- Whatever requests, supplies and votes it receives, a leader between calls that does
not wait for a quorum certificate has nothing to do. It receives no blocks, as nobody else is
a leader. -/
theorem leader_rests (hrun : LocalRun coreConfig cryptoConfig history replica)
    (hleader : coreConfig.id = 0) (hreceived : Replica.received history = [])
    (hidle : replica.Idle)
    (hhigh : (replica.core.certAt replica.core.quorumCertHigh).node = replica.core.blockLeaf) :
    Rests history replica := by
  obtain ⟨⟨hleads, -, -⟩, -, -, hfinalizations⟩ := hrun.leads hleader hreceived
  have hpos := hleads.line.stored.nodes_pos
  have hleaf := hleads.leaf
  rw [hidle.2] at hleads
  rw [hidle.2, List.append_nil] at hfinalizations
  cases hleads.plans with
  | none hrest hcover =>
      obtain ⟨hpending, hextra⟩ := hrest hhigh
      refine ⟨hpending, hextra, ?_⟩
      intro key hancestor hcommands
      have hle := hleads.line.stored.ancestor_le hancestor
      have hbelow := hcover key (by omega) hcommands
      have hkey : 0 < key := by
        refine Nat.pos_of_ne_zero ?_
        rintro rfl
        rw [hleads.line.stored.genesis] at hcommands
        exact hcommands rfl
      rw [hfinalizations, List.mem_range'_1]
      omega

/-- A leader that has got its only command finalized rests. -/
theorem leader_rests_lead :
    ∃ (history : List (Replica.Event .transparent)) (replica : Replica .transparent),
      finalizations (Replica.performedIn history) = [1] ∧
      (replica.core.nodeAt 1).commands = [Group.ping 0] ∧ Rests history replica := by
  have hreplay : ∃ run ∈ Group.replay (fun _ _ => True) (Group.four ∅) Group.fourLead,
      finalizations (Replica.performedIn (view 0 run.1)) = [1] ∧
      ((run.2 0).core.nodeAt 1).commands = [Group.ping 0] ∧
      (Replica.received (view 0 run.1)).length = 0 ∧ (run.2 0).Idle ∧
      ((run.2 0).core.certAt (run.2 0).core.quorumCertHigh).node = (run.2 0).core.blockLeaf := by
    decide +kernel
  obtain ⟨⟨history, states⟩, hrun, hfinalized, hcommands, hreceived, hidle, hhigh⟩ := hreplay
  have hhonest : (Group.four ∅).Honest 0 := by decide
  exact ⟨view 0 history, states 0, hfinalized, hcommands,
    leader_rests ((Group.replay_run hrun).groupRun.localRun hhonest) rfl
      (List.length_eq_zero_iff.mp hreceived) hidle hhigh⟩

end BftKit.Hotstuff
