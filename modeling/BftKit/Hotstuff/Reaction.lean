import BftKit.Hotstuff.CoreLaws

/-! # Reactions of the core

An event stores, votes and executes; the beat after it may propose. Both are given
as relations between the core before and after, with the ways in which they fail.
-/

namespace BftKit.Hotstuff

open Foundation Threshold

variable {scheme : ThresholdScheme}

namespace ReplicaCore

variable {core core' : ReplicaCore scheme}

/-- Only keys into the store, counters and the pool differ. -/
structure SameStore (core core' : ReplicaCore scheme) : Prop where
  config : core'.config = core.config
  nodes : core'.nodes = core.nodes
  nodeIndex : core'.nodeIndex = core.nodeIndex
  quorumCerts : core'.quorumCerts = core.quorumCerts
  quorumCertIndex : core'.quorumCertIndex = core.quorumCertIndex

namespace SameStore

theorem nodeAt (h : SameStore core core') : core'.nodeAt = core.nodeAt := by
  funext key
  rw [ReplicaCore.nodeAt, h.nodes, ReplicaCore.nodeAt]

theorem certAt (h : SameStore core core') : core'.certAt = core.certAt := by
  funext key
  rw [ReplicaCore.certAt, h.quorumCerts, ReplicaCore.certAt]

theorem digestOf (h : SameStore core core') : core'.digestOf = core.digestOf := by
  funext key
  rw [ReplicaCore.digestOf, h.nodeAt, ReplicaCore.digestOf]

theorem heightOf (h : SameStore core core') : core'.heightOf = core.heightOf := by
  funext key
  rw [ReplicaCore.heightOf, h.nodeAt, ReplicaCore.heightOf]

theorem parentOf (h : SameStore core core') : core'.parentOf = core.parentOf := by
  funext key
  rw [ReplicaCore.parentOf, h.nodeAt, ReplicaCore.parentOf]

theorem justifiedOf (h : SameStore core core') : core'.justifiedOf = core.justifiedOf := by
  funext key
  rw [ReplicaCore.justifiedOf, h.nodeAt, h.certAt, ReplicaCore.justifiedOf]

theorem trans {core'' : ReplicaCore scheme} (h : SameStore core core')
    (h' : SameStore core' core'') : SameStore core core'' :=
  ⟨h'.config.trans h.config, h'.nodes.trans h.nodes, h'.nodeIndex.trans h.nodeIndex,
    h'.quorumCerts.trans h.quorumCerts, h'.quorumCertIndex.trans h.quorumCertIndex⟩

theorem grows (h : SameStore core core') : Grows core core' :=
  ⟨h.config, h.nodes ▸ List.prefix_rfl, h.quorumCerts ▸ List.prefix_rfl⟩

end SameStore

/-- A core with the same store is well formed if the keys are in range. -/
theorem Stored.moved (hstored : Stored core) (h : SameStore core core')
    (hlock : core'.blockLock < core.nodes.length)
    (hexecute : core'.blockExecute < core.nodes.length)
    (hleaf : core'.blockLeaf < core.nodes.length)
    (hhigh : core'.quorumCertHigh < core.quorumCerts.length)
    (hpool : ∃ log, core'.pool.Issued log) : Stored core' where
  nodes_pos := h.nodes ▸ hstored.nodes_pos
  certs_pos := h.quorumCerts ▸ hstored.certs_pos
  genesis := h.nodeAt ▸ hstored.genesis
  genesisCert := h.certAt ▸ hstored.genesisCert
  index := by
    intro digest key
    rw [h.nodeIndex, h.nodes, h.digestOf]
    exact hstored.index digest key
  parent := h.parentOf ▸ hstored.parent
  justified := h.justifiedOf ▸ hstored.justified
  justify := by
    intro key
    rw [h.nodeAt, h.quorumCerts]
    exact hstored.justify key
  cert := by
    intro key
    rw [h.certAt, h.nodes]
    exact hstored.cert key
  certIndex := by
    intro digest key hlookup
    rw [h.quorumCertIndex] at hlookup
    rw [h.quorumCerts, h.digestOf, h.certAt]
    exact hstored.certIndex digest key hlookup
  certIndex_zero := h.quorumCertIndex ▸ hstored.certIndex_zero
  lock := h.nodes ▸ hlock
  execute := h.nodes ▸ hexecute
  leaf := h.nodes ▸ hleaf
  high := h.quorumCerts ▸ hhigh
  pool := hpool

/-! ## Updates -/

/-- The core after a quorum certificate has been considered as the highest. -/
def raised (core : ReplicaCore scheme) (cert : Nat) : ReplicaCore scheme :=
  if core.heightOf core.highNode < core.heightOf (core.certAt cert).node then
    { core with quorumCertHigh := cert, blockLeaf := (core.certAt cert).node }
  else core

theorem raised_sameStore (core : ReplicaCore scheme) (cert : Nat) :
    SameStore core (core.raised cert) := by
  unfold raised
  split <;> exact ⟨rfl, rfl, rfl, rfl, rfl⟩

theorem Stored.raised (h : Stored core) {cert : Nat} (hcert : cert < core.quorumCerts.length) :
    Stored (core.raised cert) := by
  refine h.moved (raised_sameStore core cert) ?_ ?_ ?_ ?_ ?_ <;>
    unfold ReplicaCore.raised <;> split
  · exact h.lock
  · exact h.lock
  · exact h.execute
  · exact h.execute
  · exact h.cert cert
  · exact h.leaf
  · exact hcert
  · exact h.high
  · exact h.pool
  · exact h.pool

theorem Stored.updateQuorumCertHigh_ok (h : Stored core) {cert : Nat}
    (hcert : cert < core.quorumCerts.length) :
    core.updateQuorumCertHigh cert = .ok (core.raised cert) := by
  unfold updateQuorumCertHigh ReplicaCore.raised
  rw [quorumCert_ok hcert, ok_bind, node_ok (h.cert cert), ok_bind, quorumCert_ok h.high, ok_bind,
    node_ok (h.cert _), ok_bind]
  split
  next hlt => exact congrArg Except.ok (if_pos hlt).symm
  next hge => exact congrArg Except.ok (if_neg hge).symm

/-- The core after a node has been considered as the locked one. -/
def relocked (core : ReplicaCore scheme) (block : Nat) : ReplicaCore scheme :=
  if core.heightOf core.blockLock < core.heightOf block then { core with blockLock := block }
  else core

theorem relocked_sameStore (core : ReplicaCore scheme) (block : Nat) :
    SameStore core (core.relocked block) := by
  unfold relocked
  split <;> exact ⟨rfl, rfl, rfl, rfl, rfl⟩

theorem Stored.relocked (h : Stored core) {block : Nat} (hblock : block < core.nodes.length) :
    Stored (core.relocked block) := by
  unfold ReplicaCore.relocked
  split
  · exact h.moved ⟨rfl, rfl, rfl, rfl, rfl⟩ hblock h.execute h.leaf h.high h.pool
  · exact h

theorem Stored.updateLock_ok (h : Stored core) {block : Nat} (hblock : block < core.nodes.length) :
    core.updateLock block = .ok (core.relocked block) := by
  unfold updateLock ReplicaCore.relocked
  rw [node_ok hblock, ok_bind, node_ok h.lock, ok_bind]
  split
  next hlt => exact congrArg Except.ok (if_pos hlt).symm
  next hge => exact congrArg Except.ok (if_neg hge).symm

/-- The nodes that `update` follows justifications to. -/
def block1 (core : ReplicaCore scheme) (block0 : Nat) : Nat := core.justifiedOf block0

def block2 (core : ReplicaCore scheme) (block0 : Nat) : Nat := core.justifiedOf (core.block1 block0)

def block3 (core : ReplicaCore scheme) (block0 : Nat) : Nat := core.justifiedOf (core.block2 block0)

/-- A node completes a three-chain, whose lowest node is committed. -/
def Commits (core : ReplicaCore scheme) (block0 : Nat) : Prop :=
  core.parentOf (core.block1 block0) = core.block2 block0 ∧
    core.parentOf (core.block2 block0) = core.block3 block0

instance (core : ReplicaCore scheme) (block0 : Nat) : Decidable (core.Commits block0) :=
  inferInstanceAs (Decidable (_ ∧ _))

/-- The highest certificate and the lock after an update. -/
def advanced (core : ReplicaCore scheme) (block0 : Nat) : ReplicaCore scheme :=
  (core.raised (core.nodeAt block0).justify).relocked (core.block2 block0)

theorem advanced_sameStore (core : ReplicaCore scheme) (block0 : Nat) :
    SameStore core (core.advanced block0) :=
  (raised_sameStore _ _).trans (relocked_sameStore _ _)

@[simp] theorem advanced_blockExecute (core : ReplicaCore scheme) (block0 : Nat) :
    (core.advanced block0).blockExecute = core.blockExecute := by
  unfold advanced relocked raised
  split <;> split <;> rfl

@[simp] theorem advanced_pool (core : ReplicaCore scheme) (block0 : Nat) :
    (core.advanced block0).pool = core.pool := by
  unfold advanced relocked raised
  split <;> split <;> rfl

@[simp] theorem advanced_voteHeight (core : ReplicaCore scheme) (block0 : Nat) :
    (core.advanced block0).voteHeight = core.voteHeight := by
  unfold advanced relocked raised
  split <;> split <;> rfl

@[simp] theorem advanced_numExtraRound (core : ReplicaCore scheme) (block0 : Nat) :
    (core.advanced block0).numExtraRound = core.numExtraRound := by
  unfold advanced relocked raised
  split <;> split <;> rfl

theorem advanced_blockLock (core : ReplicaCore scheme) (block0 : Nat) :
    (core.advanced block0).blockLock =
      if core.heightOf core.blockLock < core.heightOf (core.block2 block0) then core.block2 block0
      else core.blockLock := by
  have hlock : (core.raised (core.nodeAt block0).justify).blockLock = core.blockLock := by
    unfold raised
    split <;> rfl
  rw [advanced, relocked, hlock, (raised_sameStore core _).heightOf]
  split
  · rfl
  · exact hlock

theorem advanced_high (core : ReplicaCore scheme) (block0 : Nat) :
    ((core.advanced block0).quorumCertHigh, (core.advanced block0).blockLeaf) =
      if core.heightOf core.highNode < core.heightOf (core.block1 block0) then
        ((core.nodeAt block0).justify, core.block1 block0)
      else (core.quorumCertHigh, core.blockLeaf) := by
  have hsplit : ∀ core : ReplicaCore scheme, ∀ block,
      ((core.relocked block).quorumCertHigh, (core.relocked block).blockLeaf) =
        (core.quorumCertHigh, core.blockLeaf) := by
    intro core block
    unfold relocked
    split <;> rfl
  rw [advanced, hsplit, raised]
  change _ = if core.heightOf core.highNode <
    core.heightOf (core.certAt (core.nodeAt block0).justify).node then _ else _
  split <;> rfl

theorem Stored.advanced (h : Stored core) (block0 : Nat) : Stored (core.advanced block0) := by
  refine (h.raised (h.justify block0)).relocked ?_
  rw [(raised_sameStore core _).nodes]
  exact h.justifiedOf_lt _

/-- What `update` does, given the nodes that are executed. -/
structure Updated (core : ReplicaCore scheme) (block0 : Nat) (core' : ReplicaCore scheme)
    (path : List Nat) : Prop where
  path : if core.Commits block0 then
      Lineage core.parentOf core.heightOf (core.heightOf core.blockExecute) (core.block3 block0) path
    else path = []
  pool : CommandPool.Keeps core.pool core'.pool 0
  rest : core' = { core.advanced block0 with
    blockExecute := if core.Commits block0 then core.block3 block0 else core.blockExecute
    pool := core'.pool }
  stored : Stored core'

theorem Updated.sameStore {block0 : Nat} {path : List Nat} (h : Updated core block0 core' path) :
    SameStore core core' := by
  have hsame := advanced_sameStore core block0
  rw [h.rest]
  exact ⟨hsame.config, hsame.nodes, hsame.nodeIndex, hsame.quorumCerts, hsame.quorumCertIndex⟩

theorem Stored.update_ok (h : Stored core) {block0 : Nat} (hkey : block0 < core.nodes.length) :
    ∃ core' path, core.update block0 = .ok (core', path.map .finalize) ∧
      Updated core block0 core' path := by
  have hjustify := fun key => quorumCert_ok (h.justify key)
  have hcert := fun key => node_ok (h.cert key)
  have hraised := h.raised (h.justify block0)
  have hblock2 : core.block2 block0 < (core.raised (core.nodeAt block0).justify).nodes.length := by
    rw [(raised_sameStore core _).nodes]
    exact h.justifiedOf_lt _
  have hsame := advanced_sameStore core block0
  have hadvanced := h.advanced block0
  have hupdate : core.update block0 =
      if core.Commits block0 then do
        let committed ← (core.advanced block0).onCommit (core.block3 block0)
        .ok ({ committed.1 with blockExecute := core.block3 block0 }, committed.2)
      else .ok (core.advanced block0, []) := by
    have hlock := hraised.updateLock_ok hblock2
    simp only [block2, block1, justifiedOf] at hlock
    simp only [update, node_ok hkey, hjustify, hcert,
      h.updateQuorumCertHigh_ok (h.justify block0), hlock, ok_bind]
    rfl
  rw [hupdate]
  by_cases hcommits : core.Commits block0
  · have hblock3 : core.block3 block0 < (core.advanced block0).nodes.length :=
      hsame.nodes ▸ h.justifiedOf_lt _
    obtain ⟨pool, path, hcommit, hkeeps, hlineage⟩ := hadvanced.onCommit_ok hblock3
    rw [if_pos hcommits, hcommit, ok_bind]
    refine ⟨_, path, rfl, ?_⟩
    constructor
    · rw [if_pos hcommits]
      rwa [hsame.parentOf, hsame.heightOf, advanced_blockExecute] at hlineage
    · rw [advanced_pool] at hkeeps
      exact hkeeps
    · rw [if_pos hcommits]
    · obtain ⟨log, hlog⟩ := hadvanced.pool
      exact hadvanced.moved ⟨rfl, rfl, rfl, rfl, rfl⟩ hadvanced.lock hblock3 hadvanced.leaf
        hadvanced.high ⟨log, hkeeps.issued log hlog⟩
  · rw [if_neg hcommits]
    refine ⟨core.advanced block0, [], rfl, ?_⟩
    constructor
    · rw [if_neg hcommits]
    · rw [advanced_pool]
      exact .refl _
    · rw [if_neg hcommits, ← advanced_blockExecute core block0]
    · exact hadvanced

/-! ## Events -/

/-- What an event does before the beat. -/
inductive Reacted (core : ReplicaCore scheme) :
    ReplicaCoreEvent scheme → ReplicaCore scheme → ReplicaCoreActions → Prop
  | request {command pool} (hpool : CommandPool.Keeps core.pool pool 1) :
      Reacted core (.request command) { core with pool } []
  | proposal {blockDigest block stored voting core' path}
      (hingested : Ingested core blockDigest block stored)
      (hvoting : voting = true ↔ stored.MayVote core.nodes.length)
      (hupdated : Updated
        { stored with voteHeight := if voting then block.height else stored.voteHeight }
        core.nodes.length core' path) :
      Reacted core (.proposal blockDigest block) core'
        ((if voting then [.vote core.nodes.length] else []) ++ path.map .finalize)
  | proposed {blockDigest block stored core' path}
      (hingested : Ingested core blockDigest block stored)
      (hvoting : stored.MayVote core.nodes.length)
      (hupdated : Updated
        { stored with voteHeight := block.height, blockLeaf := core.nodes.length }
        core.nodes.length core' path) :
      Reacted core (.proposed blockDigest block) core'
        (.vote core.nodes.length :: path.map .finalize)
  | quorumCert {quorumCert key} (hknown : core.nodeIndex.lookup quorumCert.node = some key) :
      Reacted core (.quorumCert quorumCert)
        (raised { core with quorumCerts := core.quorumCerts ++ [⟨key, quorumCert.sig⟩] }
          core.quorumCerts.length) []

theorem Reacted.numExtraRound (h : Reacted core event core' pushed) :
    core'.numExtraRound = core.numExtraRound := by
  cases h with
  | request => rfl
  | proposal hingested _ hupdated | proposed hingested _ hupdated =>
      rw [hupdated.rest]
      change (ReplicaCore.advanced _ _).numExtraRound = _
      rw [advanced_numExtraRound]
      rw [hingested.rest]
  | quorumCert =>
      unfold raised
      split <;> rfl

/-- Ways in which an event fails before the beat. -/
inductive ReactRefused (core : ReplicaCore scheme) : ReplicaCoreEvent scheme → Panic → Prop
  | proposal {blockDigest block panic} (hrefused : IngestRefused core blockDigest block panic) :
      ReactRefused core (.proposal blockDigest block) panic
  | proposed {blockDigest block panic} (hrefused : IngestRefused core blockDigest block panic) :
      ReactRefused core (.proposed blockDigest block) panic
  | unvotable {blockDigest block stored} (hingested : Ingested core blockDigest block stored)
      (hvoting : ¬stored.MayVote core.nodes.length) :
      ReactRefused core (.proposed blockDigest block) .assert
  | quorumCert {quorumCert} (hunknown : core.nodeIndex.lookup quorumCert.node = none) :
      ReactRefused core (.quorumCert quorumCert) .index

theorem Stored.handleProposal_cases (h : Stored core) (blockDigest : Digest)
    (block : Message.Block scheme) :
    (∃ core' actions, core.handleProposal blockDigest block = .ok (core', actions) ∧
      Reacted core (.proposal blockDigest block) core' actions) ∨
    ∃ panic, core.handleProposal blockDigest block = .error panic ∧
      ReactRefused core (.proposal blockDigest block) panic := by
  unfold handleProposal
  rcases h.ingest_cases blockDigest block with
    ⟨stored, hingest, hingested⟩ | ⟨panic, hingest, hrefused⟩
  · have hstored := hingested.stored
    have hkey : core.nodes.length < stored.nodes.length := by
      rw [hingested.length]
      exact Nat.lt_succ_self _
    obtain ⟨voting, hshould, hvoting⟩ := hstored.shouldVote_ok hkey
    have hheight : (stored.nodeAt core.nodes.length).height = block.height := hingested.height
    set voted : ReplicaCore scheme :=
      { stored with voteHeight := if voting then block.height else stored.voteHeight } with hvoted
    have hvotedStored : Stored voted :=
      hstored.moved ⟨rfl, rfl, rfl, rfl, rfl⟩ hstored.lock hstored.execute hstored.leaf hstored.high
        hstored.pool
    obtain ⟨core', path, hupdate, hupdated⟩ := hvotedStored.update_ok hkey
    have hchoice : (if voting = true then { stored with voteHeight := block.height } else stored) =
        voted := by
      rw [hvoted]
      cases voting <;> rfl
    refine .inl ⟨core', _, ?_, .proposal hingested hvoting hupdated⟩
    simp only [hingest, ok_bind, node_ok hkey, hshould, hheight, hchoice, hupdate]
  · rw [hingest]
    exact .inr ⟨panic, rfl, .proposal hrefused⟩

theorem Stored.handleProposed_cases (h : Stored core) (blockDigest : Digest)
    (block : Message.Block scheme) :
    (∃ core' actions, core.handleProposed blockDigest block = .ok (core', actions) ∧
      Reacted core (.proposed blockDigest block) core' actions) ∨
    ∃ panic, core.handleProposed blockDigest block = .error panic ∧
      ReactRefused core (.proposed blockDigest block) panic := by
  unfold handleProposed
  rcases h.ingest_cases blockDigest block with
    ⟨stored, hingest, hingested⟩ | ⟨panic, hingest, hrefused⟩
  · have hstored := hingested.stored
    have hkey : core.nodes.length < stored.nodes.length := by
      rw [hingested.length]
      exact Nat.lt_succ_self _
    obtain ⟨voting, hshould, hvoting⟩ := hstored.shouldVote_ok hkey
    have hheight : (stored.nodeAt core.nodes.length).height = block.height := hingested.height
    have hmoved : Stored
        { stored with voteHeight := block.height, blockLeaf := core.nodes.length } :=
      hstored.moved ⟨rfl, rfl, rfl, rfl, rfl⟩ hstored.lock hstored.execute hkey hstored.high
        hstored.pool
    obtain ⟨core', path, hupdate, hupdated⟩ := hmoved.update_ok hkey
    simp only [hingest, ok_bind, node_ok hkey, hshould, hheight, hupdate]
    cases voting with
    | true => exact .inl ⟨core', _, rfl, .proposed hingested (hvoting.mp rfl) hupdated⟩
    | false =>
        exact .inr ⟨.assert, rfl,
          .unvotable hingested fun hvote => absurd (hvoting.mpr hvote) (by simp)⟩
  · rw [hingest]
    exact .inr ⟨panic, rfl, .proposed hrefused⟩

theorem Stored.react_cases (h : Stored core) (event : ReplicaCoreEvent scheme) :
    (∃ core' actions, core.react event = .ok (core', actions) ∧
      Reacted core event core' actions) ∨
    ∃ panic, core.react event = .error panic ∧ ReactRefused core event panic := by
  cases event with
  | request command =>
      obtain ⟨log, hlog⟩ := h.pool
      obtain ⟨pool, accepted, hpush, hkeeps⟩ := CommandPool.Keeps.push hlog command
      exact .inl ⟨_, _, by simp only [react, hpush, ok_bind], .request hkeeps⟩
  | proposal blockDigest block => exact h.handleProposal_cases blockDigest block
  | proposed blockDigest block => exact h.handleProposed_cases blockDigest block
  | quorumCert quorumCert =>
      cases hlookup : core.nodeIndex.lookup quorumCert.node with
      | none =>
          refine .inr ⟨.index, ?_, .quorumCert hlookup⟩
          simp only [react, handleQuorumCert, nodeKey, hlookup, error_bind]
      | some key =>
          have hadded := h.addCert ⟨key, quorumCert.sig⟩ ((h.index _ key).mp hlookup).1
          refine .inl ⟨_, _, ?_, .quorumCert hlookup⟩
          simp only [react, handleQuorumCert, nodeKey, hlookup, ok_bind]
          rw [hadded.updateQuorumCertHigh_ok (by simp), ok_bind]

variable {event : ReplicaCoreEvent scheme} {actions : ReplicaCoreActions}

theorem Stored.react_ok (h : Stored core) (hreact : core.react event = .ok (core', actions)) :
    Reacted core event core' actions := by
  rcases h.react_cases event with ⟨_, _, hok, hreacted⟩ | ⟨_, herror, -⟩
  · obtain ⟨rfl, rfl⟩ := Prod.mk.inj (Except.ok.inj (hok.symm.trans hreact))
    exact hreacted
  · cases herror.symm.trans hreact

theorem Reacted.stored (h : Reacted core event core' actions) (hstored : Stored core) :
    Stored core' := by
  cases h with
  | request hpool =>
      obtain ⟨log, hlog⟩ := hstored.pool
      exact hstored.moved ⟨rfl, rfl, rfl, rfl, rfl⟩ hstored.lock hstored.execute hstored.leaf
        hstored.high ⟨log, hpool.issued log hlog⟩
  | proposal _ _ hupdated => exact hupdated.stored
  | proposed _ _ hupdated => exact hupdated.stored
  | quorumCert hknown =>
      exact (hstored.addCert _ ((hstored.index _ _).mp hknown).1).raised (by simp)

theorem Reacted.grows (h : Reacted core event core' actions) : Grows core core' := by
  cases h with
  | request => exact ⟨rfl, List.prefix_rfl, List.prefix_rfl⟩
  | proposal hingested _ hupdated =>
      exact hingested.grows.trans
        ⟨hupdated.sameStore.config, hupdated.sameStore.grows.nodes, hupdated.sameStore.grows.certs⟩
  | proposed hingested _ hupdated =>
      exact hingested.grows.trans
        ⟨hupdated.sameStore.config, hupdated.sameStore.grows.nodes, hupdated.sameStore.grows.certs⟩
  | quorumCert =>
      apply Grows.trans _ (raised_sameStore _ _).grows
      exact ⟨rfl, List.prefix_rfl, List.prefix_append _ _⟩

/-- Only requests bring commands in. -/
theorem Reacted.pending_length (hreacted : Reacted core event core' actions) :
    core'.pool.pending.length ≤ core.pool.pending.length + 1 := by
  cases hreacted with
  | request hpool => exact hpool.length_le
  | @proposal _ _ stored _ _ _ hingested _ hupdated | @proposed _ _ stored _ _ hingested _ hupdated =>
      have hsame : stored.pool = core.pool := by rw [hingested.rest]
      rw [← hsame]
      exact hupdated.pool.length_le.trans (Nat.le_succ _)
  | quorumCert =>
      unfold raised
      split <;> exact Nat.le_succ _

/-- Votes are for rising heights. -/
theorem Reacted.voteHeight_le (hreacted : Reacted core event core' actions) :
    core.voteHeight ≤ core'.voteHeight := by
  cases hreacted with
  | request => exact le_rfl
  | @proposal _ block stored voting _ _ hingested hvoting hupdated =>
      have hsame : stored.voteHeight = core.voteHeight := by rw [hingested.rest]
      rw [hupdated.rest]
      change core.voteHeight ≤ (ReplicaCore.advanced _ _).voteHeight
      rw [advanced_voteHeight]
      split
      next hvote =>
        obtain ⟨habove, -⟩ := hvoting.mp hvote
        rw [hsame, hingested.height] at habove
        exact habove.le
      next => exact hsame.ge
  | @proposed _ block stored _ _ hingested hvoting hupdated =>
      have hsame : stored.voteHeight = core.voteHeight := by rw [hingested.rest]
      obtain ⟨habove, -⟩ := hvoting
      rw [hsame, hingested.height] at habove
      rw [hupdated.rest]
      change core.voteHeight ≤ (ReplicaCore.advanced _ _).voteHeight
      rw [advanced_voteHeight]
      exact habove.le
  | quorumCert =>
      unfold raised
      split <;> exact le_rfl

theorem Reacted.variant (hreacted : Reacted core event core' actions) :
    core'.pool.IsCloseLoop ↔ core.pool.IsCloseLoop := by
  cases hreacted with
  | request hpool => exact hpool.variant
  | @proposal _ _ stored _ _ _ hingested _ hupdated | @proposed _ _ stored _ _ hingested _ hupdated =>
      have hsame : stored.pool = core.pool := by rw [hingested.rest]
      rw [← hsame]
      exact hupdated.pool.variant
  | quorumCert =>
      unfold raised
      split <;> exact .rfl

/-! ## Beats -/

/-- The proposal of a leader on top of its leaf. -/
def leafBlock (core : ReplicaCore scheme) (commands : List Command)
    (hroom : core.heightOf core.blockLeaf + 1 < 2 ^ 32) : NodeData where
  parent := core.blockLeaf
  commands
  justify := core.quorumCertHigh
  height := core.heightOf core.blockLeaf + 1
  height_lt := hroom

/-- What a beat does. -/
inductive Beat (core : ReplicaCore scheme) :
    ReplicaCore scheme → ReplicaCoreActions → Prop
  /-- The leaf has no quorum certificate yet. -/
  | wait (hhigh : core.highNode ≠ core.blockLeaf) : Beat core core []
  /-- A backup closes a batch all the same. -/
  | backup {pool commands} (hhigh : core.highNode = core.blockLeaf) (hid : core.config.id ≠ 0)
      (hclose : core.pool.closeBatch core.config.maxBatchSize = .ok (pool, commands)) :
      Beat core { core with pool } []
  /-- Nothing is pending, and no more rounds are needed. -/
  | rest {pool} (hhigh : core.highNode = core.blockLeaf) (hid : core.config.id = 0)
      (hclose : core.pool.closeBatch core.config.maxBatchSize = .ok (pool, none))
      (hextra : core.numExtraRound = 0) : Beat core { core with pool } []
  /-- An empty proposal, to get the last commands finalized. -/
  | extra {pool commands numExtraRound} (hhigh : core.highNode = core.blockLeaf)
      (hid : core.config.id = 0)
      (hclose : core.pool.closeBatch core.config.maxBatchSize = .ok (pool, commands))
      (hempty : commands.getD [] = []) (hextra : core.numExtraRound = numExtraRound + 1)
      (hroom : core.heightOf core.blockLeaf + 1 < 2 ^ 32) :
      Beat core { core with pool, numExtraRound } [.propose (core.leafBlock [] hroom)]
  | propose {pool commands} (hhigh : core.highNode = core.blockLeaf) (hid : core.config.id = 0)
      (hclose : core.pool.closeBatch core.config.maxBatchSize = .ok (pool, some commands))
      (hne : commands ≠ []) (hroom : core.heightOf core.blockLeaf + 1 < 2 ^ 32) :
      Beat core { core with pool, numExtraRound := 3 } [.propose (core.leafBlock commands hroom)]

/-- Ways in which a beat fails. The first two take an unusual batch size. -/
inductive BeatRefused (core : ReplicaCore scheme) : Panic → Prop
  | batchSize {panic} (hhigh : core.highNode = core.blockLeaf)
      (hclose : core.pool.closeBatch core.config.maxBatchSize = .error panic) :
      BeatRefused core panic
  | underflow {pool} (hhigh : core.highNode = core.blockLeaf)
      (hclose : core.pool.closeBatch core.config.maxBatchSize = .ok (pool, some []))
      (hextra : core.numExtraRound = 0) : BeatRefused core .underflow
  /-- The leaf is as high as can be. -/
  | overflow {pool commands} (hhigh : core.highNode = core.blockLeaf) (hid : core.config.id = 0)
      (hclose : core.pool.closeBatch core.config.maxBatchSize = .ok (pool, commands))
      (hdue : commands.getD [] ≠ [] ∨ 0 < core.numExtraRound)
      (hroom : 2 ^ 32 ≤ core.heightOf core.blockLeaf + 1) : BeatRefused core .overflow

/-- `on_beat`, once the leaf is known to be there. -/
theorem Stored.onBeat_eq (h : Stored core) (commands : Option (List Command)) :
    core.onBeat commands =
      if core.config.id = 0 ∧ (commands.isSome ∨ 0 < core.numExtraRound) then
        if commands.getD [] = [] then
          if core.numExtraRound = 0 then .error .underflow
          else if hroom : core.heightOf core.blockLeaf + 1 < 2 ^ 32 then
            .ok ({ core with numExtraRound := core.numExtraRound - 1 },
              [.propose (core.leafBlock [] hroom)])
          else .error .overflow
        else if hroom : core.heightOf core.blockLeaf + 1 < 2 ^ 32 then
          .ok ({ core with numExtraRound := 3 },
            [.propose (core.leafBlock (commands.getD []) hroom)])
        else .error .overflow
      else .ok (core, []) := by
  unfold onBeat getLeader
  split
  · by_cases hempty : commands.getD [] = []
    · by_cases hextra : core.numExtraRound = 0
      · simp [hempty, hextra]
      · simp only [hempty, hextra, node_ok h.leaf, List.isEmpty_nil, if_true, if_false, ok_bind]
        rfl
    · simp only [hempty, node_ok h.leaf, List.isEmpty_iff, if_false, ok_bind]
      rfl
  · rfl

theorem Stored.beat_cases (h : Stored core) :
    (∃ core' actions, core.beat = .ok (core', actions) ∧ Beat core core' actions) ∨
    ∃ panic, core.beat = .error panic ∧ BeatRefused core panic := by
  unfold beat
  rw [quorumCert_ok h.high, ok_bind]
  by_cases hhigh : core.highNode = core.blockLeaf
  · rw [if_pos (show (core.certAt core.quorumCertHigh).node = core.blockLeaf from hhigh)]
    cases hclose : core.pool.closeBatch core.config.maxBatchSize with
    | error panic => exact .inr ⟨panic, rfl, .batchSize hhigh hclose⟩
    | ok closed =>
        obtain ⟨pool, commands⟩ := closed
        obtain ⟨log, hlog⟩ := h.pool
        have hpooled : Stored { core with pool } :=
          h.moved ⟨rfl, rfl, rfl, rfl, rfl⟩ h.lock h.execute h.leaf h.high
            ⟨_, (hlog.closeBatch hclose).1⟩
        simp only [ok_bind, hpooled.onBeat_eq]
        by_cases hid : core.config.id = 0
        · by_cases hextra : core.numExtraRound = 0
          · cases commands with
            | none =>
                rw [if_neg (by simp [hextra])]
                exact .inl ⟨_, _, rfl, .rest hhigh hid hclose hextra⟩
            | some commands =>
                rw [if_pos ⟨hid, .inl rfl⟩]
                by_cases hempty : commands = []
                · subst hempty
                  rw [if_pos (show (some ([] : List Command)).getD [] = [] from rfl), if_pos hextra]
                  exact .inr ⟨.underflow, rfl, .underflow hhigh hclose hextra⟩
                · rw [if_neg (show (some commands).getD [] ≠ [] from hempty)]
                  split
                  next hroom => exact .inl ⟨_, _, rfl, .propose hhigh hid hclose hempty hroom⟩
                  next hroom =>
                    exact .inr ⟨.overflow, rfl,
                      .overflow hhigh hid hclose (.inl hempty) (not_lt.mp hroom)⟩
          · rw [if_pos ⟨hid, .inr (Nat.pos_of_ne_zero hextra)⟩]
            by_cases hempty : commands.getD [] = []
            · rw [if_pos hempty, if_neg hextra]
              split
              next hroom => exact .inl ⟨_, _, rfl, .extra hhigh hid hclose hempty (by omega) hroom⟩
              next hroom =>
                exact .inr ⟨.overflow, rfl, .overflow hhigh hid hclose
                  (.inr (Nat.pos_of_ne_zero hextra)) (not_lt.mp hroom)⟩
            · rw [if_neg hempty]
              cases commands with
              | none => exact absurd rfl hempty
              | some commands =>
                  split
                  next hroom => exact .inl ⟨_, _, rfl, .propose hhigh hid hclose hempty hroom⟩
                  next hroom =>
                    exact .inr ⟨.overflow, rfl,
                      .overflow hhigh hid hclose (.inl hempty) (not_lt.mp hroom)⟩
        · rw [if_neg fun hleader => hid hleader.1]
          exact .inl ⟨_, _, rfl, .backup hhigh hid hclose⟩
  · rw [if_neg (show (core.certAt core.quorumCertHigh).node ≠ core.blockLeaf from hhigh)]
    exact .inl ⟨core, [], rfl, .wait hhigh⟩

theorem Stored.beat_ok (h : Stored core) (hbeat : core.beat = .ok (core', actions)) :
    Beat core core' actions := by
  rcases h.beat_cases with ⟨_, _, hok, hbeats⟩ | ⟨_, herror, -⟩
  · obtain ⟨rfl, rfl⟩ := Prod.mk.inj (Except.ok.inj (hok.symm.trans hbeat))
    exact hbeats
  · cases herror.symm.trans hbeat

theorem Beat.sameStore (h : Beat core core' actions) : SameStore core core' := by
  cases h <;> exact ⟨rfl, rfl, rfl, rfl, rfl⟩

theorem Beat.stored (h : Beat core core' actions) (hstored : Stored core) : Stored core' := by
  obtain ⟨log, hlog⟩ := hstored.pool
  have hclosed : ∀ {pool commands},
      core.pool.closeBatch core.config.maxBatchSize = .ok (pool, commands) →
      ∃ log, pool.Issued log := fun hclose => ⟨_, (hlog.closeBatch hclose).1⟩
  cases h with
  | wait => exact hstored
  | backup _ _ hclose =>
      exact hstored.moved ⟨rfl, rfl, rfl, rfl, rfl⟩ hstored.lock hstored.execute hstored.leaf
        hstored.high (hclosed hclose)
  | rest _ _ hclose =>
      exact hstored.moved ⟨rfl, rfl, rfl, rfl, rfl⟩ hstored.lock hstored.execute hstored.leaf
        hstored.high (hclosed hclose)
  | extra _ _ hclose =>
      exact hstored.moved ⟨rfl, rfl, rfl, rfl, rfl⟩ hstored.lock hstored.execute hstored.leaf
        hstored.high (hclosed hclose)
  | propose _ _ hclose =>
      exact hstored.moved ⟨rfl, rfl, rfl, rfl, rfl⟩ hstored.lock hstored.execute hstored.leaf
        hstored.high (hclosed hclose)

/-- An event that is handled reacts, then beats. -/
theorem Stored.handle_ok (h : Stored core) (hhandle : core.handle event = .ok (core', actions)) :
    ∃ middle reactions beats, Reacted core event middle reactions ∧ Beat middle core' beats ∧
      actions = reactions ++ beats := by
  unfold handle at hhandle
  rcases h.react_cases event with ⟨middle, reactions, hreact, hreacted⟩ | ⟨panic, hreact, -⟩
  · rcases (hreacted.stored h).beat_cases with ⟨final, beats, hbeat, hbeats⟩ | ⟨panic, hbeat, -⟩
    · simp only [hreact, hbeat, ok_bind, Except.ok.injEq, Prod.mk.injEq] at hhandle
      obtain ⟨rfl, rfl⟩ := hhandle
      exact ⟨middle, reactions, beats, hreacted, hbeats, rfl⟩
    · simp only [hreact, hbeat, ok_bind, error_bind] at hhandle
      cases hhandle
  · simp only [hreact, error_bind] at hhandle
    cases hhandle

/-- An event that is not handled fails in its reaction or in the beat. -/
theorem Stored.handle_error (h : Stored core) {panic : Panic}
    (hhandle : core.handle event = .error panic) :
    ReactRefused core event panic ∨
      ∃ middle reactions, Reacted core event middle reactions ∧ BeatRefused middle panic := by
  unfold handle at hhandle
  rcases h.react_cases event with ⟨middle, reactions, hreact, hreacted⟩ | ⟨panic', hreact, hrefused⟩
  · rcases (hreacted.stored h).beat_cases with ⟨final, beats, hbeat, -⟩ | ⟨panic', hbeat, hrefused⟩
    · simp only [hreact, hbeat, ok_bind] at hhandle
      cases hhandle
    · simp only [hreact, hbeat, ok_bind, error_bind, Except.error.injEq] at hhandle
      exact .inr ⟨middle, reactions, hreacted, hhandle ▸ hrefused⟩
  · simp only [hreact, error_bind, Except.error.injEq] at hhandle
    exact .inl (hhandle ▸ hrefused)

theorem Stored.handle_voteHeight (h : Stored core)
    (hhandle : core.handle event = .ok (core', actions)) : core.voteHeight ≤ core'.voteHeight := by
  obtain ⟨middle, reactions, beats, hreacted, hbeat, -⟩ := h.handle_ok hhandle
  have hmiddle := hreacted.voteHeight_le
  cases hbeat <;> exact hmiddle

theorem Stored.handle (h : Stored core) (hhandle : core.handle event = .ok (core', actions)) :
    Stored core' ∧ Grows core core' := by
  obtain ⟨middle, reactions, beats, hreacted, hbeat, -⟩ := h.handle_ok hhandle
  exact ⟨hbeat.stored (hreacted.stored h), hreacted.grows.trans hbeat.sameStore.grows⟩

end ReplicaCore

end BftKit.Hotstuff
