import BftKit.Hotstuff.Trace

/-! # Stores in a line

In the normal case the nodes of a store form one line: each is the child of the one
before it, which it justifies. Every node that joins the line is voted for, and
finalizes the one three below it.
-/

namespace BftKit.Hotstuff

open Foundation Threshold

variable {scheme : ThresholdScheme}

namespace ReplicaCore

/-- Each node is on top of the one before it. -/
structure Linked (core : ReplicaCore scheme) : Prop where
  parent : ∀ key < core.nodes.length, core.parentOf key = key - 1
  justified : ∀ key < core.nodes.length, core.justifiedOf key = key - 1
  height : ∀ key < core.nodes.length, core.heightOf key = key

/-- The store is a line, and the keys into it are where the last node puts them. -/
structure Line (core : ReplicaCore scheme) : Prop where
  stored : Stored core
  linked : Linked core
  vote : core.voteHeight = core.nodes.length - 1
  lock : core.blockLock = core.nodes.length - 3
  execute : core.blockExecute = core.nodes.length - 4

/-- A block goes on top of the last node. -/
structure Next (core : ReplicaCore scheme) (block : Message.Block scheme) : Prop where
  parent : core.nodeIndex.lookup block.parent = some (core.nodes.length - 1)
  justify : core.nodeIndex.lookup block.justify.node = some (core.nodes.length - 1)
  height : block.height = core.nodes.length

/-- A line has grown: each new node has been voted for, and those three below them
have been finalized. -/
structure Advanced (core core' : ReplicaCore scheme) (pushed : ReplicaCoreActions) : Prop where
  line : Line core'
  votes : List.range' 1 (core.nodes.length - 1) ++ votes pushed =
    List.range' 1 (core'.nodes.length - 1)
  finalizations : List.range' 1 (core.nodes.length - 4) ++ finalizations pushed =
    List.range' 1 (core'.nodes.length - 4)

variable {core core' stored voted : ReplicaCore scheme} {key target : Nat}

theorem Linked.congr (h : Linked core) (hgrows : Grows core core') (hstored : Stored core)
    (hnodes : core'.nodes = core.nodes) : Linked core' where
  parent key hkey := by
    rw [hnodes] at hkey
    rw [hgrows.parentOf hkey, h.parent key hkey]
  justified key hkey := by
    rw [hnodes] at hkey
    rw [hgrows.justifiedOf hstored hkey, h.justified key hkey]
  height key hkey := by
    rw [hnodes] at hkey
    rw [hgrows.heightOf hkey, h.height key hkey]

theorem Linked.sameStore (h : Linked core) (hsame : SameStore core core') : Linked core' where
  parent := by
    rw [hsame.nodes, hsame.parentOf]
    exact h.parent
  justified := by
    rw [hsame.nodes, hsame.justifiedOf]
    exact h.justified
  height := by
    rw [hsame.nodes, hsame.heightOf]
    exact h.height

/-- Walks down a line reach everything below. -/
theorem Linked.reaches (h : Linked core) (hkey : key < core.nodes.length) (hle : target ≤ key) :
    Reaches core.parentOf core.heightOf key target := by
  induction key with
  | zero =>
      obtain rfl : target = 0 := Nat.le_zero.mp hle
      exact .refl 0
  | succ key ih =>
      rcases Nat.lt_or_ge key target with hlt | hge
      · obtain rfl : target = key + 1 := by omega
        exact .refl _
      · refine .step ?_ ?_
        · rw [h.height _ hkey, h.height target (by omega)]
          omega
        · rw [h.parent _ hkey]
          exact ih (by omega) hge

theorem Linked.lineage (h : Linked core) {floor : Nat} {path : List Nat}
    (hlineage : Lineage core.parentOf core.heightOf floor key path)
    (hkey : key < core.nodes.length) : path = List.range' (floor + 1) (key - floor) := by
  induction hlineage with
  | @stop node hbelow =>
      rw [h.height _ hkey] at hbelow
      rw [Nat.sub_eq_zero_of_le hbelow]
      rfl
  | @step node path habove hrest ih =>
      rw [h.height _ hkey] at habove
      rw [h.parent _ hkey] at ih
      have hcount : node - floor = node - 1 - floor + 1 := by omega
      rw [ih (by omega), hcount, List.range'_1_concat]
      congr 2
      omega

theorem Line.new (scheme : ThresholdScheme) (config : ReplicaCoreConfig) :
    Line (new scheme config) := by
  have hstored : Stored (ReplicaCore.new scheme config) := new_stored config
  have hzero : ∀ key < (ReplicaCore.new scheme config).nodes.length, key = 0 :=
    fun key hkey => Nat.lt_one_iff.mp hkey
  refine ⟨hstored, ⟨?_, ?_, ?_⟩, rfl, rfl, rfl⟩
  · intro key hkey
    rw [hzero key hkey, hstored.parentOf_zero]
  · intro key hkey
    rw [hzero key hkey, hstored.justifiedOf_zero]
  · intro key hkey
    rw [hzero key hkey, hstored.heightOf_zero]

/-- Nothing joins the line. -/
theorem Line.keep (h : Line core) {pushed : ReplicaCoreActions} (hstored : Stored core')
    (hgrows : Grows core core') (hnodes : core'.nodes = core.nodes)
    (hkeys : core'.voteHeight = core.voteHeight ∧ core'.blockLock = core.blockLock ∧
      core'.blockExecute = core.blockExecute)
    (hpushed : votes pushed = [] ∧ finalizations pushed = []) : Advanced core core' pushed where
  line := {
    stored := hstored
    linked := h.linked.congr hgrows h.stored hnodes
    vote := by rw [hkeys.1, hnodes, h.vote]
    lock := by rw [hkeys.2.1, hnodes, h.lock]
    execute := by rw [hkeys.2.2, hnodes, h.execute] }
  votes := by rw [hpushed.1, List.append_nil, hnodes]
  finalizations := by rw [hpushed.2, List.append_nil, hnodes]

variable {blockDigest : Digest} {block : Message.Block scheme}

theorem Line.ingested (h : Line core) (hnext : core.Next block)
    (hingested : Ingested core blockDigest block stored) : Linked stored := by
  have hgrows := hingested.grows
  have hlast : ∀ {key}, key < stored.nodes.length → key < core.nodes.length ∨
      key = core.nodes.length := by
    intro key hkey
    rw [hingested.length] at hkey
    omega
  constructor
  · intro key hkey
    rcases hlast hkey with hlt | rfl
    · rw [hgrows.parentOf hlt, h.linked.parent key hlt]
    · exact Option.some.inj (hingested.parent.symm.trans hnext.parent)
  · intro key hkey
    rcases hlast hkey with hlt | rfl
    · rw [hgrows.justifiedOf h.stored hlt, h.linked.justified key hlt]
    · exact Option.some.inj (hingested.justified.symm.trans hnext.justify)
  · intro key hkey
    rcases hlast hkey with hlt | rfl
    · rw [hgrows.heightOf hlt, h.linked.height key hlt]
    · rw [hingested.height, hnext.height]

/-- The next node of a line may be voted for. -/
theorem Line.mayVote (h : Line core) (hnext : core.Next block)
    (hingested : Ingested core blockDigest block stored) : stored.MayVote core.nodes.length := by
  have hpos := h.stored.nodes_pos
  have hvote : stored.voteHeight = core.nodes.length - 1 := by rw [hingested.rest, ← h.vote]
  have hlock : stored.blockLock = core.nodes.length - 3 := by rw [hingested.rest, ← h.lock]
  refine ⟨?_, .inl ?_⟩
  · rw [hvote, hingested.height, hnext.height]
    omega
  · rw [hlock]
    refine (h.ingested hnext hingested).reaches ?_ (Nat.sub_le _ _)
    rw [hingested.length]
    exact Nat.lt_succ_self _

/-- The next node of a line has joined it. -/
theorem Line.updated (h : Line core) (hnext : core.Next block)
    (hingested : Ingested core blockDigest block stored) {path : List Nat}
    (hupdated : Updated voted core.nodes.length core' path) (hsame : SameStore stored voted)
    (hvote : voted.voteHeight = block.height) (hlock : voted.blockLock = stored.blockLock)
    (hexecute : voted.blockExecute = stored.blockExecute) :
    Advanced core core' (.vote core.nodes.length :: path.map .finalize) := by
  have hpos := h.stored.nodes_pos
  have hlinked := (h.ingested hnext hingested).sameStore hsame
  have hlength : voted.nodes.length = core.nodes.length + 1 := by rw [hsame.nodes, hingested.length]
  have hlast : core.nodes.length < voted.nodes.length := by omega
  have hblock1 : voted.block1 core.nodes.length = core.nodes.length - 1 := hlinked.justified _ hlast
  have hblock2 : voted.block2 core.nodes.length = core.nodes.length - 2 := by
    rw [block2, hblock1, hlinked.justified _ (by omega)]
    omega
  have hblock3 : voted.block3 core.nodes.length = core.nodes.length - 3 := by
    rw [block3, hblock2, hlinked.justified _ (by omega)]
    omega
  -- parents and justifications agree along the line, so every new node commits
  have hcommits : voted.Commits core.nodes.length := by
    constructor
    · rw [hblock1, hblock2, hlinked.parent _ (by omega)]
      omega
    · rw [hblock2, hblock3, hlinked.parent _ (by omega)]
      omega
  have hold_lock : voted.blockLock = core.nodes.length - 3 := by
    rw [hlock, hingested.rest, ← h.lock]
  have hold_execute : voted.blockExecute = core.nodes.length - 4 := by
    rw [hexecute, hingested.rest, ← h.execute]
  have hlength' : core'.nodes.length = core.nodes.length + 1 := by
    rw [hupdated.sameStore.nodes, hlength]
  constructor
  · refine ⟨hupdated.stored, hlinked.sameStore hupdated.sameStore, ?_, ?_, ?_⟩
    · have hheight : core'.voteHeight = voted.voteHeight := by
        rw [hupdated.rest]
        exact advanced_voteHeight _ _
      rw [hheight, hvote, hnext.height, hlength']
      rfl
    · have hnew : core'.blockLock = (voted.advanced core.nodes.length).blockLock := by
        rw [hupdated.rest]
      rw [hnew, advanced_blockLock, hold_lock, hblock2, hlinked.height _ (by omega),
        hlinked.height _ (by omega), hlength']
      split <;> omega
    · have hnew : core'.blockExecute = voted.block3 core.nodes.length := by
        rw [hupdated.rest]
        exact if_pos hcommits
      rw [hnew, hblock3, hlength']
      omega
  · have hvotes : votes (.vote core.nodes.length :: path.map .finalize) = [core.nodes.length] :=
      congrArg (core.nodes.length :: ·) (votes_finalize path)
    have hcount : core'.nodes.length - 1 = core.nodes.length - 1 + 1 := by omega
    rw [hvotes, hcount, List.range'_1_concat]
    congr 2
    omega
  · have hfinalizations :
        finalizations (.vote core.nodes.length :: path.map .finalize) = path :=
      finalizations_finalize path
    have hpath := hupdated.path
    rw [if_pos hcommits, hold_execute, hlinked.height _ (by omega), hblock3] at hpath
    have hcount : core'.nodes.length - 4 =
        core.nodes.length - 4 + (core.nodes.length - 3 - (core.nodes.length - 4)) := by omega
    rw [hfinalizations, hlinked.lineage hpath (by omega), hcount, ← List.range'_append_1, Nat.add_comm]

/-- What events do to a line, if the blocks they bring go on top of it. -/
theorem Line.handle (h : Line core) {event : ReplicaCoreEvent scheme} {pushed : ReplicaCoreActions}
    (hnext : ∀ blockDigest block,
      event = .proposal blockDigest block ∨ event = .proposed blockDigest block → core.Next block)
    (hhandle : core.handle event = .ok (core', pushed)) : Advanced core core' pushed := by
  obtain ⟨middle, reactions, beats, hreacted, hbeat, rfl⟩ := h.stored.handle_ok hhandle
  have hmiddle_stored := hreacted.stored h.stored
  suffices hmiddle : Advanced core middle reactions by
    have hbeats := hmiddle.line.keep (hbeat.stored hmiddle_stored) hbeat.sameStore.grows
      hbeat.sameStore.nodes (by cases hbeat <;> exact ⟨rfl, rfl, rfl⟩) hbeat.pushed
    refine ⟨hbeats.line, ?_, ?_⟩
    · rw [votes_append, ← List.append_assoc, hmiddle.votes, hbeats.votes]
    · rw [finalizations_append, ← List.append_assoc, hmiddle.finalizations, hbeats.finalizations]
  cases hreacted with
  | request =>
      exact h.keep hmiddle_stored ⟨rfl, List.prefix_rfl, List.prefix_rfl⟩ rfl ⟨rfl, rfl, rfl⟩
        ⟨rfl, rfl⟩
  | @proposal blockDigest block stored voting _ path hingested hvoting hupdated =>
      have hblock := hnext blockDigest block (.inl rfl)
      obtain rfl : voting = true := hvoting.mpr (h.mayVote hblock hingested)
      exact h.updated hblock hingested hupdated ⟨rfl, rfl, rfl, rfl, rfl⟩ rfl rfl rfl
  | @proposed blockDigest block stored _ path hingested _ hupdated =>
      exact h.updated (hnext blockDigest block (.inr rfl)) hingested hupdated
        ⟨rfl, rfl, rfl, rfl, rfl⟩ rfl rfl rfl
  | quorumCert =>
      refine h.keep hmiddle_stored ?_ (raised_sameStore _ _).nodes ?_ ⟨rfl, rfl⟩
      · apply Grows.trans _ (raised_sameStore _ _).grows
        exact ⟨rfl, List.prefix_rfl, List.prefix_append _ _⟩
      · unfold raised
        split <;> exact ⟨rfl, rfl, rfl⟩

end ReplicaCore

namespace Replica

/-- A replica whose store is a line, with the core actions it has performed and
those in its queue. -/
structure Lined (replica : Replica scheme) (performed : ReplicaCoreActions) : Prop where
  line : replica.core.Line
  votes : votes (performed ++ replica.coreActions) = List.range' 1 (replica.core.nodes.length - 1)
  finalizations : finalizations (performed ++ replica.coreActions) =
    List.range' 1 (replica.core.nodes.length - 4)

variable {replica next : Replica scheme} {event : Event scheme} {performed : ReplicaCoreActions}

theorem Lined.step (h : Lined replica performed) (hstep : CoreStep replica event next)
    (hnext : ∀ blockDigest block, Gives replica event (.proposal blockDigest block) ∨
      Gives replica event (.proposed blockDigest block) → replica.core.Next block) :
    Lined next (performed ++ event.performed?.toList) := by
  obtain ⟨hline, hvotes, hfinalizations⟩ := h
  cases hstep with
  | keep hcore hqueue =>
      refine ⟨hcore ▸ hline, ?_, ?_⟩
      · rw [List.append_assoc, hqueue, hcore, hvotes]
      · rw [List.append_assoc, hqueue, hcore, hfinalizations]
  | give hgives hhandle hqueue =>
      have hadvanced := hline.handle (fun blockDigest block hevent =>
        hnext blockDigest block (by rcases hevent with rfl | rfl; exacts [.inl hgives, .inr hgives]))
        hhandle
      refine ⟨hadvanced.line, ?_, ?_⟩
      · rw [List.append_assoc, hqueue, ← List.append_assoc, votes_append, hvotes, hadvanced.votes]
      · rw [List.append_assoc, hqueue, ← List.append_assoc, finalizations_append, hfinalizations,
          hadvanced.finalizations]

end Replica

end BftKit.Hotstuff
