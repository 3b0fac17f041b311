import BftKit.Hotstuff.Trace

/-! # How a replica votes and commits

Whatever it receives, a replica votes for rising heights, keeps to a lock that its
own votes have raised, and finalizes ancestors of the lowest node of a three-chain.
Whether the nodes it votes for are sensible is another matter.
-/

namespace BftKit.Hotstuff

open Foundation Threshold

variable {scheme : ThresholdScheme}

namespace ReplicaCore

/-- A quorum certificate for the node is stored. -/
def Held (core : ReplicaCore scheme) (key : Nat) : Prop :=
  ∃ cert < core.quorumCerts.length, (core.certAt cert).node = key

/-- The later vote is for a higher node, and keeps to a lock at least as high as the
one that the earlier vote implies. -/
structure Follows (core : ReplicaCore scheme) (earlier later : Nat) : Prop where
  height : core.heightOf earlier < core.heightOf later
  lock : ∃ lock, core.Held lock ∧ core.heightOf (core.block2 earlier) ≤ core.heightOf lock ∧
    (Ancestor core.parentOf lock later ∧ core.heightOf lock < core.heightOf later ∨
      core.heightOf lock < core.heightOf (core.justifiedOf later))

/-- A node below which a three-chain is complete: it is held, and so the nodes that
`update` calls `block2` and `block3` are its justified ones. -/
structure Committed (core : ReplicaCore scheme) (top key : Nat) : Prop where
  held : core.Held top
  parent1 : core.parentOf top = core.justifiedOf top
  parent2 : core.parentOf (core.justifiedOf top) = core.block2 top
  height : 0 < core.heightOf (core.block2 top)
  ancestor : Ancestor core.parentOf key (core.block2 top)

/-- A vote was cast in a state that the current one extends. -/
structure Voted (core : ReplicaCore scheme) (key : Nat) : Prop where
  lt : key < core.nodes.length
  height_pos : 0 < core.heightOf key
  height_le : core.heightOf key ≤ core.voteHeight
  lock_le : core.heightOf (core.block2 key) ≤ core.heightOf core.blockLock

/-- What holds of a core and the actions it has pushed. -/
structure Disciplined (core : ReplicaCore scheme) (pushed : ReplicaCoreActions) : Prop where
  stored : Stored core
  voted : ∀ key ∈ votes pushed, core.Voted key
  follows : (votes pushed).Pairwise core.Follows
  locked : core.Held core.blockLock
  committed : ∀ key ∈ finalizations pushed, ∃ top, core.Committed top key

variable {core core' stored voted : ReplicaCore scheme} {key earlier later top : Nat}

theorem Stored.held_justified (h : Stored core) (key : Nat) : core.Held (core.justifiedOf key) :=
  ⟨_, h.justify key, rfl⟩

theorem Stored.held_lt (h : Stored core) (hheld : core.Held key) : key < core.nodes.length := by
  obtain ⟨cert, -, rfl⟩ := hheld
  exact h.cert cert

theorem SameStore.block2 (h : SameStore core core') : core'.block2 = core.block2 := by
  funext key
  rw [ReplicaCore.block2, block1, h.justifiedOf, ReplicaCore.block2, block1]

theorem Stored.block2_lt (h : Stored core) (key : Nat) : core.block2 key < core.nodes.length :=
  h.justifiedOf_lt _

namespace Grows

variable (h : Grows core core') (hstored : Stored core)

include h

theorem held (hheld : core.Held key) : core'.Held key := by
  obtain ⟨cert, hlt, rfl⟩ := hheld
  exact ⟨cert, hlt.trans_le h.certs.length_le, by rw [h.certAt hlt]⟩

include hstored

theorem block2 (hkey : key < core.nodes.length) : core'.block2 key = core.block2 key := by
  rw [ReplicaCore.block2, block1, h.justifiedOf hstored hkey,
    h.justifiedOf hstored (hstored.justifiedOf_lt _), ReplicaCore.block2, block1]

theorem ancestor {first : Nat} (hancestor : Ancestor core.parentOf first key)
    (hkey : key < core.nodes.length) : Ancestor core'.parentOf first key :=
  Ancestor.map (f := id) (P := (· < core.nodes.length))
    (fun node hnode => (hstored.parentOf_le node).trans_lt hnode)
    (fun _ hnode => h.parentOf hnode) hancestor hkey

theorem follows (hfollows : core.Follows earlier later) (hearlier : earlier < core.nodes.length)
    (hlater : later < core.nodes.length) : core'.Follows earlier later := by
  obtain ⟨hheight, lock, hheld, hle, hlock⟩ := hfollows
  have hlt := hstored.held_lt hheld
  refine ⟨?_, lock, h.held hheld, ?_, ?_⟩
  · rwa [h.heightOf hearlier, h.heightOf hlater]
  · rwa [h.block2 hstored hearlier, h.heightOf (hstored.block2_lt _), h.heightOf hlt]
  · rw [h.heightOf hlt, h.heightOf hlater, h.justifiedOf hstored hlater,
      h.heightOf (hstored.justifiedOf_lt _)]
    exact hlock.imp_left fun hextends => ⟨h.ancestor hstored hextends.1 hlater, hextends.2⟩

theorem committed (hcommitted : core.Committed top key) : core'.Committed top key := by
  obtain ⟨hheld, hparent1, hparent2, hheight, hancestor⟩ := hcommitted
  have hlt := hstored.held_lt hheld
  have hblock2 := h.block2 hstored hlt
  constructor
  · exact h.held hheld
  · rw [h.parentOf hlt, h.justifiedOf hstored hlt, hparent1]
  · rw [h.justifiedOf hstored hlt, h.parentOf (hstored.justifiedOf_lt _), hblock2, hparent2]
  · rwa [hblock2, h.heightOf (hstored.block2_lt _)]
  · rw [hblock2]
    exact h.ancestor hstored hancestor (hstored.block2_lt _)

end Grows

/-- Votes and locks survive in a store that grows while heights do not fall. -/
theorem Voted.grows (hvoted : core.Voted key) (hgrows : Grows core core') (hstored : Stored core)
    (hheight : core.voteHeight ≤ core'.voteHeight)
    (hlock : core.heightOf core.blockLock ≤ core'.heightOf core'.blockLock) : core'.Voted key where
  lt := hgrows.lt_length hvoted.lt
  height_pos := by
    rw [hgrows.heightOf hvoted.lt]
    exact hvoted.height_pos
  height_le := by
    rw [hgrows.heightOf hvoted.lt]
    exact hvoted.height_le.trans hheight
  lock_le := by
    rw [hgrows.block2 hstored hvoted.lt, hgrows.heightOf (hstored.block2_lt _)]
    exact hvoted.lock_le.trans hlock

/-- Nothing is voted for or finalized, and the lock stays. -/
theorem Disciplined.keep {pushed pushed' : ReplicaCoreActions} (h : Disciplined core pushed)
    (hgrows : Grows core core') (hstored : Stored core')
    (hheight : core'.voteHeight = core.voteHeight)
    (hlock : core'.blockLock = core.blockLock) (hvotes : votes pushed' = [])
    (hfinalizations : finalizations pushed' = []) : Disciplined core' (pushed ++ pushed') where
  stored := hstored
  voted := by
    rw [votes_append, hvotes, List.append_nil]
    intro key hkey
    refine (h.voted key hkey).grows hgrows h.stored hheight.ge ?_
    rw [hlock, hgrows.heightOf h.stored.lock]
  follows := by
    rw [votes_append, hvotes, List.append_nil]
    refine h.follows.imp_of_mem ?_
    intro earlier later hearlier hlater hfollows
    exact hgrows.follows h.stored hfollows (h.voted _ hearlier).lt (h.voted _ hlater).lt
  locked := hlock ▸ hgrows.held h.locked
  committed := by
    rw [finalizations_append, hfinalizations, List.append_nil]
    intro key hkey
    obtain ⟨top, hcommitted⟩ := h.committed key hkey
    exact ⟨top, hgrows.committed h.stored hcommitted⟩

/-- The locks before and after an update. -/
structure Relocked (core : ReplicaCore scheme) (block0 : Nat) (core' : ReplicaCore scheme) :
    Prop where
  old : core.heightOf core.blockLock ≤ core.heightOf core'.blockLock
  new : core.heightOf (core.block2 block0) ≤ core.heightOf core'.blockLock
  either : core'.blockLock = core.block2 block0 ∨ core'.blockLock = core.blockLock

theorem Updated.relocked {block0 : Nat} {path : List Nat} (h : Updated core block0 core' path) :
    Relocked core block0 core' := by
  have hlock : core'.blockLock = (core.advanced block0).blockLock := by rw [h.rest]
  rw [advanced_blockLock] at hlock
  split at hlock
  next hlt => exact ⟨hlock ▸ hlt.le, hlock ▸ le_rfl, .inl hlock⟩
  next hge => exact ⟨hlock ▸ le_rfl, hlock ▸ not_lt.mp hge, .inr hlock⟩

theorem Updated.lock_le {block0 : Nat} {path : List Nat} (h : Updated core block0 core' path) :
    core'.heightOf (core'.block2 block0) ≤ core'.heightOf core'.blockLock := by
  rw [h.sameStore.block2, h.sameStore.heightOf]
  exact h.relocked.new

/-- What an update finalizes is committed. -/
theorem Updated.committed {block0 : Nat} {path : List Nat} (h : Updated core block0 core' path)
    (hkey : key ∈ path) : core'.Committed (core.block1 block0) key := by
  have hpath := h.path
  split at hpath
  next hcommits =>
    obtain ⟨hancestor, -⟩ := hpath.ancestor hkey
    -- the path is not empty, so it starts above the height that is executed
    have hbelow : 0 < core.heightOf (core.block3 block0) := by
      cases hpath with
      | stop => cases hkey
      | step habove => exact (Nat.zero_le _).trans_lt habove
    refine ⟨?_, ?_, ?_, ?_, ?_⟩
    · rw [block1, ← h.sameStore.justifiedOf]
      exact h.stored.held_justified _
    · rw [h.sameStore.parentOf, h.sameStore.justifiedOf]
      exact hcommits.1
    · rw [h.sameStore.block2, h.sameStore.parentOf, h.sameStore.justifiedOf]
      exact hcommits.2
    · rw [h.sameStore.block2, h.sameStore.heightOf]
      exact hbelow
    · rw [h.sameStore.block2, h.sameStore.parentOf]
      exact hancestor
  next =>
    subst hpath
    cases hkey

/-- A new vote follows the earlier ones. -/
theorem Disciplined.follows_new {pushed : ReplicaCoreActions} (h : Disciplined core pushed)
    (hgrows : Grows core stored) (hmay : stored.MayVote later) (hlater : core.nodes.length ≤ later)
    (hheight : stored.voteHeight = core.voteHeight) (hlock : stored.blockLock = core.blockLock)
    (hearlier : earlier ∈ votes pushed) : stored.Follows earlier later := by
  have hvoted := h.voted earlier hearlier
  obtain ⟨habove, hrule⟩ := hmay
  rw [hheight] at habove
  rw [hlock] at hrule
  refine ⟨?_, core.blockLock, hgrows.held h.locked, ?_, ?_⟩
  · rw [hgrows.heightOf hvoted.lt]
    exact hvoted.height_le.trans_lt habove
  · rw [hgrows.block2 h.stored hvoted.lt, hgrows.heightOf (h.stored.block2_lt _),
      hgrows.heightOf h.stored.lock]
    exact hvoted.lock_le
  · refine hrule.imp_left fun hreaches => ⟨hreaches.ancestor, hreaches.height_lt ?_⟩
    exact (h.stored.lock.trans_le hlater).ne'

/-- A block that is stored, perhaps voted for, and followed by an update. -/
theorem Disciplined.updated {pushed : ReplicaCoreActions} (h : Disciplined core pushed)
    {blockDigest : Digest} {block : Message.Block scheme} {voting : Bool} {path : List Nat}
    (hingested : Ingested core blockDigest block stored)
    (hupdated : Updated voted core.nodes.length core' path)
    (hvoting : voting = true → stored.MayVote core.nodes.length) (hsame : SameStore stored voted)
    (hlock : voted.blockLock = stored.blockLock)
    (hheight : voted.voteHeight = if voting then block.height else stored.voteHeight) :
    Disciplined core'
      (pushed ++ ((if voting then [.vote core.nodes.length] else []) ++ path.map .finalize)) := by
  have hsame' : SameStore stored core' := hsame.trans hupdated.sameStore
  have hgrows : Grows core core' := hingested.grows.trans hsame'.grows
  have hrelocked := hupdated.relocked
  have hstored_lock : stored.blockLock = core.blockLock := by rw [hingested.rest]
  have hstored_height : stored.voteHeight = core.voteHeight := by rw [hingested.rest]
  have hlength : core.nodes.length < core'.nodes.length := by
    rw [hsame'.nodes, hingested.length]
    exact Nat.lt_succ_self _
  have hvote_height : core'.voteHeight = voted.voteHeight := by
    rw [hupdated.rest]
    exact advanced_voteHeight _ _
  -- a vote is for a higher node than the last one
  have hheight_le : core.voteHeight ≤ core'.voteHeight := by
    rw [hvote_height, hheight]
    split
    next hvote =>
      have habove := (hvoting hvote).1
      rw [hstored_height, hingested.height] at habove
      exact habove.le
    next => exact hstored_height.ge
  have hlock_le : core.heightOf core.blockLock ≤ core'.heightOf core'.blockLock := by
    have hold := hrelocked.old
    rw [hlock, hstored_lock, ← hupdated.sameStore.heightOf, hgrows.heightOf h.stored.lock] at hold
    exact hold
  have hvotes : votes ((if voting then [.vote core.nodes.length] else []) ++ path.map .finalize) =
      if voting then [core.nodes.length] else [] := by
    rw [votes_append, votes_finalize, List.append_nil]
    cases voting <;> rfl
  have hfinalizations : finalizations
      ((if voting then [.vote core.nodes.length] else []) ++ path.map .finalize) = path := by
    rw [finalizations_append, finalizations_finalize]
    cases voting <;> rfl
  refine ⟨hupdated.stored, ?_, ?_, ?_, ?_⟩
  · rw [votes_append, hvotes]
    intro key hkey
    rcases List.mem_append.mp hkey with hkey | hkey
    · exact (h.voted key hkey).grows hgrows h.stored hheight_le hlock_le
    · split at hkey
      next hvote =>
        obtain rfl := List.mem_singleton.mp hkey
        have habove := (hvoting hvote).1
        refine ⟨hlength, ?_, ?_, ?_⟩
        · rw [hsame'.heightOf]
          exact (Nat.zero_le _).trans_lt habove
        · rw [hsame'.heightOf, hingested.height, hvote_height, hheight, if_pos hvote]
        · exact hupdated.lock_le
      next => cases hkey
  · rw [votes_append, hvotes]
    refine List.pairwise_append.mpr ⟨?_, ?_, ?_⟩
    · refine h.follows.imp_of_mem ?_
      intro earlier later hearlier hlater hfollows
      exact hgrows.follows h.stored hfollows (h.voted _ hearlier).lt (h.voted _ hlater).lt
    · split
      · exact List.pairwise_singleton _ _
      · exact List.Pairwise.nil
    · intro earlier hearlier later hlater
      split at hlater
      next hvote =>
        obtain rfl := List.mem_singleton.mp hlater
        have hfollows := h.follows_new hingested.grows (hvoting hvote) le_rfl hstored_height
          hstored_lock hearlier
        refine hsame'.grows.follows hingested.stored hfollows ?_ ?_
        · exact hingested.grows.lt_length (h.voted _ hearlier).lt
        · rw [hingested.length]
          exact Nat.lt_succ_self _
      next => cases hlater
  · rcases hrelocked.either with heq | heq
    · rw [heq, ReplicaCore.block2, ← hupdated.sameStore.justifiedOf]
      exact hupdated.stored.held_justified _
    · rw [heq, hlock, hstored_lock]
      exact hgrows.held h.locked
  · rw [finalizations_append, hfinalizations]
    intro key hkey
    rcases List.mem_append.mp hkey with hkey | hkey
    · obtain ⟨top, hcommitted⟩ := h.committed key hkey
      exact ⟨top, hgrows.committed h.stored hcommitted⟩
    · exact ⟨_, hupdated.committed hkey⟩

theorem Disciplined.new (scheme : ThresholdScheme) (config : ReplicaCoreConfig) :
    Disciplined (new scheme config) [] where
  stored := new_stored config
  voted _ hkey := by cases hkey
  follows := .nil
  locked := ⟨0, Nat.one_pos, rfl⟩
  committed _ hkey := by cases hkey

/-- Every event keeps to the discipline. -/
theorem Disciplined.handle {pushed pushed' : ReplicaCoreActions} (h : Disciplined core pushed)
    {event : ReplicaCoreEvent scheme} (hhandle : core.handle event = .ok (core', pushed')) :
    Disciplined core' (pushed ++ pushed') := by
  obtain ⟨middle, reactions, beats, hreacted, hbeat, rfl⟩ := h.stored.handle_ok hhandle
  have hmiddle_stored := hreacted.stored h.stored
  suffices hmiddle : Disciplined middle (pushed ++ reactions) by
    rw [← List.append_assoc]
    refine hmiddle.keep hbeat.sameStore.grows (hbeat.stored hmiddle_stored) ?_ ?_
      hbeat.pushed.1 hbeat.pushed.2 <;> cases hbeat <;> rfl
  cases hreacted with
  | request =>
      exact h.keep ⟨rfl, List.prefix_rfl, List.prefix_rfl⟩ hmiddle_stored rfl rfl rfl rfl
  | proposal hingested hvoting hupdated =>
      exact h.updated hingested hupdated hvoting.mp ⟨rfl, rfl, rfl, rfl, rfl⟩ rfl rfl
  | proposed hingested hvoting hupdated =>
      have hvote : true = true → _ := fun _ => hvoting
      exact h.updated hingested hupdated hvote ⟨rfl, rfl, rfl, rfl, rfl⟩ rfl rfl
  | quorumCert hknown =>
      refine h.keep ?_ hmiddle_stored ?_ ?_ rfl rfl
      · apply Grows.trans _ (raised_sameStore _ _).grows
        exact ⟨rfl, List.prefix_rfl, List.prefix_append _ _⟩
      · unfold raised
        split <;> rfl
      · unfold raised
        split <;> rfl

end ReplicaCore

variable {coreConfig : ReplicaCoreConfig} {cryptoConfig : CryptoConfig scheme}
  {history : List (Replica.Event scheme)} {replica : Replica scheme}

theorem LocalRun.disciplined (hrun : LocalRun coreConfig cryptoConfig history replica) :
    replica.core.Disciplined (Replica.performedIn history ++ replica.coreActions) :=
  hrun.core_invariant ReplicaCore.Disciplined (.new _ _) fun _ _ _ _ _ h hhandle => h.handle hhandle

end BftKit.Hotstuff
