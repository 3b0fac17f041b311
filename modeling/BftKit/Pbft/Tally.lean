import Mathlib.Data.Finset.Card
import BftKit.Pbft.Receive

/-! # What a backup has counted

The state of a backup, read off the messages delivered to it. Before its block
arrives every vote is kept, afterwards only the matching ones are, but at any time
between two calls the replica has counted exactly the voters of its block.
-/

namespace BftKit.Pbft

open Foundation

variable {crypto : Crypto}

/-! ## Votes among messages -/

namespace ToReplica

def prepare? : ToReplica crypto → Option (Vote crypto)
  | .prepare vote => some vote
  | .request _ | .prePrepare _ _ | .commit _ => none

def commit? : ToReplica crypto → Option (Vote crypto)
  | .commit vote => some vote
  | .request _ | .prePrepare _ _ | .prepare _ => none

/-- The block number that a message is about. -/
def blockNum? : ToReplica crypto → Option Nat
  | .request _ => none
  | .prePrepare sent _ => some sent.blockNum
  | .prepare vote | .commit vote => some vote.blockNum

end ToReplica

/-- The Prepares for a block number. -/
def preparesFor (blockNum : Nat) (messages : List (ToReplica crypto)) : List (Vote crypto) :=
  (messages.filterMap ToReplica.prepare?).filter (·.blockNum = blockNum)

/-- The Commits for a block number. -/
def commitsFor (blockNum : Nat) (messages : List (ToReplica crypto)) : List (Vote crypto) :=
  (messages.filterMap ToReplica.commit?).filter (·.blockNum = blockNum)

/-- Who votes for a digest. -/
def voters (digest : Digest) (votes : List (Vote crypto)) : Finset Nat :=
  ((Replica.matchingVotes digest votes).map Prod.fst).toFinset

section

variable {blockNum : Nat} {digest : Digest} {messages : List (ToReplica crypto)}
  {votes : List (Vote crypto)} {message : ToReplica crypto} {vote : Vote crypto}

theorem mem_voters {id : Nat} :
    id ∈ voters digest votes ↔ ∃ vote ∈ votes, vote.digest = digest ∧ vote.replicaId = id := by
  simp only [voters, List.mem_toFinset, List.mem_map, Replica.matchingVotes, List.mem_filterMap,
    Option.ite_none_right_eq_some, Option.some.injEq]
  constructor
  · rintro ⟨_, ⟨vote, hmem, hdigest, rfl⟩, rfl⟩
    exact ⟨vote, hmem, hdigest, rfl⟩
  · rintro ⟨vote, hmem, hdigest, rfl⟩
    exact ⟨_, ⟨vote, hmem, hdigest, rfl⟩, rfl⟩

theorem voters_concat : voters digest (votes ++ [vote]) =
    if vote.digest = digest then insert vote.replicaId (voters digest votes)
    else voters digest votes := by
  ext id
  simp only [mem_voters, List.mem_append, List.mem_singleton]
  split
  next heq =>
    rw [Finset.mem_insert, mem_voters]
    constructor
    · rintro ⟨other, hmem | rfl, hdigest, rfl⟩
      · exact .inr ⟨other, hmem, hdigest, rfl⟩
      · exact .inl rfl
    · rintro (rfl | ⟨other, hmem, hdigest, rfl⟩)
      · exact ⟨vote, .inr rfl, heq, rfl⟩
      · exact ⟨other, .inl hmem, hdigest, rfl⟩
  next hne =>
    rw [mem_voters]
    constructor
    · rintro ⟨other, hmem | rfl, hdigest, rfl⟩
      · exact ⟨other, hmem, hdigest, rfl⟩
      · exact absurd hdigest hne
    · rintro ⟨other, hmem, hrest⟩
      exact ⟨other, .inl hmem, hrest⟩

theorem filterMap_concat_filter {pick : ToReplica crypto → Option (Vote crypto)} :
    ((messages ++ [message]).filterMap pick).filter (·.blockNum = blockNum) =
      (messages.filterMap pick).filter (·.blockNum = blockNum) ++
        (pick message).toList.filter (·.blockNum = blockNum) := by
  rw [List.filterMap_append, List.filter_append]
  cases hpick : pick message <;> simp [hpick]

/-- Order does not matter to the voters. -/
theorem voters_perm {votes' : List (Vote crypto)} (hperm : votes.Perm votes') :
    voters digest votes = voters digest votes' :=
  List.toFinset_eq_of_perm _ _ ((hperm.filterMap _).map _)

theorem preparesFor_perm {messages' : List (ToReplica crypto)} (hperm : messages.Perm messages') :
    (preparesFor blockNum messages).Perm (preparesFor blockNum messages') :=
  (hperm.filterMap _).filter _

theorem commitsFor_perm {messages' : List (ToReplica crypto)} (hperm : messages.Perm messages') :
    (commitsFor blockNum messages).Perm (commitsFor blockNum messages') :=
  (hperm.filterMap _).filter _

theorem voters_mono (message : ToReplica crypto) :
    voters digest (preparesFor blockNum messages) ⊆
        voters digest (preparesFor blockNum (messages ++ [message])) ∧
      voters digest (commitsFor blockNum messages) ⊆
        voters digest (commitsFor blockNum (messages ++ [message])) := by
  unfold preparesFor commitsFor
  rw [filterMap_concat_filter, filterMap_concat_filter]
  constructor <;>
  · intro id hmem
    obtain ⟨vote, hvote, hrest⟩ := mem_voters.mp hmem
    exact mem_voters.mpr ⟨vote, List.mem_append_left _ hvote, hrest⟩

end

/-! ## The tally of a block number -/

namespace Replica

/-- A PrePrepare for the block number, with the commands, has been delivered. -/
def Proposed (messages : List (ToReplica crypto)) (blockNum : Nat) (commands : List Command) :
    Prop :=
  ∃ prePrepare, .prePrepare prePrepare commands ∈ messages ∧ prePrepare.blockNum = blockNum

/-- Enough voters for a quorum. -/
def Enough (config : ReplicaCoreConfig) (count : Nat) : Prop :=
  config.spec.numReplica ≤ count + config.spec.numFaulty

/-- The voters that a backup counts for preparing a block: whoever prepares it, and
itself. The primary's vote is the PrePrepare. -/
def preparers (config : ReplicaCoreConfig) (messages : List (ToReplica crypto)) (blockNum : Nat)
    (digest : Digest) : Finset Nat :=
  insert config.id (voters digest (preparesFor blockNum messages))

def committers (config : ReplicaCoreConfig) (messages : List (ToReplica crypto)) (blockNum : Nat)
    (digest : Digest) : Finset Nat :=
  insert config.id (voters digest (commitsFor blockNum messages))

/-- Every vote for the block number waits as it came. -/
structure Buffered (messages : List (ToReplica crypto)) (blockNum : Nat)
    (scratch : BlockScratch crypto) : Prop where
  prepareVotes : scratch.prepareVotes = preparesFor blockNum messages
  prepareQuorum : scratch.prepareQuorum = ∅
  commitVotes : scratch.commitVotes = commitsFor blockNum messages
  commitQuorum : scratch.commitQuorum = ∅

/-- How far a block number has come, by the messages delivered. -/
inductive Tally (config : ReplicaCoreConfig) (messages : List (ToReplica crypto))
    (queue : ReplicaCoreActions crypto) (blockNum : Nat) (scratch : BlockScratch crypto) :
    Option (Block crypto) → Prop
  | missing (hnew : ∀ commands, ¬ Proposed messages blockNum commands)
      (hbuffered : Buffered messages blockNum scratch) :
      Tally config messages queue blockNum scratch none
  | accepted {block} (hproposed : Proposed messages blockNum block.commands)
      (hqueue : preparing blockNum queue = true) (hprepare : block.prepareQuorum = none)
      (hcommit : block.commitQuorum = none) (hbuffered : Buffered messages blockNum scratch) :
      Tally config messages queue blockNum scratch (some block)
  | preparing {block} (hproposed : Proposed messages blockNum block.commands)
      (hqueue : preparing blockNum queue = false) (hprepare : block.prepareQuorum = none)
      (hcommit : block.commitQuorum = none)
      (hkeys : scratch.prepareQuorum.keys = preparers config messages blockNum block.digest)
      (hfew : ¬ Enough config ((preparers config messages blockNum block.digest).card + 1))
      (hcommits : scratch.commitQuorum.keys =
        voters block.digest (commitsFor blockNum messages)) :
      Tally config messages queue blockNum scratch (some block)
  | prepared {block} (hproposed : Proposed messages blockNum block.commands)
      (hqueue : committing blockNum queue = true) (hprepare : block.prepareQuorum.isSome)
      (hcommit : block.commitQuorum = none)
      (henough : Enough config ((preparers config messages blockNum block.digest).card + 1))
      (hcommits : scratch.commitQuorum.keys =
        voters block.digest (commitsFor blockNum messages)) :
      Tally config messages queue blockNum scratch (some block)
  | committing {block} (hproposed : Proposed messages blockNum block.commands)
      (hqueue : committing blockNum queue = false) (hprepare : block.prepareQuorum.isSome)
      (hcommit : block.commitQuorum = none)
      (henough : Enough config ((preparers config messages blockNum block.digest).card + 1))
      (hcommits : scratch.commitQuorum.keys = committers config messages blockNum block.digest)
      (hfew : ¬ Enough config (committers config messages blockNum block.digest).card) :
      Tally config messages queue blockNum scratch (some block)
  | committed {block} (hproposed : Proposed messages blockNum block.commands)
      (hprepare : block.prepareQuorum.isSome) (hcommit : block.commitQuorum.isSome)
      (henough : Enough config ((preparers config messages blockNum block.digest).card + 1))
      (hquorum : Enough config (committers config messages blockNum block.digest).card) :
      Tally config messages queue blockNum scratch (some block)

/-- Two lists of messages say the same of a block number. -/
structure Alike (blockNum : Nat) (messages messages' : List (ToReplica crypto)) : Prop where
  proposed : ∀ commands, Proposed messages' blockNum commands ↔ Proposed messages blockNum commands
  prepares : preparesFor blockNum messages' = preparesFor blockNum messages
  commits : commitsFor blockNum messages' = commitsFor blockNum messages

section

variable {config : ReplicaCoreConfig} {messages messages' : List (ToReplica crypto)}
  {message : ToReplica crypto} {queue queue' : ReplicaCoreActions crypto} {blockNum : Nat}
  {scratch : BlockScratch crypto} {block : Block crypto} {stored : Option (Block crypto)}

theorem Alike.refl (blockNum : Nat) (messages : List (ToReplica crypto)) :
    Alike blockNum messages messages :=
  ⟨fun _ => Iff.rfl, rfl, rfl⟩

theorem proposed_concat {commands : List Command} :
    Proposed (messages ++ [message]) blockNum commands ↔ Proposed messages blockNum commands ∨
      ∃ prePrepare, message = .prePrepare prePrepare commands ∧ prePrepare.blockNum = blockNum := by
  unfold Proposed
  simp only [List.mem_append, List.mem_singleton]
  constructor
  · rintro ⟨prePrepare, hmem | hnew, hnum⟩
    · exact .inl ⟨prePrepare, hmem, hnum⟩
    · exact .inr ⟨prePrepare, hnew.symm, hnum⟩
  · rintro (⟨prePrepare, hmem, hnum⟩ | ⟨prePrepare, hnew, hnum⟩)
    · exact ⟨prePrepare, .inl hmem, hnum⟩
    · exact ⟨prePrepare, .inr hnew.symm, hnum⟩

theorem preparesFor_concat (hne : ∀ vote, message = .prepare vote → vote.blockNum ≠ blockNum) :
    preparesFor blockNum (messages ++ [message]) = preparesFor blockNum messages := by
  unfold preparesFor
  rw [filterMap_concat_filter]
  cases message with
  | prepare vote => simp [ToReplica.prepare?, hne vote rfl]
  | request _ | prePrepare _ _ | commit _ => simp [ToReplica.prepare?]

theorem commitsFor_concat (hne : ∀ vote, message = .commit vote → vote.blockNum ≠ blockNum) :
    commitsFor blockNum (messages ++ [message]) = commitsFor blockNum messages := by
  unfold commitsFor
  rw [filterMap_concat_filter]
  cases message with
  | commit vote => simp [ToReplica.commit?, hne vote rfl]
  | request _ | prePrepare _ _ | prepare _ => simp [ToReplica.commit?]

theorem preparesFor_concat_self (vote : Vote crypto) :
    preparesFor vote.blockNum (messages ++ [.prepare vote]) =
      preparesFor vote.blockNum messages ++ [vote] := by
  unfold preparesFor
  rw [filterMap_concat_filter]
  simp [ToReplica.prepare?]

theorem commitsFor_concat_self (vote : Vote crypto) :
    commitsFor vote.blockNum (messages ++ [.commit vote]) =
      commitsFor vote.blockNum messages ++ [vote] := by
  unfold commitsFor
  rw [filterMap_concat_filter]
  simp [ToReplica.commit?]

/-- A message says nothing of other block numbers. -/
theorem Alike.concat (hne : message.blockNum? ≠ some blockNum) :
    Alike blockNum messages (messages ++ [message]) where
  proposed commands := by
    rw [proposed_concat, or_iff_left]
    rintro ⟨prePrepare, rfl, hnum⟩
    exact hne (congrArg some hnum)
  prepares := preparesFor_concat fun vote hvote heq => hne (by rw [hvote, ← heq]; rfl)
  commits := commitsFor_concat fun vote hvote heq => hne (by rw [hvote, ← heq]; rfl)

/-- The tally of a block number is none of the others' business. -/
theorem Tally.frame (h : Tally config messages queue blockNum scratch stored)
    (halike : Alike blockNum messages messages')
    (hpreparing : Pbft.preparing blockNum queue' = Pbft.preparing blockNum queue)
    (hcommitting : Pbft.committing blockNum queue' = Pbft.committing blockNum queue) :
    Tally config messages' queue' blockNum scratch stored := by
  have hpreparers : ∀ digest, preparers config messages' blockNum digest =
      preparers config messages blockNum digest := by
    intro digest
    rw [preparers, preparers, halike.prepares]
  have hcommitters : ∀ digest, committers config messages' blockNum digest =
      committers config messages blockNum digest := by
    intro digest
    rw [committers, committers, halike.commits]
  have hbuffered : Buffered messages blockNum scratch → Buffered messages' blockNum scratch := by
    intro h
    exact ⟨halike.prepares ▸ h.prepareVotes, h.prepareQuorum, halike.commits ▸ h.commitVotes,
      h.commitQuorum⟩
  cases h with
  | missing hnew hbuffer =>
      exact .missing (fun commands h => hnew commands ((halike.proposed commands).mp h))
        (hbuffered hbuffer)
  | accepted hproposed hqueue hprepare hcommit hbuffer =>
      exact .accepted ((halike.proposed _).mpr hproposed) (hpreparing.trans hqueue) hprepare hcommit
        (hbuffered hbuffer)
  | preparing hproposed hqueue hprepare hcommit hkeys hfew hcommits =>
      exact .preparing ((halike.proposed _).mpr hproposed) (hpreparing.trans hqueue) hprepare hcommit
        (by rwa [hpreparers]) (by rwa [hpreparers]) (by rwa [halike.commits])
  | prepared hproposed hqueue hprepare hcommit henough hcommits =>
      exact .prepared ((halike.proposed _).mpr hproposed) (hcommitting.trans hqueue) hprepare hcommit
        (by rwa [hpreparers]) (by rwa [halike.commits])
  | committing hproposed hqueue hprepare hcommit henough hcommits hfew =>
      exact .committing ((halike.proposed _).mpr hproposed) (hcommitting.trans hqueue) hprepare
        hcommit (by rwa [hpreparers]) (by rwa [hcommitters]) (by rwa [hcommitters])
  | committed hproposed hprepare hcommit henough hquorum =>
      exact .committed ((halike.proposed _).mpr hproposed) hprepare hcommit (by rwa [hpreparers])
        (by rwa [hcommitters])

/-- A stored block has been proposed. -/
theorem Tally.proposed (h : Tally config messages queue blockNum scratch (some block)) :
    Proposed messages blockNum block.commands := by
  cases h with
  | accepted hproposed | preparing hproposed | prepared hproposed | committing hproposed
  | committed hproposed => exact hproposed

theorem Enough.mono {count count' : Nat} (h : Enough config count) (hle : count ≤ count') :
    Enough config count' := by
  unfold Enough at h ⊢
  omega

/-- A message that a replica with the block does not count changes nothing: where the
voters do matter it brings none, and where there is a quorum more do not. -/
theorem Tally.keep (h : Tally config messages [] blockNum scratch (some block))
    (hprepares : block.prepareQuorum = none →
      voters block.digest (preparesFor blockNum (messages ++ [message])) =
        voters block.digest (preparesFor blockNum messages))
    (hcommits : block.commitQuorum = none →
      voters block.digest (commitsFor blockNum (messages ++ [message])) =
        voters block.digest (commitsFor blockNum messages)) :
    Tally config (messages ++ [message]) [] blockNum scratch (some block) := by
  have hgrow : ∀ {commands}, Proposed messages blockNum commands →
      Proposed (messages ++ [message]) blockNum commands :=
    fun h => proposed_concat.mpr (.inl h)
  obtain ⟨hmorePrepares, hmoreCommits⟩ :=
    @voters_mono _ blockNum block.digest messages message
  have hpreparers : (preparers config messages blockNum block.digest).card ≤
      (preparers config (messages ++ [message]) blockNum block.digest).card :=
    Finset.card_le_card (Finset.insert_subset_insert _ hmorePrepares)
  have hcommitters : (committers config messages blockNum block.digest).card ≤
      (committers config (messages ++ [message]) blockNum block.digest).card :=
    Finset.card_le_card (Finset.insert_subset_insert _ hmoreCommits)
  cases h with
  | accepted _ hqueue => simp at hqueue
  | prepared _ hqueue => simp at hqueue
  | preparing hproposed hqueue hprepare hcommit hkeys hfew hcounted =>
      have hsame : preparers config (messages ++ [message]) blockNum block.digest =
          preparers config messages blockNum block.digest := by
        rw [preparers, hprepares hprepare, preparers]
      exact .preparing (hgrow hproposed) hqueue hprepare hcommit (hsame ▸ hkeys) (hsame ▸ hfew)
        (hcounted.trans (hcommits hcommit).symm)
  | committing hproposed hqueue hprepare hcommit henough hcounted hfew =>
      have hsame : committers config (messages ++ [message]) blockNum block.digest =
          committers config messages blockNum block.digest := by
        rw [committers, hcommits hcommit, committers]
      exact .committing (hgrow hproposed) hqueue hprepare hcommit
        (henough.mono (Nat.succ_le_succ hpreparers)) (hsame ▸ hcounted) (hsame ▸ hfew)
  | committed hproposed hprepare hcommit henough hquorum =>
      exact .committed (hgrow hproposed) hprepare hcommit
        (henough.mono (Nat.succ_le_succ hpreparers)) (hquorum.mono hcommitters)

end

end Replica

end BftKit.Pbft
