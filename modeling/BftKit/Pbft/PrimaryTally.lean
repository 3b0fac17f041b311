import BftKit.Pbft.Correct

/-! # What the primary has counted

The state of a primary among correct replicas, read off the votes delivered to it. No
vote comes before its block, so every vote counts until there is a quorum. A quorum is
only looked for when a vote arrives: without any, a primary never gets prepared.
-/

namespace BftKit.Pbft

open Foundation

variable {crypto : Crypto}

namespace Replica

/-- How far a block number has come at the primary, by the votes delivered. -/
inductive PrimaryTally (config : ReplicaCoreConfig) (messages : List (ToReplica crypto))
    (queue : ReplicaCoreActions crypto) (blockNum : Nat) (scratch : BlockScratch crypto) :
    Option (Block crypto) → Prop
  | missing (hprepares : preparesFor blockNum messages = [])
      (hcommits : commitsFor blockNum messages = [])
      (hprepareQuorum : scratch.prepareQuorum = ∅) (hcommitQuorum : scratch.commitQuorum = ∅) :
      PrimaryTally config messages queue blockNum scratch none
  | preparing {block} (hprepare : block.prepareQuorum = none) (hcommit : block.commitQuorum = none)
      (hkeys : scratch.prepareQuorum.keys = voters block.digest (preparesFor blockNum messages))
      (hfew : preparesFor blockNum messages = [] ∨
        ¬ Enough config ((voters block.digest (preparesFor blockNum messages)).card + 1))
      (hcommits : scratch.commitQuorum.keys = voters block.digest (commitsFor blockNum messages)) :
      PrimaryTally config messages queue blockNum scratch (some block)
  | prepared {block} (hqueue : committing blockNum queue = true)
      (hprepare : block.prepareQuorum.isSome) (hcommit : block.commitQuorum = none)
      (hsome : preparesFor blockNum messages ≠ [])
      (hcommits : scratch.commitQuorum.keys = voters block.digest (commitsFor blockNum messages)) :
      PrimaryTally config messages queue blockNum scratch (some block)
  | committing {block} (hqueue : committing blockNum queue = false)
      (hprepare : block.prepareQuorum.isSome) (hcommit : block.commitQuorum = none)
      (hsome : preparesFor blockNum messages ≠ [])
      (hcommits : scratch.commitQuorum.keys = committers config messages blockNum block.digest)
      (hfew : ¬ Enough config (committers config messages blockNum block.digest).card) :
      PrimaryTally config messages queue blockNum scratch (some block)
  | committed {block} (hprepare : block.prepareQuorum.isSome) (hcommit : block.commitQuorum.isSome)
      (hsome : preparesFor blockNum messages ≠ [])
      (hquorum : Enough config (committers config messages blockNum block.digest).card) :
      PrimaryTally config messages queue blockNum scratch (some block)

/-- Every block number of a primary is as far as the votes take it. -/
structure PrimaryTallied (config : ReplicaCoreConfig) (messages : List (ToReplica crypto))
    (replica : Replica crypto) : Prop where
  tally : ∀ blockNum, PrimaryTally config messages replica.coreActions blockNum
    (replica.scratchAt blockNum) replica.core.blocks[blockNum]?
  settled : replica.core.Settled
  unpreparing : ∀ blockNum, preparing blockNum replica.coreActions = false

variable {config : ReplicaCoreConfig} {messages messages' : List (ToReplica crypto)}
  {message : ToReplica crypto} {queue queue' : ReplicaCoreActions crypto} {blockNum : Nat}
  {scratch : BlockScratch crypto} {block : Block crypto} {stored : Option (Block crypto)}
  {replica next : Replica crypto}

theorem PrimaryTally.frame (h : PrimaryTally config messages queue blockNum scratch stored)
    (halike : Alike blockNum messages messages')
    (hcommitting : Pbft.committing blockNum queue' = Pbft.committing blockNum queue) :
    PrimaryTally config messages' queue' blockNum scratch stored := by
  have hcommitters : ∀ digest, committers config messages' blockNum digest =
      committers config messages blockNum digest := by
    intro digest
    rw [committers, committers, halike.commits]
  cases h with
  | missing hprepares hcommits hprepareQuorum hcommitQuorum =>
      exact .missing (halike.prepares.trans hprepares) (halike.commits.trans hcommits)
        hprepareQuorum hcommitQuorum
  | preparing hprepare hcommit hkeys hfew hcommits =>
      exact .preparing hprepare hcommit (by rwa [halike.prepares]) (by rwa [halike.prepares])
        (by rwa [halike.commits])
  | prepared hqueue hprepare hcommit hsome hcommits =>
      exact .prepared (hcommitting.trans hqueue) hprepare hcommit (by rwa [halike.prepares])
        (by rwa [halike.commits])
  | committing hqueue hprepare hcommit hsome hcommits hfew =>
      exact .committing (hcommitting.trans hqueue) hprepare hcommit (by rwa [halike.prepares])
        (by rwa [hcommitters]) (by rwa [hcommitters])
  | committed hprepare hcommit hsome hquorum =>
      exact .committed hprepare hcommit (by rwa [halike.prepares]) (by rwa [hcommitters])

/-- A vote that is not counted comes too late to matter. -/
theorem PrimaryTally.keep (h : PrimaryTally config messages [] blockNum scratch (some block))
    (hprepares : block.prepareQuorum = none →
      preparesFor blockNum (messages ++ [message]) = preparesFor blockNum messages)
    (hcommits : block.commitQuorum = none →
      commitsFor blockNum (messages ++ [message]) = commitsFor blockNum messages) :
    PrimaryTally config (messages ++ [message]) [] blockNum scratch (some block) := by
  have hgrow : preparesFor blockNum messages ≠ [] →
      preparesFor blockNum (messages ++ [message]) ≠ [] := by
    intro hsome
    rw [preparesFor, filterMap_concat_filter]
    exact List.append_ne_nil_of_left_ne_nil hsome _
  cases h with
  | preparing hprepare hcommit hkeys hfew hcounted =>
      exact .preparing hprepare hcommit (by rwa [hprepares hprepare]) (by rwa [hprepares hprepare])
        (by rwa [hcommits hcommit])
  | prepared hqueue => simp at hqueue
  | committing hqueue hprepare hcommit hsome hcounted hfew =>
      have hsame : committers config (messages ++ [message]) blockNum block.digest =
          committers config messages blockNum block.digest := by
        rw [committers, hcommits hcommit, committers]
      exact .committing hqueue hprepare hcommit (hgrow hsome) (hsame ▸ hcounted) (hsame ▸ hfew)
  | committed hprepare hcommit hsome hquorum =>
      have hmore : committers config messages blockNum block.digest ⊆
          committers config (messages ++ [message]) blockNum block.digest :=
        Finset.insert_subset_insert _ (voters_mono message).2
      exact .committed hprepare hcommit (hgrow hsome) (hquorum.mono (Finset.card_le_card hmore))

/-! ## What delivery does to it -/

theorem PrimaryTallied.update (h : PrimaryTallied config messages replica) {blockNum : Nat}
    (helse : Elsewhere blockNum replica next)
    (halike : ∀ other, blockNum ≠ other → Alike other messages messages')
    (hself : PrimaryTally config messages' next.coreActions blockNum (next.scratchAt blockNum)
      next.core.blocks[blockNum]?)
    (hsettled : next.core.Settled)
    (hunpreparing : ∀ other, preparing other next.coreActions = false) :
    PrimaryTallied config messages' next := by
  refine ⟨fun other => ?_, hsettled, hunpreparing⟩
  by_cases heq : blockNum = other
  · exact heq ▸ hself
  · rw [helse.scratch other heq, helse.block other heq]
    exact (h.tally other).frame (halike other heq) (helse.committing other heq)

theorem PrimaryTallied.still (h : PrimaryTallied config messages replica)
    (halike : ∀ blockNum, Alike blockNum messages messages')
    (hblocks : next.core.blocks = replica.core.blocks)
    (hfinalize : next.core.finalizeNum = replica.core.finalizeNum)
    (hscratches : next.blockScratches = replica.blockScratches)
    (hqueue : ∀ blockNum, preparing blockNum next.coreActions = false ∧
      committing blockNum next.coreActions = committing blockNum replica.coreActions) :
    PrimaryTallied config messages' next := by
  constructor
  · intro blockNum
    have hscratch : next.scratchAt blockNum = replica.scratchAt blockNum := by
      rw [scratchAt, scratchAt, hscratches]
    rw [hscratch, hblocks]
    exact (h.tally blockNum).frame (halike blockNum) (hqueue blockNum).2
  · intro block hblock
    rw [hblocks, hfinalize] at hblock
    exact h.settled block hblock
  · intro blockNum
    exact (hqueue blockNum).1

theorem PrimaryTallied.put (ht : PrimaryTallied config messages replica)
    (halike : ∀ other, blockNum ≠ other → Alike other messages messages')
    (hself : PrimaryTally config messages' replica.coreActions blockNum scratch
      replica.core.blocks[blockNum]?) :
    PrimaryTallied config messages'
      { replica with blockScratches := replica.blockScratches.insert blockNum scratch } := by
  obtain ⟨hscratch, hscratches⟩ := @scratchAt_insert _ replica { replica with
    blockScratches := replica.blockScratches.insert blockNum scratch } _ _ rfl
  refine ht.update ⟨hscratches, fun _ _ => rfl, fun _ _ => rfl, fun _ _ => rfl⟩ halike ?_ ht.settled
    ht.unpreparing
  rw [hscratch]
  exact hself

/-- Once a vote has come, the check tells whether the block is prepared. -/
theorem PrimaryTallied.prepareCheck (ht : PrimaryTallied config messages replica)
    (hconfig : replica.core.config = config) (hidle : replica.coreActions = [])
    {scratch' : BlockScratch crypto} {core' : ReplicaCore crypto}
    {actions : ReplicaCoreActions crypto} (hblock : replica.core.blocks[blockNum]? = some block)
    (hprepare : block.prepareQuorum = none) (hcommit : block.commitQuorum = none)
    (halike : ∀ other, blockNum ≠ other → Alike other messages messages')
    (hsome : preparesFor blockNum messages' ≠ [])
    (hkeys : scratch.prepareQuorum.keys = voters block.digest (preparesFor blockNum messages'))
    (hcounted : scratch.commitQuorum.keys = voters block.digest (commitsFor blockNum messages'))
    (hcheck : checkPrepareQuorum blockNum scratch replica.core = .ok (scratch', core', actions)) :
    PrimaryTallied config messages' { replica with
      core := core'
      coreActions := actions
      blockScratches := replica.blockScratches.insert blockNum scratch' } := by
  obtain ⟨hscratch, hscratches⟩ := @scratchAt_insert _ replica { replica with
    core := core'
    coreActions := actions
    blockScratches := replica.blockScratches.insert blockNum scratch' } _ _ rfl
  have hcheck' := checkPrepareQuorum_ok hblock hprepare hcheck
  have hsize : Enough replica.core.config (scratch.prepareQuorum.size + 1) ↔
      Enough config ((voters block.digest (preparesFor blockNum messages')).card + 1) := by
    rw [hconfig, Map.size, hkeys]
  rw [hsize] at hcheck'
  rcases hcheck' with ⟨hfew, rfl, rfl, rfl⟩ | ⟨henough, rfl, rfl, rfl⟩
  · refine ht.update ⟨hscratches, by simp, by simp [hidle], by simp [hidle]⟩ halike ?_ ht.settled
      (by simp)
    rw [hscratch]
    dsimp only
    rw [hblock]
    exact .preparing hprepare hcommit hkeys (.inr hfew) hcounted
  · refine ht.update ⟨hscratches, fun other hne => getElem?_insert_of_ne hne _, by simp [hidle],
      fun other hne => by simp [hidle, hne]⟩ halike ?_
      (settled_insert ht.settled (by exact hcommit) _) (by simp)
    rw [hscratch]
    dsimp only
    rw [getElem?_insert_self]
    exact .prepared (by simp) rfl hcommit hsome hcounted

/-- The check of a prepared block tells whether it is committed. -/
theorem PrimaryTallied.commitCheck (ht : PrimaryTallied config messages replica)
    (hconfig : replica.core.config = config) (halone : Alone blockNum replica.coreActions)
    {log : List Command} (hready : replica.Ready log) {scratch' : BlockScratch crypto}
    {core' : ReplicaCore crypto} {actions : ReplicaCoreActions crypto}
    (hblock : replica.core.blocks[blockNum]? = some block)
    (hprepared : replica.core.isPrepared blockNum = block.prepareQuorum.isSome)
    (hprepare : block.prepareQuorum.isSome) (hcommit : block.commitQuorum = none)
    (halike : ∀ other, blockNum ≠ other → Alike other messages messages')
    (hsome : preparesFor blockNum messages' ≠ [])
    (hkeys : scratch.commitQuorum.keys = committers config messages' blockNum block.digest)
    (hcheck : checkCommitQuorum blockNum scratch replica.core = .ok (scratch', core', actions)) :
    PrimaryTallied config messages' { replica with
      core := core'
      coreActions := actions
      blockScratches := replica.blockScratches.insert blockNum scratch' } := by
  obtain ⟨hscratch, hscratches⟩ := @scratchAt_insert _ replica { replica with
    core := core'
    coreActions := actions
    blockScratches := replica.blockScratches.insert blockNum scratch' } _ _ rfl
  have hcheck' := checkCommitQuorum_ok hready hblock hcommit hprepared hcheck
  have hsize : Enough replica.core.config scratch.commitQuorum.size ↔
      Enough config (committers config messages' blockNum block.digest).card := by
    rw [hconfig, Map.size, hkeys]
  rw [hsize] at hcheck'
  rcases hcheck' with ⟨hfew, rfl, rfl, rfl⟩ | ⟨-, hquorum, rfl, hblocks, hsettled, hflat⟩
  · refine ht.update ⟨hscratches, fun _ _ => rfl, fun other hne => (halone other hne).1.symm,
      fun other hne => (halone other hne).2.symm⟩ halike ?_ ht.settled (by simp)
    rw [hscratch]
    dsimp only
    rw [hblock]
    exact .committing rfl hprepare hcommit hsome hkeys fun hquorum => hfew ⟨hprepare, hquorum⟩
  · refine ht.update ⟨hscratches, fun other hne => ?_,
      fun other hne => (hflat other).1.trans (halone other hne).1.symm,
      fun other hne => (hflat other).2.trans (halone other hne).2.symm⟩ halike ?_ hsettled
      fun other => (hflat other).1
    · dsimp only
      rw [hblocks]
      exact getElem?_insert_of_ne hne _
    · dsimp only
      rw [hblocks, getElem?_insert_self]
      exact .committed hprepare rfl hsome hquorum

section

variable {performed : ReplicaCoreActions crypto} {actions : List (Action crypto)}
  {vote : Vote crypto} {rest : ReplicaCoreActions crypto}

theorem PrimaryTallied.receivePrepare (ht : PrimaryTallied config messages replica)
    (h : Coherent config performed replica) (hidle : replica.coreActions = [])
    (hpass : PassesVote config vote) (hblock : replica.core.blocks[vote.blockNum]? = some block)
    (hdigest : block.digest = vote.digest) (hcall : replica.receivePrepare vote = .ok next) :
    PrimaryTallied config (messages ++ [.prepare vote]) next := by
  obtain ⟨hview, hpos, hid, hverify⟩ := hpass
  have halike := @alike_others _ messages (.prepare vote) vote.blockNum rfl
  have hself := ht.tally vote.blockNum
  rw [hblock, hidle] at hself
  have hcommitsFor : commitsFor vote.blockNum (messages ++ [.prepare vote]) =
      commitsFor vote.blockNum messages := commitsFor_concat (by simp)
  unfold Replica.receivePrepare at hcall
  rw [h.view, hview, h.isPrepared_eq hpos, h.verify_eq hid hverify] at hcall
  simp only [ne_eq, not_true_eq_false, decide_false, Bool.false_or, ok_bind, if_true, hblock,
    Option.any_some] at hcall
  cases hprepare : block.prepareQuorum with
  | some quorum =>
      simp only [hprepare, Option.isSome_some, if_true] at hcall
      obtain rfl := Except.ok.inj hcall
      refine ht.update ⟨by simp, by simp, by simp, by simp⟩ halike ?_ ht.settled ht.unpreparing
      rw [hblock, hidle]
      exact hself.keep (by simp [hprepare]) fun _ => hcommitsFor
  | none =>
      simp only [hprepare, Option.isSome_none, Bool.false_eq_true, if_false, hdigest,
        not_true_eq_false, bind_eq_ok, hidle, List.nil_append] at hcall
      obtain ⟨⟨scratch', core', actions⟩, hcheck, hnext⟩ := hcall
      obtain rfl := Except.ok.inj hnext
      cases hself with
      | prepared _ hsome | committing _ hsome | committed hsome => simp [hprepare] at hsome
      | preparing _ hcommit hkeys _ hcounted =>
          refine ht.prepareCheck h.configured hidle hblock hprepare hcommit halike ?_ ?_
            (hcommitsFor ▸ hcounted) hcheck
          · rw [preparesFor_concat_self]
            simp
          · rw [Map.keys_insert, preparesFor_concat_self, voters_concat, if_pos hdigest.symm]
            exact congrArg _ hkeys

theorem PrimaryTallied.receiveCommit (ht : PrimaryTallied config messages replica)
    (h : Coherent config performed replica) {log : List Command} (hready : replica.Ready log)
    (hidle : replica.coreActions = []) (hpass : PassesVote config vote)
    (hblock : replica.core.blocks[vote.blockNum]? = some block)
    (hdigest : block.digest = vote.digest) (hcall : replica.receiveCommit vote = .ok next) :
    PrimaryTallied config (messages ++ [.commit vote]) next := by
  obtain ⟨hview, hpos, hid, hverify⟩ := hpass
  have halike := @alike_others _ messages (.commit vote) vote.blockNum rfl
  have hself := ht.tally vote.blockNum
  rw [hblock, hidle] at hself
  have hpreparesFor : preparesFor vote.blockNum (messages ++ [.commit vote]) =
      preparesFor vote.blockNum messages := preparesFor_concat (by simp)
  unfold Replica.receiveCommit at hcall
  rw [h.view, hview, h.isCommitted_eq hpos, h.verify_eq hid hverify] at hcall
  simp only [ne_eq, not_true_eq_false, decide_false, Bool.false_or, ok_bind, if_true, hblock,
    Option.any_some] at hcall
  cases hcommit : block.commitQuorum with
  | some quorum =>
      simp only [hcommit, Option.isSome_some, if_true] at hcall
      obtain rfl := Except.ok.inj hcall
      refine ht.update ⟨by simp, by simp, by simp, by simp⟩ halike ?_ ht.settled ht.unpreparing
      rw [hblock, hidle]
      exact hself.keep (fun _ => hpreparesFor) (by simp [hcommit])
  | none =>
      simp only [hcommit, Option.isSome_none, Bool.false_eq_true, if_false, hdigest,
        not_true_eq_false, bind_eq_ok, hidle, List.nil_append] at hcall
      obtain ⟨⟨scratch', core', actions⟩, hcheck, hnext⟩ := hcall
      obtain rfl := Except.ok.inj hnext
      have hprepared : replica.core.isPrepared vote.blockNum = block.prepareQuorum.isSome := by
        rw [h.isPrepared_eq hpos, hblock, Option.any_some]
      have hvoters : voters block.digest (commitsFor vote.blockNum (messages ++ [.commit vote])) =
          insert vote.replicaId (voters block.digest (commitsFor vote.blockNum messages)) := by
        rw [commitsFor_concat_self, voters_concat, if_pos hdigest.symm]
      cases hself with
      | prepared hqueue => simp at hqueue
      | committed _ hsome => simp [hcommit] at hsome
      | preparing hprepare _ hkeys hfew hcounted =>
          -- without a prepare quorum nothing is checked
          rcases checkCommitQuorum_ok hready hblock hcommit hprepared hcheck with
            ⟨-, rfl, rfl, rfl⟩ | ⟨hsome, -⟩
          · have hcount : PrimaryTally config (messages ++ [.commit vote]) replica.coreActions
                vote.blockNum { replica.scratchAt vote.blockNum with
                  commitQuorum := (replica.scratchAt vote.blockNum).commitQuorum.insert
                    vote.replicaId vote.sig } replica.core.blocks[vote.blockNum]? := by
              rw [hblock, hidle]
              refine .preparing hprepare hcommit (by rwa [hpreparesFor]) (by rwa [hpreparesFor]) ?_
              rw [Map.keys_insert, hvoters, hcounted]
            have hput := ht.put halike hcount
            rw [hidle] at hput
            exact hput
          · simp [hprepare] at hsome
      | committing _ hprepare _ hsome hkeys =>
          refine ht.commitCheck h.configured (by simp [hidle, Alone]) hready hblock hprepared hprepare
            hcommit halike (by rwa [hpreparesFor]) ?_ hcheck
          rw [Map.keys_insert, committers, hvoters, Finset.insert_comm]
          exact congrArg _ hkeys

/-- A new block has no votes yet. -/
theorem PrimaryTallied.performPropose (ht : PrimaryTallied config messages replica)
    (h : Coherent config performed replica) {commands : List Command}
    (hqueue : replica.coreActions = .propose blockNum commands :: rest)
    (hperform : Replica.performPropose { replica with coreActions := rest } blockNum commands =
      .ok (next, actions)) :
    PrimaryTallied config messages next := by
  obtain ⟨hnone, hprimary⟩ := h.enabled hqueue
  have hprimary' : ReplicaCore.isPrimary replica.core = true := hprimary
  simp only [Replica.performPropose, handle, ReplicaCore.handle_proposal hnone, ok_bind, hprimary',
    if_true, List.append_nil] at hperform
  obtain ⟨rfl, -⟩ := Prod.mk.inj (Except.ok.inj hperform)
  have hunpreparing := ht.unpreparing
  rw [hqueue] at hunpreparing
  refine ht.update ⟨fun _ _ => rfl, fun other hne => getElem?_insert_of_ne hne _,
    fun other hne => by simp [hqueue], fun other hne => by simp [hqueue]⟩ (fun _ _ => .refl _ _) ?_
    (settled_insert ht.settled rfl _) fun other => by simpa using hunpreparing other
  have hself := ht.tally blockNum
  rw [hnone] at hself
  dsimp only
  rw [getElem?_insert_self]
  cases hself with
  | missing hprepares hcommits hprepareQuorum hcommitQuorum =>
      refine .preparing rfl rfl ?_ (.inl hprepares) ?_
      · rw [hprepares]
        exact congrArg Finmap.keys hprepareQuorum
      · rw [hcommits]
        exact congrArg Finmap.keys hcommitQuorum

theorem PrimaryTallied.performCommit (ht : PrimaryTallied config messages replica)
    (h : Coherent config performed replica) {log : List Command} (hready : replica.Ready log)
    (hpos : ∀ block, replica.core.blocks[blockNum]? = some block → 1 ≤ blockNum)
    (hqueue : replica.coreActions = [.commit blockNum])
    (hperform : Replica.performCommit { replica with coreActions := [] } blockNum =
      .ok (next, actions)) :
    PrimaryTallied config messages next := by
  obtain ⟨hscratch, block, hblock, hprepare, hcommit⟩ := h.enabled hqueue
  obtain ⟨scratch, hget⟩ :=
    Option.isSome_iff_exists.mp (Std.ExtTreeMap.mem_iff_isSome_getElem?.mp hscratch)
  have hat : replica.scratchAt blockNum = scratch := by
    rw [scratchAt, Std.ExtTreeMap.getD_eq_getD_getElem?, hget, Option.getD_some]
  have hself := ht.tally blockNum
  rw [hblock, hqueue, hat] at hself
  cases hself with
  | preparing hnone => simp [hnone] at hprepare
  | committing hnot => simp at hnot
  | committed _ hsome => simp [hcommit] at hsome
  | prepared _ _ _ hsome hcounted =>
      simp only [Replica.performCommit, hget, hblock, bind_eq_ok, List.nil_append] at hperform
      obtain ⟨⟨scratch', core', actions'⟩, hcheck, hnext⟩ := hperform
      obtain ⟨rfl, -⟩ := Prod.mk.inj (Except.ok.inj hnext)
      have hprepared : replica.core.isPrepared blockNum = block.prepareQuorum.isSome := by
        rw [h.isPrepared_eq (hpos block hblock), hblock, Option.any_some]
      refine ht.commitCheck h.configured ?_ hready hblock hprepared hprepare hcommit
        (fun _ _ => .refl _ _) hsome ?_ hcheck
      · intro other hne
        simp [hqueue, hne]
      · have hid : (Replica.signVote { replica with coreActions := [] } blockNum
            block.digest).replicaId = config.id := congrArg ReplicaCoreConfig.id h.configured
        rw [Map.keys_insert, hid, hcounted, committers]

/-- What is finalized is committed, so its scratch is not needed any more. -/
theorem PrimaryTallied.performFinalize (ht : PrimaryTallied config messages replica)
    (h : Coherent config performed replica)
    (hqueue : replica.coreActions = .finalize blockNum :: rest)
    (hperform : Replica.performFinalize { replica with coreActions := rest } blockNum =
      .ok (next, actions)) :
    PrimaryTallied config messages next := by
  obtain ⟨rfl, hnext⟩ := h.finalize hqueue
  have hle := hnext.done_le
  rw [finalizeNums_concat, List.length_append] at hle
  obtain ⟨block, hblock, hcommitted⟩ :=
    h.committed ((finalizeNums performed).length + 1) (by omega) hle
  have hself := ht.tally ((finalizeNums performed).length + 1)
  have hunpreparing := ht.unpreparing
  rw [hqueue] at hunpreparing
  unfold Replica.performFinalize at hperform
  split at hperform
  · cases hperform
  · rw [hblock] at hperform hself
    obtain ⟨rfl, -⟩ := Prod.mk.inj (Except.ok.inj hperform)
    have helse : Elsewhere ((finalizeNums performed).length + 1) replica { replica with
        coreActions := rest
        blockScratches :=
          replica.blockScratches.erase ((finalizeNums performed).length + 1) } := by
      refine ⟨fun other hne => ?_, fun _ _ => rfl, fun other hne => by simp [hqueue],
        fun other hne => by simp [hqueue]⟩
      simp [scratchAt, Std.ExtTreeMap.getD_erase, hne]
    refine ht.update helse (fun _ _ => .refl _ _) ?_ ht.settled fun other => by
      simpa using hunpreparing other
    dsimp only
    rw [hblock]
    cases hself with
    | preparing _ hnone | prepared _ _ hnone | committing _ _ hnone => simp [hnone] at hcommitted
    | committed hprepare hcommit hsome hquorum => exact .committed hprepare hcommit hsome hquorum

end

/-! ## Steps and runs -/

variable {history : List (Event crypto)} {event : Event crypto}

theorem PrimaryTallied.step (ht : PrimaryTallied config (delivered history) replica)
    (hrun : CorrectRun config history replica) (hprimary : config.spec.primary 0 = config.id)
    (hinformed : Informed config replica event) (hstep : Step replica event next) :
    PrimaryTallied config (delivered (history ++ [event])) next := by
  have h := (CorrectRun.accountable hrun).coherent
  obtain ⟨lists, hlists, hissued, -⟩ := h.queue
  have hready := h.ready hissued
  have hisPrimary : replica.core.isPrimary = true := by
    rw [h.isPrimary_eq]
    exact beq_iff_eq.mpr hprimary
  rw [delivered_concat]
  cases hstep with
  | @call call next actions hidle hcall =>
      -- requests come from clients and from other replicas
      have hrequest : ∀ command, replica.receiveMessage (.request command) = .ok (next, actions) →
          ∀ messages', (∀ blockNum, Alike blockNum (delivered history) messages') →
          PrimaryTallied config messages' next := by
        intro command hcall messages' halike
        obtain ⟨pool, lists, hhandle, -⟩ :=
          ReplicaCore.handle_request hready.pool hready.closeLoop hready.window command
        simp only [receiveMessage, handle, hhandle, ok_bind, hisPrimary, if_true] at hcall
        obtain ⟨rfl, -⟩ := Prod.mk.inj (Except.ok.inj hcall)
        exact ht.still halike rfl rfl rfl fun blockNum => by simp [hidle]
      cases call with
      | request command =>
          simp only [Event.delivered?, Option.toList_none, List.append_nil]
          exact hrequest command hcall _ fun _ => .refl _ _
      | tick =>
          simp only [Event.delivered?, Option.toList_none, List.append_nil]
          have hprimary' : ReplicaCore.isPrimary replica.core = true := hisPrimary
          simp only [Replica.call, tick, hprimary', Bool.not_true, Bool.false_eq_true, if_false,
            bind_eq_ok] at hcall
          obtain ⟨resent, -, heq⟩ := hcall
          obtain ⟨rfl, -⟩ := Prod.mk.inj (Except.ok.inj heq)
          exact ht.still (fun _ => .refl _ _) rfl rfl rfl fun _ => by simp [hidle]
      | receive message =>
          simp only [Event.delivered?, Option.toList_some]
          obtain ⟨hpass, -, hanswers⟩ := hinformed message rfl
          replace hanswers := hanswers hprimary
          cases message with
          | request command =>
              exact hrequest command hcall _ fun _ => .concat (by simp [ToReplica.blockNum?])
          -- no correct replica sends a PrePrepare to the primary
          | prePrepare sent commands => exact absurd hanswers id
          | prepare vote =>
              obtain ⟨block, hblock, hdigest⟩ := hanswers
              simp only [Replica.call, receiveMessage, bind_eq_ok] at hcall
              obtain ⟨next', hreceive, heq⟩ := hcall
              obtain ⟨rfl, -⟩ := Prod.mk.inj (Except.ok.inj heq)
              exact ht.receivePrepare h hidle hpass hblock hdigest hreceive
          | commit vote =>
              obtain ⟨block, hblock, hdigest⟩ := hanswers
              simp only [Replica.call, receiveMessage, bind_eq_ok] at hcall
              obtain ⟨next', hreceive, heq⟩ := hcall
              obtain ⟨rfl, -⟩ := Prod.mk.inj (Except.ok.inj heq)
              exact ht.receiveCommit h hready hidle hpass hblock hdigest hreceive
  | @perform action rest next actions hqueue hperform =>
      simp only [Event.delivered?, Option.toList_none, List.append_nil]
      have hunpreparing := ht.unpreparing
      rw [hqueue] at hunpreparing
      cases action with
      | propose blockNum commands => exact ht.performPropose h hqueue hperform
      | prepare blockNum digest => simpa using hunpreparing blockNum
      | commit blockNum =>
          obtain ⟨rfl, -⟩ := hlists.solo_head hqueue trivial
          exact ht.performCommit h hready (fun _ hblock => CorrectRun.pos hrun hblock) hqueue hperform
      | finalize blockNum => exact ht.performFinalize h hqueue hperform
      | forward replicaId command =>
          obtain ⟨rfl, -⟩ := Prod.mk.inj (Except.ok.inj hperform)
          exact ht.still (fun _ => .refl _ _) rfl rfl rfl fun other => ⟨by
            simpa using hunpreparing other, by simp [hqueue]⟩
      | viewChange _ _ | newView _ _ _ | enterView => exact absurd (h.enabled hqueue) id

theorem PrimaryTallied.of_new (hnew : Replica.new crypto config = .ok replica) :
    PrimaryTallied config [] replica := by
  simp only [Replica.new, bind_eq_ok] at hnew
  obtain ⟨cryptoConfig, -, hreplica⟩ := hnew
  obtain rfl := Except.ok.inj hreplica
  refine ⟨fun blockNum => ?_, by simp [ReplicaCore.Settled, ReplicaCore.new], fun _ => rfl⟩
  have hscratch : scratchAt ⟨ReplicaCore.new config, [], cryptoConfig, ∅, 0⟩ blockNum = default := by
    simp [scratchAt]
  have hblock : (ReplicaCore.new config : ReplicaCore crypto).blocks[blockNum]? = none := by
    simp [ReplicaCore.new]
  rw [hscratch, hblock]
  exact .missing rfl rfl rfl rfl

/-- In every run of a primary among correct replicas, all votes are accounted for. -/
theorem CorrectRun.primaryTallied (hrun : CorrectRun config history replica)
    (hprimary : config.spec.primary 0 = config.id) :
    PrimaryTallied config (delivered history) replica := by
  induction hrun with
  | start hnew => exact .of_new hnew
  | step hprev hstep ih => exact ih.step hprev hprimary hstep.2 hstep.1

/-- A primary prepares nothing, and nobody makes it send a Prepare again. -/
theorem CorrectRun.no_prepares (hrun : CorrectRun config history replica)
    (hprimary : config.spec.primary 0 = config.id) (vote : Vote crypto) :
    .prepare vote ∉ sentMessages history := by
  intro hsent
  obtain ⟨event, hevent, action, haction, hmessage⟩ := mem_sentMessages.mp hsent
  obtain ⟨before, current, next, hcurrent, ⟨hstep, hinformed⟩, -⟩ := hrun.of_mem hevent
  obtain ⟨lists, -, heffect⟩ := (accountable hcurrent).coherent.effect hstep
  cases heffect with
  | drop | request | accept | keepPrepare | countPrepare | keepCommit | countCommit =>
      simp [Event.actions] at haction
  | resend => exact (hinformed _ rfl).answers hprimary
  | tick hactions =>
      obtain ⟨-, _, _, -, rfl⟩ := hactions _ haction
      cases hmessage
  | @prepare blockNum _ _ _ _ hqueue =>
      have hunpreparing := (primaryTallied hcurrent hprimary).unpreparing blockNum
      simp [hqueue] at hunpreparing
  | propose | commit | finalize | forward =>
      obtain rfl := List.mem_singleton.mp haction
      cases hmessage

/-! ## There is room to count -/

/-- Whose Prepares there are. -/
def backups (config : ReplicaCoreConfig) : Finset Nat :=
  (Finset.range config.spec.numReplica).erase (config.spec.primary 0)

/-- A replica that prepares is a backup. -/
theorem CorrectRun.backup_of_preparing (hrun : CorrectRun config history replica)
    {blockNum : Nat} {digest : Digest} {rest : ReplicaCoreActions crypto}
    (hqueue : replica.coreActions = .prepare blockNum digest :: rest) :
    replica.core.config.id ∈ backups config := by
  have h := (CorrectRun.accountable hrun).coherent
  rw [h.configured, backups, Finset.mem_erase, Finset.mem_range]
  refine ⟨fun heq => ?_, h.id⟩
  have hunpreparing := (primaryTallied hrun heq.symm).unpreparing blockNum
  simp [hqueue] at hunpreparing

theorem Informs.mem_backups (h : Informs config replica (.prepare vote)) :
    vote.replicaId ∈ backups config :=
  Finset.mem_erase.mpr ⟨h.byBackup, Finset.mem_range.mpr h.passes.2.2.1⟩

/-- Among correct replicas only backups are counted. -/
theorem CorrectRun.voters (hrun : CorrectRun config history replica) :
    Voters (backups config) replica := by
  induction hrun with
  | start hnew => exact .of_new hnew
  | step hprev hstep ih =>
      refine hstep.1.outcome.voters ih (fun _ _ _ hqueue => backup_of_preparing hprev hqueue) ?_
      rintro vote actions rfl -
      exact (hstep.2 _ rfl).mem_backups

/-- The primary leaves a place for the sum. -/
theorem card_backups_lt (hid : config.id < config.spec.numReplica) :
    (backups config).card + 1 < 2 ^ 16 := by
  have hpos : 0 < config.spec.numReplica := Nat.zero_lt_of_lt hid
  have hprimary : config.spec.primary 0 ∈ Finset.range config.spec.numReplica :=
    Finset.mem_range.mpr (Nat.mod_lt _ hpos)
  have hlt := config.spec.numReplica_lt
  rw [backups, Finset.card_erase_of_mem hprimary, Finset.card_range]
  omega

theorem CorrectRun.roomy (hrun : CorrectRun config history replica) : replica.Roomy :=
  (voters hrun).roomy (card_backups_lt (accountable hrun).coherent.id)
    fun _ _ _ hqueue => backup_of_preparing hrun hqueue

/-- A message that informs is counted. -/
theorem CorrectRun.receives_ok (hrun : CorrectRun config history replica)
    (hfaulty : config.spec.numFaulty ≤ config.spec.numReplica) {message : ToReplica crypto}
    (hinforms : Informs config replica message) :
    ∃ result, replica.call (.receive message) = .ok result := by
  refine (accountable hrun).receives_ok hfaulty hinforms.passes ?_
  rintro quorum hgathers
  cases hgathers with
  | receive =>
      exact size_lt_of_subset ((voters hrun).receive_subset hinforms.mem_backups)
        (card_backups_lt (accountable hrun).coherent.id)

end Replica

end BftKit.Pbft
