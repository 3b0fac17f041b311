import BftKit.Pbft.Tally

/-! # What delivery does to the tally

Every step of a backup that is delivered messages passing their checks keeps the
tally of every block number: the votes that wait for a block, the ones that are
counted at once and the ones that come too late all end up accounted for.
-/

namespace BftKit.Pbft

open Foundation

variable {crypto : Crypto}

namespace Replica

namespace Event

/-- The message that an event delivers. -/
def delivered? : Event crypto → Option (ToReplica crypto)
  | .call (.receive message) _ => some message
  | .call (.request _) _ | .call .tick _ | .perform _ _ => none

end Event

/-- The messages that a history delivers, in this order. -/
def delivered (history : List (Event crypto)) : List (ToReplica crypto) :=
  history.filterMap Event.delivered?

/-- A vote passes its checks at the replicas of a group. -/
def PassesVote (config : ReplicaCoreConfig) (vote : Vote crypto) : Prop :=
  vote.viewNum = 0 ∧ 1 ≤ vote.blockNum ∧ vote.replicaId < config.spec.numReplica ∧
    crypto.verify vote (crypto.publicKey (crypto.replicaSecretKey vote.replicaId)) vote.sig = true

/-- A message passes the checks of `receive` that do not depend on the state. -/
def Passes (config : ReplicaCoreConfig) : ToReplica crypto → Prop
  | .request _ => True
  | .prePrepare sent commands => sent.viewNum = 0 ∧ 1 ≤ sent.blockNum ∧
      crypto.verify sent
        (crypto.publicKey (crypto.replicaSecretKey (config.spec.primary 0))) sent.sig = true ∧
      sent.digest = blockDigest crypto commands
  | .prepare vote | .commit vote => PassesVote config vote

instance (config : ReplicaCoreConfig) (message : ToReplica crypto) :
    Decidable (Passes config message) :=
  match message with
  | .request _ => .isTrue trivial
  | .prePrepare _ _ => inferInstanceAs (Decidable (_ ∧ _))
  | .prepare _ | .commit _ => inferInstanceAs (Decidable (_ ∧ _))

variable {config : ReplicaCoreConfig} {replica next : Replica crypto}
  {history : List (Event crypto)} {event : Event crypto}
  {messages messages' : List (ToReplica crypto)} {message : ToReplica crypto}

theorem delivered_append (first second : List (Event crypto)) :
    delivered (first ++ second) = delivered first ++ delivered second :=
  List.filterMap_append

theorem delivered_concat : delivered (history ++ [event]) =
    delivered history ++ event.delivered?.toList := by
  rw [delivered_append]
  cases h : event.delivered? <;> simp [delivered, h]

/-! ## Runs of a backup -/

theorem coherent_backup (hbackup : config.spec.primary 0 ≠ config.id)
    {performed : ReplicaCoreActions crypto} (h : Coherent config performed replica) :
    replica.core.isPrimary = false := by
  rw [h.isPrimary_eq]
  simpa using hbackup

/-- A backup needs no assumption on who signs what. -/
theorem FreeRun.accountable (hbackup : config.spec.primary 0 ≠ config.id)
    (hrun : FreeRun config history replica) : Accountable config history replica := by
  refine hrun.invariant (fun _ => Accountable.of_new) ?_
  intro history state event next _ hinv hstep
  refine hinv.step_of_coherent hstep (hinv.coherent.step hstep ?_)
  intro _ _ _ _ hprimary
  simp [coherent_backup hbackup hinv.coherent] at hprimary

/-- Verification of a message that passes, at a replica of the group. -/
theorem Coherent.verify_eq {performed : ReplicaCoreActions crypto}
    (h : Coherent config performed replica) {Value : Type} [UpdateHash Value] {value : Value}
    {id : Nat} {sig : crypto.Sig} (hid : id < config.spec.numReplica)
    (hverify : crypto.verify value (crypto.publicKey (crypto.replicaSecretKey id)) sig = true) :
    replica.verify value id sig = .ok true := by
  unfold Replica.verify
  rw [h.publicKeys, List.getElem?_map, List.getElem?_range hid]
  simp [hverify]

/-- A finalized block number is stored with its quorums, so the number alone decides
nothing. -/
theorem Coherent.isPrepared_eq {performed : ReplicaCoreActions crypto}
    (h : Coherent config performed replica) {blockNum : Nat} (hpos : 1 ≤ blockNum) :
    replica.core.isPrepared blockNum =
      replica.core.blocks[blockNum]?.any (·.prepareQuorum.isSome) := by
  unfold ReplicaCore.isPrepared
  by_cases hlt : blockNum < replica.core.finalizeNum
  · obtain ⟨block, hblock, hcommitted⟩ := h.committed blockNum hpos hlt.le
    simp [hlt, hblock, h.prepared blockNum block hblock hcommitted]
  · simp [hlt]

theorem Coherent.isCommitted_eq {performed : ReplicaCoreActions crypto}
    (h : Coherent config performed replica) {blockNum : Nat} (hpos : 1 ≤ blockNum) :
    replica.core.isCommitted blockNum =
      replica.core.blocks[blockNum]?.any (·.commitQuorum.isSome) := by
  unfold ReplicaCore.isCommitted
  rw [h.isPrepared_eq hpos]
  by_cases hlt : blockNum < replica.core.finalizeNum
  · obtain ⟨block, hblock, hcommitted⟩ := h.committed blockNum hpos hlt.le
    simp [hlt, hblock, hcommitted]
  · cases hblock : replica.core.blocks[blockNum]? with
    | none => simp [hlt]
    | some block =>
        cases hcommit : block.commitQuorum with
        | none => simp [hlt, hcommit]
        | some quorum => simp [hlt, hcommit, h.prepared blockNum block hblock (by simp [hcommit])]

/-- The loop of a call delivers nothing. -/
theorem Drained.delivered {events : List (Event crypto)} (h : Drained replica events next) :
    Replica.delivered events = [] := by
  induction h with
  | nil => rfl
  | cons _ _ _ ih => exact ih

/-- What passes its checks brings no replica down, in a group that is large enough and with
room to count it. -/
theorem Accountable.receives_ok (h : Accountable config history replica)
    (hfaulty : config.spec.numFaulty ≤ config.spec.numReplica) (hpasses : Passes config message)
    (hroom : ∀ quorum, replica.Gathers (some (.receive message)) quorum →
      quorum.size + 1 < 2 ^ 16) :
    ∃ result, replica.call (.receive message) = .ok result := by
  obtain ⟨log, hready⟩ := h.ready
  have hlawful := call_lawful hready (.receive message)
  cases hcall : replica.call (.receive message) with
  | ok result => exact ⟨result, rfl⟩
  | error panic =>
      rw [hcall] at hlawful
      have htolerated : replica.Tolerated (some (.receive message)) panic := hlawful
      cases panic with
      | publicKeyIndex =>
          obtain ⟨vote, hid, hcall⟩ := htolerated
          have hlt : vote.replicaId < config.spec.numReplica := by
            rcases hcall with hcall | hcall <;>
            · obtain rfl := Call.receive.inj (Option.some.inj hcall)
              exact hpasses.2.2.1
          rw [h.coherent.configured] at hid
          omega
      | underflow =>
          have hlt : replica.core.config.spec.numReplica < replica.core.config.spec.numFaulty :=
            htolerated
          rw [h.coherent.configured] at hlt
          omega
      | overflow =>
          obtain ⟨quorum, hgathers, hcrowded⟩ := htolerated
          exact absurd hcrowded (not_le.mpr (hroom quorum hgathers))
      | index | unwrap | assert | batchSize | recursion | todo _ => exact absurd htolerated id

/-- A backup that is done with the calls so far has performed a Prepare for each of its
blocks. -/
theorem Accountable.performed_prepare (h : Accountable config history replica)
    (hbackup : config.spec.primary 0 ≠ config.id) (hidle : replica.coreActions = [])
    {blockNum : Nat} {block : Block crypto}
    (hblock : replica.core.blocks[blockNum]? = some block) :
    ∃ digest actions, .perform (.prepare blockNum digest) actions ∈ history := by
  have hphase : Phase.prepare ∈ phases blockNum (performedIn history) := by
    rw [h.coherent.phases blockNum]
    simp only [stage, hblock, hidle, preparing_nil, Bool.false_eq_true, if_false]
    split
    · exact List.mem_singleton_self _
    · split <;> exact List.mem_cons_self
  obtain ⟨action, haction, hphaseOf⟩ := List.mem_filterMap.mp hphase
  obtain ⟨event, hevent, hperformed⟩ := List.mem_filterMap.mp haction
  cases event with
  | call call actions => cases hperformed
  | perform action' actions =>
      obtain rfl : action' = action := Option.some.inj hperformed
      cases action' with
      | propose other commands =>
          -- a backup proposes nothing
          have hmem : commands ∈ proposals (performedIn history) :=
            List.mem_filterMap.mpr ⟨_, haction, rfl⟩
          rw [h.coherent.backup (coherent_backup hbackup h.coherent)] at hmem
          cases hmem
      | prepare other digest =>
          obtain rfl : other = blockNum := by
            by_contra hne
            simp [ReplicaCoreAction.phaseOf, hne] at hphaseOf
          exact ⟨digest, actions, hevent⟩
      | commit | finalize => simp [ReplicaCoreAction.phaseOf] at hphaseOf
      | forward | viewChange | newView | enterView => cases hphaseOf

/-! ## The quorum checks, exactly -/

theorem checkPrepareQuorum_ok {core core' : ReplicaCore crypto} {blockNum : Nat}
    {block : Block crypto} {scratch scratch' : BlockScratch crypto}
    {actions : ReplicaCoreActions crypto} (hblock : core.blocks[blockNum]? = some block)
    (hnone : block.prepareQuorum = none)
    (hcheck : checkPrepareQuorum blockNum scratch core = .ok (scratch', core', actions)) :
    ¬ Enough core.config (scratch.prepareQuorum.size + 1) ∧ scratch' = scratch ∧ core' = core ∧
        actions = [] ∨
      Enough core.config (scratch.prepareQuorum.size + 1) ∧
        scratch' = { scratch with prepareQuorum := ∅ } ∧
        core' = { core with
          blocks := core.blocks.insert blockNum
            { block with prepareQuorum := some scratch.prepareQuorum } } ∧
        actions = [.commit blockNum] := by
  rw [checkPrepareQuorum, bind_eq_ok] at hcheck
  obtain ⟨count, hcount, hcheck⟩ := hcheck
  obtain ⟨rfl, -⟩ := withPrimary_ok hcount
  unfold Spec.quorumSize at hcheck
  split at hcheck
  next hle =>
    simp only [ok_bind, ReplicaCore.handle_prepareQuorum hblock hnone] at hcheck
    split at hcheck
    next hquorum =>
      obtain ⟨rfl, rfl, rfl⟩ : _ ∧ _ ∧ _ := by simpa using Except.ok.inj hcheck
      exact .inr ⟨by unfold Enough; omega, rfl, rfl, rfl⟩
    next hquorum =>
      obtain ⟨rfl, rfl, rfl⟩ : _ ∧ _ ∧ _ := by simpa using Except.ok.inj hcheck
      exact .inl ⟨by unfold Enough; omega, rfl, rfl, rfl⟩
  next => simp at hcheck

theorem checkCommitQuorum_ok {log : List Command} (hready : replica.Ready log)
    {core' : ReplicaCore crypto} {blockNum : Nat} {block : Block crypto}
    {scratch scratch' : BlockScratch crypto} {actions : ReplicaCoreActions crypto}
    (hblock : replica.core.blocks[blockNum]? = some block)
    (hnone : block.commitQuorum = none)
    (hprepared : replica.core.isPrepared blockNum = block.prepareQuorum.isSome)
    (hcheck : checkCommitQuorum blockNum scratch replica.core = .ok (scratch', core', actions)) :
    ¬(block.prepareQuorum.isSome ∧ Enough replica.core.config scratch.commitQuorum.size) ∧
        scratch' = scratch ∧ core' = replica.core ∧ actions = [] ∨
      block.prepareQuorum.isSome ∧ Enough replica.core.config scratch.commitQuorum.size ∧
        scratch' = { scratch with commitQuorum := ∅ } ∧
        core'.blocks = replica.core.blocks.insert blockNum
          { block with commitQuorum := some scratch.commitQuorum } ∧
        core'.Settled ∧
        ∀ other, preparing other actions = false ∧ committing other actions = false := by
  unfold checkCommitQuorum Spec.quorumSize at hcheck
  rw [hprepared] at hcheck
  split at hcheck
  next hsome =>
    split at hcheck
    next hle =>
      obtain ⟨pool, count, lists, hhandle, -⟩ :=
        ReplicaCore.handle_commitQuorum hblock hsome hnone scratch.commitQuorum hready.pool
          hready.closeLoop fun _ => hready.run_le
      have hsettled := ReplicaCore.commitQuorum_settled hhandle
      simp only [ok_bind, hhandle] at hcheck
      split at hcheck
      next hquorum =>
        obtain ⟨rfl, rfl, rfl⟩ : _ ∧ _ ∧ _ := by simpa using Except.ok.inj hcheck
        exact .inr ⟨hsome, by unfold Enough; omega, rfl, rfl, hsettled, by simp⟩
      next hquorum =>
        obtain ⟨rfl, rfl, rfl⟩ : _ ∧ _ ∧ _ := by simpa using Except.ok.inj hcheck
        exact .inl ⟨fun h => hquorum (by have := h.2; unfold Enough at this; omega), rfl, rfl, rfl⟩
    next => simp at hcheck
  next hsome =>
    obtain ⟨rfl, rfl, rfl⟩ : _ ∧ _ ∧ _ := by simpa using Except.ok.inj hcheck
    exact .inl ⟨fun h => hsome h.1, rfl, rfl, rfl⟩

/-! ## The tally of every block number -/

/-- Every block number is as far as the messages take it. -/
structure Tallied (config : ReplicaCoreConfig) (messages : List (ToReplica crypto))
    (replica : Replica crypto) : Prop where
  tally : ∀ blockNum, Tally config messages replica.coreActions blockNum
    (replica.scratchAt blockNum) replica.core.blocks[blockNum]?
  settled : replica.core.Settled

/-- A step leaves all block numbers but one as they are. -/
structure Elsewhere (blockNum : Nat) (replica next : Replica crypto) : Prop where
  scratch : ∀ other, blockNum ≠ other → next.scratchAt other = replica.scratchAt other
  block : ∀ other, blockNum ≠ other → next.core.blocks[other]? = replica.core.blocks[other]?
  preparing : ∀ other, blockNum ≠ other →
    preparing other next.coreActions = preparing other replica.coreActions
  committing : ∀ other, blockNum ≠ other →
    committing other next.coreActions = committing other replica.coreActions

theorem Tallied.update (h : Tallied config messages replica) {blockNum : Nat}
    (helse : Elsewhere blockNum replica next)
    (halike : ∀ other, blockNum ≠ other → Alike other messages messages')
    (hself : Tally config messages' next.coreActions blockNum (next.scratchAt blockNum)
      next.core.blocks[blockNum]?)
    (hsettled : next.core.Settled) : Tallied config messages' next := by
  refine ⟨fun other => ?_, hsettled⟩
  by_cases heq : blockNum = other
  · exact heq ▸ hself
  · rw [helse.scratch other heq, helse.block other heq]
    exact (h.tally other).frame (halike other heq) (helse.preparing other heq)
      (helse.committing other heq)

/-- A step that touches no block and no scratch. -/
theorem Tallied.still (h : Tallied config messages replica)
    (halike : ∀ blockNum, Alike blockNum messages messages')
    (hblocks : next.core.blocks = replica.core.blocks)
    (hfinalize : next.core.finalizeNum = replica.core.finalizeNum)
    (hscratches : next.blockScratches = replica.blockScratches)
    (hqueue : ∀ blockNum,
      preparing blockNum next.coreActions = preparing blockNum replica.coreActions ∧
      committing blockNum next.coreActions = committing blockNum replica.coreActions) :
    Tallied config messages' next := by
  constructor
  · intro blockNum
    have hscratch : next.scratchAt blockNum = replica.scratchAt blockNum := by
      rw [scratchAt, scratchAt, hscratches]
    rw [hscratch, hblocks]
    exact (h.tally blockNum).frame (halike blockNum) (hqueue blockNum).1 (hqueue blockNum).2
  · intro block hblock
    rw [hblocks, hfinalize] at hblock
    exact h.settled block hblock

theorem scratchAt_insert {blockNum : Nat} {scratch : BlockScratch crypto}
    (hscratches : next.blockScratches = replica.blockScratches.insert blockNum scratch) :
    next.scratchAt blockNum = scratch ∧
      ∀ other, blockNum ≠ other → next.scratchAt other = replica.scratchAt other := by
  constructor
  · simp [scratchAt, hscratches]
  · intro other hne
    simp [scratchAt, hscratches, Std.ExtTreeMap.getD_insert, hne]

theorem settled_insert {core : ReplicaCore crypto} (h : core.Settled) {block : Block crypto}
    (hnone : block.commitQuorum = none) (blockNum : Nat) :
    ReplicaCore.Settled { core with blocks := core.blocks.insert blockNum block } := by
  intro stored hstored
  dsimp only at hstored
  by_cases heq : blockNum = core.finalizeNum + 1
  · subst heq
    obtain rfl := Option.some.inj ((getElem?_insert_self _ _).symm.trans hstored)
    simp [hnone]
  · exact h stored ((getElem?_insert_of_ne heq _).symm.trans hstored)

/-- The message is about a block number, so it says nothing of the others. -/
theorem alike_others {blockNum : Nat} (hmessage : message.blockNum? = some blockNum) (other : Nat)
    (hne : blockNum ≠ other) : Alike other messages (messages ++ [message]) :=
  .concat fun heq => hne (Option.some.inj (hmessage.symm.trans heq))

theorem Tallied.put (ht : Tallied config messages replica) {blockNum : Nat}
    {scratch : BlockScratch crypto}
    (halike : ∀ other, blockNum ≠ other → Alike other messages messages')
    (hself : Tally config messages' replica.coreActions blockNum scratch
      replica.core.blocks[blockNum]?) :
    Tallied config messages'
      { replica with blockScratches := replica.blockScratches.insert blockNum scratch } := by
  obtain ⟨hscratch, hscratches⟩ := @scratchAt_insert _ replica { replica with
    blockScratches := replica.blockScratches.insert blockNum scratch } _ _ rfl
  refine ht.update ⟨hscratches, fun _ _ => rfl, fun _ _ => rfl, fun _ _ => rfl⟩ halike ?_ ht.settled
  rw [hscratch]
  exact hself

/-- No other block number waits in the queue. -/
def Alone (blockNum : Nat) (queue : ReplicaCoreActions crypto) : Prop :=
  ∀ other, blockNum ≠ other → preparing other queue = false ∧ committing other queue = false

/-- Once the voters of a block are counted, the check tells whether it is prepared. -/
theorem Tallied.prepareCheck (ht : Tallied config messages replica)
    (hconfig : replica.core.config = config) {blockNum : Nat} {block : Block crypto}
    {scratch scratch' : BlockScratch crypto} {core' : ReplicaCore crypto}
    {actions : ReplicaCoreActions crypto} (hblock : replica.core.blocks[blockNum]? = some block)
    (hprepare : block.prepareQuorum = none) (hcommit : block.commitQuorum = none)
    (halike : ∀ other, blockNum ≠ other → Alike other messages messages')
    (halone : Alone blockNum replica.coreActions)
    (hproposed : Proposed messages' blockNum block.commands)
    (hkeys : scratch.prepareQuorum.keys = preparers config messages' blockNum block.digest)
    (hcounted : scratch.commitQuorum.keys =
      voters block.digest (commitsFor blockNum messages'))
    (hcheck : checkPrepareQuorum blockNum scratch replica.core = .ok (scratch', core', actions)) :
    Tallied config messages' { replica with
      core := core'
      coreActions := actions
      blockScratches := replica.blockScratches.insert blockNum scratch' } := by
  obtain ⟨hscratch, hscratches⟩ := @scratchAt_insert _ replica { replica with
    core := core'
    coreActions := actions
    blockScratches := replica.blockScratches.insert blockNum scratch' } _ _ rfl
  have hcheck' := checkPrepareQuorum_ok hblock hprepare hcheck
  have hsize : Enough replica.core.config (scratch.prepareQuorum.size + 1) ↔
      Enough config ((preparers config messages' blockNum block.digest).card + 1) := by
    rw [hconfig, Map.size, hkeys]
  rw [hsize] at hcheck'
  rcases hcheck' with ⟨hfew, rfl, rfl, rfl⟩ | ⟨henough, rfl, rfl, rfl⟩
  · refine ht.update ⟨hscratches, fun _ _ => rfl, fun other hne => (halone other hne).1.symm,
      fun other hne => (halone other hne).2.symm⟩ halike ?_ ht.settled
    rw [hscratch]
    dsimp only
    rw [hblock]
    exact .preparing hproposed rfl hprepare hcommit hkeys hfew hcounted
  · refine ht.update ⟨hscratches, fun other hne => getElem?_insert_of_ne hne _,
      fun other hne => by simp [(halone other hne).1], fun other hne => by
        simp [(halone other hne).2, hne]⟩ halike ?_
        (settled_insert ht.settled (by exact hcommit) _)
    rw [hscratch]
    dsimp only
    rw [getElem?_insert_self]
    exact .prepared hproposed (by simp) rfl hcommit henough hcounted

/-- The check of a prepared block tells whether it is committed. -/
theorem Tallied.commitCheck (ht : Tallied config messages replica)
    (hconfig : replica.core.config = config) {log : List Command} (hready : replica.Ready log)
    {blockNum : Nat} {block : Block crypto} {scratch scratch' : BlockScratch crypto}
    {core' : ReplicaCore crypto} {actions : ReplicaCoreActions crypto}
    (hblock : replica.core.blocks[blockNum]? = some block)
    (hprepared : replica.core.isPrepared blockNum = block.prepareQuorum.isSome)
    (hprepare : block.prepareQuorum.isSome) (hcommit : block.commitQuorum = none)
    (halike : ∀ other, blockNum ≠ other → Alike other messages messages')
    (halone : Alone blockNum replica.coreActions)
    (hproposed : Proposed messages' blockNum block.commands)
    (henough : Enough config ((preparers config messages' blockNum block.digest).card + 1))
    (hkeys : scratch.commitQuorum.keys = committers config messages' blockNum block.digest)
    (hcheck : checkCommitQuorum blockNum scratch replica.core = .ok (scratch', core', actions)) :
    Tallied config messages' { replica with
      core := core'
      coreActions := actions
      blockScratches := replica.blockScratches.insert blockNum scratch' } := by
  obtain ⟨hscratch, hscratches⟩ := @scratchAt_insert _ replica { replica with
    core := core'
    coreActions := actions
    blockScratches := replica.blockScratches.insert blockNum scratch' } _ _ rfl
  have hcheck' := checkCommitQuorum_ok hready hblock hcommit hprepared hcheck
  have hsize : Enough replica.core.config scratch.commitQuorum.size ↔
      Enough config (committers config messages' blockNum block.digest).card := by
    rw [hconfig, Map.size, hkeys]
  rw [hsize] at hcheck'
  rcases hcheck' with ⟨hfew, rfl, rfl, rfl⟩ | ⟨-, hquorum, rfl, hblocks, hsettled, hflat⟩
  · refine ht.update ⟨hscratches, fun _ _ => rfl, fun other hne => (halone other hne).1.symm,
      fun other hne => (halone other hne).2.symm⟩ halike ?_ ht.settled
    rw [hscratch]
    dsimp only
    rw [hblock]
    exact .committing hproposed rfl hprepare hcommit henough hkeys fun hquorum =>
      hfew ⟨hprepare, hquorum⟩
  · refine ht.update ⟨hscratches, fun other hne => ?_,
      fun other hne => (hflat other).1.trans (halone other hne).1.symm,
      fun other hne => (hflat other).2.trans (halone other hne).2.symm⟩ halike ?_ hsettled
    · dsimp only
      rw [hblocks]
      exact getElem?_insert_of_ne hne _
    · dsimp only
      rw [hblocks, getElem?_insert_self]
      exact .committed hproposed hprepare rfl henough hquorum

/-! ## What delivery does to the tally -/

section

variable {performed : ReplicaCoreActions crypto} {actions : List (Action crypto)}

theorem Tallied.prePrepare (ht : Tallied config messages replica)
    (h : Coherent config performed replica) (hidle : replica.coreActions = [])
    (hbackup : replica.core.isPrimary = false) {sent : PrePrepare crypto} {commands : List Command}
    (hpass : Passes config (.prePrepare sent commands))
    (hcall : replica.receivePrePrepare sent commands = .ok (next, actions)) :
    Tallied config (messages ++ [.prePrepare sent commands]) next := by
  obtain ⟨hview, hpos, hverify, hdigest⟩ := hpass
  have halike := @alike_others _ messages (.prePrepare sent commands) sent.blockNum rfl
  have hself := ht.tally sent.blockNum
  unfold receivePrePrepare at hcall
  rw [h.view, hview] at hcall
  simp only [ne_eq, not_true_eq_false, if_false] at hcall
  split at hcall
  next block hblock =>
    -- whether it is answered or not, the state stays
    have hnext : next = replica := by
      split at hcall <;> exact (Prod.mk.inj (Except.ok.inj hcall)).1.symm
    subst hnext
    rw [hblock, hidle] at hself
    refine ht.update ⟨by simp, by simp, by simp, by simp⟩ halike ?_ ht.settled
    rw [hblock, hidle]
    refine hself.keep (fun _ => ?_) fun _ => ?_
    · rw [preparesFor_concat (by simp)]
    · rw [commitsFor_concat (by simp)]
  next hnone =>
    have hverified : replica.verify sent (replica.core.config.spec.primary 0) sent.sig =
        .ok true := by
      rw [h.configured]
      exact h.verify_eq (Nat.mod_lt _ (Nat.zero_lt_of_lt h.id)) hverify
    simp only [hverified, ok_bind, hdigest, Bool.not_true, not_true_eq_false, decide_false,
      Bool.or_self, Bool.false_eq_true, if_false, handle, ReplicaCore.handle_proposal hnone,
      hbackup, hidle, List.nil_append] at hcall
    obtain ⟨rfl, -⟩ := Prod.mk.inj (Except.ok.inj hcall)
    rw [hnone, hidle] at hself
    cases hself with
    | missing _ hbuffered =>
        refine ht.update ⟨fun _ _ => rfl, fun other hne => getElem?_insert_of_ne hne _,
          fun other hne => by simp [hidle, hne], fun other hne => by simp [hidle]⟩ halike ?_
          (settled_insert ht.settled rfl _)
        dsimp only
        rw [getElem?_insert_self]
        refine .accepted (proposed_concat.mpr (.inr ⟨sent, rfl, rfl⟩)) (by simp) rfl rfl ?_
        refine ⟨?_, hbuffered.prepareQuorum, ?_, hbuffered.commitQuorum⟩
        · rw [preparesFor_concat (by simp)]
          exact hbuffered.prepareVotes
        · rw [commitsFor_concat (by simp)]
          exact hbuffered.commitVotes

theorem Tallied.receivePrepare (ht : Tallied config messages replica)
    (h : Coherent config performed replica) (hidle : replica.coreActions = [])
    {vote : Vote crypto} (hpass : PassesVote config vote)
    (hcall : replica.receivePrepare vote = .ok next) :
    Tallied config (messages ++ [.prepare vote]) next := by
  obtain ⟨hview, hpos, hid, hverify⟩ := hpass
  have halike := @alike_others _ messages (.prepare vote) vote.blockNum rfl
  have hself := ht.tally vote.blockNum
  have hcommitsFor : commitsFor vote.blockNum (messages ++ [.prepare vote]) =
      commitsFor vote.blockNum messages := commitsFor_concat (by simp)
  unfold Replica.receivePrepare at hcall
  rw [h.view, hview, h.isPrepared_eq hpos, h.verify_eq hid hverify] at hcall
  simp only [ne_eq, not_true_eq_false, decide_false, Bool.false_or, ok_bind, if_true] at hcall
  cases hblock : replica.core.blocks[vote.blockNum]? with
  | none =>
      simp only [hblock, Option.any_none, Bool.false_eq_true, if_false] at hcall
      obtain rfl := Except.ok.inj hcall
      rw [hblock] at hself
      cases hself with
      | missing hnew hbuffered =>
          refine ht.put halike (hblock ▸ .missing ?_ ⟨?_, hbuffered.prepareQuorum, ?_,
            hbuffered.commitQuorum⟩)
          · intro commands hproposed
            rcases proposed_concat.mp hproposed with hold | ⟨_, hprepare, -⟩
            · exact hnew commands hold
            · cases hprepare
          · rw [preparesFor_concat_self, ← hbuffered.prepareVotes]
            rfl
          · rw [hcommitsFor]
            exact hbuffered.commitVotes
  | some block =>
      rw [hblock, hidle] at hself
      cases hprepare : block.prepareQuorum with
      | some quorum =>
          simp only [hblock, Option.any_some, hprepare, Option.isSome_some, if_true] at hcall
          obtain rfl := Except.ok.inj hcall
          refine ht.update ⟨by simp, by simp, by simp, by simp⟩ halike ?_ ht.settled
          rw [hblock, hidle]
          exact hself.keep (by simp [hprepare]) fun _ => by rw [hcommitsFor]
      | none =>
          simp only [hblock, Option.any_some, hprepare, Option.isSome_none, Bool.false_eq_true,
            if_false] at hcall
          by_cases hdigest : vote.digest = block.digest
          · simp only [hdigest, not_true_eq_false, if_false, bind_eq_ok, hidle,
              List.nil_append] at hcall
            obtain ⟨⟨scratch', core', actions⟩, hcheck, hnext⟩ := hcall
            obtain rfl := Except.ok.inj hnext
            -- an idle replica with the block has counted all there is
            cases hself with
            | accepted _ hqueue => simp at hqueue
            | prepared _ _ hsome | committing _ _ hsome | committed _ hsome =>
                simp [hprepare] at hsome
            | preparing hproposed _ _ hcommit hkeys _ hcounted =>
                refine ht.prepareCheck h.configured hblock hprepare hcommit halike
                  (by simp [hidle, Alone]) (proposed_concat.mpr (.inl hproposed)) ?_
                  (hcommitsFor ▸ hcounted) hcheck
                rw [Map.keys_insert, preparers, preparesFor_concat_self, voters_concat,
                  if_pos hdigest, Finset.insert_comm]
                exact congrArg _ hkeys
          · simp only [hdigest, not_false_eq_true, if_true] at hcall
            obtain rfl := Except.ok.inj hcall
            refine ht.put halike ?_
            rw [hblock, hidle]
            refine hself.keep (fun _ => ?_) fun _ => by rw [hcommitsFor]
            rw [preparesFor_concat_self, voters_concat, if_neg hdigest]

/-- A Commit for the digest of an uncommitted block is counted. -/
theorem Tallied.countCommit (ht : Tallied config messages replica)
    (h : Coherent config performed replica) {log : List Command} (hready : replica.Ready log)
    (hidle : replica.coreActions = []) {vote : Vote crypto} (hpos : 1 ≤ vote.blockNum)
    {block : Block crypto} (hblock : replica.core.blocks[vote.blockNum]? = some block)
    (hcommit : block.commitQuorum = none) (hdigest : vote.digest = block.digest)
    {scratch' : BlockScratch crypto} {core' : ReplicaCore crypto}
    {queued : ReplicaCoreActions crypto}
    (hcheck : checkCommitQuorum vote.blockNum { replica.scratchAt vote.blockNum with
      commitQuorum := (replica.scratchAt vote.blockNum).commitQuorum.insert vote.replicaId
        vote.sig } replica.core = .ok (scratch', core', queued)) :
    Tallied config (messages ++ [.commit vote]) { replica with
      core := core'
      coreActions := queued
      blockScratches := replica.blockScratches.insert vote.blockNum scratch' } := by
  have halike := @alike_others _ messages (.commit vote) vote.blockNum rfl
  have hself := ht.tally vote.blockNum
  rw [hblock, hidle] at hself
  have hpreparesFor : preparesFor vote.blockNum (messages ++ [.commit vote]) =
      preparesFor vote.blockNum messages := preparesFor_concat (by simp)
  have hprepared : replica.core.isPrepared vote.blockNum = block.prepareQuorum.isSome := by
    rw [h.isPrepared_eq hpos, hblock, Option.any_some]
  have hvoters : voters block.digest (commitsFor vote.blockNum (messages ++ [.commit vote])) =
      insert vote.replicaId (voters block.digest (commitsFor vote.blockNum messages)) := by
    rw [commitsFor_concat_self, voters_concat, if_pos hdigest]
  have hpreparers : preparers config (messages ++ [.commit vote]) vote.blockNum block.digest =
      preparers config messages vote.blockNum block.digest := by
    rw [preparers, hpreparesFor, preparers]
  cases hself with
  | accepted _ hqueue => simp at hqueue
  | prepared _ hqueue => simp at hqueue
  | committed _ _ hsome => simp [hcommit] at hsome
  | preparing hproposed hqueue hprepare _ hkeys hfew hcounted =>
      -- without a prepare quorum nothing is checked
      rcases checkCommitQuorum_ok hready hblock hcommit hprepared hcheck with
        ⟨-, rfl, rfl, rfl⟩ | ⟨hsome, -⟩
      · have hcount : Tally config (messages ++ [.commit vote]) replica.coreActions
            vote.blockNum { replica.scratchAt vote.blockNum with
              commitQuorum := (replica.scratchAt vote.blockNum).commitQuorum.insert
                vote.replicaId vote.sig } replica.core.blocks[vote.blockNum]? := by
          rw [hblock, hidle]
          refine .preparing (proposed_concat.mpr (.inl hproposed)) rfl hprepare hcommit
            (hpreparers ▸ hkeys) (hpreparers ▸ hfew) ?_
          rw [Map.keys_insert, hvoters, hcounted]
        have hput := ht.put halike hcount
        rw [hidle] at hput
        exact hput
      · simp [hprepare] at hsome
  | committing hproposed hqueue hprepare _ henough hkeys =>
      refine ht.commitCheck h.configured hready hblock hprepared hprepare hcommit
        halike (by simp [hidle, Alone]) (proposed_concat.mpr (.inl hproposed))
        (hpreparers ▸ henough) ?_ hcheck
      rw [Map.keys_insert, committers, hvoters, Finset.insert_comm]
      exact congrArg _ hkeys

theorem Tallied.receiveCommit (ht : Tallied config messages replica)
    (h : Coherent config performed replica) {log : List Command} (hready : replica.Ready log)
    (hidle : replica.coreActions = []) {vote : Vote crypto} (hpass : PassesVote config vote)
    (hcall : replica.receiveCommit vote = .ok next) :
    Tallied config (messages ++ [.commit vote]) next := by
  obtain ⟨hview, hpos, hid, hverify⟩ := hpass
  have halike := @alike_others _ messages (.commit vote) vote.blockNum rfl
  have hself := ht.tally vote.blockNum
  have hpreparesFor : preparesFor vote.blockNum (messages ++ [.commit vote]) =
      preparesFor vote.blockNum messages := preparesFor_concat (by simp)
  unfold Replica.receiveCommit at hcall
  rw [h.view, hview, h.isCommitted_eq hpos, h.verify_eq hid hverify] at hcall
  simp only [ne_eq, not_true_eq_false, decide_false, Bool.false_or, ok_bind, if_true] at hcall
  cases hblock : replica.core.blocks[vote.blockNum]? with
  | none =>
      simp only [hblock, Option.any_none, Bool.false_eq_true, if_false] at hcall
      obtain rfl := Except.ok.inj hcall
      rw [hblock] at hself
      cases hself with
      | missing hnew hbuffered =>
          refine ht.put halike (hblock ▸ .missing ?_ ⟨?_, hbuffered.prepareQuorum, ?_,
            hbuffered.commitQuorum⟩)
          · intro commands hproposed
            rcases proposed_concat.mp hproposed with hold | ⟨_, hcommit, -⟩
            · exact hnew commands hold
            · cases hcommit
          · rw [hpreparesFor]
            exact hbuffered.prepareVotes
          · rw [commitsFor_concat_self, ← hbuffered.commitVotes]
            rfl
  | some block =>
      rw [hblock, hidle] at hself
      cases hcommit : block.commitQuorum with
      | some quorum =>
          simp only [hblock, Option.any_some, hcommit, Option.isSome_some, if_true] at hcall
          obtain rfl := Except.ok.inj hcall
          refine ht.update ⟨by simp, by simp, by simp, by simp⟩ halike ?_ ht.settled
          rw [hblock, hidle]
          exact hself.keep (fun _ => by rw [hpreparesFor]) (by simp [hcommit])
      | none =>
          simp only [hblock, Option.any_some, hcommit, Option.isSome_none, Bool.false_eq_true,
            if_false] at hcall
          by_cases hdigest : vote.digest = block.digest
          · simp only [hdigest, not_true_eq_false, if_false, bind_eq_ok, hidle,
              List.nil_append] at hcall
            obtain ⟨⟨scratch', core', actions⟩, hcheck, hnext⟩ := hcall
            obtain rfl := Except.ok.inj hnext
            exact ht.countCommit h hready hidle hpos hblock hcommit hdigest hcheck
          · simp only [hdigest, not_false_eq_true, if_true] at hcall
            obtain rfl := Except.ok.inj hcall
            refine ht.put halike ?_
            rw [hblock, hidle]
            refine hself.keep (fun _ => by rw [hpreparesFor]) fun _ => ?_
            rw [commitsFor_concat_self, voters_concat, if_neg hdigest]

/-- What is merged when a block is prepared is what has been delivered for it. -/
theorem Tallied.merged_keys (ht : Tallied config messages replica)
    (h : Coherent config performed replica) {blockNum : Nat} {digest : Digest}
    (hqueue : replica.coreActions = [.prepare blockNum digest]) :
    (replica.mergedPrepares blockNum digest).keys = preparers config messages blockNum digest := by
  obtain ⟨block, hblock, rfl, hprepare⟩ := h.enabled hqueue
  have hself := ht.tally blockNum
  rw [hblock, hqueue] at hself
  cases hself with
  | preparing _ hnot => simp at hnot
  | prepared _ _ hsome | committing _ _ hsome | committed _ hsome => simp [hprepare] at hsome
  | accepted _ _ _ _ hbuffered =>
      ext id
      rw [mergedPrepares, Map.keys_insert, Finset.mem_insert, Map.mem_keys_extend_iff,
        hbuffered.prepareQuorum, hbuffered.prepareVotes, h.configured, preparers,
        Finset.mem_insert, voters, List.mem_toFinset]
      simp

/-- Performing Prepare counts the votes that have come before the block. -/
theorem Tallied.performPrepare (ht : Tallied config messages replica)
    (h : Coherent config performed replica) {blockNum : Nat} {digest : Digest}
    (hqueue : replica.coreActions = [.prepare blockNum digest])
    (hperform : Replica.performPrepare { replica with coreActions := [] } blockNum digest =
      .ok (next, actions)) :
    Tallied config messages next := by
  obtain ⟨block, hblock, rfl, hprepare⟩ := h.enabled hqueue
  have hself := ht.tally blockNum
  rw [hblock, hqueue] at hself
  cases hself with
  | preparing _ hnot => simp at hnot
  | prepared _ _ hsome | committing _ _ hsome | committed _ hsome => simp [hprepare] at hsome
  | accepted hproposed _ _ hcommit hbuffered =>
      have hat : replica.blockScratches.getD blockNum default = replica.scratchAt blockNum := rfl
      simp only [Replica.performPrepare, bind_eq_ok, hat, List.nil_append] at hperform
      obtain ⟨⟨scratch', core', actions'⟩, hcheck, hnext⟩ := hperform
      obtain ⟨rfl, -⟩ := Prod.mk.inj (Except.ok.inj hnext)
      refine ht.prepareCheck h.configured hblock hprepare hcommit (fun _ _ => .refl _ _) ?_ hproposed
        ?_ ?_ hcheck
      · intro other hne
        simp [hqueue, hne]
      · exact ht.merged_keys h hqueue
      · ext id
        rw [Map.mem_keys_extend_iff, hbuffered.commitQuorum, hbuffered.commitVotes, voters,
          List.mem_toFinset]
        simp

theorem Tallied.performCommit (ht : Tallied config messages replica)
    (h : Coherent config performed replica) {log : List Command} (hready : replica.Ready log)
    {blockNum : Nat} (hpos : ∀ block, replica.core.blocks[blockNum]? = some block → 1 ≤ blockNum)
    (hqueue : replica.coreActions = [.commit blockNum])
    (hperform : Replica.performCommit { replica with coreActions := [] } blockNum =
      .ok (next, actions)) :
    Tallied config messages next := by
  obtain ⟨hscratch, block, hblock, hprepare, hcommit⟩ := h.enabled hqueue
  obtain ⟨scratch, hget⟩ :=
    Option.isSome_iff_exists.mp (Std.ExtTreeMap.mem_iff_isSome_getElem?.mp hscratch)
  have hat : replica.scratchAt blockNum = scratch := by
    rw [scratchAt, Std.ExtTreeMap.getD_eq_getD_getElem?, hget, Option.getD_some]
  have hself := ht.tally blockNum
  rw [hblock, hqueue, hat] at hself
  cases hself with
  | accepted _ hnot => simp at hnot
  | preparing _ _ hnone => simp [hnone] at hprepare
  | committing _ hnot => simp at hnot
  | committed _ _ hsome => simp [hcommit] at hsome
  | prepared hproposed _ _ _ henough hcounted =>
      simp only [Replica.performCommit, hget, hblock, bind_eq_ok, List.nil_append] at hperform
      obtain ⟨⟨scratch', core', actions'⟩, hcheck, hnext⟩ := hperform
      obtain ⟨rfl, -⟩ := Prod.mk.inj (Except.ok.inj hnext)
      have hprepared : replica.core.isPrepared blockNum = block.prepareQuorum.isSome := by
        rw [h.isPrepared_eq (hpos block hblock), hblock, Option.any_some]
      refine ht.commitCheck h.configured hready hblock hprepared hprepare hcommit
        (fun _ _ => .refl _ _) ?_ hproposed henough ?_ hcheck
      · intro other hne
        simp [hqueue, hne]
      · have hid : (Replica.signVote { replica with coreActions := [] } blockNum
            block.digest).replicaId = config.id := congrArg ReplicaCoreConfig.id h.configured
        rw [Map.keys_insert, hid, hcounted, committers]

/-- What is finalized is committed, so its scratch is not needed any more. -/
theorem Tallied.performFinalize (ht : Tallied config messages replica)
    (h : Coherent config performed replica) {blockNum : Nat} {rest : ReplicaCoreActions crypto}
    (hqueue : replica.coreActions = .finalize blockNum :: rest)
    (hperform : Replica.performFinalize { replica with coreActions := rest } blockNum =
      .ok (next, actions)) :
    Tallied config messages next := by
  obtain ⟨rfl, hnext⟩ := h.finalize hqueue
  have hle := hnext.done_le
  rw [finalizeNums_concat, List.length_append] at hle
  obtain ⟨block, hblock, hcommitted⟩ :=
    h.committed ((finalizeNums performed).length + 1) (by omega) hle
  have hself := ht.tally ((finalizeNums performed).length + 1)
  unfold Replica.performFinalize at hperform
  split at hperform
  · cases hperform
  · rw [hblock] at hperform hself
    obtain ⟨rfl, -⟩ := Prod.mk.inj (Except.ok.inj hperform)
    have helse : Elsewhere ((finalizeNums performed).length + 1) replica { replica with
        coreActions := rest
        blockScratches :=
          replica.blockScratches.erase ((finalizeNums performed).length + 1) } := by
      refine ⟨fun other hne => ?_, fun _ _ => rfl, fun other hne => by simp [hqueue],
        fun other hne => by simp [hqueue]⟩
      simp [scratchAt, Std.ExtTreeMap.getD_erase, hne]
    refine ht.update helse (fun _ _ => .refl _ _) ?_ ht.settled
    · dsimp only
      rw [hblock]
      cases hself with
      | accepted _ _ _ hnone | preparing _ _ _ hnone | prepared _ _ _ hnone
      | committing _ _ _ hnone => simp [hnone] at hcommitted
      | committed hproposed hprepare hcommit henough hquorum =>
          exact .committed hproposed hprepare hcommit henough hquorum

end

/-! ## Steps and runs -/

theorem Tallied.step (ht : Tallied config (delivered history) replica)
    (h : Coherent config (performedIn history) replica)
    (hbackup : config.spec.primary 0 ≠ config.id)
    (hpass : ∀ message ∈ delivered (history ++ [event]), Passes config message)
    (hstep : Step replica event next) : Tallied config (delivered (history ++ [event])) next := by
  have hprimary := coherent_backup hbackup h
  obtain ⟨lists, hlists, hissued, -⟩ := h.queue
  have hready := h.ready hissued
  rw [delivered_concat] at hpass ⊢
  have hpos : ∀ blockNum block, replica.core.blocks[blockNum]? = some block → 1 ≤ blockNum := by
    intro blockNum block hblock
    have hself := ht.tally blockNum
    rw [hblock] at hself
    obtain ⟨sent, hmem, rfl⟩ := hself.proposed
    exact (hpass _ (List.mem_append_left _ hmem)).2.1
  cases hstep with
  | @call call next actions hidle hcall =>
      -- requests come from clients and from other replicas
      have hrequest : ∀ command, replica.receiveMessage (.request command) = .ok (next, actions) →
          ∀ messages', (∀ blockNum, Alike blockNum (delivered history) messages') →
          Tallied config messages' next := by
        intro command hcall messages' halike
        obtain ⟨pool, lists, hhandle, -, -, hlists⟩ :=
          ReplicaCore.handle_request hready.pool hready.closeLoop hready.window command
        obtain rfl := hlists hprimary
        simp only [receiveMessage, handle, hhandle, ok_bind, hprimary] at hcall
        obtain ⟨rfl, -⟩ := Prod.mk.inj (Except.ok.inj hcall)
        exact ht.still halike rfl rfl rfl fun blockNum => by simp
      cases call with
      | request command =>
          simp only [Event.delivered?, Option.toList_none, List.append_nil]
          exact hrequest command hcall _ fun _ => .refl _ _
      | tick =>
          simp only [Event.delivered?, Option.toList_none, List.append_nil]
          have hbackup' : ReplicaCore.isPrimary replica.core = false := hprimary
          simp only [Replica.call, tick, hbackup', Bool.not_false, if_true] at hcall
          obtain ⟨rfl, -⟩ := Prod.mk.inj (Except.ok.inj hcall)
          exact ht.still (fun _ => .refl _ _) rfl rfl rfl fun _ => ⟨rfl, rfl⟩
      | receive message =>
          simp only [Event.delivered?, Option.toList_some] at hpass ⊢
          have hmessage := hpass message (by simp)
          cases message with
          | request command =>
              exact hrequest command hcall _ fun _ => .concat (by simp [ToReplica.blockNum?])
          | prePrepare sent commands => exact ht.prePrepare h hidle hprimary hmessage hcall
          | prepare vote =>
              simp only [Replica.call, receiveMessage, bind_eq_ok] at hcall
              obtain ⟨next', hreceive, heq⟩ := hcall
              obtain ⟨rfl, -⟩ := Prod.mk.inj (Except.ok.inj heq)
              exact ht.receivePrepare h hidle hmessage hreceive
          | commit vote =>
              simp only [Replica.call, receiveMessage, bind_eq_ok] at hcall
              obtain ⟨next', hreceive, heq⟩ := hcall
              obtain ⟨rfl, -⟩ := Prod.mk.inj (Except.ok.inj heq)
              exact ht.receiveCommit h hready hidle hmessage hreceive
  | @perform action rest next actions hqueue hperform =>
      simp only [Event.delivered?, Option.toList_none, List.append_nil]
      have henabled := h.enabled hqueue
      cases action with
      | propose blockNum commands => simp [Enabled, hprimary] at henabled
      | prepare blockNum digest =>
          obtain ⟨rfl, -⟩ := hlists.solo_head hqueue trivial
          exact ht.performPrepare h hqueue hperform
      | commit blockNum =>
          obtain ⟨rfl, -⟩ := hlists.solo_head hqueue trivial
          exact ht.performCommit h hready (hpos blockNum) hqueue hperform
      | finalize blockNum => exact ht.performFinalize h hqueue hperform
      | forward replicaId command =>
          obtain ⟨rfl, -⟩ := Prod.mk.inj (Except.ok.inj hperform)
          exact ht.still (fun _ => .refl _ _) rfl rfl rfl fun _ => by simp [hqueue]
      | viewChange _ _ | newView _ _ _ | enterView => exact absurd henabled id

theorem Tallied.of_new (hnew : Replica.new crypto config = .ok replica) :
    Tallied config [] replica := by
  simp only [Replica.new, bind_eq_ok] at hnew
  obtain ⟨cryptoConfig, -, hreplica⟩ := hnew
  obtain rfl := Except.ok.inj hreplica
  refine ⟨fun blockNum => ?_, by simp [ReplicaCore.Settled, ReplicaCore.new]⟩
  have hscratch : scratchAt ⟨ReplicaCore.new config, [], cryptoConfig, ∅, 0⟩ blockNum = default := by
    simp [scratchAt]
  have hblock : (ReplicaCore.new config : ReplicaCore crypto).blocks[blockNum]? = none := by
    simp [ReplicaCore.new]
  rw [hscratch, hblock]
  exact .missing (by simp [Proposed]) ⟨rfl, rfl, rfl, rfl⟩

/-- In every run of a backup whose messages pass, all are accounted for. -/
theorem FreeRun.tallied (hbackup : config.spec.primary 0 ≠ config.id)
    (hrun : FreeRun config history replica)
    (hpass : ∀ message ∈ delivered history, Passes config message) :
    Tallied config (delivered history) replica := by
  induction hrun with
  | start hnew => exact .of_new hnew
  | @step history replica event next hprev hstep ih =>
      refine Tallied.step (ih fun message hmem => hpass message ?_)
        (FreeRun.accountable hbackup hprev).coherent hbackup hpass hstep
      rw [delivered_concat]
      exact List.mem_append_left _ hmem

end Replica

end BftKit.Pbft
