import BftKit.Pbft.Receive
import BftKit.Pbft.Replay
import BftKit.Pbft.Steady

/-! # Which messages bring a replica down

`receive` takes in a message and then works off what the core has queued. Whatever a replica
has been shown before, its state and the message say exactly whether `receive` returns.
Nothing is assumed of signatures: a primary may be shown PrePrepares under its own key that it
has not signed. Such a block is not among the ones it has counted as proposed, and once it is
committed the primary may finalize more blocks than it has proposed.
-/

namespace BftKit.Pbft

open Foundation

variable {crypto : Crypto}

namespace Replica

variable {config : ReplicaCoreConfig} {history : List (Event crypto)}
  {replica next : Replica crypto} {message : ToReplica crypto}
  {action : ReplicaCoreAction crypto} {rest : ReplicaCoreActions crypto}
  {blockNum : Nat} {block : Block crypto} {scratch : BlockScratch crypto}

/-! ## What is checked -/

/-- `receive`, for at most the given number of core actions. -/
def receive (fuel : Nat) (replica : Replica crypto) (message : ToReplica crypto) :
    Except Panic (Replica crypto × List (Event crypto)) := do
  let (next, actions) ← replica.receiveMessage message
  let (final, events) ← next.drain fuel
  .ok (final, .call (.receive message) actions :: events)

/-- The loop of `receive` comes to its end. -/
def Returns (replica : Replica crypto) (message : ToReplica crypto) : Prop :=
  ∃ fuel final events, replica.receive fuel message = .ok (final, events) ∧ final.coreActions = []

/-- A PrePrepare is new and passes its checks. -/
structure Accepts (replica : Replica crypto) (prePrepare : PrePrepare crypto)
    (commands : List Command) : Prop where
  admits : replica.Admits prePrepare prePrepare.viewNum
    (replica.core.config.spec.primary prePrepare.viewNum) prePrepare.sig
  new : replica.core.blocks[prePrepare.blockNum]? = none
  digest : prePrepare.digest = blockDigest crypto commands

/-- A vote passes its checks and is for the stored block. -/
def Counts (replica : Replica crypto) (vote : Vote crypto) : Prop :=
  replica.Admits vote vote.viewNum vote.replicaId vote.sig ∧
    ∃ block, replica.core.blocks[vote.blockNum]? = some block ∧ vote.digest = block.digest

/-- The replicas whose Prepares for a digest are recorded, with the replica itself. -/
def preparersOf (replica : Replica crypto) (blockNum : Nat) (digest : Digest) : Finset Nat :=
  insert replica.core.config.id ((replica.scratchAt blockNum).prepareQuorum.keys ∪
    ((matchingVotes digest (replica.scratchAt blockNum).prepareVotes).map Prod.fst).toFinset)

/-- The size of a quorum is negative, or 16 bits do not count so many replicas and the primary. -/
def Uncountable (spec : Spec) (ids : Finset Nat) : Prop :=
  spec.numReplica < spec.numFaulty ∨ 2 ^ 16 ≤ ids.card + 1

/-- With the Commit of one more replica a block is committed, and the primary goes on to
finalize more blocks than it has proposed. -/
def Overcommits (replica : Replica crypto) (blockNum id : Nat) : Prop :=
  replica.core.config.spec.numReplica ≤
      (insert id (replica.scratchAt blockNum).commitQuorum.keys).card +
        replica.core.config.spec.numFaulty ∧
    replica.core.Outruns blockNum

/-- The messages that bring a replica down: votes whose id has no public key, where the key is
looked up; what makes the replica count Prepares that it cannot count; and the last vote for a
block with which the primary overtakes its own proposals. -/
def Crashes (replica : Replica crypto) : ToReplica crypto → Prop
  | .request _ => False
  | .prePrepare prePrepare commands => replica.Accepts prePrepare commands ∧
      replica.core.isPrimary = false ∧
      Uncountable replica.core.config.spec
        (replica.preparersOf prePrepare.blockNum prePrepare.digest)
  | .prepare vote => vote.viewNum = replica.core.viewNum ∧
      replica.core.isPrepared vote.blockNum = false ∧
      (replica.core.config.spec.numReplica ≤ vote.replicaId ∨ replica.Counts vote ∧
        let ids := insert vote.replicaId (replica.scratchAt vote.blockNum).prepareQuorum.keys
        (Uncountable replica.core.config.spec ids ∨
          replica.core.config.spec.numReplica ≤
              ids.card + 1 + replica.core.config.spec.numFaulty ∧
            replica.Overcommits vote.blockNum replica.core.config.id))
  | .commit vote => vote.viewNum = replica.core.viewNum ∧
      replica.core.isCommitted vote.blockNum = false ∧
      (replica.core.config.spec.numReplica ≤ vote.replicaId ∨ replica.Counts vote ∧
        replica.core.isPrepared vote.blockNum = true ∧
        (replica.core.config.spec.numReplica < replica.core.config.spec.numFaulty ∨
          replica.Overcommits vote.blockNum vote.replicaId))

theorem returns_iff : replica.Returns message ↔
    ∃ next actions, replica.receiveMessage message = .ok (next, actions) ∧ next.Drains := by
  constructor
  · rintro ⟨fuel, final, events, hreceive, hidle⟩
    simp only [receive, bind_eq_ok] at hreceive
    obtain ⟨⟨next, actions⟩, hcall, ⟨last, more⟩, hdrain, heq⟩ := hreceive
    obtain ⟨rfl, -⟩ := Prod.mk.inj (Except.ok.inj heq)
    exact ⟨next, actions, hcall, fuel, last, more, hdrain, hidle⟩
  · rintro ⟨next, actions, hcall, fuel, final, events, hdrain, hidle⟩
    exact ⟨fuel, final, .call (.receive message) actions :: events,
      by simp only [receive, hcall, ok_bind, hdrain], hidle⟩

theorem returns_iff_drains {actions : List (Action crypto)}
    (hcall : replica.receiveMessage message = .ok (next, actions)) :
    replica.Returns message ↔ next.Drains := by
  rw [returns_iff]
  constructor
  · rintro ⟨other, actions', hother, hdrains⟩
    obtain ⟨rfl, -⟩ := Prod.mk.inj (Except.ok.inj (hcall.symm.trans hother))
    exact hdrains
  · exact fun hdrains => ⟨next, actions, hcall, hdrains⟩

/-- A message that is not counted leaves nothing to perform. -/
theorem returns_of_idle {actions : List (Action crypto)}
    (hcall : replica.receiveMessage message = .ok (next, actions))
    (hidle : next.coreActions = []) : replica.Returns message :=
  (returns_iff_drains hcall).mpr (drains_nil hidle)

theorem not_returns_of_error {panic : Panic}
    (hcall : replica.receiveMessage message = .error panic) : ¬replica.Returns message := by
  rw [returns_iff, hcall]
  rintro ⟨_, _, heq, -⟩
  cases heq

theorem mergedPrepares_keys (blockNum : Nat) (digest : Digest) :
    (replica.mergedPrepares blockNum digest).keys = replica.preparersOf blockNum digest := by
  rw [mergedPrepares, Map.keys_insert, preparersOf]
  congr 1
  ext id
  rw [Map.mem_keys_extend_iff, Finset.mem_union, List.mem_toFinset, or_comm]

/-! ## The quorum checks -/

theorem checkPrepareQuorum_error
    (h : Uncountable replica.core.config.spec scratch.prepareQuorum.keys) :
    ∃ panic, checkPrepareQuorum blockNum scratch replica.core = .error panic := by
  unfold checkPrepareQuorum withPrimary Spec.quorumSize
  by_cases hroom : scratch.prepareQuorum.size + 1 < 2 ^ 16
  · have hlt := h.resolve_right (not_le.mpr hroom)
    rw [if_pos hroom, ok_bind, if_neg (not_le.mpr hlt)]
    exact ⟨_, rfl⟩
  · rw [if_neg hroom]
    exact ⟨_, rfl⟩

theorem checkPrepareQuorum_countable (hblock : replica.core.blocks[blockNum]? = some block)
    (hnone : block.prepareQuorum = none)
    (h : ¬Uncountable replica.core.config.spec scratch.prepareQuorum.keys) :
    checkPrepareQuorum blockNum scratch replica.core =
      if replica.core.config.spec.numReplica ≤
          scratch.prepareQuorum.keys.card + 1 + replica.core.config.spec.numFaulty then
        .ok ({ scratch with prepareQuorum := ∅ },
          { replica.core with
            blocks := replica.core.blocks.insert blockNum
              { block with prepareQuorum := some scratch.prepareQuorum } },
          [.commit blockNum])
      else .ok (scratch, replica.core, []) := by
  obtain ⟨hfaulty, hcrowded⟩ := not_or.mp h
  have hroom : scratch.prepareQuorum.size + 1 < 2 ^ 16 := not_le.mp hcrowded
  unfold checkPrepareQuorum withPrimary Spec.quorumSize
  rw [if_pos hroom, ok_bind, if_pos (not_lt.mp hfaulty), ok_bind,
    ReplicaCore.handle_prepareQuorum hblock hnone, ok_bind]
  simp only [Nat.sub_le_iff_le_add, Map.size]

/-- What the check of the Commits fails on. -/
def CommitFails (core : ReplicaCore crypto) (blockNum : Nat) (scratch : BlockScratch crypto) :
    Prop :=
  core.isPrepared blockNum = true ∧ (core.config.spec.numReplica < core.config.spec.numFaulty ∨
    core.config.spec.numReplica ≤ scratch.commitQuorum.size + core.config.spec.numFaulty ∧
      core.Outruns blockNum)

theorem Steady.checkCommitQuorum_iff (h : Steady config replica)
    (hblock : replica.core.blocks[blockNum]? = some block)
    (hopen : replica.core.isPrepared blockNum = true →
      block.prepareQuorum.isSome ∧ block.commitQuorum = none) :
    (∃ result, checkCommitQuorum blockNum scratch replica.core = .ok result) ↔
      ¬CommitFails replica.core blockNum scratch := by
  unfold checkCommitQuorum Spec.quorumSize CommitFails
  by_cases hprepared : replica.core.isPrepared blockNum = true
  · obtain ⟨hsome, hnone⟩ := hopen hprepared
    obtain ⟨log, hissued⟩ := h.issued
    by_cases hfaulty : replica.core.config.spec.numFaulty ≤ replica.core.config.spec.numReplica
    · by_cases hquorum : replica.core.config.spec.numReplica ≤
          scratch.commitQuorum.size + replica.core.config.spec.numFaulty
      · simp only [hprepared, hfaulty, hquorum, if_true, ok_bind, Nat.sub_le_iff_le_add,
          not_lt.mpr hfaulty, false_or, true_and]
        rcases ReplicaCore.handle_commitQuorum_or hblock hsome hnone scratch.commitQuorum hissued
            h.closeLoop with ⟨_, _, _, hhandle, -, -, -, -, -, hnot⟩ | ⟨hhandle, hruns⟩
        · simp [hhandle, hnot]
        · simp [hhandle, hruns]
      · simp [hprepared, hfaulty, hquorum, not_lt.mpr hfaulty]
    · simp [hprepared, hfaulty, not_le.mp hfaulty]
  · simp [hprepared]

/-! ## The loop -/

theorem Steady.perform_flat (h : Steady config replica)
    (hqueue : replica.coreActions = action :: rest) (hflat : Flat action) :
    ∃ next actions, perform { replica with coreActions := rest } action = .ok (next, actions) ∧
      next.coreActions = rest := by
  cases action with
  | propose blockNum commands =>
      obtain ⟨hprimary, -⟩ := h.popPropose hqueue
      have hprimary' : ReplicaCore.isPrimary replica.core = true := hprimary
      by_cases hmem : blockNum ∈ replica.core.blocks
      · simp only [perform, performPropose, handle, ReplicaCore.handle, hmem, if_true, ok_bind,
          List.append_nil]
        exact ⟨_, _, rfl, rfl⟩
      · simp only [perform, performPropose, handle,
          ReplicaCore.handle_proposal (Std.ExtTreeMap.getElem?_eq_none hmem), ok_bind,
          hprimary', if_true, List.append_nil]
        exact ⟨_, _, rfl, rfl⟩
  | finalize blockNum =>
      obtain ⟨hscratch, ⟨block, hblock⟩, -⟩ := h.popFinalize hqueue
      simp only [perform, performFinalize, hscratch, not_true_eq_false, if_false, hblock]
      exact ⟨_, _, rfl, rfl⟩
  | forward replicaId command => exact ⟨_, _, rfl, rfl⟩
  | prepare _ _ | commit _ | viewChange _ _ | newView _ _ _ | enterView => exact absurd hflat id

theorem Steady.drains_flat (h : Steady config replica)
    (hflat : ∀ action ∈ replica.coreActions, Flat action) : replica.Drains := by
  induction hqueue : replica.coreActions generalizing replica with
  | nil => exact drains_nil hqueue
  | cons action rest ih =>
      obtain ⟨next, actions, hperform, hrest⟩ :=
        h.perform_flat hqueue (hflat action (by simp [hqueue]))
      refine Drains.of_perform hqueue hperform (ih (h.step (.perform hqueue hperform)) ?_ hrest)
      intro other hmem
      rw [hrest] at hmem
      exact hflat other (by simp [hqueue, hmem])

/-- A queued Commit is performed unless it makes the replica overcommit. -/
theorem Steady.drains_commit (h : Steady config replica)
    (hqueue : replica.coreActions = [.commit blockNum]) :
    replica.Drains ↔ ¬(replica.core.config.spec.numReplica < replica.core.config.spec.numFaulty ∨
      replica.Overcommits blockNum replica.core.config.id) := by
  obtain ⟨-, ⟨hmem, block, hblock, hsome, hnone⟩, hpop⟩ := h.pop hqueue trivial
  obtain ⟨scratch, hscratch⟩ :=
    Option.isSome_iff_exists.mp (Std.ExtTreeMap.mem_iff_isSome_getElem?.mp hmem)
  have hat : replica.scratchAt blockNum = scratch := by
    rw [scratchAt, Std.ExtTreeMap.getD_eq_getD_getElem?, hscratch, Option.getD_some]
  set scratch' := { scratch with
    commitQuorum := scratch.commitQuorum.insert replica.core.config.id
      (replica.signVote blockNum block.digest).sig } with hscratch'
  have hcheck := @Steady.checkCommitQuorum_iff _ config _ blockNum block scratch' hpop hblock
    fun _ => ⟨hsome, hnone⟩
  have hfails : CommitFails replica.core blockNum scratch' ↔
      replica.core.config.spec.numReplica < replica.core.config.spec.numFaulty ∨
        replica.Overcommits blockNum replica.core.config.id := by
    rw [CommitFails, Overcommits, hat, hscratch', Map.size, Map.keys_insert]
    exact and_iff_right (isPrepared_of_isSome hblock hsome)
  rw [drains_cons hqueue, ← hfails, ← hcheck]
  constructor
  · rintro ⟨next, actions, hperform, -⟩
    simp only [perform, performCommit, hscratch, hblock, bind_eq_ok] at hperform
    obtain ⟨result, hresult, -⟩ := hperform
    exact ⟨result, hresult⟩
  · rintro ⟨⟨last, core, queued⟩, hresult⟩
    have hperform : perform { replica with coreActions := [] } (.commit blockNum) =
        .ok ({ replica with
          core
          coreActions := [] ++ queued
          blockScratches := replica.blockScratches.insert blockNum last },
          [.sendToAllReplicas (.commit (replica.signVote blockNum block.digest))]) := by
      simp only [perform, performCommit, hscratch, hblock]
      erw [hresult]
      rfl
    refine ⟨_, _, hperform, (h.step (.perform hqueue hperform)).drains_flat ?_⟩
    have houtcome := @checkCommitQuorum_outcome _ { replica with coreActions := [] } _ _ _ _ _
      hresult
    refine (hpop.commitOutcome rfl (fun _ other hother => ?_) houtcome).2
    exact Option.some.inj (hblock.symm.trans hother) ▸ hsome

/-- A backup performs a queued Prepare unless it cannot count the Prepares. -/
theorem Steady.drains_prepare (h : Steady config replica)
    (hbackup : replica.core.isPrimary = false) {digest : Digest}
    (hqueue : replica.coreActions = [.prepare blockNum digest]) :
    replica.Drains ↔
      ¬Uncountable replica.core.config.spec (replica.preparersOf blockNum digest) := by
  obtain ⟨-, ⟨block, hblock, -, hnone⟩, hpop⟩ := h.pop hqueue trivial
  set scratch : BlockScratch crypto := {
    prepareVotes := []
    prepareQuorum := replica.mergedPrepares blockNum digest
    commitVotes := []
    commitQuorum := Map.extend (replica.scratchAt blockNum).commitQuorum
      (matchingVotes digest (replica.scratchAt blockNum).commitVotes) } with hscratch
  rw [drains_cons hqueue, ← mergedPrepares_keys]
  constructor
  · rintro ⟨next, actions, hperform, -⟩ huncountable
    obtain ⟨panic, hcheck⟩ := @checkPrepareQuorum_error _ { replica with coreActions := [] }
      blockNum scratch huncountable
    simp only [perform, performPrepare, bind_eq_ok] at hperform
    obtain ⟨result, hresult, -⟩ := hperform
    have := hresult.symm.trans hcheck
    cases this
  · intro hcountable
    have hcheck := @checkPrepareQuorum_countable _ { replica with coreActions := [] } blockNum block
      scratch hblock hnone hcountable
    have hperform : ∀ last core queued,
        checkPrepareQuorum blockNum scratch replica.core = .ok (last, core, queued) →
        perform { replica with coreActions := [] } (.prepare blockNum digest) = .ok
          ({ replica with
            core
            coreActions := [] ++ queued
            blockScratches := replica.blockScratches.insert blockNum last },
            [.sendToAllReplicas (.prepare (replica.signVote blockNum digest))]) := by
      intro last core queued hresult
      simp only [perform, performPrepare]
      erw [hresult]
      rfl
    split at hcheck
    · have hprepared := hperform _ _ _ hcheck
      refine ⟨_, _, hprepared, ((h.step (.perform hqueue hprepared)).drains_commit rfl).mpr ?_⟩
      refine not_or.mpr ⟨(not_or.mp hcountable).1, fun hover => ?_⟩
      exact absurd hover.2 (ReplicaCore.not_outruns hbackup)
    · exact ⟨_, _, hperform _ _ _ hcheck, drains_nil rfl⟩

/-! ## The call before the loop -/

theorem Steady.received (h : Steady config replica) (hidle : replica.coreActions = [])
    {actions : List (Action crypto)}
    (hcall : replica.receiveMessage message = .ok (next, actions)) : Steady config next := by
  have hstep : Step replica (.call (.receive message) actions) next := .call hidle hcall
  exact h.step hstep

theorem Steady.verify_or (h : Steady config replica) {Value : Type} [UpdateHash Value]
    (value : Value) (id : Nat) (sig : crypto.Sig) :
    replica.core.config.spec.numReplica ≤ id ∧
        (∃ panic, replica.verify value id sig = .error panic) ∨
      id < replica.core.config.spec.numReplica ∧
        ∃ verified, replica.verify value id sig = .ok verified := by
  rcases Nat.lt_or_ge id replica.core.config.spec.numReplica with hlt | hge
  · exact .inr ⟨hlt, verify_ok value sig (h.keys_length.symm ▸ hlt)⟩
  · exact .inl ⟨hge, _, verify_error value sig (h.keys_length.symm ▸ hge)⟩

theorem Steady.returns_request (h : Steady config replica) (hidle : replica.coreActions = [])
    (command : Command) : replica.Returns (.request command) := by
  obtain ⟨log, hissued⟩ := h.issued
  obtain ⟨pool, lists, hhandle, -⟩ :=
    ReplicaCore.handle_request hissued h.closeLoop h.window command
  obtain ⟨hsteady, hflat⟩ := h.request hidle hhandle
  refine returns_iff.mpr ⟨_, [], ?_, hsteady.drains_flat ?_⟩
  · simp only [receiveMessage, handle, hhandle, ok_bind]
  · rw [hidle, List.nil_append]
    exact hflat

/-- An accepted PrePrepare is stored, and queues the Prepare of a backup. -/
theorem Accepts.receiveMessage {prePrepare : PrePrepare crypto} {commands : List Command}
    (h : replica.Accepts prePrepare commands) :
    replica.receiveMessage (.prePrepare prePrepare commands) = .ok
      ({ replica with
        core := { replica.core with
          blocks := replica.core.blocks.insert prePrepare.blockNum {
            commands
            digest := blockDigest crypto commands
            prePrepare := (prePrepare.viewNum, prePrepare.sig)
            prepareQuorum := none
            commitQuorum := none } }
        coreActions := replica.coreActions ++ if replica.core.isPrimary then []
          else [.prepare prePrepare.blockNum (blockDigest crypto commands)] }, []) := by
  simp only [Replica.receiveMessage, receivePrePrepare, h.admits.view, ne_eq, not_true_eq_false,
    if_false, h.new]
  have hverified := h.admits.verified
  rw [h.admits.view] at hverified
  simp only [hverified, ok_bind, h.digest, Bool.not_true, not_true_eq_false, decide_false,
    Bool.or_self, Bool.false_eq_true, if_false, handle, ReplicaCore.handle_proposal h.new]

theorem Steady.receivePrePrepare_ok (h : Steady config replica) (prePrepare : PrePrepare crypto)
    (commands : List Command) :
    ∃ result, replica.receiveMessage (.prePrepare prePrepare commands) = .ok result := by
  have hlt : replica.core.config.spec.primary prePrepare.viewNum <
      replica.core.config.spec.numReplica :=
    Nat.mod_lt _ (h.configured ▸ Nat.zero_lt_of_lt h.member)
  rcases h.verify_or prePrepare (replica.core.config.spec.primary prePrepare.viewNum)
    prePrepare.sig with ⟨hge, -⟩ | ⟨-, verified, hverify⟩
  · exact absurd hlt (not_lt.mpr hge)
  · simp only [receiveMessage]
    unfold receivePrePrepare
    split
    · exact ⟨_, rfl⟩
    · split
      · split <;> exact ⟨_, rfl⟩
      next hnone =>
        simp only [hverify, ok_bind]
        split
        · exact ⟨_, rfl⟩
        · simp only [handle, ReplicaCore.handle_proposal hnone, ok_bind]
          exact ⟨_, rfl⟩

theorem Steady.returns_prePrepare (h : Steady config replica) (hidle : replica.coreActions = [])
    (prePrepare : PrePrepare crypto) (commands : List Command) :
    replica.Returns (.prePrepare prePrepare commands) ↔
      ¬replica.Crashes (.prePrepare prePrepare commands) := by
  obtain ⟨⟨next, actions⟩, hcall⟩ := h.receivePrePrepare_ok prePrepare commands
  have hstep : Step replica (.call (.receive (.prePrepare prePrepare commands)) actions) next :=
    .call hidle hcall
  by_cases haccepts : replica.Accepts prePrepare commands
  · obtain ⟨rfl, rfl⟩ := Prod.mk.inj (Except.ok.inj (hcall.symm.trans haccepts.receiveMessage))
    have hsteady := h.received hidle hcall
    simp only [returns_iff_drains hcall, Crashes, haccepts, true_and]
    by_cases hprimary : replica.core.isPrimary = true
    · simp only [hprimary, if_true, List.append_nil, Bool.true_eq_false, false_and,
        not_false_eq_true, iff_true]
      exact drains_nil hidle
    · have hbackup : replica.core.isPrimary = false := by simpa using hprimary
      simp only [hbackup, hidle, Bool.false_eq_true, if_false, List.nil_append, true_and,
        haccepts.digest] at hsteady ⊢
      exact hsteady.drains_prepare hbackup rfl
  · have hidle' : next.coreActions = [] := by
      cases hstep.outcome with
      | drop | resend => exact hidle
      | accept hnone hadmits hdigest => exact absurd ⟨hadmits, hnone, hdigest⟩ haccepts
      | request _ _ _ hrequest => rcases hrequest with heq | heq <;> cases heq
    exact iff_of_true (returns_of_idle hcall hidle') fun hcrash => haccepts hcrash.1

section

variable {vote : Vote crypto}

theorem receivePrepare_skip
    (hskip : ¬(vote.viewNum = replica.core.viewNum ∧
      replica.core.isPrepared vote.blockNum = false)) :
    replica.receiveMessage (.prepare vote) = .ok (replica, []) := by
  have hskip' : (decide (vote.viewNum ≠ replica.core.viewNum) ||
      replica.core.isPrepared vote.blockNum) = true := by
    rcases not_and_or.mp hskip with hview | hprepared
    · simp [hview]
    · simp [hprepared]
  simp only [receiveMessage, receivePrepare, hskip', if_true, ok_bind]

theorem receivePrepare_uncounted {verified : Bool} (hview : vote.viewNum = replica.core.viewNum)
    (hopen : replica.core.isPrepared vote.blockNum = false)
    (hverify : replica.verify vote vote.replicaId vote.sig = .ok verified)
    (hnot : ¬replica.Counts vote) :
    ∃ next, replica.receiveMessage (.prepare vote) = .ok (next, []) ∧
      next.coreActions = replica.coreActions := by
  simp only [receiveMessage, receivePrepare, hview, hopen, ne_eq, not_true_eq_false, decide_false,
    Bool.or_self, Bool.false_eq_true, if_false, hverify, ok_bind]
  cases verified with
  | false => exact ⟨_, rfl, rfl⟩
  | true =>
      cases hblock : replica.core.blocks[vote.blockNum]? with
      | none => exact ⟨_, rfl, rfl⟩
      | some block =>
          have hdigest : vote.digest ≠ block.digest := fun hdigest =>
            hnot ⟨⟨hview, hverify⟩, block, hblock, hdigest⟩
          simp only [if_true, hdigest, not_false_eq_true]
          exact ⟨_, rfl, rfl⟩

theorem receivePrepare_counted (hopen : replica.core.isPrepared vote.blockNum = false)
    (hadmits : replica.Admits vote vote.viewNum vote.replicaId vote.sig)
    (hblock : replica.core.blocks[vote.blockNum]? = some block)
    (hdigest : vote.digest = block.digest) :
    replica.receiveMessage (.prepare vote) =
      checkPrepareQuorum vote.blockNum { replica.scratchAt vote.blockNum with
        prepareQuorum := (replica.scratchAt vote.blockNum).prepareQuorum.insert vote.replicaId
          vote.sig } replica.core >>= fun result => .ok ({ replica with
            core := result.2.1
            coreActions := replica.coreActions ++ result.2.2
            blockScratches := replica.blockScratches.insert vote.blockNum result.1 }, []) := by
  simp only [receiveMessage, receivePrepare, hadmits.view, hopen, ne_eq, not_true_eq_false,
    decide_false, Bool.or_self, Bool.false_eq_true, if_false, hadmits.verified, ok_bind, if_true,
    hblock, hdigest, scratchAt]
  generalize checkPrepareQuorum _ _ _ = checked
  cases checked <;> rfl

/-- A Prepare that is counted: the check may fail, and so may the Commit that it queues. -/
theorem Steady.returns_prepare_counted (h : Steady config replica)
    (hidle : replica.coreActions = [])
    (hopen : replica.core.isPrepared vote.blockNum = false) (hcounts : replica.Counts vote) :
    let ids := insert vote.replicaId (replica.scratchAt vote.blockNum).prepareQuorum.keys
    replica.Returns (.prepare vote) ↔ ¬(Uncountable replica.core.config.spec ids ∨
      replica.core.config.spec.numReplica ≤
          ids.card + 1 + replica.core.config.spec.numFaulty ∧
        replica.Overcommits vote.blockNum replica.core.config.id) := by
  intro ids
  obtain ⟨hadmits, block, hblock, hdigest⟩ := hcounts
  have hcall := receivePrepare_counted hopen hadmits hblock hdigest
  set scratch : BlockScratch crypto := { replica.scratchAt vote.blockNum with
    prepareQuorum := (replica.scratchAt vote.blockNum).prepareQuorum.insert vote.replicaId
      vote.sig }
  have hids : scratch.prepareQuorum.keys = ids := Map.keys_insert _ _ _
  rw [← hids]
  by_cases huncountable : Uncountable replica.core.config.spec scratch.prepareQuorum.keys
  · obtain ⟨panic, hcheck⟩ := @checkPrepareQuorum_error _ _ vote.blockNum _ huncountable
    rw [hcheck] at hcall
    exact iff_of_false (not_returns_of_error hcall) (not_not.mpr (.inl huncountable))
  · rw [or_iff_right huncountable]
    rw [checkPrepareQuorum_countable hblock (isPrepared_eq_false hopen hblock) huncountable] at hcall
    split at hcall
    next henough =>
      -- the block is prepared, and its Commit is all that is queued
      rw [ok_bind] at hcall
      have hsteady := h.received hidle hcall
      have hdrains := @Steady.drains_commit _ _ _ vote.blockNum hsteady (by simp [hidle])
      rw [and_iff_right henough, returns_iff_drains hcall, hdrains,
        or_iff_right (not_or.mp huncountable).1, Overcommits, Overcommits,
        ReplicaCore.outruns_insert]
      simp [scratchAt, scratch]
    next hfew =>
      rw [ok_bind] at hcall
      exact iff_of_true (returns_of_idle hcall (by simp [hidle])) fun hcrash => hfew hcrash.1

theorem Steady.returns_prepare (h : Steady config replica) (hidle : replica.coreActions = [])
    (vote : Vote crypto) : replica.Returns (.prepare vote) ↔ ¬replica.Crashes (.prepare vote) := by
  by_cases hskip : vote.viewNum = replica.core.viewNum ∧
    replica.core.isPrepared vote.blockNum = false
  swap
  · exact iff_of_true (returns_of_idle (receivePrepare_skip hskip) hidle) fun hcrash =>
      hskip ⟨hcrash.1, hcrash.2.1⟩
  obtain ⟨hview, hopen⟩ := hskip
  simp only [Crashes, hview, hopen, true_and]
  rcases h.verify_or vote vote.replicaId vote.sig with
    ⟨hid, panic, hverify⟩ | ⟨hid, verified, hverify⟩
  · have hcall : replica.receiveMessage (.prepare vote) = .error panic := by
      simp [receiveMessage, receivePrepare, hview, hopen, hverify]
    exact iff_of_false (not_returns_of_error hcall) (not_not.mpr (.inl hid))
  · rw [or_iff_right (not_le.mpr hid)]
    by_cases hcounts : replica.Counts vote
    · rw [and_iff_right hcounts]
      exact h.returns_prepare_counted hidle hopen hcounts
    · obtain ⟨next, hcall, hnext⟩ := receivePrepare_uncounted hview hopen hverify hcounts
      exact iff_of_true (returns_of_idle hcall (hnext.trans hidle)) fun hcrash => hcounts hcrash.1

theorem receiveCommit_skip
    (hskip : ¬(vote.viewNum = replica.core.viewNum ∧
      replica.core.isCommitted vote.blockNum = false)) :
    replica.receiveMessage (.commit vote) = .ok (replica, []) := by
  have hskip' : (decide (vote.viewNum ≠ replica.core.viewNum) ||
      replica.core.isCommitted vote.blockNum) = true := by
    rcases not_and_or.mp hskip with hview | hcommitted
    · simp [hview]
    · simp [hcommitted]
  simp only [receiveMessage, receiveCommit, hskip', if_true, ok_bind]

theorem receiveCommit_uncounted {verified : Bool} (hview : vote.viewNum = replica.core.viewNum)
    (hopen : replica.core.isCommitted vote.blockNum = false)
    (hverify : replica.verify vote vote.replicaId vote.sig = .ok verified)
    (hnot : ¬replica.Counts vote) :
    ∃ next, replica.receiveMessage (.commit vote) = .ok (next, []) ∧
      next.coreActions = replica.coreActions := by
  simp only [receiveMessage, receiveCommit, hview, hopen, ne_eq, not_true_eq_false, decide_false,
    Bool.or_self, Bool.false_eq_true, if_false, hverify, ok_bind]
  cases verified with
  | false => exact ⟨_, rfl, rfl⟩
  | true =>
      cases hblock : replica.core.blocks[vote.blockNum]? with
      | none => exact ⟨_, rfl, rfl⟩
      | some block =>
          have hdigest : vote.digest ≠ block.digest := fun hdigest =>
            hnot ⟨⟨hview, hverify⟩, block, hblock, hdigest⟩
          simp only [if_true, hdigest, not_false_eq_true]
          exact ⟨_, rfl, rfl⟩

theorem receiveCommit_counted (hopen : replica.core.isCommitted vote.blockNum = false)
    (hadmits : replica.Admits vote vote.viewNum vote.replicaId vote.sig)
    (hblock : replica.core.blocks[vote.blockNum]? = some block)
    (hdigest : vote.digest = block.digest) :
    replica.receiveMessage (.commit vote) =
      checkCommitQuorum vote.blockNum { replica.scratchAt vote.blockNum with
        commitQuorum := (replica.scratchAt vote.blockNum).commitQuorum.insert vote.replicaId
          vote.sig } replica.core >>= fun result => .ok ({ replica with
            core := result.2.1
            coreActions := replica.coreActions ++ result.2.2
            blockScratches := replica.blockScratches.insert vote.blockNum result.1 }, []) := by
  simp only [receiveMessage, receiveCommit, hadmits.view, hopen, ne_eq, not_true_eq_false,
    decide_false, Bool.or_self, Bool.false_eq_true, if_false, hadmits.verified, ok_bind, if_true,
    hblock, hdigest, scratchAt]
  generalize checkCommitQuorum _ _ _ = checked
  cases checked <;> rfl

/-- A Commit that is counted: if its check does not fail, what it queues is performed. -/
theorem Steady.returns_commit_counted (h : Steady config replica)
    (hidle : replica.coreActions = [])
    (hopen : replica.core.isCommitted vote.blockNum = false) (hcounts : replica.Counts vote) :
    replica.Returns (.commit vote) ↔ ¬(replica.core.isPrepared vote.blockNum = true ∧
      (replica.core.config.spec.numReplica < replica.core.config.spec.numFaulty ∨
        replica.Overcommits vote.blockNum vote.replicaId)) := by
  obtain ⟨hadmits, block, hblock, hdigest⟩ := hcounts
  have hcall := receiveCommit_counted hopen hadmits hblock hdigest
  set scratch : BlockScratch crypto := { replica.scratchAt vote.blockNum with
    commitQuorum := (replica.scratchAt vote.blockNum).commitQuorum.insert vote.replicaId
      vote.sig }
  have hkeys : scratch.commitQuorum.keys =
      insert vote.replicaId (replica.scratchAt vote.blockNum).commitQuorum.keys :=
    Map.keys_insert _ _ _
  have hcheck := @Steady.checkCommitQuorum_iff _ _ _ _ _ scratch h hblock
    (isCommitted_eq_false hopen hblock)
  rw [CommitFails, Map.size, hkeys] at hcheck
  rw [Overcommits, ← hcheck]
  cases hresult : checkCommitQuorum vote.blockNum scratch replica.core with
  | error panic =>
      rw [hresult] at hcall
      exact iff_of_false (not_returns_of_error hcall) (by rintro ⟨_, heq⟩; cases heq)
  | ok result =>
      rw [hresult, ok_bind] at hcall
      refine iff_of_true ((returns_iff_drains hcall).mpr ?_) ⟨_, rfl⟩
      refine (h.received hidle hcall).drains_flat ?_
      refine (h.commitOutcome hidle (fun hprepared other hother => ?_)
        (checkCommitQuorum_outcome hresult)).2
      exact (isCommitted_eq_false hopen hother hprepared).1

theorem Steady.returns_commit (h : Steady config replica) (hidle : replica.coreActions = [])
    (vote : Vote crypto) : replica.Returns (.commit vote) ↔ ¬replica.Crashes (.commit vote) := by
  by_cases hskip : vote.viewNum = replica.core.viewNum ∧
    replica.core.isCommitted vote.blockNum = false
  swap
  · exact iff_of_true (returns_of_idle (receiveCommit_skip hskip) hidle) fun hcrash =>
      hskip ⟨hcrash.1, hcrash.2.1⟩
  obtain ⟨hview, hopen⟩ := hskip
  simp only [Crashes, hview, hopen, true_and]
  rcases h.verify_or vote vote.replicaId vote.sig with
    ⟨hid, panic, hverify⟩ | ⟨hid, verified, hverify⟩
  · have hcall : replica.receiveMessage (.commit vote) = .error panic := by
      simp [receiveMessage, receiveCommit, hview, hopen, hverify]
    exact iff_of_false (not_returns_of_error hcall) (not_not.mpr (.inl hid))
  · rw [or_iff_right (not_le.mpr hid)]
    by_cases hcounts : replica.Counts vote
    · rw [and_iff_right hcounts]
      exact h.returns_commit_counted hidle hopen hcounts
    · obtain ⟨next, hcall, hnext⟩ := receiveCommit_uncounted hview hopen hverify hcounts
      exact iff_of_true (returns_of_idle hcall (hnext.trans hidle)) fun hcrash => hcounts hcrash.1

end

/-- In every reachable state, whatever has been delivered, `receive` returns on exactly the
messages that do not crash the replica. This includes messages under its own key that it has
not signed. -/
theorem receive_returns (hrun : FreeRun config history replica)
    (hidle : replica.coreActions = []) : replica.Returns message ↔ ¬replica.Crashes message := by
  have h := Steady.of_run hrun
  cases message with
  | request command => exact iff_of_true (h.returns_request hidle command) id
  | prePrepare prePrepare commands => exact h.returns_prePrepare hidle prePrepare commands
  | prepare vote => exact h.returns_prepare hidle vote
  | commit vote => exact h.returns_commit hidle vote

/-- The primary of four takes in the Commit that finalizes its first block. -/
theorem receive_returns_commit : ∃ (history : List (Event .transparent))
    (replica : Replica .transparent),
    FreeRun ((Group.four ∅).config 0) history replica ∧
      replica.core.isPrepared 1 = true ∧ replica.core.finalizeNum = 0 ∧
      replica.Returns (.commit (Group.fourVote 2 1 [Group.ping 0])) := by
  have hreplay : ∃ run, ((Group.four ∅).initial .transparent 0).replay fourCalls.dropLast =
      .ok run ∧ run.2.coreActions.isEmpty ∧ run.2.core.isPrepared 1 = true ∧
        run.2.core.finalizeNum = 0 ∧ run.2.core.proposeNum = 1 ∧ 2 ∉ run.2.core.blocks := by
    refine ⟨_, rfl, ?_⟩
    decide +kernel
  obtain ⟨⟨history, replica⟩, hreplay, hidle, hprepared, hfinalize, hpropose, hfree⟩ := hreplay
  dsimp only at hfinalize hpropose
  have hrun := replay_run (Group.new_initial (by decide)) hreplay
  have hconfig := (FreeRun.sound hrun).configured
  refine ⟨history, replica, hrun, hprepared, hfinalize,
    (receive_returns hrun (List.isEmpty_iff.mp hidle)).mpr ?_⟩
  rintro ⟨-, -, hid | ⟨-, -, hfaulty | ⟨-, -, hruns⟩⟩⟩
  · rw [hconfig] at hid
    exact absurd hid (by decide)
  · rw [hconfig] at hfaulty
    exact absurd hfaulty (by decide)
  · -- the block after the first one is not there
    rcases hruns 2 (by omega) (by omega) with heq | ⟨block, hblock, -⟩
    · exact absurd heq (by decide)
    · exact hfree (Coherent.mem_blocks.mpr ⟨block, hblock⟩)

/-- A Prepare whose sender no one knows. -/
def strayVote : Vote .transparent := { Group.fourVote 1 1 [] with replicaId := 4 }

/-- The stray Prepare ends any of four replicas right at its start. -/
theorem receive_fails : ¬∀ (config : ReplicaCoreConfig) (history : List (Event .transparent))
    (replica : Replica .transparent) (message : ToReplica .transparent),
    FreeRun config history replica → replica.coreActions = [] → replica.Returns message := by
  intro hreturns
  have hcall : ((Group.four ∅).initial .transparent 2).receiveMessage (.prepare strayVote) =
      .error .publicKeyIndex := rfl
  exact not_returns_of_error hcall
    (hreturns _ [] _ (.prepare strayVote) (.start (Group.new_initial (by decide))) rfl)

/-- Shown a block of its own that it has not proposed, the primary of four overtakes itself. -/
example : ∃ run, ((Group.four ∅).initial .transparent 0).replay
      (.receive (.prePrepare (Group.fourPrePrepare 1 [Group.ping 0]) [Group.ping 0]) ::
        fourCalls.tail.dropLast) = .ok run ∧
    run.2.receiveMessage (.commit (Group.fourVote 2 1 [Group.ping 0])) = .error .underflow :=
  ⟨_, rfl, rfl⟩

end Replica

end BftKit.Pbft
