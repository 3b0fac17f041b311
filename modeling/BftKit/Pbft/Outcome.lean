import BftKit.Foundation.Run
import BftKit.Pbft.Effect
import BftKit.Pbft.Progress

/-! # What a step has done when it returns

The effects of the steps were derived for replicas that nobody else signs for. Here the
inversion is turned around: whatever state a step is taken in and whatever it is given,
these are the ways in which it can return. What all of them keep holds in every run.
-/

namespace BftKit.Pbft

open Foundation Replica

variable {crypto : Crypto}

/-! ## The core -/

/-- What the loops of the core queue. -/
def Looped : ReplicaCoreAction crypto → Prop
  | .propose _ _ | .finalize _ => True
  | .prepare _ _ | .commit _ | .forward _ _ | .viewChange _ _ | .newView _ _ _ | .enterView => False

theorem Looped.flat {action : ReplicaCoreAction crypto} (h : Looped action) : Flat action := by
  cases action with
  | propose | finalize => trivial
  | prepare | commit | forward | viewChange | newView | enterView => exact absurd h id

namespace ReplicaCore

variable {core core' : ReplicaCore crypto} {actions : ReplicaCoreActions crypto}

theorem proposeLoop_outcome {rounds : Nat}
    (hloop : core.proposeLoop rounds = .ok (core', actions)) :
    core' = { core with pool := core'.pool, proposeNum := core'.proposeNum } ∧
      ∀ action ∈ actions, Looped action := by
  induction rounds generalizing core core' actions with
  | zero =>
      obtain ⟨rfl, rfl⟩ := Prod.mk.inj (Except.ok.inj hloop)
      exact ⟨rfl, by simp⟩
  | succ rounds ih =>
      rw [proposeLoop, bind_eq_ok] at hloop
      obtain ⟨can, -, hloop⟩ := hloop
      split at hloop
      next =>
        rw [bind_eq_ok] at hloop
        obtain ⟨closed, -, hloop⟩ := hloop
        split at hloop
        next pool =>
          obtain ⟨rfl, rfl⟩ := Prod.mk.inj (Except.ok.inj hloop)
          exact ⟨rfl, by simp⟩
        next pool commands =>
          rw [bind_eq_ok] at hloop
          obtain ⟨⟨final, more⟩, hrest, heq⟩ := hloop
          obtain ⟨rfl, rfl⟩ := Prod.mk.inj (Except.ok.inj heq)
          obtain ⟨hfinal, hmore⟩ := ih hrest
          refine ⟨hfinal, List.forall_mem_cons.mpr ⟨trivial, hmore⟩⟩
      next =>
        obtain ⟨rfl, rfl⟩ := Prod.mk.inj (Except.ok.inj hloop)
        exact ⟨rfl, by simp⟩

theorem finalizeLoop_outcome {rounds : Nat}
    (hloop : core.finalizeLoop rounds = .ok (core', actions)) :
    core' = { core with pool := core'.pool, finalizeNum := core'.finalizeNum } ∧
      (∀ action ∈ actions, Looped action) ∧ core.finalizeNum ≤ core'.finalizeNum ∧
      ∀ blockNum, core.finalizeNum < blockNum → blockNum ≤ core'.finalizeNum →
        ∃ block, core.blocks[blockNum]? = some block ∧ block.prepareQuorum.isSome ∧
          block.commitQuorum.isSome := by
  induction rounds generalizing core core' actions with
  | zero =>
      obtain ⟨rfl, rfl⟩ := Prod.mk.inj (Except.ok.inj hloop)
      exact ⟨rfl, by simp, le_rfl, by omega⟩
  | succ rounds ih =>
      unfold finalizeLoop at hloop
      split at hloop
      next =>
        obtain ⟨rfl, rfl⟩ := Prod.mk.inj (Except.ok.inj hloop)
        exact ⟨rfl, by simp, le_rfl, by omega⟩
      next block hblock =>
        split at hloop
        next hready =>
          rw [bind_eq_ok] at hloop
          obtain ⟨pool, -, hloop⟩ := hloop
          rw [bind_eq_ok] at hloop
          obtain ⟨⟨final, more⟩, hrest, heq⟩ := hloop
          obtain ⟨rfl, rfl⟩ := Prod.mk.inj (Except.ok.inj heq)
          obtain ⟨hfinal, hmore, hle, hblocks⟩ := ih hrest
          refine ⟨hfinal, List.forall_mem_cons.mpr ⟨trivial, hmore⟩, (Nat.le_succ _).trans hle, ?_⟩
          intro blockNum hgt hblockNum
          rcases Nat.lt_or_eq_of_le hgt with hlater | rfl
          · exact hblocks blockNum hlater hblockNum
          · exact ⟨block, hblock, by simpa using hready⟩
        next =>
          obtain ⟨rfl, rfl⟩ := Prod.mk.inj (Except.ok.inj hloop)
          exact ⟨rfl, by simp, le_rfl, by omega⟩

/-- A backup forwards a request to the primary. -/
theorem request_queued {command : Command}
    (hhandle : core.handle (.request command) = .ok (core', actions)) :
    core' = { core with pool := core'.pool, proposeNum := core'.proposeNum } ∧
      ∀ action ∈ actions, Looped action ∨ core.isPrimary = false ∧
        action = .forward (core.config.spec.primary core.viewNum) command := by
  rw [handle, bind_eq_ok] at hhandle
  obtain ⟨pushed, -, hhandle⟩ := hhandle
  dsimp only at hhandle
  split at hhandle
  · obtain ⟨hcore, hactions⟩ := proposeLoop_outcome hhandle
    exact ⟨hcore, fun action hmem => .inl (hactions action hmem)⟩
  next hbackup =>
    obtain ⟨rfl, rfl⟩ := Prod.mk.inj (Except.ok.inj hhandle)
    have hbackup : core.isPrimary = false := Bool.eq_false_iff.mpr hbackup
    exact ⟨rfl, fun action hmem => .inr ⟨hbackup, List.mem_singleton.mp hmem⟩⟩

theorem request_outcome {command : Command}
    (hhandle : core.handle (.request command) = .ok (core', actions)) :
    core' = { core with pool := core'.pool, proposeNum := core'.proposeNum } ∧
      ∀ action ∈ actions, Flat action := by
  obtain ⟨hcore, hqueued⟩ := request_queued hhandle
  refine ⟨hcore, fun action hmem => ?_⟩
  rcases hqueued action hmem with hlooped | ⟨-, rfl⟩
  · exact hlooped.flat
  · trivial

/-- A proposal for a number that is taken is ignored, any other one is stored. -/
theorem proposal_outcome {blockNum : Nat} {block : Block crypto}
    (hhandle : core.handle (.proposal blockNum block) = .ok (core', actions)) :
    (blockNum ∈ core.blocks ∧ core' = core ∧ actions = []) ∨
      (core.blocks[blockNum]? = none ∧
        core' = { core with blocks := core.blocks.insert blockNum block } ∧
        actions = if core.isPrimary then [] else [.prepare blockNum block.digest]) := by
  by_cases hmem : blockNum ∈ core.blocks
  · left
    rw [handle, if_pos hmem] at hhandle
    obtain ⟨rfl, rfl⟩ := Prod.mk.inj (Except.ok.inj hhandle)
    exact ⟨hmem, rfl, rfl⟩
  · right
    have hnone := Std.ExtTreeMap.getElem?_eq_none hmem
    rw [handle_proposal hnone] at hhandle
    obtain ⟨rfl, rfl⟩ := Prod.mk.inj (Except.ok.inj hhandle)
    exact ⟨hnone, rfl, rfl⟩

theorem prepareQuorum_outcome {blockNum : Nat} {quorum : Quorum crypto.Sig}
    (hhandle : core.handle (.prepareQuorum blockNum quorum) = .ok (core', actions)) :
    ∃ block, core.blocks[blockNum]? = some block ∧ block.prepareQuorum = none ∧
      core' = { core with
        blocks := core.blocks.insert blockNum { block with prepareQuorum := some quorum } } ∧
      actions = [.commit blockNum] := by
  unfold handle at hhandle
  dsimp only at hhandle
  split at hhandle
  next => cases hhandle
  next block hblock =>
    split at hhandle
    next => cases hhandle
    next hnone =>
      obtain ⟨rfl, rfl⟩ := Prod.mk.inj (Except.ok.inj hhandle)
      exact ⟨block, hblock, by simpa using hnone, rfl, rfl⟩

theorem commitQuorum_outcome {blockNum : Nat} {quorum : Quorum crypto.Sig}
    (hhandle : core.handle (.commitQuorum blockNum quorum) = .ok (core', actions)) :
    ∃ block, core.blocks[blockNum]? = some block ∧ block.commitQuorum = none ∧
      core' = { core with
        blocks := core.blocks.insert blockNum { block with commitQuorum := some quorum }
        pool := core'.pool
        proposeNum := core'.proposeNum
        finalizeNum := core'.finalizeNum } ∧
      (∀ action ∈ actions, Looped action) ∧ core.finalizeNum ≤ core'.finalizeNum ∧
      ∀ other, core.finalizeNum < other → other ≤ core'.finalizeNum →
        ∃ stored, core'.blocks[other]? = some stored ∧ stored.prepareQuorum.isSome ∧
          stored.commitQuorum.isSome := by
  unfold handle at hhandle
  dsimp only at hhandle
  split at hhandle
  next => cases hhandle
  next block hblock =>
    split at hhandle
    next => cases hhandle
    next hnone =>
      rw [bind_eq_ok] at hhandle
      obtain ⟨⟨middle, finalized⟩, hfinalize, hhandle⟩ := hhandle
      rw [bind_eq_ok] at hhandle
      obtain ⟨⟨final, proposed⟩, hpropose, heq⟩ := hhandle
      obtain ⟨rfl, rfl⟩ := Prod.mk.inj (Except.ok.inj heq)
      obtain ⟨hmiddle, hfinalized, hle, hrun⟩ := finalizeLoop_outcome hfinalize
      obtain ⟨hfinal, hproposed⟩ := proposeLoop_outcome hpropose
      have hnum : final.finalizeNum = middle.finalizeNum := by rw [hfinal]
      have hblocks : final.blocks =
          core.blocks.insert blockNum { block with commitQuorum := some quorum } := by
        rw [hfinal, hmiddle]
      refine ⟨block, hblock, by simpa using hnone, ?_, List.forall_mem_append.mpr
        ⟨hfinalized, hproposed⟩, hnum ▸ hle, ?_⟩
      · rw [hfinal, hmiddle]
      · rw [hblocks, hnum]
        exact hrun

end ReplicaCore

namespace Replica

/-! ## Steps -/

/-- What `check_prepare_quorum` has done with a scratch. -/
inductive PrepareOutcome (replica : Replica crypto) (blockNum : Nat)
    (scratch : BlockScratch crypto) : Replica crypto → Prop
  | waiting : PrepareOutcome replica blockNum scratch
      { replica with blockScratches := replica.blockScratches.insert blockNum scratch }
  | prepared {block} (hblock : replica.core.blocks[blockNum]? = some block)
      (hnone : block.prepareQuorum = none)
      (hquorum : replica.core.config.spec.numReplica ≤
        scratch.prepareQuorum.size + 1 + replica.core.config.spec.numFaulty) :
      PrepareOutcome replica blockNum scratch
        { replica with
          core := { replica.core with
            blocks := replica.core.blocks.insert blockNum
              { block with prepareQuorum := some scratch.prepareQuorum } }
          coreActions := replica.coreActions ++ [.commit blockNum]
          blockScratches := replica.blockScratches.insert blockNum
            { scratch with prepareQuorum := ∅ } }

/-- What `check_commit_quorum` has done with a scratch. -/
inductive CommitOutcome (replica : Replica crypto) (blockNum : Nat)
    (scratch : BlockScratch crypto) : Replica crypto → Prop
  | waiting : CommitOutcome replica blockNum scratch
      { replica with blockScratches := replica.blockScratches.insert blockNum scratch }
  | committed {block core actions} (hblock : replica.core.blocks[blockNum]? = some block)
      (hnone : block.commitQuorum = none)
      (hquorum : replica.core.config.spec.numReplica ≤
        scratch.commitQuorum.size + replica.core.config.spec.numFaulty)
      (hcore : core = { replica.core with
        blocks := replica.core.blocks.insert blockNum
          { block with commitQuorum := some scratch.commitQuorum }
        pool := core.pool
        proposeNum := core.proposeNum
        finalizeNum := core.finalizeNum })
      (hlooped : ∀ action ∈ actions, Looped action)
      (hhandle : replica.core.handle (.commitQuorum blockNum scratch.commitQuorum) =
        .ok (core, actions))
      (hprepared : replica.core.isPrepared blockNum = true) :
      CommitOutcome replica blockNum scratch
        { replica with
          core
          coreActions := replica.coreActions ++ actions
          blockScratches := replica.blockScratches.insert blockNum
            { scratch with commitQuorum := ∅ } }

/-- The ways in which a step can return. -/
inductive Outcome (replica : Replica crypto) : Event crypto → Replica crypto → Prop
  | drop (message : ToReplica crypto) : Outcome replica (.call (.receive message) []) replica
  | request {call core command actions}
      (hcore : core = { replica.core with pool := core.pool, proposeNum := core.proposeNum })
      (hflat : ∀ action ∈ actions, Flat action)
      (hhandle : replica.core.handle (.request command) = .ok (core, actions))
      (hcall : call = .request command ∨ call = .receive (.request command)) :
      Outcome replica (.call call [])
        { replica with core, coreActions := replica.coreActions ++ actions }
  | resend {prePrepare commands block actions}
      (hview : prePrepare.viewNum = replica.core.viewNum)
      (hblock : replica.core.blocks[prePrepare.blockNum]? = some block)
      (hdigest : block.digest = prePrepare.digest)
      (hactions : ∀ action ∈ actions,
        let vote := replica.signVote prePrepare.blockNum prePrepare.digest
        let primary := replica.core.config.spec.primary replica.core.viewNum
        action = .sendToReplica primary (.prepare vote) ∨
          action = .sendToReplica primary (.commit vote) ∧ block.prepareQuorum.isSome) :
      Outcome replica (.call (.receive (.prePrepare prePrepare commands)) actions) replica
  | accept {prePrepare : PrePrepare crypto} {commands : List Command}
      (hnone : replica.core.blocks[prePrepare.blockNum]? = none)
      (hadmits : replica.Admits prePrepare prePrepare.viewNum
        (replica.core.config.spec.primary prePrepare.viewNum) prePrepare.sig)
      (hdigest : prePrepare.digest = blockDigest crypto commands) :
      Outcome replica (.call (.receive (.prePrepare prePrepare commands)) [])
        { replica with
          core := { replica.core with
            blocks := replica.core.blocks.insert prePrepare.blockNum {
              commands
              digest := blockDigest crypto commands
              prePrepare := (prePrepare.viewNum, prePrepare.sig)
              prepareQuorum := none
              commitQuorum := none } }
          coreActions := replica.coreActions ++
            if replica.core.isPrimary then []
            else [.prepare prePrepare.blockNum (blockDigest crypto commands)] }
  | keepPrepare {vote : Vote crypto} {scratch : BlockScratch crypto}
      (hscratch : scratch = replica.scratchAt vote.blockNum ∨
        replica.core.blocks[vote.blockNum]? = none ∧
          replica.Admits vote vote.viewNum vote.replicaId vote.sig ∧
          scratch = { replica.scratchAt vote.blockNum with
            prepareVotes := (replica.scratchAt vote.blockNum).prepareVotes ++ [vote] }) :
      Outcome replica (.call (.receive (.prepare vote)) [])
        { replica with blockScratches := replica.blockScratches.insert vote.blockNum scratch }
  | countPrepare {vote : Vote crypto} {block next}
      (hadmits : replica.Admits vote vote.viewNum vote.replicaId vote.sig)
      (hblock : replica.core.blocks[vote.blockNum]? = some block)
      (hdigest : vote.digest = block.digest)
      (hcheck : PrepareOutcome replica vote.blockNum
        { replica.scratchAt vote.blockNum with
          prepareQuorum :=
            (replica.scratchAt vote.blockNum).prepareQuorum.insert vote.replicaId vote.sig }
        next) :
      Outcome replica (.call (.receive (.prepare vote)) []) next
  | keepCommit {vote : Vote crypto} {scratch : BlockScratch crypto}
      (hscratch : scratch = replica.scratchAt vote.blockNum ∨
        replica.core.blocks[vote.blockNum]? = none ∧
          replica.Admits vote vote.viewNum vote.replicaId vote.sig ∧
          scratch = { replica.scratchAt vote.blockNum with
            commitVotes := (replica.scratchAt vote.blockNum).commitVotes ++ [vote] }) :
      Outcome replica (.call (.receive (.commit vote)) [])
        { replica with blockScratches := replica.blockScratches.insert vote.blockNum scratch }
  | countCommit {vote : Vote crypto} {block next}
      (hadmits : replica.Admits vote vote.viewNum vote.replicaId vote.sig)
      (hblock : replica.core.blocks[vote.blockNum]? = some block)
      (hdigest : vote.digest = block.digest)
      (hcheck : CommitOutcome replica vote.blockNum
        { replica.scratchAt vote.blockNum with
          commitQuorum :=
            (replica.scratchAt vote.blockNum).commitQuorum.insert vote.replicaId vote.sig }
        next)
      (hopen : replica.core.isCommitted vote.blockNum = false) :
      Outcome replica (.call (.receive (.commit vote)) []) next
  | tick {actions}
      (hactions : ∀ action ∈ actions, ∃ prePrepare commands,
        action = .sendToAllReplicas (.prePrepare prePrepare commands)) :
      Outcome replica (.call .tick actions)
        { replica with tickedScratchNum := replica.core.proposeNum }
  | propose {blockNum commands prePrepare rest core actions}
      (hqueue : replica.coreActions = .propose blockNum commands :: rest)
      (hstored : blockNum ∈ replica.core.blocks ∧ core = replica.core ∧ actions = [] ∨
        ∃ block : Block crypto, block.digest = blockDigest crypto block.commands ∧
          block.prepareQuorum = none ∧ block.commitQuorum = none ∧
          replica.core.blocks[blockNum]? = none ∧
          core = { replica.core with blocks := replica.core.blocks.insert blockNum block } ∧
          actions = if replica.core.isPrimary then [] else [.prepare blockNum block.digest]) :
      Outcome replica (.perform (.propose blockNum commands)
        [.sendToAllReplicas (.prePrepare prePrepare commands)])
        { replica with core, coreActions := rest ++ actions }
  | prepare {blockNum digest rest next}
      (hqueue : replica.coreActions = .prepare blockNum digest :: rest)
      (hcheck : PrepareOutcome { replica with coreActions := rest } blockNum {
          prepareVotes := []
          prepareQuorum :=
            (Map.extend (replica.scratchAt blockNum).prepareQuorum
              (matchingVotes digest (replica.scratchAt blockNum).prepareVotes)).insert
              replica.core.config.id (replica.signVote blockNum digest).sig
          commitVotes := []
          commitQuorum :=
            Map.extend (replica.scratchAt blockNum).commitQuorum
              (matchingVotes digest (replica.scratchAt blockNum).commitVotes) }
        next) :
      Outcome replica (.perform (.prepare blockNum digest)
        [.sendToAllReplicas (.prepare (replica.signVote blockNum digest))]) next
  | commit {blockNum rest block next}
      (hqueue : replica.coreActions = .commit blockNum :: rest)
      (hblock : replica.core.blocks[blockNum]? = some block)
      (hcheck : CommitOutcome { replica with coreActions := rest } blockNum
        { replica.scratchAt blockNum with
          commitQuorum := (replica.scratchAt blockNum).commitQuorum.insert
            replica.core.config.id (replica.signVote blockNum block.digest).sig }
        next) :
      Outcome replica (.perform (.commit blockNum)
        [.sendToAllReplicas (.commit (replica.signVote blockNum block.digest))]) next
  | finalize {blockNum rest commands}
      (hqueue : replica.coreActions = .finalize blockNum :: rest) :
      Outcome replica (.perform (.finalize blockNum) [.finalize commands])
        { replica with
          coreActions := rest
          blockScratches := replica.blockScratches.erase blockNum }
  | forward {replicaId command rest}
      (hqueue : replica.coreActions = .forward replicaId command :: rest) :
      Outcome replica (.perform (.forward replicaId command)
        [.sendToReplica replicaId (.request command)]) { replica with coreActions := rest }
  | enterView {rest} (hqueue : replica.coreActions = .enterView :: rest) :
      Outcome replica (.perform .enterView [])
        { replica with coreActions := rest, blockScratches := ∅ }

variable {replica next : Replica crypto} {event : Event crypto} {actions : List (Action crypto)}
  {blockNum : Nat} {scratch scratch' : BlockScratch crypto} {core : ReplicaCore crypto}
  {coreActions : ReplicaCoreActions crypto}

theorem quorumSize_ok {spec : Spec} {size : Nat} (hsize : spec.quorumSize = .ok size) :
    spec.numReplica = size + spec.numFaulty := by
  unfold Spec.quorumSize at hsize
  split at hsize
  · have := Except.ok.inj hsize
    omega
  · cases hsize

theorem withPrimary_ok {quorum : Quorum crypto.Sig} {count : Nat}
    (hcount : withPrimary quorum = .ok count) :
    count = quorum.size + 1 ∧ quorum.size + 1 < 2 ^ 16 := by
  unfold withPrimary at hcount
  split at hcount
  next hroom => exact ⟨(Except.ok.inj hcount).symm, hroom⟩
  next => cases hcount

theorem checkPrepareQuorum_outcome
    (hcheck : checkPrepareQuorum blockNum scratch replica.core = .ok (scratch', core, coreActions)) :
    PrepareOutcome replica blockNum scratch
      { replica with
        core
        coreActions := replica.coreActions ++ coreActions
        blockScratches := replica.blockScratches.insert blockNum scratch' } := by
  unfold checkPrepareQuorum at hcheck
  rw [bind_eq_ok] at hcheck
  obtain ⟨count, hcount, hcheck⟩ := hcheck
  obtain ⟨rfl, -⟩ := withPrimary_ok hcount
  rw [bind_eq_ok] at hcheck
  obtain ⟨size, hsize, hcheck⟩ := hcheck
  have hquorum := quorumSize_ok hsize
  split at hcheck
  next hle =>
    rw [bind_eq_ok] at hcheck
    obtain ⟨⟨final, queued⟩, hhandle, heq⟩ := hcheck
    obtain ⟨rfl, hpair⟩ := Prod.mk.inj (Except.ok.inj heq)
    obtain ⟨rfl, rfl⟩ := Prod.mk.inj hpair
    obtain ⟨block, hblock, hnone, rfl, rfl⟩ := ReplicaCore.prepareQuorum_outcome hhandle
    exact .prepared hblock hnone (by omega)
  next =>
    obtain ⟨rfl, hpair⟩ := Prod.mk.inj (Except.ok.inj hcheck)
    obtain ⟨rfl, rfl⟩ := Prod.mk.inj hpair
    rw [List.append_nil]
    exact .waiting

theorem checkCommitQuorum_outcome
    (hcheck : checkCommitQuorum blockNum scratch replica.core = .ok (scratch', core, coreActions)) :
    CommitOutcome replica blockNum scratch
      { replica with
        core
        coreActions := replica.coreActions ++ coreActions
        blockScratches := replica.blockScratches.insert blockNum scratch' } := by
  have hwaiting : .ok (scratch, replica.core, []) =
      (.ok (scratch', core, coreActions) : Except Panic _) →
      CommitOutcome replica blockNum scratch
        { replica with
          core
          coreActions := replica.coreActions ++ coreActions
          blockScratches := replica.blockScratches.insert blockNum scratch' } := by
    intro heq
    obtain ⟨rfl, hpair⟩ := Prod.mk.inj (Except.ok.inj heq)
    obtain ⟨rfl, rfl⟩ := Prod.mk.inj hpair
    rw [List.append_nil]
    exact .waiting
  unfold checkCommitQuorum at hcheck
  split at hcheck
  next hprepared =>
    rw [bind_eq_ok] at hcheck
    obtain ⟨size, hsize, hcheck⟩ := hcheck
    have hquorum := quorumSize_ok hsize
    split at hcheck
    next hle =>
      rw [bind_eq_ok] at hcheck
      obtain ⟨⟨final, queued⟩, hhandle, heq⟩ := hcheck
      obtain ⟨rfl, hpair⟩ := Prod.mk.inj (Except.ok.inj heq)
      obtain ⟨rfl, rfl⟩ := Prod.mk.inj hpair
      obtain ⟨block, hblock, hnone, hcore, hlooped, -⟩ := ReplicaCore.commitQuorum_outcome hhandle
      exact .committed hblock hnone (by omega) hcore hlooped hhandle hprepared
    next => exact hwaiting hcheck
  next => exact hwaiting hcheck

/-! ## Inversion -/

theorem verified_of_ok {verified : Bool} {Value : Type} [UpdateHash Value] {message : Value}
    {id : Nat} {sig : crypto.Sig} (hverify : replica.verify message id sig = .ok verified)
    (htrue : verified = true) : replica.verify message id sig = .ok true := by
  rw [hverify, htrue]

theorem receivePrePrepare_outcome {prePrepare : PrePrepare crypto} {commands : List Command}
    (hcall : replica.receivePrePrepare prePrepare commands = .ok (next, actions)) :
    Outcome replica (.call (.receive (.prePrepare prePrepare commands)) actions) next := by
  have hdrop : .ok (replica, []) = (.ok (next, actions) : Except Panic _) →
      Outcome replica (.call (.receive (.prePrepare prePrepare commands)) actions) next := by
    intro heq
    obtain ⟨rfl, rfl⟩ := Prod.mk.inj (Except.ok.inj heq)
    exact .drop _
  unfold receivePrePrepare at hcall
  split at hcall
  next => exact hdrop hcall
  next hview =>
    split at hcall
    next block hblock =>
      split at hcall
      next hdigest =>
        obtain ⟨rfl, rfl⟩ := Prod.mk.inj (Except.ok.inj hcall)
        refine .resend (by simpa using hview) hblock hdigest ?_
        intro action hmem
        rcases List.mem_cons.mp hmem with rfl | hrest
        · exact .inl rfl
        · split at hrest
          next hsome => exact .inr ⟨List.mem_singleton.mp hrest, hsome⟩
          next => cases hrest
      next => exact hdrop hcall
    next hnone =>
      rw [bind_eq_ok] at hcall
      obtain ⟨verified, hverify, hcall⟩ := hcall
      dsimp only at hcall
      split at hcall
      next => exact hdrop hcall
      next hpasses =>
        simp only [Bool.or_eq_true, Bool.not_eq_true', decide_eq_true_eq, not_or,
          Bool.not_eq_false, ne_eq, not_not] at hview hpasses
        simp only [handle, ReplicaCore.handle_proposal hnone, ok_bind, Except.ok.injEq,
          Prod.mk.injEq] at hcall
        obtain ⟨rfl, rfl⟩ := hcall
        exact .accept hnone ⟨hview, verified_of_ok hverify hpasses.1⟩ hpasses.2

theorem receivePrepare_outcome {vote : Vote crypto}
    (hcall : replica.receivePrepare vote = .ok next) :
    Outcome replica (.call (.receive (.prepare vote)) []) next := by
  unfold receivePrepare at hcall
  split at hcall
  next =>
    obtain rfl := Except.ok.inj hcall
    exact .drop _
  next hskip =>
    have hview : vote.viewNum = replica.core.viewNum := by
      by_contra hne
      simp [hne] at hskip
    rw [bind_eq_ok] at hcall
    obtain ⟨verified, hverify, hcall⟩ := hcall
    split at hcall
    next hverified =>
      have hadmits : replica.Admits vote vote.viewNum vote.replicaId vote.sig :=
        ⟨hview, verified_of_ok hverify hverified⟩
      dsimp only at hcall
      split at hcall
      next block hblock =>
        split at hcall
        next =>
          obtain rfl := Except.ok.inj hcall
          exact .keepPrepare (.inl rfl)
        next hdigest =>
          rw [bind_eq_ok] at hcall
          obtain ⟨⟨scratch, core, queued⟩, hcheck, heq⟩ := hcall
          obtain rfl := Except.ok.inj heq
          exact .countPrepare hadmits hblock (not_not.mp hdigest)
            (checkPrepareQuorum_outcome hcheck)
      next hnone =>
        obtain rfl := Except.ok.inj hcall
        exact .keepPrepare (.inr ⟨hnone, hadmits, rfl⟩)
    next =>
      obtain rfl := Except.ok.inj hcall
      exact .drop _

theorem receiveCommit_outcome {vote : Vote crypto}
    (hcall : replica.receiveCommit vote = .ok next) :
    Outcome replica (.call (.receive (.commit vote)) []) next := by
  unfold receiveCommit at hcall
  split at hcall
  next =>
    obtain rfl := Except.ok.inj hcall
    exact .drop _
  next hskip =>
    obtain ⟨hview, hopen⟩ := Bool.or_eq_false_iff.mp (Bool.not_eq_true _ ▸ hskip)
    replace hview : vote.viewNum = replica.core.viewNum := by simpa using hview
    rw [bind_eq_ok] at hcall
    obtain ⟨verified, hverify, hcall⟩ := hcall
    split at hcall
    next hverified =>
      have hadmits : replica.Admits vote vote.viewNum vote.replicaId vote.sig :=
        ⟨hview, verified_of_ok hverify hverified⟩
      dsimp only at hcall
      split at hcall
      next block hblock =>
        split at hcall
        next =>
          obtain rfl := Except.ok.inj hcall
          exact .keepCommit (.inl rfl)
        next hdigest =>
          rw [bind_eq_ok] at hcall
          obtain ⟨⟨scratch, core, queued⟩, hcheck, heq⟩ := hcall
          obtain rfl := Except.ok.inj heq
          exact .countCommit hadmits hblock (not_not.mp hdigest)
            (checkCommitQuorum_outcome hcheck) hopen
      next hnone =>
        obtain rfl := Except.ok.inj hcall
        exact .keepCommit (.inr ⟨hnone, hadmits, rfl⟩)
    next =>
      obtain rfl := Except.ok.inj hcall
      exact .drop _

theorem request_outcome {call : Call crypto} {command : Command}
    (hrequest : call = .request command ∨ call = .receive (.request command))
    (hcall : replica.receiveMessage (.request command) = .ok (next, actions)) :
    Outcome replica (.call call actions) next := by
  rw [receiveMessage, bind_eq_ok] at hcall
  obtain ⟨handled, hhandle, heq⟩ := hcall
  obtain ⟨rfl, rfl⟩ := Prod.mk.inj (Except.ok.inj heq)
  rw [handle, bind_eq_ok] at hhandle
  obtain ⟨⟨core, queued⟩, hhandle, heq⟩ := hhandle
  obtain rfl := Except.ok.inj heq
  obtain ⟨hcore, hflat⟩ := ReplicaCore.request_outcome hhandle
  exact .request hcore hflat hhandle hrequest

theorem tick_outcome (hcall : replica.tick = .ok (next, actions)) :
    Outcome replica (.call .tick actions) next := by
  unfold tick at hcall
  dsimp only at hcall
  split at hcall
  next =>
    obtain ⟨rfl, rfl⟩ := Prod.mk.inj (Except.ok.inj hcall)
    exact .tick (by simp)
  next =>
    rw [bind_eq_ok] at hcall
    obtain ⟨resent, hresend, heq⟩ := hcall
    obtain ⟨rfl, rfl⟩ := Prod.mk.inj (Except.ok.inj heq)
    refine .tick fun action haction => ?_
    obtain ⟨sent, hsent, hmem⟩ := List.mem_flatten.mp haction
    obtain ⟨blockNum, -, hblock⟩ := mapM_of_mem hresend hsent
    unfold resendPrePrepare at hblock
    split at hblock
    next =>
      obtain rfl := Except.ok.inj hblock
      cases hmem
    next =>
      split at hblock
      next => cases hblock
      next block _ =>
        obtain rfl := Except.ok.inj hblock
        exact ⟨_, _, List.mem_singleton.mp hmem⟩

theorem perform_outcome {action : ReplicaCoreAction crypto} {rest : ReplicaCoreActions crypto}
    (hqueue : replica.coreActions = action :: rest)
    (hperform : perform { replica with coreActions := rest } action = .ok (next, actions)) :
    Outcome replica (.perform action actions) next := by
  cases action with
  | propose blockNum commands =>
      simp only [perform, performPropose, bind_eq_ok] at hperform
      obtain ⟨proposed, hhandle, heq⟩ := hperform
      obtain ⟨rfl, rfl⟩ := Prod.mk.inj (Except.ok.inj heq)
      rw [handle, bind_eq_ok] at hhandle
      obtain ⟨⟨core, queued⟩, hhandle, heq⟩ := hhandle
      obtain rfl := Except.ok.inj heq
      refine .propose hqueue ?_
      rcases ReplicaCore.proposal_outcome hhandle with htaken | ⟨hnone, hcore, hqueued⟩
      · exact .inl htaken
      · exact .inr ⟨_, rfl, rfl, rfl, hnone, hcore, hqueued⟩
  | prepare blockNum digest =>
      simp only [perform, performPrepare, bind_eq_ok] at hperform
      obtain ⟨⟨scratch, core, queued⟩, hcheck, heq⟩ := hperform
      obtain ⟨rfl, rfl⟩ := Prod.mk.inj (Except.ok.inj heq)
      exact .prepare hqueue
        (@checkPrepareQuorum_outcome _ { replica with coreActions := rest } _ _ _ _ _ hcheck)
  | commit blockNum =>
      simp only [perform, performCommit] at hperform
      split at hperform
      next => cases hperform
      next => cases hperform
      next scratch block hscratch hblock =>
        rw [bind_eq_ok] at hperform
        obtain ⟨⟨scratch', core, queued⟩, hcheck, heq⟩ := hperform
        obtain ⟨rfl, rfl⟩ := Prod.mk.inj (Except.ok.inj heq)
        have hat : replica.scratchAt blockNum = scratch := by
          rw [scratchAt, Std.ExtTreeMap.getD_eq_getD_getElem?, hscratch, Option.getD_some]
        refine .commit hqueue hblock ?_
        rw [hat]
        exact @checkCommitQuorum_outcome _ { replica with coreActions := rest } _ _ _ _ _ hcheck
  | finalize blockNum =>
      simp only [perform, performFinalize] at hperform
      split at hperform
      next => cases hperform
      next =>
        split at hperform
        next => cases hperform
        next block _ =>
          obtain ⟨rfl, rfl⟩ := Prod.mk.inj (Except.ok.inj hperform)
          exact .finalize hqueue
  | forward replicaId command =>
      obtain ⟨rfl, rfl⟩ := Prod.mk.inj (Except.ok.inj hperform)
      exact .forward hqueue
  | enterView =>
      obtain ⟨rfl, rfl⟩ := Prod.mk.inj (Except.ok.inj hperform)
      exact .enterView hqueue
  | viewChange _ _ => cases hperform
  | newView _ _ _ => cases hperform

/-- Whatever the replica, a step that returns has one of the outcomes. -/
theorem Step.outcome (hstep : Step replica event next) : Outcome replica event next := by
  cases hstep with
  | @call call _ actions hidle hcall =>
      cases call with
      | request command => exact request_outcome (.inl rfl) hcall
      | tick => exact tick_outcome hcall
      | receive message =>
          cases message with
          | request command => exact request_outcome (.inr rfl) hcall
          | prePrepare prePrepare commands => exact receivePrePrepare_outcome hcall
          | prepare vote =>
              simp only [Replica.call, receiveMessage, bind_eq_ok] at hcall
              obtain ⟨received, hreceive, heq⟩ := hcall
              obtain ⟨rfl, rfl⟩ := Prod.mk.inj (Except.ok.inj heq)
              exact receivePrepare_outcome hreceive
          | commit vote =>
              simp only [Replica.call, receiveMessage, bind_eq_ok] at hcall
              obtain ⟨received, hreceive, heq⟩ := hcall
              obtain ⟨rfl, rfl⟩ := Prod.mk.inj (Except.ok.inj heq)
              exact receiveCommit_outcome hreceive
  | perform hqueue hperform => exact perform_outcome hqueue hperform

end Replica

end BftKit.Pbft
