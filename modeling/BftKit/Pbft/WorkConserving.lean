import BftKit.Pbft.Receive
import BftKit.Pbft.Replay

/-! # A primary at work

A primary uses its window: as long as it can propose, no command is left waiting in its
pool. Commands come in with requests and room comes with commits, and after both of them
the core proposes what it can.
-/

namespace BftKit.Pbft

open Foundation

variable {crypto : Crypto}

/-- The events that a replica passes on to its core. -/
def ReplicaCoreEvent.MainPath : ReplicaCoreEvent crypto → Prop
  | .request _ | .proposal _ _ | .prepareQuorum _ _ | .commitQuorum _ _ => True
  | .viewExpired | .viewChangeQuorum _ _ | .enterView _ _ _ => False

namespace ReplicaCore

variable {core core' : ReplicaCore crypto} {actions : ReplicaCoreActions crypto}
  {event : ReplicaCoreEvent crypto}

/-- The window holds, and is used up as long as commands wait. -/
structure Busy (core : ReplicaCore crypto) : Prop where
  window : core.proposeNum ≤ core.finalizeNum + core.config.maxNumInflight
  conserving : core.pool.pending = [] ∨
    core.proposeNum = core.finalizeNum + core.config.maxNumInflight

/-- Proposing goes on until nothing waits or the window is full. -/
theorem proposeLoop_busy {rounds : Nat} (hprimary : core.isPrimary = true)
    (hwindow : core.proposeNum ≤ core.finalizeNum + core.config.maxNumInflight)
    (hrounds : core.config.maxNumInflight < core.proposeNum - core.finalizeNum + rounds)
    (hloop : core.proposeLoop rounds = .ok (core', actions)) : core'.Busy := by
  induction rounds generalizing core actions with
  | zero => omega
  | succ rounds ih =>
      simp only [proposeLoop, canPropose, hprimary, if_true, bind_eq_ok] at hloop
      obtain ⟨can, hcan, hloop⟩ := hloop
      split at hcan
      next hle =>
        obtain rfl := Except.ok.inj hcan
        by_cases hroom : core.proposeNum - core.finalizeNum < core.config.maxNumInflight
        · simp only [hroom, decide_true, if_true, bind_eq_ok] at hloop
          obtain ⟨⟨pool, batch⟩, hclose, hloop⟩ := hloop
          cases batch with
          | none =>
              obtain ⟨rfl, -⟩ := Prod.mk.inj (Except.ok.inj hloop)
              exact ⟨hwindow, .inl (CommandPool.closeBatch_none hclose)⟩
          | some commands =>
              simp only [bind_eq_ok] at hloop
              obtain ⟨⟨final, rest⟩, hrest, heq⟩ := hloop
              obtain ⟨rfl, -⟩ := Prod.mk.inj (Except.ok.inj heq)
              refine @ih { core with pool, proposeNum := core.proposeNum + 1 } rest hprimary ?_ ?_
                hrest
              · dsimp only
                omega
              · dsimp only
                omega
        · simp only [hroom, decide_false, Bool.false_eq_true, if_false] at hloop
          obtain ⟨rfl, -⟩ := Prod.mk.inj (Except.ok.inj hloop)
          exact ⟨hwindow, .inr (by omega)⟩
      next => cases hcan

/-- Finalizing leaves everything but the pool alone, and only makes room. -/
theorem finalizeLoop_frame {rounds : Nat}
    (hloop : core.finalizeLoop rounds = .ok (core', actions)) :
    core'.config = core.config ∧ core'.viewNum = core.viewNum ∧
      core'.proposeNum = core.proposeNum ∧ core.finalizeNum ≤ core'.finalizeNum := by
  induction rounds generalizing core actions with
  | zero =>
      obtain ⟨rfl, -⟩ := Prod.mk.inj (Except.ok.inj hloop)
      exact ⟨rfl, rfl, rfl, le_rfl⟩
  | succ rounds ih =>
      unfold finalizeLoop at hloop
      split at hloop
      · obtain ⟨rfl, -⟩ := Prod.mk.inj (Except.ok.inj hloop)
        exact ⟨rfl, rfl, rfl, le_rfl⟩
      · split at hloop
        · simp only [bind_eq_ok] at hloop
          obtain ⟨pool, -, ⟨final, rest⟩, hrest, heq⟩ := hloop
          obtain ⟨rfl, -⟩ := Prod.mk.inj (Except.ok.inj heq)
          obtain ⟨hconfig, hview, hpropose, hfinalize⟩ := ih hrest
          exact ⟨hconfig, hview, hpropose, (Nat.le_succ _).trans hfinalize⟩
        · obtain ⟨rfl, -⟩ := Prod.mk.inj (Except.ok.inj hloop)
          exact ⟨rfl, rfl, rfl, le_rfl⟩

/-- A primary stays busy, whatever its core handles. -/
theorem Busy.handle (h : core.Busy) (hprimary : core.isPrimary = true) (hevent : event.MainPath)
    (hhandle : core.handle event = .ok (core', actions)) : core'.Busy := by
  obtain ⟨hwindow, hconserving⟩ := h
  cases event with
  | request command =>
      simp only [ReplicaCore.handle, bind_eq_ok] at hhandle
      obtain ⟨⟨pool, accepted⟩, -, hhandle⟩ := hhandle
      have hsame : isPrimary { core with pool } = true := hprimary
      simp only [hsame, if_true] at hhandle
      refine @proposeLoop_busy _ { core with pool } _ _ _ hprimary hwindow ?_ hhandle
      dsimp only
      omega
  | proposal blockNum block =>
      simp only [ReplicaCore.handle] at hhandle
      split at hhandle
      · obtain ⟨rfl, -⟩ := Prod.mk.inj (Except.ok.inj hhandle)
        exact ⟨hwindow, hconserving⟩
      · obtain ⟨rfl, -⟩ := Prod.mk.inj (Except.ok.inj hhandle)
        exact ⟨hwindow, hconserving⟩
  | prepareQuorum blockNum quorum =>
      simp only [ReplicaCore.handle] at hhandle
      split at hhandle
      · cases hhandle
      · split at hhandle
        · cases hhandle
        · obtain ⟨rfl, -⟩ := Prod.mk.inj (Except.ok.inj hhandle)
          exact ⟨hwindow, hconserving⟩
  | commitQuorum blockNum quorum =>
      simp only [ReplicaCore.handle] at hhandle
      split at hhandle
      · cases hhandle
      next block hblock =>
        split at hhandle
        · cases hhandle
        · simp only [bind_eq_ok] at hhandle
          obtain ⟨⟨middle, finalized⟩, hloop, ⟨last, proposed⟩, hpropose, heq⟩ := hhandle
          obtain ⟨rfl, -⟩ := Prod.mk.inj (Except.ok.inj heq)
          obtain ⟨hconfig, hview, hnum, hle⟩ := finalizeLoop_frame hloop
          dsimp only at hconfig hview hnum hle
          -- room for new proposals is looked for after finalizing
          refine proposeLoop_busy ((isPrimary_congr hconfig hview).trans hprimary) ?_ ?_ hpropose
          · rw [hconfig, hnum]
            omega
          · rw [hconfig, hnum]
            omega
  | viewExpired | viewChangeQuorum _ _ | enterView _ _ _ => exact absurd hevent id

end ReplicaCore

namespace Replica

variable {config : ReplicaCoreConfig} {history : List (Event crypto)}
  {replica next : Replica crypto} {event : Event crypto}

/-- The core has stayed as it is, or handled one event. -/
def Passed (core core' : ReplicaCore crypto) : Prop :=
  core' = core ∨ ∃ event : ReplicaCoreEvent crypto, event.MainPath ∧
    ∃ actions, core.handle event = .ok (core', actions)

theorem handle_passed (event : ReplicaCoreEvent crypto) (hevent : event.MainPath)
    (hhandle : replica.handle event = .ok next) : Passed replica.core next.core := by
  simp only [handle, bind_eq_ok] at hhandle
  obtain ⟨⟨core, actions⟩, hcore, heq⟩ := hhandle
  obtain rfl := Except.ok.inj heq
  exact .inr ⟨event, hevent, actions, hcore⟩

section

variable {core core' : ReplicaCore crypto} {scratch scratch' : BlockScratch crypto}
  {actions : ReplicaCoreActions crypto} {blockNum : Nat}

theorem checkPrepareQuorum_passed
    (hcheck : checkPrepareQuorum blockNum scratch core = .ok (scratch', core', actions)) :
    Passed core core' := by
  simp only [checkPrepareQuorum, bind_eq_ok] at hcheck
  obtain ⟨count, -, quorumSize, -, hcheck⟩ := hcheck
  split at hcheck
  · simp only [bind_eq_ok] at hcheck
    obtain ⟨⟨handled, queued⟩, hhandle, heq⟩ := hcheck
    cases heq
    exact .inr ⟨.prepareQuorum _ _, trivial, queued, hhandle⟩
  · cases hcheck
    exact .inl rfl

theorem checkCommitQuorum_passed
    (hcheck : checkCommitQuorum blockNum scratch core = .ok (scratch', core', actions)) :
    Passed core core' := by
  unfold checkCommitQuorum at hcheck
  split at hcheck
  · simp only [bind_eq_ok] at hcheck
    obtain ⟨quorumSize, -, hcheck⟩ := hcheck
    split at hcheck
    · simp only [bind_eq_ok] at hcheck
      obtain ⟨⟨handled, queued⟩, hhandle, heq⟩ := hcheck
      cases heq
      exact .inr ⟨.commitQuorum _ _, trivial, queued, hhandle⟩
    · cases hcheck
      exact .inl rfl
  · cases hcheck
    exact .inl rfl

end

/-- What a vote does to the core, the check of its quorum does. -/
theorem receivePrepare_passed {vote : Vote crypto}
    (hcall : replica.receivePrepare vote = .ok next) :
    Passed replica.core next.core := by
  unfold receivePrepare at hcall
  split at hcall
  · obtain rfl := Except.ok.inj hcall
    exact .inl rfl
  · simp only [bind_eq_ok] at hcall
    obtain ⟨verified, -, hcall⟩ := hcall
    split at hcall
    · split at hcall
      · split at hcall
        · obtain rfl := Except.ok.inj hcall
          exact .inl rfl
        · simp only [bind_eq_ok] at hcall
          obtain ⟨⟨scratch, core, queued⟩, hcheck, heq⟩ := hcall
          obtain rfl := Except.ok.inj heq
          exact checkPrepareQuorum_passed hcheck
      · obtain rfl := Except.ok.inj hcall
        exact .inl rfl
    · obtain rfl := Except.ok.inj hcall
      exact .inl rfl

theorem receiveCommit_passed {vote : Vote crypto} (hcall : replica.receiveCommit vote = .ok next) :
    Passed replica.core next.core := by
  unfold receiveCommit at hcall
  split at hcall
  · obtain rfl := Except.ok.inj hcall
    exact .inl rfl
  · simp only [bind_eq_ok] at hcall
    obtain ⟨verified, -, hcall⟩ := hcall
    split at hcall
    · split at hcall
      · split at hcall
        · obtain rfl := Except.ok.inj hcall
          exact .inl rfl
        · simp only [bind_eq_ok] at hcall
          obtain ⟨⟨scratch, core, queued⟩, hcheck, heq⟩ := hcall
          obtain rfl := Except.ok.inj heq
          exact checkCommitQuorum_passed hcheck
      · obtain rfl := Except.ok.inj hcall
        exact .inl rfl
    · obtain rfl := Except.ok.inj hcall
      exact .inl rfl

/-- A call passes one event at most on to the core. -/
theorem call_passed {call : Call crypto} {actions : List (Action crypto)}
    (hcall : replica.call call = .ok (next, actions)) : Passed replica.core next.core := by
  have hrequest : ∀ command, replica.receiveMessage (.request command) = .ok (next, actions) →
      Passed replica.core next.core := by
    intro command hcall
    simp only [receiveMessage, bind_eq_ok] at hcall
    obtain ⟨next', hhandle, heq⟩ := hcall
    obtain ⟨rfl, -⟩ := Prod.mk.inj (Except.ok.inj heq)
    exact handle_passed (.request command) trivial hhandle
  cases call with
  | request command => exact hrequest command hcall
  | tick =>
      simp only [Replica.call, tick] at hcall
      split at hcall
      · obtain ⟨rfl, -⟩ := Prod.mk.inj (Except.ok.inj hcall)
        exact .inl rfl
      · simp only [bind_eq_ok] at hcall
        obtain ⟨resent, -, heq⟩ := hcall
        obtain ⟨rfl, -⟩ := Prod.mk.inj (Except.ok.inj heq)
        exact .inl rfl
  | receive message =>
      cases message with
      | request command => exact hrequest command hcall
      | prePrepare sent commands =>
          simp only [Replica.call, receiveMessage, receivePrePrepare] at hcall
          split at hcall
          · obtain ⟨rfl, -⟩ := Prod.mk.inj (Except.ok.inj hcall)
            exact .inl rfl
          · split at hcall
            · split at hcall
              · obtain ⟨rfl, -⟩ := Prod.mk.inj (Except.ok.inj hcall)
                exact .inl rfl
              · obtain ⟨rfl, -⟩ := Prod.mk.inj (Except.ok.inj hcall)
                exact .inl rfl
            · simp only [bind_eq_ok] at hcall
              obtain ⟨verified, -, hcall⟩ := hcall
              split at hcall
              · obtain ⟨rfl, -⟩ := Prod.mk.inj (Except.ok.inj hcall)
                exact .inl rfl
              · simp only [bind_eq_ok] at hcall
                obtain ⟨next', hhandle, heq⟩ := hcall
                obtain ⟨rfl, -⟩ := Prod.mk.inj (Except.ok.inj heq)
                exact handle_passed (.proposal _ _) trivial hhandle
      | prepare vote =>
          simp only [Replica.call, receiveMessage, bind_eq_ok] at hcall
          obtain ⟨next', hreceive, heq⟩ := hcall
          obtain ⟨rfl, -⟩ := Prod.mk.inj (Except.ok.inj heq)
          exact receivePrepare_passed hreceive
      | commit vote =>
          simp only [Replica.call, receiveMessage, bind_eq_ok] at hcall
          obtain ⟨next', hreceive, heq⟩ := hcall
          obtain ⟨rfl, -⟩ := Prod.mk.inj (Except.ok.inj heq)
          exact receiveCommit_passed hreceive

/-- So does a performed action. -/
theorem perform_passed {action : ReplicaCoreAction crypto} {actions : List (Action crypto)}
    (hperform : replica.perform action = .ok (next, actions)) :
    Passed replica.core next.core := by
  cases action with
  | propose blockNum commands =>
      simp only [perform, performPropose, bind_eq_ok] at hperform
      obtain ⟨next', hhandle, heq⟩ := hperform
      obtain ⟨rfl, -⟩ := Prod.mk.inj (Except.ok.inj heq)
      exact handle_passed (.proposal _ _) trivial hhandle
  | prepare blockNum digest =>
      simp only [perform, performPrepare, bind_eq_ok] at hperform
      obtain ⟨⟨scratch, core, queued⟩, hcheck, heq⟩ := hperform
      obtain ⟨rfl, -⟩ := Prod.mk.inj (Except.ok.inj heq)
      exact checkPrepareQuorum_passed hcheck
  | commit blockNum =>
      simp only [perform, performCommit] at hperform
      split at hperform
      · cases hperform
      · cases hperform
      · simp only [bind_eq_ok] at hperform
        obtain ⟨⟨scratch, core, queued⟩, hcheck, heq⟩ := hperform
        obtain ⟨rfl, -⟩ := Prod.mk.inj (Except.ok.inj heq)
        exact checkCommitQuorum_passed hcheck
  | finalize blockNum =>
      simp only [perform, performFinalize] at hperform
      split at hperform
      · cases hperform
      · split at hperform
        · cases hperform
        · obtain ⟨rfl, -⟩ := Prod.mk.inj (Except.ok.inj hperform)
          exact .inl rfl
  | forward | enterView =>
      obtain ⟨rfl, -⟩ := Prod.mk.inj (Except.ok.inj hperform)
      exact .inl rfl
  | viewChange | newView => cases hperform

theorem Step.passed (hstep : Step replica event next) : Passed replica.core next.core := by
  cases hstep with
  | call _ hcall => exact call_passed hcall
  | perform _ hperform =>
      have hpassed := perform_passed hperform
      exact hpassed

/-! ## Runs of a primary -/

theorem busy_of_new (hnew : Replica.new crypto config = .ok replica) : replica.core.Busy := by
  simp only [Replica.new, bind_eq_ok] at hnew
  obtain ⟨cryptoConfig, -, heq⟩ := hnew
  obtain rfl := Except.ok.inj heq
  exact ⟨Nat.zero_le _, .inl rfl⟩

/-- A primary is busy all along, also between the iterations of its loop. -/
theorem LocalRun.busy (hrun : LocalRun config history replica)
    (hprimary : config.spec.primary 0 = config.id) : replica.core.Busy := by
  induction hrun with
  | start hnew => exact busy_of_new hnew
  | step hprev hstep ih =>
      have hcoherent := (Accountable.of_run hprev).coherent
      have hisPrimary := hcoherent.isPrimary_eq.trans (beq_iff_eq.mpr hprimary)
      rcases hstep.1.passed with heq | ⟨event, hevent, actions, hhandle⟩
      · rw [heq]
        exact ih
      · exact ih.handle hisPrimary hevent hhandle

/-- Only a group smaller than its own fault bound makes a subtraction fail. -/
theorem LocalRun.underflow (hrun : LocalRun config history replica) :
    (∀ call, replica.call call = .error .underflow →
        config.spec.numReplica < config.spec.numFaulty) ∧
      ∀ action rest, replica.coreActions = action :: rest →
        perform { replica with coreActions := rest } action = .error .underflow →
        config.spec.numReplica < config.spec.numFaulty := by
  have h := (Accountable.of_run hrun).coherent
  obtain ⟨lists, -, hissued, -⟩ := h.queue
  have hready := h.ready hissued
  constructor
  · intro call hcall
    have hlawful := call_lawful hready call
    rw [hcall] at hlawful
    exact h.configured ▸ hlawful
  · intro action rest hqueue hperform
    have hlawful := perform_lawful hready hqueue (h.enabled hqueue)
    rw [hperform] at hlawful
    exact h.configured ▸ hlawful

/-- The primary of view 0 holds its window, stores what it has proposed, and leaves no
command waiting while it has room. That its numbers are in order, also in the middle of a
call, keeps the subtraction in `can_propose` from failing. -/
theorem work_conserving (hrun : LocalRun config history replica)
    (hprimary : config.spec.primary 0 = config.id) :
    (replica.core.finalizeNum ≤ replica.core.proposeNum ∧
      replica.core.proposeNum - replica.core.finalizeNum ≤ config.maxNumInflight ∧
      (replica.core.pool.pending = [] ∨
        replica.core.proposeNum - replica.core.finalizeNum = config.maxNumInflight)) ∧
      (∀ call, replica.call call = .error .underflow →
        config.spec.numReplica < config.spec.numFaulty) ∧
      (∀ action rest, replica.coreActions = action :: rest →
        perform { replica with coreActions := rest } action = .error .underflow →
        config.spec.numReplica < config.spec.numFaulty) ∧
      (replica.coreActions = [] → ∀ blockNum, blockNum ∈ replica.core.blocks ↔
        1 ≤ blockNum ∧ blockNum ≤ replica.core.proposeNum) := by
  have h := (Accountable.of_run hrun).coherent
  have hisPrimary := h.isPrimary_eq.trans (beq_iff_eq.mpr hprimary)
  obtain ⟨lists, -, hissued, -⟩ := h.queue
  have hle := (h.ready hissued).window hisPrimary
  obtain ⟨hwindow, hconserving⟩ := LocalRun.busy hrun hprimary
  rw [h.configured] at hwindow hconserving
  obtain ⟨hcalls, hperforms⟩ := LocalRun.underflow hrun
  refine ⟨⟨hle, by omega, hconserving.imp_right fun hfull => by omega⟩, hcalls, hperforms, ?_⟩
  intro hidle blockNum
  obtain ⟨-, hproposed, -⟩ := h.idle hidle
  rw [hproposed]
  constructor
  · intro hmem
    obtain ⟨block, hblock⟩ := Coherent.mem_blocks.mp hmem
    exact h.bounds hisPrimary hblock
  · rintro ⟨hpos, hle⟩
    obtain ⟨block, hblock, -⟩ := h.stored hisPrimary hpos hle
    exact Coherent.mem_blocks.mpr ⟨block, hblock⟩

/-- A primary of four with one block in flight keeps a second client waiting: its window is
full. -/
theorem work_conserving_waiting :
    ∃ (history : List (Event .transparent)) (replica : Replica .transparent),
      replica.core.pool.pending = [Group.ping 1] ∧
      replica.core.proposeNum - replica.core.finalizeNum = 1 ∧
      (1 ∈ replica.core.blocks ∧ 2 ∉ replica.core.blocks) ∧
      LocalRun ((Group.four ∅).config 0) history replica := by
  have hreplay : ∃ run ∈ (Group.four ∅).replay
        [(0, (.request (Group.ping 0) : Call .transparent)), (0, .request (Group.ping 1))],
      (run.2 0).core.pool.pending = [Group.ping 1] ∧ (run.2 0).core.proposeNum = 1 ∧
        (run.2 0).coreActions.isEmpty := by
    decide +kernel
  obtain ⟨⟨history, states⟩, hreplay, hpending, hpropose, hidle⟩ := hreplay
  have hrun := (Group.replay_run hreplay).localRun (by decide : (Group.four ∅).Honest 0)
  obtain ⟨⟨-, -, hconserving⟩, -, -, hblocks⟩ := work_conserving hrun (by decide)
  have hstored := hblocks (List.isEmpty_iff.mp hidle)
  refine ⟨_, _, hpending, ?_, ⟨(hstored 1).mpr ?_, fun hmem => ?_⟩, hrun⟩
  · exact hconserving.resolve_left (by simp [hpending])
  · exact ⟨le_refl _, hpropose.ge⟩
  · have hle := ((hstored 2).mp hmem).2
    rw [hpropose] at hle
    omega

end Replica

end BftKit.Pbft
