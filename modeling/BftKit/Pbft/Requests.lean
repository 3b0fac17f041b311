import BftKit.CommandPool.Covering
import BftKit.Pbft.WorkConserving

/-! # Requests at the primary

Every request that a primary has got is covered: a command of the client that is as new has
been proposed, is queued to be proposed, or waits in the pool. The pool of a primary only
ever hears of commits of what it has handed out itself.
-/

namespace BftKit.Pbft

open Foundation CommandPool

variable {crypto : Crypto}

/-- The command that a core event asks for. -/
def ReplicaCoreEvent.requested? : ReplicaCoreEvent crypto → Option Command
  | .request command => some command
  | .proposal _ _ | .prepareQuorum _ _ | .commitQuorum _ _ | .viewExpired
  | .viewChangeQuorum _ _ | .enterView _ _ _ => none

/-! ## The core -/

namespace ReplicaCore

variable {core core' : ReplicaCore crypto} {actions : ReplicaCoreActions crypto}
  {event : ReplicaCoreEvent crypto} {log pushed : List Command}

@[simp] theorem proposals_cons_finalize (blockNum : Nat) :
    proposals (.finalize blockNum :: actions) = proposals actions :=
  rfl

@[simp] theorem proposals_cons_propose (blockNum : Nat) (commands : List Command) :
    proposals (.propose blockNum commands :: actions) = commands :: proposals actions :=
  rfl

theorem proposals_append (before after : ReplicaCoreActions crypto) :
    proposals (before ++ after) = proposals before ++ proposals after :=
  List.filterMap_append

/-- What is proposed leaves the pool. -/
theorem proposeLoop_accounts {rounds : Nat} (h : Accounts log pushed core.pool)
    (hloop : core.proposeLoop rounds = .ok (core', actions)) :
    Accounts (log ++ (proposals actions).flatten) pushed core'.pool := by
  induction rounds generalizing core actions log with
  | zero =>
      obtain ⟨rfl, rfl⟩ := Prod.mk.inj (Except.ok.inj hloop)
      rwa [show proposals ([] : ReplicaCoreActions crypto) = [] from rfl, List.flatten_nil,
        List.append_nil]
  | succ rounds ih =>
      simp only [proposeLoop, bind_eq_ok] at hloop
      obtain ⟨can, -, hloop⟩ := hloop
      split at hloop
      · simp only [bind_eq_ok] at hloop
        obtain ⟨⟨pool, batch⟩, hclose, hloop⟩ := hloop
        have hnext := h.step (.closeBatch hclose) (by simp)
        simp only [Event.returned, Event.pushed?, Option.toList_none, List.append_nil] at hnext
        cases batch with
        | none =>
            obtain ⟨rfl, rfl⟩ := Prod.mk.inj (Except.ok.inj hloop)
            exact hnext
        | some commands =>
            simp only [bind_eq_ok] at hloop
            obtain ⟨⟨final, rest⟩, hrest, heq⟩ := hloop
            obtain ⟨rfl, rfl⟩ := Prod.mk.inj (Except.ok.inj heq)
            have hfinal := @ih { core with pool, proposeNum := core.proposeNum + 1 } rest _ hnext
              hrest
            rwa [proposals_cons_propose, List.flatten_cons, ← List.append_assoc]
      · obtain ⟨rfl, rfl⟩ := Prod.mk.inj (Except.ok.inj hloop)
        rwa [show proposals ([] : ReplicaCoreActions crypto) = [] from rfl, List.flatten_nil,
          List.append_nil]

/-- Batches are not empty, if commands fit into them. -/
theorem proposeLoop_ne_nil {rounds : Nat} (hsize : 0 < core.config.maxBatchSize)
    (hloop : core.proposeLoop rounds = .ok (core', actions)) :
    ∀ commands ∈ proposals actions, commands ≠ [] := by
  induction rounds generalizing core actions with
  | zero =>
      obtain ⟨-, rfl⟩ := Prod.mk.inj (Except.ok.inj hloop)
      simp [proposals]
  | succ rounds ih =>
      simp only [proposeLoop, bind_eq_ok] at hloop
      obtain ⟨can, -, hloop⟩ := hloop
      split at hloop
      · simp only [bind_eq_ok] at hloop
        obtain ⟨⟨pool, batch⟩, hclose, hloop⟩ := hloop
        cases batch with
        | none =>
            obtain ⟨-, rfl⟩ := Prod.mk.inj (Except.ok.inj hloop)
            simp [proposals]
        | some commands =>
            simp only [bind_eq_ok] at hloop
            obtain ⟨⟨final, rest⟩, hrest, heq⟩ := hloop
            obtain ⟨rfl, rfl⟩ := Prod.mk.inj (Except.ok.inj heq)
            rw [proposals_cons_propose, List.forall_mem_cons]
            exact ⟨CommandPool.closeBatch_ne_nil hclose hsize,
              @ih { core with pool, proposeNum := core.proposeNum + 1 } rest hsize hrest⟩
      · obtain ⟨-, rfl⟩ := Prod.mk.inj (Except.ok.inj hloop)
        simp [proposals]

theorem finalizeLoop_accounts {rounds : Nat} (h : Accounts log pushed core.pool)
    (hblocks : ∀ (blockNum : Nat) (block : Block crypto), core.blocks[blockNum]? = some block →
      ∀ command ∈ block.commands, command ∈ log)
    (hloop : core.finalizeLoop rounds = .ok (core', actions)) : Accounts log pushed core'.pool := by
  induction rounds generalizing core actions with
  | zero =>
      obtain ⟨rfl, -⟩ := Prod.mk.inj (Except.ok.inj hloop)
      exact h
  | succ rounds ih =>
      unfold finalizeLoop at hloop
      split at hloop
      · obtain ⟨rfl, -⟩ := Prod.mk.inj (Except.ok.inj hloop)
        exact h
      next block hblock =>
        split at hloop
        · simp only [bind_eq_ok] at hloop
          obtain ⟨pool, hcommit, ⟨final, rest⟩, hrest, heq⟩ := hloop
          obtain ⟨rfl, -⟩ := Prod.mk.inj (Except.ok.inj heq)
          have hpool := h.commitAll (hblocks _ block hblock) hcommit
          exact @ih { core with pool, finalizeNum := core.finalizeNum + 1 } rest hpool hblocks hrest
        · obtain ⟨rfl, -⟩ := Prod.mk.inj (Except.ok.inj hloop)
          exact h

/-- Finalizing proposes nothing. -/
theorem finalizeLoop_proposals {rounds : Nat}
    (hloop : core.finalizeLoop rounds = .ok (core', actions)) : proposals actions = [] := by
  induction rounds generalizing core core' actions with
  | zero =>
      obtain ⟨-, rfl⟩ := Prod.mk.inj (Except.ok.inj hloop)
      rfl
  | succ rounds ih =>
      unfold finalizeLoop at hloop
      split at hloop
      · obtain ⟨-, rfl⟩ := Prod.mk.inj (Except.ok.inj hloop)
        rfl
      · split at hloop
        · simp only [bind_eq_ok] at hloop
          obtain ⟨pool, -, ⟨final, rest⟩, hrest, heq⟩ := hloop
          obtain ⟨-, rfl⟩ := Prod.mk.inj (Except.ok.inj heq)
          rw [proposals_cons_finalize]
          exact ih hrest
        · obtain ⟨-, rfl⟩ := Prod.mk.inj (Except.ok.inj hloop)
          rfl

/-- Whatever a primary handles, its pool accounts for what it is asked for. -/
theorem handle_accounts (h : Accounts log pushed core.pool)
    (hblocks : ∀ (blockNum : Nat) (block : Block crypto), core.blocks[blockNum]? = some block →
      ∀ command ∈ block.commands, command ∈ log)
    (hprimary : core.isPrimary = true) (hevent : event.MainPath)
    (hhandle : core.handle event = .ok (core', actions)) :
    Accounts (log ++ (proposals actions).flatten) (pushed ++ event.requested?.toList)
      core'.pool := by
  have hsame : Accounts (log ++ (proposals ([] : ReplicaCoreActions crypto)).flatten)
      (pushed ++ []) core.pool := by
    rwa [List.append_nil, show proposals ([] : ReplicaCoreActions crypto) = [] from rfl,
      List.flatten_nil, List.append_nil]
  cases event with
  | request command =>
      simp only [handle, bind_eq_ok] at hhandle
      obtain ⟨⟨pool, accepted⟩, hpush, hhandle⟩ := hhandle
      have hpool := h.step (.push hpush) (by simp)
      simp only [Event.returned, Event.pushed?, Option.toList_some, List.append_nil] at hpool
      have hprimary' : isPrimary { core with pool } = true := hprimary
      simp only [hprimary', if_true] at hhandle
      exact @proposeLoop_accounts _ { core with pool } _ _ _ _ _ hpool hhandle
  | proposal blockNum block =>
      simp only [handle] at hhandle
      split at hhandle
      · obtain ⟨rfl, rfl⟩ := Prod.mk.inj (Except.ok.inj hhandle)
        exact hsame
      · obtain ⟨rfl, rfl⟩ := Prod.mk.inj (Except.ok.inj hhandle)
        have hprimary' : isPrimary { core with blocks := core.blocks.insert blockNum block } =
            true := hprimary
        simpa [hprimary', ReplicaCoreEvent.requested?] using hsame
  | prepareQuorum blockNum quorum =>
      simp only [handle] at hhandle
      split at hhandle
      · cases hhandle
      · split at hhandle
        · cases hhandle
        · obtain ⟨rfl, rfl⟩ := Prod.mk.inj (Except.ok.inj hhandle)
          exact hsame
  | commitQuorum blockNum quorum =>
      simp only [handle] at hhandle
      split at hhandle
      · cases hhandle
      next block hblock =>
        split at hhandle
        · cases hhandle
        · simp only [bind_eq_ok] at hhandle
          obtain ⟨⟨middle, finalized⟩, hloop, ⟨last, proposed⟩, hpropose, heq⟩ := hhandle
          obtain ⟨rfl, rfl⟩ := Prod.mk.inj (Except.ok.inj heq)
          have hmiddle := @finalizeLoop_accounts _ { core with
              blocks := core.blocks.insert blockNum { block with commitQuorum := some quorum } }
            _ _ _ _ _ h (by
              intro other stored hstored
              rw [Std.ExtTreeMap.getElem?_insert] at hstored
              split at hstored
              · obtain rfl := Option.some.inj hstored
                exact hblocks _ block hblock
              · exact hblocks other stored hstored) hloop
          have hlast := proposeLoop_accounts hmiddle hpropose
          rwa [proposals_append, finalizeLoop_proposals hloop, List.nil_append,
            ReplicaCoreEvent.requested?,
            Option.toList_none, List.append_nil]
  | viewExpired | viewChangeQuorum | enterView => exact absurd hevent id

/-- No event makes an empty proposal. -/
theorem handle_ne_nil (hsize : 0 < core.config.maxBatchSize) (hevent : event.MainPath)
    (hhandle : core.handle event = .ok (core', actions)) :
    ∀ commands ∈ proposals actions, commands ≠ [] := by
  cases event with
  | request command =>
      simp only [handle, bind_eq_ok] at hhandle
      obtain ⟨⟨pool, accepted⟩, -, hhandle⟩ := hhandle
      split at hhandle
      · exact @proposeLoop_ne_nil _ { core with pool } _ _ _ hsize hhandle
      · obtain ⟨-, rfl⟩ := Prod.mk.inj (Except.ok.inj hhandle)
        simp [proposals, ReplicaCoreAction.proposal?]
  | proposal blockNum block =>
      simp only [handle] at hhandle
      split at hhandle
      · obtain ⟨-, rfl⟩ := Prod.mk.inj (Except.ok.inj hhandle)
        simp [proposals]
      · obtain ⟨-, rfl⟩ := Prod.mk.inj (Except.ok.inj hhandle)
        split <;> simp [proposals, ReplicaCoreAction.proposal?]
  | prepareQuorum blockNum quorum =>
      simp only [handle] at hhandle
      split at hhandle
      · cases hhandle
      · split at hhandle
        · cases hhandle
        · obtain ⟨-, rfl⟩ := Prod.mk.inj (Except.ok.inj hhandle)
          simp [proposals, ReplicaCoreAction.proposal?]
  | commitQuorum blockNum quorum =>
      simp only [handle] at hhandle
      split at hhandle
      · cases hhandle
      · split at hhandle
        · cases hhandle
        · simp only [bind_eq_ok] at hhandle
          obtain ⟨⟨middle, finalized⟩, hloop, ⟨last, proposed⟩, hpropose, heq⟩ := hhandle
          obtain ⟨-, rfl⟩ := Prod.mk.inj (Except.ok.inj heq)
          rw [proposals_append, finalizeLoop_proposals hloop, List.nil_append]
          obtain ⟨hconfig, -⟩ := finalizeLoop_frame hloop
          dsimp only at hconfig
          exact proposeLoop_ne_nil (by rwa [hconfig]) hpropose
  | viewExpired | viewChangeQuorum | enterView => exact absurd hevent id

end ReplicaCore

/-! ## The replica -/

namespace Replica

variable {config : ReplicaCoreConfig} {history : List (Event crypto)}
  {replica next : Replica crypto} {event : Event crypto} {log pushed : List Command}

/-- The command that an event asks for, as a client's request or a forwarded one. -/
def Event.requested? : Event crypto → Option Command
  | .call (.request command) _ | .call (.receive (.request command)) _ => some command
  | .call (.receive (.prePrepare _ _)) _ | .call (.receive (.prepare _)) _
  | .call (.receive (.commit _)) _ | .call .tick _ | .perform _ _ => none

/-- A step passes the core an event, and queues what the core answers. -/
def Hands (replica : Replica crypto) (coreEvent : ReplicaCoreEvent crypto) (event : Event crypto)
    (next : Replica crypto) : Prop :=
  coreEvent.MainPath ∧ coreEvent.requested? = event.requested? ∧
    ∃ actions, replica.core.handle coreEvent = .ok (next.core, actions) ∧
      event.performed?.toList ++ next.coreActions = replica.coreActions ++ actions

/-- A step leaves the pool alone, and queues nothing to propose. -/
def Spares (replica : Replica crypto) (event : Event crypto) (next : Replica crypto) : Prop :=
  next.core.pool = replica.core.pool ∧ event.requested? = none ∧
    proposals (event.performed?.toList ++ next.coreActions) = proposals replica.coreActions

theorem checkCommitQuorum_hands {blockNum : Nat} {scratch scratch' : BlockScratch crypto}
    {core core' : ReplicaCore crypto} {actions : ReplicaCoreActions crypto}
    (hcheck : checkCommitQuorum blockNum scratch core = .ok (scratch', core', actions)) :
    core' = core ∧ actions = [] ∨
      ∃ quorum, core.handle (.commitQuorum blockNum quorum) = .ok (core', actions) := by
  unfold checkCommitQuorum at hcheck
  split at hcheck
  · simp only [bind_eq_ok] at hcheck
    obtain ⟨quorumSize, -, hcheck⟩ := hcheck
    split at hcheck
    · simp only [bind_eq_ok] at hcheck
      obtain ⟨⟨handled, queued⟩, hhandle, heq⟩ := hcheck
      cases heq
      exact .inr ⟨_, hhandle⟩
    · cases hcheck
      exact .inl ⟨rfl, rfl⟩
  · cases hcheck
    exact .inl ⟨rfl, rfl⟩

theorem receiveCommit_hands {vote : Vote crypto} (hcall : replica.receiveCommit vote = .ok next) :
    next.core = replica.core ∧ next.coreActions = replica.coreActions ∨
      ∃ quorum actions, replica.core.handle (.commitQuorum vote.blockNum quorum) =
        .ok (next.core, actions) ∧ next.coreActions = replica.coreActions ++ actions := by
  unfold receiveCommit at hcall
  split at hcall
  · obtain rfl := Except.ok.inj hcall
    exact .inl ⟨rfl, rfl⟩
  · simp only [bind_eq_ok] at hcall
    obtain ⟨verified, -, hcall⟩ := hcall
    split at hcall
    · split at hcall
      · split at hcall
        · obtain rfl := Except.ok.inj hcall
          exact .inl ⟨rfl, rfl⟩
        · simp only [bind_eq_ok] at hcall
          obtain ⟨⟨scratch, core, queued⟩, hcheck, heq⟩ := hcall
          obtain rfl := Except.ok.inj heq
          rcases checkCommitQuorum_hands hcheck with ⟨rfl, rfl⟩ | ⟨quorum, hhandle⟩
          · exact .inl ⟨rfl, List.append_nil _⟩
          · exact .inr ⟨quorum, queued, hhandle, rfl⟩
      · obtain rfl := Except.ok.inj hcall
        exact .inl ⟨rfl, rfl⟩
    · obtain rfl := Except.ok.inj hcall
      exact .inl ⟨rfl, rfl⟩

theorem performCommit_hands {blockNum : Nat} {actions : List (Action crypto)}
    (hperform : replica.performCommit blockNum = .ok (next, actions)) :
    next.core = replica.core ∧ next.coreActions = replica.coreActions ∨
      ∃ quorum actions, replica.core.handle (.commitQuorum blockNum quorum) =
        .ok (next.core, actions) ∧ next.coreActions = replica.coreActions ++ actions := by
  unfold performCommit at hperform
  split at hperform
  · cases hperform
  · cases hperform
  · simp only [bind_eq_ok] at hperform
    obtain ⟨⟨scratch, core, queued⟩, hcheck, heq⟩ := hperform
    obtain ⟨rfl, -⟩ := Prod.mk.inj (Except.ok.inj heq)
    rcases checkCommitQuorum_hands hcheck with ⟨rfl, rfl⟩ | ⟨quorum, hhandle⟩
    · exact .inl ⟨rfl, List.append_nil _⟩
    · exact .inr ⟨quorum, queued, hhandle, rfl⟩

theorem receiveRequest_hands {command : Command} {actions : List (Action crypto)}
    (hcall : replica.receiveMessage (.request command) = .ok (next, actions)) :
    ∃ queued, replica.core.handle (.request command) = .ok (next.core, queued) ∧
      next.coreActions = replica.coreActions ++ queued := by
  simp only [receiveMessage, handle, bind_eq_ok] at hcall
  obtain ⟨handled, ⟨⟨core, queued⟩, hhandle, heq⟩, hreturn⟩ := hcall
  obtain rfl := Except.ok.inj heq
  obtain ⟨rfl, -⟩ := Prod.mk.inj (Except.ok.inj hreturn)
  exact ⟨queued, hhandle, rfl⟩

theorem PrepareCheck.spares {blockNum : Nat} {block : Block crypto} {scratch : BlockScratch crypto}
    (hcheck : PrepareCheck replica blockNum block scratch next) :
    next.core.pool = replica.core.pool ∧
      proposals next.coreActions = proposals replica.coreActions := by
  cases hcheck with
  | waiting => exact ⟨rfl, rfl⟩
  | prepared => exact ⟨rfl, by simp [proposals, ReplicaCoreAction.proposal?]⟩

/-- A step either has the core handle an event, or leaves the pool alone. -/
theorem Step.hands (hstep : Step replica event next) (heffect : Effect log replica event next) :
    (∃ coreEvent, Hands replica coreEvent event next) ∨ Spares replica event next := by
  cases hstep with
  | @call call next actions hidle hcall =>
      cases call with
      | request command =>
          obtain ⟨queued, hhandle, hqueue⟩ := receiveRequest_hands hcall
          exact .inl ⟨.request command, trivial, rfl, queued, hhandle, hqueue⟩
      | tick =>
          cases heffect with
          | request hcall' => rcases hcall' with heq | heq <;> cases heq
          | tick => exact .inr ⟨rfl, rfl, rfl⟩
      | receive message =>
          cases message with
          | request command =>
              obtain ⟨queued, hhandle, hqueue⟩ := receiveRequest_hands hcall
              exact .inl ⟨.request command, trivial, rfl, queued, hhandle, hqueue⟩
          | prePrepare sent commands =>
              cases heffect with
              | drop | resend => exact .inr ⟨rfl, rfl, rfl⟩
              | request hcall' => rcases hcall' with heq | heq <;> cases heq
              | accept =>
                  refine .inr ⟨rfl, rfl, ?_⟩
                  simp only [Event.performed?, Option.toList_none, List.nil_append]
                  split <;> simp [proposals, ReplicaCoreAction.proposal?]
          | prepare vote =>
              cases heffect with
              | drop | keepPrepare => exact .inr ⟨rfl, rfl, rfl⟩
              | request hcall' => rcases hcall' with heq | heq <;> cases heq
              | countPrepare _ _ _ _ hcheck =>
                  obtain ⟨hpool, hqueue⟩ := hcheck.spares
                  exact .inr ⟨hpool, rfl, hqueue⟩
          | commit vote =>
              simp only [Replica.call, receiveMessage, bind_eq_ok] at hcall
              obtain ⟨next', hreceive, heq⟩ := hcall
              obtain ⟨rfl, -⟩ := Prod.mk.inj (Except.ok.inj heq)
              rcases receiveCommit_hands hreceive with
                ⟨hcore, hqueue⟩ | ⟨quorum, queued, hhandle, hqueue⟩
              · exact .inr ⟨congrArg ReplicaCore.pool hcore, rfl, congrArg proposals hqueue⟩
              · exact .inl ⟨.commitQuorum _ quorum, trivial, rfl, queued, hhandle, hqueue⟩
  | @perform action rest next actions hqueue hperform =>
      cases action with
      | propose blockNum commands =>
          cases heffect with
          | propose hqueue' =>
              obtain ⟨-, rfl⟩ := List.cons.inj (hqueue.symm.trans hqueue')
              exact .inr ⟨rfl, rfl, by rw [hqueue]; rfl⟩
      | prepare blockNum digest =>
          cases heffect with
          | prepare hqueue' _ _ _ hcheck =>
              obtain ⟨-, rfl⟩ := List.cons.inj (hqueue.symm.trans hqueue')
              obtain ⟨hpool, hkept⟩ := hcheck.spares
              exact .inr ⟨hpool, rfl, by rw [hqueue]; exact hkept⟩
      | commit blockNum =>
          rcases performCommit_hands hperform with
            ⟨hcore, hkept⟩ | ⟨quorum, queued, hhandle, hkept⟩
          · refine .inr ⟨congrArg ReplicaCore.pool hcore, rfl, ?_⟩
            rw [hqueue, hkept]
            rfl
          · refine .inl ⟨.commitQuorum _ quorum, trivial, rfl, queued, hhandle, ?_⟩
            rw [hqueue, hkept]
            rfl
      | finalize blockNum =>
          cases heffect with
          | finalize hqueue' =>
              obtain ⟨-, rfl⟩ := List.cons.inj (hqueue.symm.trans hqueue')
              exact .inr ⟨rfl, rfl, by rw [hqueue]; rfl⟩
      | forward replicaId command =>
          obtain ⟨rfl, -⟩ := Prod.mk.inj (Except.ok.inj hperform)
          exact .inr ⟨rfl, rfl, by rw [hqueue]; rfl⟩
      | enterView =>
          obtain ⟨rfl, -⟩ := Prod.mk.inj (Except.ok.inj hperform)
          exact .inr ⟨rfl, rfl, by rw [hqueue]; rfl⟩
      | viewChange | newView => cases hperform

/-- The commands that a replica has proposed or queued to propose. -/
def handedOut (history : List (Event crypto)) (replica : Replica crypto) : List Command :=
  (proposals (performedIn history ++ replica.coreActions)).flatten

/-- The commands that a replica has been asked for. -/
def requests (history : List (Event crypto)) : List Command :=
  history.filterMap Event.requested?

theorem requests_concat : requests (history ++ [event]) =
    requests history ++ event.requested?.toList := by
  rw [requests, List.filterMap_append, requests]
  cases hevent : event.requested? <;> simp [hevent]

/-- A primary accounts for all requests. -/
theorem LocalRun.accounts (hrun : LocalRun config history replica)
    (hprimary : config.spec.primary 0 = config.id) :
    Accounts (handedOut history replica) (requests history) replica.core.pool := by
  induction hrun with
  | start hnew =>
      simp only [Replica.new, bind_eq_ok] at hnew
      obtain ⟨cryptoConfig, -, heq⟩ := hnew
      obtain rfl := Except.ok.inj heq
      exact Accounts.new
  | @step history replica event next hprev hstep ih =>
      have h := (Accountable.of_run hprev).coherent
      obtain ⟨lists, -, heffect⟩ := h.effect hstep.1
      have hperformed : ∀ queue, performedIn (history ++ [event]) ++ queue =
          performedIn history ++ (event.performed?.toList ++ queue) := by
        intro queue
        rw [performedIn_concat, List.append_assoc]
      rw [handedOut, hperformed, requests_concat]
      rcases hstep.1.hands heffect with
        ⟨coreEvent, hpath, hrequested, actions, hhandle, hqueue⟩ | ⟨hpool, hnone, hkept⟩
      · rw [hqueue, ← hrequested, ← List.append_assoc, ReplicaCore.proposals_append,
          List.flatten_append]
        refine ReplicaCore.handle_accounts ih ?_
          (h.isPrimary_eq.trans (beq_iff_eq.mpr hprimary)) hpath hhandle
        -- a primary stores what it has proposed
        intro blockNum block hblock command hcommand
        obtain ⟨hpos, hle⟩ :=
          h.bounds (h.isPrimary_eq.trans (beq_iff_eq.mpr hprimary)) hblock
        obtain ⟨stored, hstored, hproposal⟩ :=
          h.stored (h.isPrimary_eq.trans (beq_iff_eq.mpr hprimary)) hpos hle
        obtain rfl := Option.some.inj (hblock.symm.trans hstored)
        refine List.mem_flatten.mpr ⟨block.commands, ?_, hcommand⟩
        rw [ReplicaCore.proposals_append]
        exact List.mem_append_left _ (List.mem_of_getElem? hproposal)
      · rw [ReplicaCore.proposals_append, hkept, ← ReplicaCore.proposals_append, hnone, hpool,
          Option.toList_none, List.append_nil]
        exact ih

/-- What a replica proposes is never empty, if commands fit into a batch. -/
theorem LocalRun.ne_nil (hrun : LocalRun config history replica) (hsize : 0 < config.maxBatchSize) :
    ∀ commands ∈ proposals (performedIn history ++ replica.coreActions), commands ≠ [] := by
  induction hrun with
  | start hnew =>
      simp only [Replica.new, bind_eq_ok] at hnew
      obtain ⟨cryptoConfig, -, heq⟩ := hnew
      obtain rfl := Except.ok.inj heq
      simp [proposals]
  | @step history replica event next hprev hstep ih =>
      have h := (Accountable.of_run hprev).coherent
      obtain ⟨lists, -, heffect⟩ := h.effect hstep.1
      rw [performedIn_concat, List.append_assoc, ReplicaCore.proposals_append]
      rw [ReplicaCore.proposals_append] at ih
      rcases hstep.1.hands heffect with
        ⟨coreEvent, hpath, -, actions, hhandle, hqueue⟩ | ⟨-, -, hkept⟩
      · rw [hqueue, ReplicaCore.proposals_append, ← List.append_assoc]
        rintro commands hcommands
        rcases List.mem_append.mp hcommands with hold | hnew
        · exact ih commands hold
        · exact ReplicaCore.handle_ne_nil (by rwa [h.configured]) hpath hhandle commands hnew
      · rwa [hkept]

/-- A primary makes at most one proposal for each request. -/
theorem LocalRun.length_proposals (hrun : LocalRun config history replica)
    (hprimary : config.spec.primary 0 = config.id) (hsize : 0 < config.maxBatchSize) :
    (proposals (performedIn history)).length ≤ (requests history).length := by
  have hflat : (proposals (performedIn history ++ replica.coreActions)).length ≤
      (handedOut history replica).length := by
    rw [handedOut, List.length_flatten, ← List.length_map (f := List.length)]
    apply List.length_le_sum_of_one_le
    rw [List.forall_mem_map]
    intro commands hcommands
    exact List.length_pos_of_ne_nil (LocalRun.ne_nil hrun hsize commands hcommands)
  have hle := (LocalRun.accounts hrun hprimary).length_le
  rw [ReplicaCore.proposals_append, List.length_append] at hflat
  omega

end Replica

end BftKit.Pbft
