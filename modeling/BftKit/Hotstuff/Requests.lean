import BftKit.CommandPool.Covering
import BftKit.Hotstuff.Leader
import BftKit.Hotstuff.Pending

/-! # Requests at the leader

Every request that a leader with a close-loop pool has got is covered: a command of the
client that is as new has been proposed, is about to be, or waits in the pool. The leader
only commits what it has proposed itself.
-/

namespace BftKit.Hotstuff

open Foundation Threshold CommandPool

variable {scheme : ThresholdScheme}

/-- The command that a core event asks for. -/
def ReplicaCoreEvent.requested? : ReplicaCoreEvent scheme → Option Command
  | .request command => some command
  | .proposed _ _ | .proposal _ _ | .quorumCert _ => none

/-- The commands that an event puts in the store of a leader. -/
def ReplicaCoreEvent.joined : ReplicaCoreEvent scheme → List Command
  | .proposed _ block => block.commands
  | .request _ | .proposal _ _ | .quorumCert _ => []

/-- The commands of proposals. -/
def proposedIn (actions : ReplicaCoreActions) : List Command :=
  (proposals actions).flatMap NodeData.commands

theorem proposedIn_append (before after : ReplicaCoreActions) :
    proposedIn (before ++ after) = proposedIn before ++ proposedIn after := by
  rw [proposedIn, proposals_append, List.flatMap_append, proposedIn, proposedIn]

/-! ## The core -/

namespace ReplicaCore

variable {core core' : ReplicaCore scheme} {event : ReplicaCoreEvent scheme}
  {actions : ReplicaCoreActions} {log pushed : List Command}

theorem onCommitWithin_accounts {fuel key : Nat} (h : Accounts log pushed core.pool)
    (hlog : core.log ⊆ log) (hcommit : onCommitWithin fuel core key = .ok (core', actions)) :
    core'.nodes = core.nodes ∧ Accounts log pushed core'.pool ∧ proposals actions = [] := by
  induction fuel generalizing key core' actions with
  | zero => cases hcommit
  | succ fuel ih =>
      simp only [onCommitWithin, bind_eq_ok] at hcommit
      obtain ⟨executed, -, node, hnode, hcommit⟩ := hcommit
      split at hcommit
      · simp only [bind_eq_ok] at hcommit
        obtain ⟨⟨middle, earlier⟩, hearlier, pool, hpool, heq⟩ := hcommit
        obtain ⟨rfl, rfl⟩ := Prod.mk.inj (Except.ok.inj heq)
        obtain ⟨hnodes, haccounts, hnone⟩ := ih hearlier
        have hstored : node ∈ core.nodes := by
          unfold ReplicaCore.node at hnode
          split at hnode
          · cases hnode
          next hget => exact Except.ok.inj hnode ▸ List.mem_of_getElem? hget
        have hproposed : ∀ command ∈ node.commands, command ∈ log :=
          fun command hcommand => hlog (List.mem_flatMap.mpr ⟨node, hstored, hcommand⟩)
        refine ⟨hnodes, haccounts.commitAll hproposed hpool, ?_⟩
        rw [proposals_append, hnone]
        rfl
      · obtain ⟨rfl, rfl⟩ := Prod.mk.inj (Except.ok.inj hcommit)
        exact ⟨rfl, h, rfl⟩

theorem update_accounts {block : Nat} (h : Accounts log pushed core.pool) (hlog : core.log ⊆ log)
    (hupdate : core.update block = .ok (core', actions)) :
    core'.nodes = core.nodes ∧ Accounts log pushed core'.pool ∧ proposals actions = [] := by
  simp only [update, bind_eq_ok] at hupdate
  obtain ⟨_, _, _, _, _, _, _, _, _, _, _, _, raised, hraised, locked, hlocked, hupdate⟩ := hupdate
  obtain ⟨hnodes, hpool⟩ := updateQuorumCertHigh_frame hraised
  obtain ⟨hnodes', hpool'⟩ := updateLock_frame hlocked
  rw [← hpool, ← hpool'] at h
  rw [ReplicaCore.log, ← hnodes, ← hnodes'] at hlog
  rw [← hnodes, ← hnodes']
  split at hupdate
  · simp only [bind_eq_ok] at hupdate
    obtain ⟨⟨final, finalized⟩, hcommit, heq⟩ := hupdate
    obtain ⟨rfl, rfl⟩ := Prod.mk.inj (Except.ok.inj heq)
    unfold onCommit at hcommit
    obtain ⟨hnodes, haccounts, hnone⟩ := onCommitWithin_accounts h hlog hcommit
    exact ⟨hnodes, haccounts, hnone⟩
  · obtain ⟨rfl, rfl⟩ := Prod.mk.inj (Except.ok.inj hupdate)
    exact ⟨rfl, h, rfl⟩

/-- A leader's proposal joins its log. -/
theorem handleProposed_accounts {blockDigest : Digest} {block : Message.Block scheme}
    (h : Accounts log pushed core.pool) (hstored : core.Stored)
    (hlog : core.log ++ block.commands ⊆ log)
    (hhandle : core.handleProposed blockDigest block = .ok (core', actions)) :
    core'.log = core.log ++ block.commands ∧ Accounts log pushed core'.pool ∧
      proposals actions = [] := by
  simp only [handleProposed, bind_eq_ok] at hhandle
  obtain ⟨⟨stored, key⟩, hingest, node, -, voting, -, hhandle⟩ := hhandle
  obtain ⟨rfl, hingested⟩ : key = core.nodes.length ∧ Ingested core blockDigest block stored := by
    rcases hstored.ingest_cases blockDigest block with ⟨_, hok, hingested⟩ | ⟨_, herror, -⟩
    · obtain ⟨rfl, rfl⟩ := Prod.mk.inj (Except.ok.inj (hok.symm.trans hingest))
      exact ⟨rfl, hingested⟩
    · cases herror.symm.trans hingest
  have hlog' : stored.log = core.log ++ block.commands := by
    rw [ReplicaCore.log, hingested.nodes, List.flatMap_append, List.flatMap_singleton,
      hingested.commands, ReplicaCore.log]
  have hpool : stored.pool = core.pool := by rw [hingested.rest]
  rw [← hpool] at h
  rw [← hlog'] at hlog ⊢
  split at hhandle
  · simp only [bind_eq_ok] at hhandle
    obtain ⟨⟨final, finalized⟩, hupdate, heq⟩ := hhandle
    obtain ⟨rfl, rfl⟩ := Prod.mk.inj (Except.ok.inj heq)
    obtain ⟨hnodes, haccounts, hnone⟩ := @update_accounts _
      { stored with voteHeight := node.height, blockLeaf := core.nodes.length } _ _ _ _ _ h hlog
      hupdate
    exact ⟨congrArg (List.flatMap _) hnodes, haccounts, hnone⟩
  · cases hhandle

theorem Beat.accounts (hbeat : Beat core core' actions) (h : Accounts log pushed core.pool)
    (hleader : core.config.id = 0) : Accounts (log ++ proposedIn actions) pushed core'.pool := by
  have hclosed : ∀ {pool : CommandPool} {commands : Option (List Command)},
      core.pool.closeBatch core.config.maxBatchSize = .ok (pool, commands) →
        Accounts (log ++ commands.getD []) pushed pool := by
    intro pool commands hclose
    have hnext := h.step (.closeBatch hclose) (by simp)
    simp only [Event.returned, Event.pushed?, Option.toList_none, List.append_nil] at hnext
    cases commands <;> simpa using hnext
  have hnone : proposedIn [] = [] := rfl
  have hone : ∀ data : NodeData, proposedIn [.propose data] = data.commands :=
    fun data => List.flatMap_singleton _ _
  cases hbeat with
  | wait => rwa [hnone, List.append_nil]
  | backup _ hid => exact absurd hleader hid
  | rest _ _ hclose => exact hclosed hclose
  | extra _ _ hclose hempty =>
      rw [hone]
      have hnext := hclosed hclose
      rwa [hempty] at hnext
  | propose _ _ hclose =>
      rw [hone]
      exact hclosed hclose

/-- What an event of a leader brings in, before the beat. -/
theorem react_accounts (h : Accounts log pushed core.pool) (hstored : core.Stored)
    (hlog : core.log ++ event.joined ⊆ log)
    (hproposal : ∀ blockDigest block, event ≠ .proposal blockDigest block)
    (hreact : core.react event = .ok (core', actions)) :
    core'.log = core.log ++ event.joined ∧
      Accounts log (pushed ++ event.requested?.toList) core'.pool ∧ proposals actions = [] := by
  cases event with
  | request command =>
      simp only [react, bind_eq_ok] at hreact
      obtain ⟨⟨pool, accepted⟩, hpush, heq⟩ := hreact
      obtain ⟨rfl, rfl⟩ := Prod.mk.inj (Except.ok.inj heq)
      have hnext := h.step (.push hpush) (by simp)
      simp only [Event.returned, Event.pushed?, List.append_nil] at hnext
      exact ⟨(List.append_nil _).symm, hnext, rfl⟩
  | proposed blockDigest block =>
      rw [ReplicaCoreEvent.requested?, Option.toList_none, List.append_nil]
      exact handleProposed_accounts h hstored hlog hreact
  | proposal blockDigest block => exact absurd rfl (hproposal blockDigest block)
  | quorumCert quorumCert =>
      simp only [react, handleQuorumCert, bind_eq_ok] at hreact
      obtain ⟨_, ⟨_, _, hupdate⟩, heq⟩ := hreact
      obtain ⟨rfl, rfl⟩ := Prod.mk.inj (Except.ok.inj heq)
      obtain ⟨hnodes, hpool⟩ := updateQuorumCertHigh_frame hupdate
      rw [ReplicaCoreEvent.requested?, Option.toList_none, List.append_nil, hpool,
        ReplicaCoreEvent.joined, List.append_nil, ReplicaCore.log, hnodes]
      exact ⟨rfl, h, rfl⟩

/-- What an event of a leader brings in and hands out. -/
theorem handle_accounts (h : Accounts log pushed core.pool) (hstored : core.Stored)
    (hleader : core.config.id = 0) (hlog : core.log ++ event.joined ⊆ log)
    (hproposal : ∀ blockDigest block, event ≠ .proposal blockDigest block)
    (hhandle : core.handle event = .ok (core', actions)) :
    core'.log = core.log ++ event.joined ∧
      Accounts (log ++ proposedIn actions) (pushed ++ event.requested?.toList) core'.pool := by
  simp only [ReplicaCore.handle, bind_eq_ok] at hhandle
  obtain ⟨⟨middle, reactions⟩, hreact, ⟨final, beats⟩, hbeat, heq⟩ := hhandle
  obtain ⟨rfl, rfl⟩ := Prod.mk.inj (Except.ok.inj heq)
  obtain ⟨hmiddle, haccounts, hnone⟩ := react_accounts h hstored hlog hproposal hreact
  have hreacted := hstored.react_ok hreact
  have hbeat := (hreacted.stored hstored).beat_ok hbeat
  refine ⟨?_, ?_⟩
  · rw [← hmiddle, ReplicaCore.log, hbeat.sameStore.nodes, ReplicaCore.log]
  · rw [proposedIn_append, proposedIn, hnone, List.flatMap_nil, List.nil_append]
    exact hbeat.accounts haccounts (hreacted.grows.config ▸ hleader)

end ReplicaCore

/-! ## Runs -/

/-- The command that an event asks for. -/
def Replica.Event.requested? : Replica.Event scheme → Option Command
  | .call (.request command) _ => some command
  | .call (.init) _ | .call (.receive _) _ | .call (.tick) _ | .release _ _ | .perform _ _ _ => none

/-- The commands that a replica has been asked for. -/
def Replica.requests (history : List (Replica.Event scheme)) : List Command :=
  history.filterMap Replica.Event.requested?

namespace Replica

variable {replica next : Replica scheme} {event : Event scheme}

/-- What a step means to the core, with the commands that it brings in. -/
inductive Feeds (replica : Replica scheme) (event : Event scheme) (next : Replica scheme) : Prop
  | keep (hcore : next.core = replica.core) (hrequested : event.requested? = none)
      (hproposed : proposedIn event.performed?.toList = [])
      (hqueue : event.performed?.toList ++ next.coreActions = replica.coreActions)
  | give {coreEvent pushed} (hgives : Gives replica event coreEvent)
      (hrequested : coreEvent.requested? = event.requested?)
      (hproposed : proposedIn event.performed?.toList = coreEvent.joined)
      (hqueued : coreEvent.joined ⊆ proposedIn replica.coreActions)
      (hhandle : replica.core.handle coreEvent = .ok (next.core, pushed))
      (hqueue : event.performed?.toList ++ next.coreActions = replica.coreActions ++ pushed)

theorem proposalBlock_commands {data : NodeData} {block : Message.Block scheme}
    (hblock : replica.proposalBlock data = .ok block) : block.commands = data.commands := by
  simp only [proposalBlock, bind_eq_ok] at hblock
  obtain ⟨_, _, _, _, _, _, heq⟩ := hblock
  exact Except.ok.inj heq ▸ rfl

/-- The proposal in the queue has the commands of its block. -/
theorem proposedIn_proposal {data : NodeData} {rest : ReplicaCoreActions}
    {block : Message.Block scheme} (hqueue : replica.coreActions = .propose data :: rest)
    (hblock : replica.proposalBlock data = .ok block) :
    proposedIn [.propose data] = block.commands ∧
      block.commands ⊆ proposedIn replica.coreActions := by
  have hone : proposedIn [.propose data] = data.commands := List.flatMap_singleton _ _
  rw [proposalBlock_commands hblock, hqueue, ← hone]
  refine ⟨rfl, ?_⟩
  exact (proposedIn_append [.propose data] rest).symm ▸ List.subset_append_left _ _

theorem Effect.feeds (h : Effect replica event next) : Feeds replica event next := by
  have hcore := h.core
  -- other steps bring in nothing
  have hrest : event.requested? = none → proposedIn event.performed?.toList = [] →
      Feeds replica event next := by
    intro hrequested hproposed
    cases hcore with
    | keep hcore hqueue => exact .keep hcore hrequested hproposed hqueue
    | give hgives hhandle hqueue =>
        cases hgives with
        | request => cases hrequested
        | proposal hpending =>
            exact .give (.proposal hpending) rfl rfl (List.nil_subset _) hhandle hqueue
        | quorumCert haggregate =>
            exact .give (.quorumCert haggregate) hrequested.symm hproposed (List.nil_subset _)
              hhandle hqueue
        | proposed hqueue' hblock =>
            obtain ⟨hjoined, hqueued⟩ := proposedIn_proposal hqueue' hblock
            exact .give (.proposed hqueue' hblock) rfl hjoined hqueued hhandle hqueue
  cases h with
  | request hidle hhandle =>
      obtain ⟨core, pushed, hgiven, rfl⟩ := handle_eq_ok.mp hhandle
      exact .give .request rfl rfl (List.nil_subset _) hgiven rfl
  | propose _ hqueue hblock _ _ _ hhandle =>
      obtain ⟨core, pushed, hgiven, rfl⟩ := handle_eq_ok.mp hhandle
      obtain ⟨hjoined, hqueued⟩ := proposedIn_proposal hqueue hblock
      refine .give (.proposed hqueue hblock) rfl hjoined hqueued hgiven ?_
      rw [hqueue]
      rfl
  | init | tick | ignore | accept | park | vote | supply | defer | release | perform | finalize =>
      exact hrest rfl rfl

end Replica

variable {coreConfig : ReplicaCoreConfig} {cryptoConfig : CryptoConfig scheme}
  {history : List (Replica.Event scheme)} {replica : Replica scheme}

/-- A leader stores what it has proposed, and accounts for all requests. -/
theorem LocalRun.accounts (hrun : LocalRun coreConfig cryptoConfig history replica)
    (hleader : coreConfig.id = 0) (hvariant : coreConfig.openLoop = false)
    (hreceived : Replica.received history = []) :
    replica.core.log = proposedIn (Replica.performedIn history) ∧
      Accounts (proposedIn (Replica.performedIn history ++ replica.coreActions))
        (Replica.requests history) replica.core.pool := by
  induction hrun with
  | start hinit =>
      subst hinit
      refine ⟨rfl, ?_⟩
      change Accounts [] [] (if coreConfig.openLoop then _ else _)
      rw [hvariant]
      exact Accounts.new
  | @step history replica event next hprev hstep ih =>
      rw [Replica.received_concat, List.append_eq_nil_iff] at hreceived
      obtain ⟨hlog, haccounts⟩ := ih hreceived.1
      have hleads := (LocalRun.leads hprev hleader hreceived.1).1
      have hrequests : Replica.requests (history ++ [event]) =
          Replica.requests history ++ event.requested?.toList := by
        rw [Replica.requests, List.filterMap_append, Replica.requests]
        cases hevent : event.requested? <;> simp [hevent]
      rw [Replica.performedIn_concat, List.append_assoc, hrequests,
        proposedIn_append _ event.performed?.toList]
      cases hstep.effect.feeds with
      | keep hcore hrequested hproposed hqueue =>
          rw [hcore, hqueue, hrequested, hproposed, Option.toList_none, List.append_nil,
            List.append_nil]
          exact ⟨hlog, haccounts⟩
      | @give coreEvent pushed hgives hrequested hproposed hqueued hhandle hqueue =>
          have hproposal : ∀ blockDigest block, coreEvent ≠ .proposal blockDigest block := by
            rintro blockDigest block rfl
            cases hgives with
            | proposal hpending => cases hleads.pending.symm.trans hpending
          have hsub : replica.core.log ++ coreEvent.joined ⊆
              proposedIn (Replica.performedIn history ++ replica.coreActions) := by
            rw [hlog, proposedIn_append]
            exact List.append_subset.mpr ⟨List.subset_append_left _ _,
              List.subset_append_of_subset_right _ hqueued⟩
          obtain ⟨hlog', haccounts'⟩ := ReplicaCore.handle_accounts haccounts
            hleads.core.line.stored hleads.core.leader hsub hproposal hhandle
          rw [hlog', hlog, hproposed, hqueue, ← hrequested, ← List.append_assoc,
            proposedIn_append _ pushed]
          exact ⟨rfl, haccounts'⟩

end BftKit.Hotstuff
