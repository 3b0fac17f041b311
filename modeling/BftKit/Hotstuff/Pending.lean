import BftKit.CommandPool.History
import BftKit.Hotstuff.Replay

/-! # What a backup keeps pending

The pool is meant to hold commands on a backup, where no batch is asked for. But the beat
does not look at the role before it closes a batch, and on a backup the leaf always has
the highest certificate: so a command leaves the pool in the very event that brings it.
-/

namespace BftKit

open Foundation

namespace CommandPool

variable {pool next : CommandPool} {log commands : List Command} {command : Command}
  {maxBatchSize : Nat}

/-- Nothing came to wait, and what waits no more has been reached by one of the commands. -/
structure Spares (pool next : CommandPool) (commands : List Command) : Prop where
  kept : ∀ entry ∈ pool.pending, entry ∈ next.pending ∨
    pool.IsCloseLoop ∧ ∃ command ∈ commands,
      command.clientId = entry.clientId ∧ entry.seq ≤ command.seq
  old : ∀ entry ∈ next.pending, entry ∈ pool.pending

theorem Spares.refl (pool : CommandPool) : Spares pool pool [] :=
  ⟨fun _ hmem => .inl hmem, fun _ hmem => hmem⟩

theorem Spares.trans {last : CommandPool} {more : List Command} (h : Spares pool next commands)
    (h' : Spares next last more) (hvariant : next.IsCloseLoop ↔ pool.IsCloseLoop) :
    Spares pool last (commands ++ more) where
  kept := by
    intro entry hmem
    rcases h.kept entry hmem with hnext | ⟨hclose, command, hcommand, hreached⟩
    · rcases h'.kept entry hnext with hlast | ⟨hclose, command, hcommand, hreached⟩
      · exact .inl hlast
      · exact .inr ⟨hvariant.mp hclose, command, List.mem_append_right _ hcommand, hreached⟩
    · exact .inr ⟨hclose, command, List.mem_append_left _ hcommand, hreached⟩
  old := fun entry hmem => h.old entry (h'.old entry hmem)

theorem commit_spares (hpool : pool.Issued log) (hcommit : pool.commit command = .ok next) :
    Spares pool next [command] := by
  cases pool with
  | openLoop pool =>
      obtain rfl := Except.ok.inj hcommit
      exact ⟨fun _ hmem => .inl hmem, fun _ hmem => hmem⟩
  | closeLoop pool =>
      have hstep := (Step.commit hcommit).queueStep hpool trivial
      generalize hevent : Event.commit command = event at hstep
      generalize hrest : next.pending = rest at hstep
      cases hstep with
      | reject | replace | append | close => cases hevent
      | keep =>
          refine ⟨fun _ hmem => .inl ?_, fun _ hmem => ?_⟩
          · rwa [hrest]
          · rwa [hrest] at hmem
      | @drop index old _ hget hclient hle =>
          obtain rfl := Event.commit.inj hevent
          have hindex := (List.getElem?_eq_some_iff.mp hget).1
          constructor
          · intro entry hmem
            obtain ⟨place, hplace⟩ := List.getElem?_of_mem hmem
            by_cases hne : place = index
            · subst hne
              obtain rfl := Option.some.inj (hplace.symm.trans hget)
              exact .inr ⟨trivial, command, List.mem_singleton_self _, hclient.symm, hle⟩
            · rw [hrest]
              exact .inl (CloseLoop.mem_swapRemove hplace hne hindex)
          · intro entry hmem
            rw [hrest] at hmem
            exact CloseLoop.mem_of_mem_swapRemove hindex hmem

theorem commit_all_spares (hpool : pool.Issued log)
    (hcommit : commands.foldlM CommandPool.commit pool = .ok next) :
    Spares pool next commands := by
  induction commands generalizing pool with
  | nil =>
      obtain rfl := Except.ok.inj hcommit
      exact .refl _
  | cons command rest ih =>
      obtain ⟨middle, hmiddle, hissued, hvariant⟩ := hpool.commit command
      rw [List.foldlM_cons, hmiddle, ok_bind] at hcommit
      exact (commit_spares hpool hmiddle).trans (ih hissued hcommit) hvariant

/-- A batch takes the first commands of a close-loop pool, and empties an open-loop one. -/
theorem closeBatch_pending (hpool : pool.Issued log) {batch : Option (List Command)}
    (hclose : pool.closeBatch maxBatchSize = .ok (next, batch)) :
    (pool.IsCloseLoop → next.pending = pool.pending.drop maxBatchSize) ∧
      (¬ pool.IsCloseLoop → next.pending = []) := by
  cases pool with
  | closeLoop pool =>
      refine ⟨fun _ => ?_, fun hnot => absurd trivial hnot⟩
      simp only [CommandPool.closeBatch, bind_eq_ok] at hclose
      obtain ⟨⟨next', batch'⟩, hclose, heq⟩ := hclose
      obtain ⟨rfl, rfl⟩ := Prod.mk.inj (Except.ok.inj heq)
      rcases (CloseLoop.CommandPool.Issued.wf hpool).closeBatch_cases maxBatchSize with
        ⟨hempty, hcase⟩ | ⟨next'', -, hcase, -, hqueue, -⟩ <;>
        obtain ⟨rfl, rfl⟩ := Prod.mk.inj (Except.ok.inj (hclose.symm.trans hcase))
      · simp [pending, hempty]
      · exact hqueue
  | openLoop pool =>
      refine ⟨fun hvariant => absurd hvariant id, fun _ => ?_⟩
      simp only [CommandPool.closeBatch, bind_eq_ok] at hclose
      obtain ⟨⟨next', batch'⟩, hclose, heq⟩ := hclose
      obtain ⟨rfl, rfl⟩ := Prod.mk.inj (Except.ok.inj heq)
      unfold OpenLoop.CommandPool.closeBatch at hclose
      split at hclose
      · cases hclose
      · split at hclose
        next hempty =>
          obtain ⟨rfl, rfl⟩ := Prod.mk.inj (Except.ok.inj hclose)
          exact hempty
        next =>
          obtain ⟨rfl, rfl⟩ := Prod.mk.inj (Except.ok.inj hclose)
          rfl

/-- On a close-loop pool a pushed command waits if it was accepted, and of the others only
an older command of its client waits no more. -/
theorem push_pending (hpool : pool.Issued log) (hvariant : pool.IsCloseLoop) {accepted : Bool}
    (hpush : pool.push command = .ok (next, accepted)) :
    (accepted = true → command ∈ next.pending) ∧
      ∀ entry ∈ pool.pending, entry ∈ next.pending ∨
        accepted = true ∧ command.clientId = entry.clientId ∧ entry.seq < command.seq := by
  have hstep := (Step.push hpush).queueStep hpool hvariant
  generalize hevent : Event.push command accepted = event at hstep
  generalize hqueue : pool.pending = queue at hstep ⊢
  generalize hrest : next.pending = rest at hstep ⊢
  cases hstep with
  | reject =>
      obtain ⟨-, rfl⟩ := Event.push.inj hevent
      exact ⟨fun haccepted => absurd haccepted Bool.false_ne_true, fun _ hmem => .inl hmem⟩
  | @replace index old _ hget hclient hlt =>
      obtain ⟨rfl, rfl⟩ := Event.push.inj hevent
      have hindex := (List.getElem?_eq_some_iff.mp hget).1
      refine ⟨fun _ => List.mem_set hindex _, fun entry hmem => ?_⟩
      obtain ⟨place, hplace⟩ := List.getElem?_of_mem hmem
      by_cases hne : index = place
      · subst hne
        obtain rfl := Option.some.inj (hplace.symm.trans hget)
        exact .inr ⟨rfl, hclient.symm, hlt⟩
      · exact .inl (List.mem_of_getElem? ((List.getElem?_set_ne hne).trans hplace))
  | append =>
      obtain ⟨rfl, rfl⟩ := Event.push.inj hevent
      exact ⟨fun _ => List.mem_append_right _ (List.mem_singleton_self _),
        fun _ hmem => .inl (List.mem_append_left _ hmem)⟩
  | close | keep | drop => cases hevent

end CommandPool

namespace Hotstuff

open Threshold

variable {scheme : ThresholdScheme}

/-- The events of a backup: only a proposer is told what it has proposed. -/
def ReplicaCoreEvent.OnBackup : ReplicaCoreEvent scheme → Prop
  | .request _ | .proposal _ _ | .quorumCert _ => True
  | .proposed _ _ => False

namespace ReplicaCore

variable {core core' : ReplicaCore scheme} {event : ReplicaCoreEvent scheme}
  {actions : ReplicaCoreActions} {log : List Command}

/-! ## Commits of an event -/

/-- The commands that the finalized nodes commit. -/
def finalizedBy (core : ReplicaCore scheme) (actions : ReplicaCoreActions) : List Command :=
  (finalizations actions).flatMap fun key => (core.nodeAt key).commands

theorem finalizedBy_congr (hnodes : core'.nodes = core.nodes) (actions : ReplicaCoreActions) :
    core'.finalizedBy actions = core.finalizedBy actions := by
  simp only [finalizedBy, nodeAt, hnodes]

theorem nodeAt_of_node {key : Nat} {node : Node} (hnode : core.node key = .ok node) :
    core.nodeAt key = node := by
  unfold ReplicaCore.node at hnode
  split at hnode
  · cases hnode
  next hget =>
    obtain rfl := Except.ok.inj hnode
    exact nodeAt_eq hget

theorem onCommitWithin_spares {fuel key : Nat} (hpool : core.pool.Issued log)
    (hcommit : onCommitWithin fuel core key = .ok (core', actions)) :
    core'.nodes = core.nodes ∧ core'.pool.Issued log ∧
      (core'.pool.IsCloseLoop ↔ core.pool.IsCloseLoop) ∧
      CommandPool.Spares core.pool core'.pool (core.finalizedBy actions) := by
  induction fuel generalizing key core' actions with
  | zero => cases hcommit
  | succ fuel ih =>
      simp only [onCommitWithin, bind_eq_ok] at hcommit
      obtain ⟨executed, -, node, hnode, hcommit⟩ := hcommit
      split at hcommit
      · simp only [bind_eq_ok] at hcommit
        obtain ⟨⟨middle, earlier⟩, hearlier, pool, hpool', heq⟩ := hcommit
        obtain ⟨rfl, rfl⟩ := Prod.mk.inj (Except.ok.inj heq)
        obtain ⟨hnodes, hissued, hvariant, hspares⟩ := ih hearlier
        obtain ⟨pool', hall, hissued', hvariant'⟩ := hissued.commit_all node.commands
        obtain rfl := Except.ok.inj (hall.symm.trans hpool')
        refine ⟨hnodes, hissued', hvariant'.trans hvariant, ?_⟩
        have hnow : core.finalizedBy (earlier ++ [.finalize key]) =
            core.finalizedBy earlier ++ node.commands := by
          rw [finalizedBy, finalizations_append, List.flatMap_append, ← nodeAt_of_node hnode]
          exact congrArg (_ ++ ·) (List.append_nil _)
        rw [hnow]
        exact hspares.trans (CommandPool.commit_all_spares hissued hall) hvariant
      · obtain ⟨rfl, rfl⟩ := Prod.mk.inj (Except.ok.inj hcommit)
        exact ⟨rfl, hpool, .rfl, .refl _⟩

theorem updateQuorumCertHigh_frame {cert : Nat}
    (hupdate : core.updateQuorumCertHigh cert = .ok core') :
    core'.nodes = core.nodes ∧ core'.pool = core.pool := by
  simp only [updateQuorumCertHigh, bind_eq_ok] at hupdate
  obtain ⟨_, _, _, _, _, _, _, _, hupdate⟩ := hupdate
  split at hupdate <;> obtain rfl := Except.ok.inj hupdate <;> exact ⟨rfl, rfl⟩

theorem updateLock_frame {block : Nat} (hupdate : core.updateLock block = .ok core') :
    core'.nodes = core.nodes ∧ core'.pool = core.pool := by
  simp only [updateLock, bind_eq_ok] at hupdate
  obtain ⟨_, _, _, _, hupdate⟩ := hupdate
  split at hupdate <;> obtain rfl := Except.ok.inj hupdate <;> exact ⟨rfl, rfl⟩

theorem update_spares {block : Nat} (hpool : core.pool.Issued log)
    (hupdate : core.update block = .ok (core', actions)) :
    CommandPool.Spares core.pool core'.pool (core'.finalizedBy actions) := by
  simp only [update, bind_eq_ok] at hupdate
  obtain ⟨_, _, _, _, _, _, _, _, _, _, _, _, raised, hraised, locked, hlocked, hupdate⟩ := hupdate
  obtain ⟨-, hpool'⟩ := updateQuorumCertHigh_frame hraised
  obtain ⟨-, hpool''⟩ := updateLock_frame hlocked
  rw [← hpool', ← hpool''] at hpool ⊢
  split at hupdate
  · simp only [bind_eq_ok] at hupdate
    obtain ⟨⟨final, finalized⟩, hcommit, heq⟩ := hupdate
    obtain ⟨rfl, rfl⟩ := Prod.mk.inj (Except.ok.inj heq)
    obtain ⟨hnodes, -, -, hspares⟩ := onCommitWithin_spares hpool hcommit
    rw [← finalizedBy_congr hnodes] at hspares
    exact hspares
  · obtain ⟨rfl, rfl⟩ := Prod.mk.inj (Except.ok.inj hupdate)
    exact .refl _

theorem Stored.handleProposal_spares (h : Stored core) {blockDigest : Digest}
    {block : Message.Block scheme}
    (hhandle : core.handleProposal blockDigest block = .ok (core', actions)) :
    CommandPool.Spares core.pool core'.pool (core'.finalizedBy actions) := by
  obtain ⟨log, hlog⟩ := h.pool
  simp only [handleProposal, bind_eq_ok] at hhandle
  obtain ⟨⟨stored, key⟩, hingest, node, -, voting, -, ⟨final, finalized⟩, hupdate, heq⟩ := hhandle
  obtain ⟨rfl, rfl⟩ := Prod.mk.inj (Except.ok.inj heq)
  have hpool : stored.pool = core.pool := by
    rcases h.ingest_cases blockDigest block with ⟨_, hok, hingested⟩ | ⟨_, herror, -⟩
    · obtain ⟨rfl, -⟩ := Prod.mk.inj (Except.ok.inj (hok.symm.trans hingest))
      rw [hingested.rest]
    · rw [herror] at hingest
      cases hingest
  have hfinalized : final.finalizedBy ((if voting then [.vote key] else []) ++ finalized) =
      final.finalizedBy finalized := by
    cases voting <;> rfl
  rw [hfinalized, ← hpool]
  rw [← hpool] at hlog
  cases voting with
  | false => exact update_spares hlog hupdate
  | true => exact @update_spares _ { stored with voteHeight := node.height } _ _ _ _ hlog hupdate

/-! ## The leaf of a backup -/

theorem raised_leaf (hleaf : core.highNode = core.blockLeaf) (cert : Nat) :
    (core.raised cert).highNode = (core.raised cert).blockLeaf := by
  unfold raised
  split
  · rfl
  · exact hleaf

theorem Updated.leaf {block0 : Nat} {path : List Nat} (h : Updated core block0 core' path)
    (hleaf : core.highNode = core.blockLeaf) : core'.highNode = core'.blockLeaf := by
  have hraised := raised_leaf hleaf (core.nodeAt block0).justify
  rw [h.rest]
  change (core.advanced block0).highNode = (core.advanced block0).blockLeaf
  unfold advanced ReplicaCore.relocked
  split <;> exact hraised

/-- Without proposals of its own, a replica has the highest certificate for its leaf. -/
theorem Stored.reacted_leaf (h : Stored core) (hreacted : Reacted core event core' actions)
    (hevent : event.OnBackup) (hleaf : core.highNode = core.blockLeaf) :
    core'.highNode = core'.blockLeaf := by
  cases hreacted with
  | request => exact hleaf
  | @proposal _ _ stored voting _ _ hingested _ hupdated =>
      apply hupdated.leaf
      have hcert : stored.certAt stored.quorumCertHigh = core.certAt core.quorumCertHigh := by
        have hsame : stored.quorumCertHigh = core.quorumCertHigh := by rw [hingested.rest]
        rw [hsame, hingested.grows.certAt h.high]
      have hsame : stored.blockLeaf = core.blockLeaf := by rw [hingested.rest]
      exact (congrArg QuorumCert.node hcert).trans (hleaf.trans hsame.symm)
  | proposed => exact absurd hevent id
  | quorumCert =>
      apply raised_leaf
      refine Eq.trans ?_ hleaf
      exact congrArg QuorumCert.node
        (Grows.certAt ⟨rfl, List.prefix_rfl, List.prefix_append _ _⟩ h.high)

/-- So every event of a backup ends with a batch that is taken from its pool. -/
theorem Stored.handle_backup (h : Stored core) (hid : core.config.id ≠ 0)
    (hevent : event.OnBackup) (hleaf : core.highNode = core.blockLeaf)
    (hhandle : core.handle event = .ok (core', actions)) :
    ∃ middle batch, core.react event = .ok (middle, actions) ∧ Stored middle ∧
      (middle.pool.IsCloseLoop ↔ core.pool.IsCloseLoop) ∧
      middle.pool.closeBatch core.config.maxBatchSize = .ok (core'.pool, batch) ∧
      core'.nodes = middle.nodes ∧ core'.highNode = core'.blockLeaf := by
  simp only [ReplicaCore.handle, bind_eq_ok] at hhandle
  obtain ⟨⟨middle, reactions⟩, hreact, ⟨final, beats⟩, hbeat, heq⟩ := hhandle
  obtain ⟨rfl, rfl⟩ := Prod.mk.inj (Except.ok.inj heq)
  have hreacted := h.react_ok hreact
  have hmiddle := hreacted.stored h
  have hbeat := hmiddle.beat_ok hbeat
  have hconfig := hreacted.grows.config
  have hleaf' := h.reacted_leaf hreacted hevent hleaf
  cases hbeat with
  | wait hhigh => exact absurd hleaf' hhigh
  | @backup _ batch _ _ hclose =>
      refine ⟨middle, batch, ?_, hmiddle, hreacted.variant, ?_, rfl, hleaf'⟩
      · simpa using hreact
      · rw [← hconfig]
        exact hclose
  | rest _ hleader | extra _ hleader | propose _ hleader => exact absurd (hconfig ▸ hleader) hid

/-! ## Runs of a backup -/

/-- A run of the core of a backup. -/
abbrev BackupRun (config : ReplicaCoreConfig) :
    List (ReplicaCoreEvent scheme) → ReplicaCore scheme → Prop :=
  Run (· = new scheme config) fun _ core event core' =>
    event.OnBackup ∧ ∃ actions, core.handle event = .ok (core', actions)

/-- Batches of this pool take nothing. -/
def Batchless (config : ReplicaCoreConfig) : Prop :=
  config.openLoop = false ∧ config.maxBatchSize = 0

/-- What holds of the core of a backup between its events. -/
structure Idles (config : ReplicaCoreConfig) (core : ReplicaCore scheme) : Prop where
  stored : Stored core
  configured : core.config = config
  variant : core.pool.IsCloseLoop ↔ config.openLoop = false
  leaf : core.highNode = core.blockLeaf
  empty : ¬ Batchless config → core.pool.pending = []

theorem new_idles (config : ReplicaCoreConfig) : Idles config (new scheme config) := by
  refine ⟨new_stored config, rfl, ?_, rfl, fun _ => ?_⟩
  · cases hopen : config.openLoop <;> simp [new, hopen, CommandPool.IsCloseLoop]
  · cases hopen : config.openLoop <;> simp [new, hopen, CommandPool.pending] <;> rfl

theorem Idles.handle {config : ReplicaCoreConfig} (h : Idles config core) (hid : config.id ≠ 0)
    (hevent : event.OnBackup)
    (hhandle : core.handle event = .ok (core', actions)) : Idles config core' := by
  obtain ⟨hstored, hgrows⟩ := h.stored.handle hhandle
  obtain ⟨middle, batch, hreact, hmiddle, hvariant, hclose, -, hleaf⟩ :=
    h.stored.handle_backup (h.configured ▸ hid) hevent h.leaf hhandle
  obtain ⟨log, hlog⟩ := hmiddle.pool
  refine ⟨hstored, hgrows.config.trans h.configured, ?_, hleaf, fun hbatches => ?_⟩
  · exact ((hlog.closeBatch hclose).2.trans hvariant).trans h.variant
  · obtain ⟨htaken, hdrained⟩ := CommandPool.closeBatch_pending hlog hclose
    by_cases hcloseLoop : middle.pool.IsCloseLoop
    · -- the pool holds one command at most when the batch is closed
      have hlength := (h.stored.react_ok hreact).pending_length
      rw [h.empty hbatches, List.length_nil] at hlength
      have hsize : config.maxBatchSize ≠ 0 := fun hzero =>
        hbatches ⟨h.variant.mp (hvariant.mp hcloseLoop), hzero⟩
      rw [htaken hcloseLoop, h.configured, List.drop_eq_nil_iff]
      omega
    · exact hdrained hcloseLoop

theorem BackupRun.idles {config : ReplicaCoreConfig} {history : List (ReplicaCoreEvent scheme)}
    (hrun : BackupRun config history core) (hid : config.id ≠ 0) : Idles config core := by
  induction hrun with
  | start hnew =>
      subst hnew
      exact new_idles config
  | step _ hstep ih =>
      obtain ⟨hevent, actions, hhandle⟩ := hstep
      exact ih.handle hid hevent hhandle

/-! ## What is kept -/

/-- The event is a request that the pool takes in. -/
def TakesIn (core : ReplicaCore scheme) (event : ReplicaCoreEvent scheme) (command : Command) :
    Prop :=
  event = .request command ∧ core.pool.Admits command

/-- The pool gives the command up for another one: a newer one of the same client, or the
one that no longer fits into a full buffer. -/
def GivesUp (core : ReplicaCore scheme) (event : ReplicaCoreEvent scheme) (command : Command) :
    Prop :=
  ∃ newer, core.TakesIn event newer ∧
    if core.config.openLoop then
      core.pool.pending.length = OpenLoop.CommandPool.maxLen ∧
        core.pool.pending.head? = some command
    else newer.clientId = command.clientId ∧ command.seq < newer.seq

/-- A finalized node has the command removed. -/
def Removes (core' : ReplicaCore scheme) (actions : ReplicaCoreActions)
    (command : Command) : Prop :=
  core'.pool.IsCloseLoop ∧ ∃ committed ∈ core'.finalizedBy actions,
    committed.clientId = command.clientId ∧ command.seq ≤ committed.seq

/-- A command that waits, or is taken in, waits on, unless the pool has a reason. -/
def KeepsPending (core : ReplicaCore scheme) (event : ReplicaCoreEvent scheme)
    (core' : ReplicaCore scheme) (actions : ReplicaCoreActions) : Prop :=
  ∀ command, command ∈ core.pool.pending ∨ core.TakesIn event command →
    command ∈ core'.pool.pending ∨ core'.Removes actions command ∨ core.GivesUp event command

variable {config : ReplicaCoreConfig}

/-- A pool whose batches take nothing keeps its commands. -/
theorem Idles.keepsPending (h : Idles config core) (hid : config.id ≠ 0)
    (hbatchless : Batchless config) (hevent : event.OnBackup)
    (hhandle : core.handle event = .ok (core', actions)) :
    KeepsPending core event core' actions := by
  obtain ⟨hopen, hsize⟩ := hbatchless
  obtain ⟨middle, batch, hreact, hmiddle, hvariant, hclose, hnodes, -⟩ :=
    h.stored.handle_backup (h.configured ▸ hid) hevent h.leaf hhandle
  obtain ⟨log, hlog⟩ := h.stored.pool
  obtain ⟨log', hlog'⟩ := hmiddle.pool
  have hcloseLoop : core.pool.IsCloseLoop := h.variant.mpr hopen
  have hvariant' : core'.pool.IsCloseLoop :=
    (hlog'.closeBatch hclose).2.mpr (hvariant.mpr hcloseLoop)
  -- the beat at the end of the event takes a batch of no commands
  have hpending : core'.pool.pending = middle.pool.pending := by
    rw [(CommandPool.closeBatch_pending hlog' hclose).1 (hvariant.mpr hcloseLoop), h.configured,
      hsize, List.drop_zero]
  intro command hwaits
  rw [hpending]
  cases event with
  | request pushed =>
      simp only [react, bind_eq_ok] at hreact
      obtain ⟨⟨pool, accepted⟩, hpush, heq⟩ := hreact
      obtain ⟨rfl, rfl⟩ := Prod.mk.inj (Except.ok.inj heq)
      obtain ⟨hnew, hold⟩ := CommandPool.push_pending hlog hcloseLoop hpush
      obtain ⟨_, _, hpush', hadmits, -⟩ := CommandPool.push_admits hlog pushed
      obtain ⟨rfl, rfl⟩ := Prod.mk.inj (Except.ok.inj (hpush'.symm.trans hpush))
      rcases hwaits with hmem | ⟨hrequest, htaken⟩
      · rcases hold command hmem with hkept | ⟨haccepted, hclient, hlt⟩
        · exact .inl hkept
        · refine .inr (.inr ⟨pushed, ⟨rfl, hadmits.mp haccepted⟩, ?_⟩)
          rw [h.configured, hopen]
          exact ⟨hclient, hlt⟩
      · obtain rfl := ReplicaCoreEvent.request.inj hrequest
        exact .inl (hnew (hadmits.mpr htaken))
  | proposal blockDigest block =>
      have hmem : command ∈ core.pool.pending :=
        hwaits.resolve_right fun htaken => by cases htaken.1
      refine ((h.stored.handleProposal_spares hreact).kept command hmem).imp_right fun hreached => ?_
      refine .inl ⟨hvariant', ?_⟩
      rw [finalizedBy_congr hnodes]
      exact hreached.2
  | quorumCert quorumCert =>
      have hmem : command ∈ core.pool.pending :=
        hwaits.resolve_right fun htaken => by cases htaken.1
      simp only [react, handleQuorumCert, bind_eq_ok] at hreact
      obtain ⟨_, ⟨_, _, hupdate⟩, heq⟩ := hreact
      obtain ⟨rfl, -⟩ := Prod.mk.inj (Except.ok.inj heq)
      rw [(updateQuorumCertHigh_frame hupdate).2]
      exact .inl hmem
  | proposed _ _ => exact absurd hevent id

/-- A request that is taken in has been lost by the end of its own event. -/
theorem Idles.not_keepsPending (h : Idles config core) (hid : config.id ≠ 0)
    (hbatches : ¬ Batchless config) {command : Command}
    (hhandle : core.handle (.request command) = .ok (core', actions))
    (hadmits : core.pool.Admits command) :
    ¬ KeepsPending core (.request command) core' actions := by
  intro hkeeps
  have hevent : ReplicaCoreEvent.OnBackup (.request command : ReplicaCoreEvent scheme) := trivial
  obtain ⟨middle, -, hreact, -⟩ :=
    h.stored.handle_backup (h.configured ▸ hid) hevent h.leaf hhandle
  have hempty := (h.handle hid hevent hhandle).empty hbatches
  have hactions : actions = [] := by
    simp only [react, bind_eq_ok] at hreact
    obtain ⟨_, _, heq⟩ := hreact
    exact (Prod.mk.inj (Except.ok.inj heq)).2.symm
  rcases hkeeps command (.inr ⟨rfl, hadmits⟩) with hmem | hremoved | ⟨newer, htaken, hgiven⟩
  · rw [hempty] at hmem
    exact List.not_mem_nil hmem
  · obtain ⟨-, committed, hmem, -⟩ := hremoved
    rw [hactions] at hmem
    exact List.not_mem_nil hmem
  · obtain rfl := ReplicaCoreEvent.request.inj htaken.1
    split at hgiven
    · rw [h.empty hbatches] at hgiven
      cases hgiven.2
    · exact lt_irrefl _ hgiven.2

/-- A backup keeps its pending commands through an event exactly if the event brings none
into its pool, or its batches take none out of it. -/
theorem keepsPending_iff {history : List (ReplicaCoreEvent scheme)}
    (hrun : BackupRun config history core) (hid : config.id ≠ 0)
    (hevent : event.OnBackup)
    (hhandle : core.handle event = .ok (core', actions)) :
    KeepsPending core event core' actions ↔
      config.openLoop = false ∧ config.maxBatchSize = 0 ∨
        ∀ command, event = .request command → ¬ core.pool.Admits command := by
  have h := BackupRun.idles hrun hid
  by_cases hbatchless : Batchless config
  · exact ⟨fun _ => .inl hbatchless, fun _ => h.keepsPending hid hbatchless hevent hhandle⟩
  · constructor
    · rintro hkeeps
      refine .inr fun command heq hadmits => ?_
      subst heq
      exact h.not_keepsPending hid hbatchless hhandle hadmits hkeeps
    · intro hcondition command hwaits
      have hnone := hcondition.resolve_left hbatchless
      rcases hwaits with hmem | ⟨heq, hadmits⟩
      · rw [h.empty hbatchless] at hmem
        exact absurd hmem List.not_mem_nil
      · exact absurd hadmits (hnone command heq)

/-- A new backup, with batches of one command. -/
def idleBackup : ReplicaCore .transparent := new .transparent ((Group.four ∅).coreConfig 1)

theorem idleBackup_request :
    ∃ core' actions, idleBackup.handle (.request (Group.ping 0)) = .ok (core', actions) := by
  have hok : (idleBackup.handle (.request (Group.ping 0))).toOption.isSome = true := by
    decide +kernel
  cases hhandle : idleBackup.handle (.request (Group.ping 0)) with
  | ok result => exact ⟨result.1, result.2, rfl⟩
  | error panic =>
      rw [hhandle] at hok
      cases hok

/-- It does not keep the first command it is sent. -/
theorem keepsPending_iff_idle : ∃ core' actions,
    idleBackup.handle (.request (Group.ping 0)) = .ok (core', actions) ∧
      ¬ KeepsPending idleBackup (.request (Group.ping 0)) core' actions := by
  obtain ⟨core', actions, hhandle⟩ := idleBackup_request
  refine ⟨core', actions, hhandle, fun hkeeps => ?_⟩
  have hrun : BackupRun ((Group.four ∅).coreConfig 1) [] idleBackup := .start rfl
  have hevent : (ReplicaCoreEvent.request (Group.ping 0) :
    ReplicaCoreEvent .transparent).OnBackup := trivial
  have hcondition := (keepsPending_iff hrun (by decide) hevent hhandle).mp hkeeps
  rcases hcondition with ⟨-, hsize⟩ | hnone
  · cases hsize
  · exact hnone (Group.ping 0) rfl (CommandPool.isNew_admits (.inl rfl) _)

/-- A backup loses the first command it is sent: its own beat takes it out of the pool. -/
theorem pending_lost : ¬ ∀ (config : ReplicaCoreConfig)
    (history : List (ReplicaCoreEvent .transparent)) (core core' : ReplicaCore .transparent)
    (event : ReplicaCoreEvent .transparent) (actions : ReplicaCoreActions),
    BackupRun config history core → config.id ≠ 0 → event.OnBackup →
    core.handle event = .ok (core', actions) → KeepsPending core event core' actions := by
  intro hall
  obtain ⟨core', actions, hhandle⟩ := idleBackup_request
  have hbatches : ¬ Batchless ((Group.four ∅).coreConfig 1) := by
    rintro ⟨-, hsize⟩
    cases hsize
  exact (new_idles ((Group.four ∅).coreConfig 1)).not_keepsPending (by decide) hbatches hhandle
    (CommandPool.isNew_admits (.inl rfl) _)
    (hall _ [] idleBackup core' _ actions (.start rfl) (by decide) trivial hhandle)

end ReplicaCore

end Hotstuff

end BftKit
