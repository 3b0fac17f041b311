import BftKit.Foundation.Records
import BftKit.Transport.Commits
import BftKit.Transport.Service

/-! # Servers

A server is a service task beside a replica task, with a channel in each direction: for the
commands that are to be ordered, and for what has been finalized. Whatever the replicas are,
a service executes the records of its replica's log.
-/

namespace BftKit.Transport

open Foundation

/-- The replica tasks of a system, as far as its service tasks see them. Their steps may
depend on what all of them have done. -/
structure ReplicaTasks {Reply Finalized : Type} (service : Service Reply Finalized)
    (Replica Event : Type) where
  start : Nat → Replica → Prop
  step : Nat → List (Nat × Event) → Replica → Event → Replica → Prop
  /-- The command that an event takes from the request channel. -/
  requested? : Event → Option Command
  /-- What an event puts into the finalized channel, with the state that it leaves. -/
  finalizes : Replica → Event → List Finalized
  /-- The commands of that. -/
  log : Event → List Command
  flatMap_finalizes : ∀ replica event, (finalizes replica event).flatMap service.commands = log event

/-- `server_task`. -/
structure Server (Replica Reply Finalized : Type) where
  replica : Replica
  requests : List Command
  finalized : List Finalized
  task : Except ServiceEnd (ServiceTask Reply)

inductive ServerLabel (Event Reply Finalized : Type) where
  | replica (event : Event)
  | service (happening : Service.ServiceHappening Reply Finalized)

/-- The command that goes into the request channel. -/
def ServiceAction.forwarded? {Reply : Type} : ServiceAction Reply → Option Command
  | .forward command => some command
  | .execute _ _ | .write _ _ => none

/-- What is taken from the finalized channel. -/
def ServiceSelect.finalized? {Finalized : Type} : ServiceSelect Finalized → Option Finalized
  | .finalized batch => batch
  | .accept _ | .message _ | .transportError | .cancel => none

variable {Replica Event Reply Finalized : Type}

/-! ## What a service executes -/

namespace Service

/-- The commands that a service executes out of a log. -/
abbrev novel (log : List Command) : List Command := records Command.clientId Command.seq log

theorem novel_concat (log : List Command) (command : Command) :
    novel (log ++ [command]) = record Command.clientId Command.seq (novel log) command :=
  records_concat log command

variable {service : Service Reply Finalized} {executions : List (Executed Reply)}
  {task : ServiceTask Reply} {log : List Command}

/-- The cache tells what has been reached. -/
theorem Cached.visit_eq_none_iff (h : service.Cached executions task.replies)
    (finalized : Finalized) (command : Command) : service.visit finalized task command = none ↔
      Reached Command.clientId Command.seq (executions.map Executed.command) command := by
  rw [Service.visit]
  cases hlookup : task.replies.lookup command.clientId with
  | none =>
      rw [Option.any_none, if_neg Bool.false_ne_true]
      refine iff_of_false (by simp) ?_
      rintro ⟨_, hmem, hclient, -⟩
      obtain ⟨entry, hentry, rfl⟩ := List.mem_map.mp hmem
      exact h.fresh _ hlookup entry hentry hclient
  | some reply =>
      obtain ⟨entry, ⟨hentry, hclient, hmax⟩, rfl⟩ := h.highest _ reply hlookup
      rw [Option.any_some, h.replySeq_eq entry hentry]
      constructor
      · intro hnone
        have hle : command.seq ≤ entry.command.seq := by
          by_contra hnot
          simp [hnot] at hnone
        exact ⟨_, List.mem_map_of_mem hentry, hclient, hle⟩
      · rintro ⟨_, hmem, hclient', hle⟩
        obtain ⟨other, hother, rfl⟩ := List.mem_map.mp hmem
        rw [if_pos (decide_eq_true (hle.trans (hmax other hother hclient')))]

theorem Inv.visited (h : service.Inv executions task) {finalized : Finalized} {command : Command}
    {reply : Reply} (hvisit : service.visit finalized task command = some reply)
    (hconnected : command.clientId ∈ task.writeSenders) :
    service.Inv (executions ++ [⟨command, reply⟩])
      { task with replies := task.replies.insert command.clientId reply } := by
  refine ⟨h.cached.visit hvisit, ?_⟩
  intro clientId hsome
  rw [Map.lookup_insert] at hsome
  split at hsome
  next heq => exact heq ▸ hconnected
  next => exact h.connected clientId hsome

/-- The loop over a batch executes what is new in it, as far as it gets. -/
theorem Inv.serve_novel (h : service.Inv executions task) (finalized : Finalized)
    (hlog : executions.map Executed.command = novel log) (commands : List Command) :
    ∃ reached, reached <+: commands ∧
      (executions ++ executed (service.serve finalized commands task).1).map Executed.command =
        novel (log ++ reached) ∧
      ∀ next, (service.serve finalized commands task).2 = .ok next → reached = commands := by
  induction commands generalizing executions task log with
  | nil =>
      have hsame : executions ++ executed (service.serve finalized [] task).1 = executions :=
        List.append_nil _
      exact ⟨[], List.prefix_rfl, by rw [hsame, hlog, List.append_nil], fun _ _ => rfl⟩
  | cons command rest ih =>
      have hiff := h.cached.visit_eq_none_iff finalized command
      rw [hlog] at hiff
      have hconcat : ∀ reached, novel (log ++ command :: reached) =
          novel ((log ++ [command]) ++ reached) := by
        intro reached
        rw [List.append_assoc]
        rfl
      cases hvisit : service.visit finalized task command with
      | none =>
          have hsame : novel (log ++ [command]) = novel log := by
            rw [novel_concat, record, if_pos (hiff.mp hvisit)]
          obtain ⟨reached, hprefix, hexecuted, hall⟩ := ih h (hlog.trans hsame.symm)
          rw [Service.serve, hvisit]
          refine ⟨command :: reached, (List.prefix_cons_inj command).mpr hprefix, ?_, ?_⟩
          · rw [hconcat]
            exact hexecuted
          · intro next hnext
            rw [hall next hnext]
      | some reply =>
          have hmore : (executions ++ [(⟨command, reply⟩ : Executed Reply)]).map
              Executed.command = novel (log ++ [command]) := by
            rw [List.map_append, hlog, novel_concat, record, if_neg]
            · rfl
            · intro hreached
              cases hvisit.symm.trans (hiff.mpr hreached)
          rw [Service.serve, hvisit]
          dsimp only
          split
          next hconnected =>
            have hnext := h.visited hvisit hconnected
            obtain ⟨reached, hprefix, hexecuted, hall⟩ := ih hnext hmore
            refine ⟨command :: reached, (List.prefix_cons_inj command).mpr hprefix, ?_, ?_⟩
            · rw [hconcat, ← hexecuted, List.append_assoc]
              rfl
            · intro next hserved
              rw [hall next hserved]
          next =>
            -- the reply cannot be sent, and the rest is not executed
            refine ⟨[command], ⟨rest, rfl⟩, hmore, ?_⟩
            intro next hnext
            cases hnext

/-- What `select!` yields from the finalized channel. -/
def delivered (service : Service Reply Finalized) (select : ServiceSelect Finalized) :
    List Command :=
  select.finalized?.toList.flatMap service.commands

theorem Inv.step_novel (h : service.Inv executions task)
    (hlog : executions.map Executed.command = novel log) (select : ServiceSelect Finalized) :
    ∃ reached, reached <+: service.delivered select ∧
      (executions ++ executed (service.step task select).1).map Executed.command =
        novel (log ++ reached) ∧
      ∀ next, (service.step task select).2 = .ok next → reached = service.delivered select := by
  have hkeep : ∀ {select : ServiceSelect Finalized}, service.delivered select = [] →
      executed (service.step task select).1 = [] → ∃ reached, reached <+: service.delivered select ∧
        (executions ++ executed (service.step task select).1).map Executed.command =
          novel (log ++ reached) ∧
        ∀ next, (service.step task select).2 = .ok next → reached = service.delivered select := by
    intro select hnone hexecuted
    refine ⟨[], List.nil_prefix, ?_, fun _ _ => hnone.symm⟩
    rw [hexecuted, List.append_nil, List.append_nil, hlog]
  cases select with
  | accept clientId =>
      apply hkeep rfl
      cases clientId with
      | none => rfl
      | some clientId =>
          rw [Service.step]
          split <;> rfl
  | message command =>
      apply hkeep rfl
      cases command with
      | none => rfl
      | some command =>
          rw [Service.step]
          rcases h.receive_cases command with ⟨-, heq⟩ | ⟨entry, -, ⟨-, heq⟩ | ⟨-, heq⟩⟩ <;>
            rw [heq] <;> rfl
  | finalized finalized =>
      cases finalized with
      | none => exact hkeep rfl rfl
      | some finalized =>
          have hdelivered : service.delivered (.finalized (some finalized)) =
              service.commands finalized := List.flatMap_singleton _ _
          rw [hdelivered]
          exact h.serve_novel finalized hlog _
  | transportError | cancel => exact hkeep rfl rfl

/-- A reply is that to an execution for the client. -/
def Answers (service : Service Reply Finalized) (executions : List (Executed Reply))
    (clientId : ClientId) (reply : Reply) : Prop :=
  ∃ entry ∈ executions, entry.command.clientId = clientId ∧ entry.reply = reply ∧
    service.replySeq reply = entry.command.seq

theorem Answers.mono {clientId : ClientId} {reply : Reply} {more : List (Executed Reply)}
    (h : service.Answers executions clientId reply) (hsub : executions ⊆ more) :
    service.Answers more clientId reply := by
  obtain ⟨entry, hentry, hanswers⟩ := h
  exact ⟨entry, hsub hentry, hanswers⟩

theorem serve_answers (finalized : Finalized) (commands : List Command)
    (task : ServiceTask Reply) {clientId : ClientId} {reply : Reply}
    (hwrite : .write clientId reply ∈ (service.serve finalized commands task).1) :
    service.Answers (executed (service.serve finalized commands task).1) clientId reply := by
  induction commands generalizing task with
  | nil => cases hwrite
  | cons command rest ih =>
      cases hvisit : service.visit finalized task command with
      | none =>
          rw [Service.serve, hvisit] at hwrite ⊢
          exact ih task hwrite
      | some executed =>
          obtain ⟨rfl, -⟩ := visit_some hvisit
          rw [Service.serve, hvisit] at hwrite ⊢
          dsimp only at hwrite ⊢
          split at hwrite
          next hconnected =>
            rw [if_pos hconnected]
            simp only [List.mem_cons, reduceCtorEq, false_or, ServiceAction.write.injEq] at hwrite
            rcases hwrite with ⟨rfl, rfl⟩ | hrest
            · exact ⟨_, List.mem_cons_self, rfl, rfl, service.replySeq_reply _ _ _⟩
            · exact (ih _ hrest).mono (List.subset_cons_self _ _)
          next => simp at hwrite

/-- A reply is sent when the command is executed, or again from the cache. -/
theorem Inv.step_answers (h : service.Inv executions task) (select : ServiceSelect Finalized)
    {clientId : ClientId} {reply : Reply}
    (hwrite : .write clientId reply ∈ (service.step task select).1) :
    service.Answers (executions ++ executed (service.step task select).1) clientId reply := by
  cases select with
  | accept clientId =>
      cases clientId with
      | none => cases hwrite
      | some clientId =>
          rw [Service.step] at hwrite
          split at hwrite <;> cases hwrite
  | message command =>
      cases command with
      | none => cases hwrite
      | some command =>
          rw [Service.step] at hwrite ⊢
          rcases h.receive_cases command with ⟨-, heq⟩ | ⟨entry, hentry, ⟨hseq, heq⟩ | ⟨-, heq⟩⟩
          · simp [heq] at hwrite
          · simp only [heq, List.mem_singleton, ServiceAction.write.injEq] at hwrite
            obtain ⟨rfl, rfl⟩ := hwrite
            exact ⟨entry, List.mem_append_left _ hentry.1, hentry.2.1, rfl,
              h.cached.replySeq_eq entry hentry.1⟩
          · simp [heq] at hwrite
  | finalized finalized =>
      cases finalized with
      | none => cases hwrite
      | some finalized =>
          exact (serve_answers finalized _ task hwrite).mono (List.subset_append_right _ _)
  | transportError | cancel => cases hwrite

/-- The loop replies to what it executes, in its own name. -/
theorem serve_replies (finalized : Finalized) (commands : List Command) (task : ServiceTask Reply) :
    (∀ entry ∈ executed (service.serve finalized commands task).1,
      entry.reply = service.reply task.replicaId finalized entry.command) ∧
    ∀ next, (service.serve finalized commands task).2 = .ok next →
      next.replicaId = task.replicaId ∧
      ∀ entry ∈ executed (service.serve finalized commands task).1,
        .write entry.command.clientId entry.reply ∈ (service.serve finalized commands task).1 := by
  induction commands generalizing task with
  | nil =>
      refine ⟨List.forall_mem_nil _, ?_⟩
      intro next hnext
      obtain rfl := Except.ok.inj hnext
      exact ⟨rfl, List.forall_mem_nil _⟩
  | cons command rest ih =>
      cases hvisit : service.visit finalized task command with
      | none =>
          rw [Service.serve, hvisit]
          exact ih task
      | some reply =>
          obtain ⟨rfl, -⟩ := visit_some hvisit
          rw [Service.serve, hvisit]
          dsimp only
          split
          next hconnected =>
            obtain ⟨hreplies, hall⟩ := ih { task with
              replies := task.replies.insert command.clientId
                (service.reply task.replicaId finalized command) }
            constructor
            · rintro entry (_ | ⟨_, hentry⟩)
              · rfl
              · exact hreplies entry hentry
            · intro next hnext
              obtain ⟨hown, hwritten⟩ := hall next hnext
              refine ⟨hown, ?_⟩
              rintro entry (_ | ⟨_, hentry⟩)
              · exact List.mem_cons_of_mem _ List.mem_cons_self
              · exact List.mem_cons_of_mem _ (List.mem_cons_of_mem _ (hwritten entry hentry))
          next =>
            constructor
            · intro entry hentry
              obtain rfl := List.mem_singleton.mp hentry
              rfl
            · intro next hnext
              cases hnext

theorem Inv.step_replies (h : service.Inv executions task) (select : ServiceSelect Finalized) :
    (∀ entry ∈ executed (service.step task select).1,
      ∃ finalized, entry.reply = service.reply task.replicaId finalized entry.command) ∧
    ∀ next, (service.step task select).2 = .ok next → next.replicaId = task.replicaId ∧
      ∀ entry ∈ executed (service.step task select).1,
        .write entry.command.clientId entry.reply ∈ (service.step task select).1 := by
  have hkeep : ∀ {select : ServiceSelect Finalized},
      executed (service.step task select).1 = [] →
      (∀ next, (service.step task select).2 = .ok next → next.replicaId = task.replicaId) →
      (∀ entry ∈ executed (service.step task select).1,
        ∃ finalized, entry.reply = service.reply task.replicaId finalized entry.command) ∧
      ∀ next, (service.step task select).2 = .ok next → next.replicaId = task.replicaId ∧
        ∀ entry ∈ executed (service.step task select).1,
          .write entry.command.clientId entry.reply ∈ (service.step task select).1 := by
    intro select hnone hown
    rw [hnone]
    refine ⟨by simp, fun next hnext => ⟨hown next hnext, by simp⟩⟩
  cases select with
  | accept clientId =>
      cases clientId with
      | none => exact hkeep rfl fun _ hnext => by cases hnext
      | some clientId =>
          apply hkeep
          · rw [Service.step]
            split <;> rfl
          · intro next hnext
            rw [Service.step] at hnext
            split at hnext
            · cases hnext
            · obtain rfl := Except.ok.inj hnext
              rfl
  | message command =>
      cases command with
      | none => exact hkeep rfl fun _ hnext => by cases hnext
      | some command =>
          rcases h.receive_cases command with ⟨-, heq⟩ | ⟨entry, -, ⟨-, heq⟩ | ⟨-, heq⟩⟩
          all_goals
            apply hkeep
            · rw [Service.step, heq]
              rfl
            · intro next hnext
              rw [Service.step, heq] at hnext
              obtain rfl := Except.ok.inj hnext
              rfl
  | finalized finalized =>
      cases finalized with
      | none => exact hkeep rfl fun _ hnext => by cases hnext
      | some finalized =>
          have hserved := @serve_replies _ _ service finalized (service.commands finalized) task
          obtain ⟨hreplies, hall⟩ := hserved
          exact ⟨fun entry hentry => ⟨finalized, hreplies entry hentry⟩, hall⟩
  | transportError =>
      refine hkeep rfl ?_
      intro next hnext
      obtain rfl := Except.ok.inj hnext
      rfl
  | cancel => exact hkeep rfl fun _ hnext => by cases hnext

/-- With its clients connected, a batch is served to its end. -/
theorem serve_ok (finalized : Finalized) (commands : List Command) (task : ServiceTask Reply)
    (hconnected : ∀ command ∈ commands, command.clientId ∈ task.writeSenders) :
    ∃ replies, (service.serve finalized commands task).2 =
      .ok { task with replies := replies } := by
  induction commands generalizing task with
  | nil => exact ⟨task.replies, rfl⟩
  | cons command rest ih =>
      obtain ⟨hcommand, hrest⟩ := List.forall_mem_cons.mp hconnected
      cases hvisit : service.visit finalized task command with
      | none =>
          rw [Service.serve, hvisit]
          exact ih task hrest
      | some reply =>
          rw [Service.serve, hvisit]
          dsimp only
          rw [if_pos hcommand]
          exact ih { task with replies := task.replies.insert command.clientId reply } hrest

/-- Serving a batch forwards nothing. -/
theorem serve_forwards (finalized : Finalized) (commands : List Command)
    (task : ServiceTask Reply) :
    (service.serve finalized commands task).1.filterMap ServiceAction.forwarded? = [] := by
  induction commands generalizing task with
  | nil => rfl
  | cons command rest ih =>
      cases hvisit : service.visit finalized task command with
      | none =>
          rw [Service.serve, hvisit]
          exact ih task
      | some reply =>
          rw [Service.serve, hvisit]
          dsimp only
          split
          · exact ih { task with replies := task.replies.insert command.clientId reply }
          · rfl

/-- What a service task gets from its replica. -/
def deliveredIn (service : Service Reply Finalized)
    (history : List (ServiceHappening Reply Finalized)) : List Command :=
  history.flatMap fun happening => service.delivered happening.select

/-- What a service task passes on to its replica. -/
def forwardedIn (history : List (ServiceHappening Reply Finalized)) : List Command :=
  history.flatMap fun happening => happening.actions.filterMap ServiceAction.forwarded?

end Service

namespace ServerLabel

def event? : ServerLabel Event Reply Finalized → Option Event
  | replica event => some event
  | service _ => none

def happening? : ServerLabel Event Reply Finalized →
    Option (Service.ServiceHappening Reply Finalized)
  | replica _ => none
  | service happening => some happening

end ServerLabel

namespace Server

/-- What the replicas do in a history of servers. -/
def replicaHistory (history : List (Nat × ServerLabel Event Reply Finalized)) :
    List (Nat × Event) :=
  history.filterMap fun entry => entry.2.event?.map (Prod.mk entry.1)

/-- What the service task of a server does. -/
def happenings (labels : List (ServerLabel Event Reply Finalized)) :
    List (Service.ServiceHappening Reply Finalized) :=
  labels.filterMap ServerLabel.happening?

/-- The commands that a server has executed. -/
def executed (labels : List (ServerLabel Event Reply Finalized)) : List Command :=
  (Service.executions (happenings labels)).map Service.Executed.command

variable {service : Service Reply Finalized} (replicas : ReplicaTasks service Replica Event)

/-- One of the two tasks of a server goes on. -/
inductive Step (who : Nat) (history : List (Nat × ServerLabel Event Reply Finalized))
    (server : Server Replica Reply Finalized) :
    ServerLabel Event Reply Finalized → Server Replica Reply Finalized → Prop
  | replica {event next rest}
      (hstep : replicas.step who (replicaHistory history) server.replica event next)
      (hrequests : server.requests = (replicas.requested? event).toList ++ rest) :
      Step who history server (.replica event) { server with
        replica := next
        requests := rest
        finalized := server.finalized ++ replicas.finalizes next event }
  | service {select rest task} (htask : server.task = .ok task)
      (hfinalized : server.finalized = select.finalized?.toList ++ rest) :
      Step who history server (.service ⟨select, (service.step task select).1⟩) { server with
        requests := server.requests ++
          (service.step task select).1.filterMap ServiceAction.forwarded?
        finalized := rest
        task := (service.step task select).2 }

/-- A new server. -/
structure Start (who : Nat) (server : Server Replica Reply Finalized) : Prop where
  replica : replicas.start who server.replica
  requests : server.requests = []
  finalized : server.finalized = []
  task : server.task = .ok (Service.new who)

/-- The runs of a system of servers. -/
abbrev ServersRun : List (Nat × ServerLabel Event Reply Finalized) →
    (Nat → Server Replica Reply Finalized) → Prop :=
  Run (fun servers => ∀ who, Start replicas who (servers who)) (interleave (Step replicas))

variable {replicas : ReplicaTasks service Replica Event}
  {history : List (Nat × ServerLabel Event Reply Finalized)}
  {servers : Nat → Server Replica Reply Finalized} {who : Nat}

theorem view_replicaHistory (who : Nat)
    (history : List (Nat × ServerLabel Event Reply Finalized)) :
    view who (replicaHistory history) = (view who history).filterMap ServerLabel.event? := by
  rw [view, replicaHistory, view, List.filterMap_filterMap, List.filterMap_filterMap]
  apply List.filterMap_congr
  rintro ⟨party, label⟩ -
  cases hevent : label.event? <;> by_cases heq : party = who <;> simp [hevent, heq]

theorem replicaHistory_concat (history : List (Nat × ServerLabel Event Reply Finalized))
    (who : Nat) (label : ServerLabel Event Reply Finalized) :
    replicaHistory (history ++ [(who, label)]) =
      replicaHistory history ++ (label.event?.map (Prod.mk who)).toList := by
  rw [replicaHistory, List.filterMap_append]
  cases label <;> rfl

/-- The replica tasks do not see the rest of the servers. -/
theorem ServersRun.replicaRun (hrun : ServersRun replicas history servers) :
    Run (fun states => ∀ who, replicas.start who (states who)) (interleave replicas.step)
      (replicaHistory history) fun who => (servers who).replica := by
  induction hrun with
  | start hinit => exact .start fun who => (hinit who).replica
  | @step history servers entry next hprev hstep ih =>
      obtain ⟨who, label⟩ := entry
      obtain ⟨target, hstep, rfl⟩ := hstep
      rw [replicaHistory_concat]
      have hupdate : (fun other => (Function.update servers who target other).replica) =
          Function.update (fun other => (servers other).replica) who target.replica :=
        Function.comp_update Server.replica servers who target
      rw [hupdate]
      cases hstep with
      | replica hstep => exact ih.step ⟨_, hstep, rfl⟩
      | service =>
          rw [Function.update_eq_self, ServerLabel.event?, Option.map_none, Option.toList_none,
            List.append_nil]
          exact ih

/-! ## The books of a server -/

/-- What has gone through the channels of a server, and what it has executed. -/
structure Books (replicas : ReplicaTasks service Replica Event) (who : Nat)
    (labels : List (ServerLabel Event Reply Finalized))
    (server : Server Replica Reply Finalized) : Prop where
  /-- The replica gets what is forwarded, in order. -/
  requested : (labels.filterMap ServerLabel.event?).filterMap replicas.requested? ++
      server.requests =
    Service.forwardedIn (happenings labels)
  /-- The service gets what is finalized, in order. -/
  finalized : service.deliveredIn (happenings labels) ++
      server.finalized.flatMap service.commands =
    (labels.filterMap ServerLabel.event?).flatMap replicas.log
  /-- It executes what is new in it, as far as it gets. -/
  executed : ∃ reached, reached <+: service.deliveredIn (happenings labels) ∧
    executed labels = Service.novel reached ∧
    ∀ task, server.task = .ok task → reached = service.deliveredIn (happenings labels) ∧
      service.Inv (Service.executions (happenings labels)) task
  /-- The clients get the replies to what was executed. -/
  written : ∀ happening ∈ happenings labels, ∀ clientId reply,
    .write clientId reply ∈ happening.actions →
      service.Answers (Service.executions (happenings labels)) clientId reply
  /-- Replies are made in the name of the replica. -/
  replied : ∀ entry ∈ Service.executions (happenings labels),
    ∃ finalized, entry.reply = service.reply who finalized entry.command
  /-- As long as the task goes on, it sends the replies to all that it executes. -/
  answered : ∀ task, server.task = .ok task → task.replicaId = who ∧
    ∀ entry ∈ Service.executions (happenings labels), ∃ happening ∈ happenings labels,
      .write entry.command.clientId entry.reply ∈ happening.actions

variable {labels : List (ServerLabel Event Reply Finalized)}
  {server : Server Replica Reply Finalized}

theorem Books.orders (h : Books replicas who labels server) {event : Event} {next : Replica}
    {rest : List Command} (hrequests : server.requests = (replicas.requested? event).toList ++ rest) :
    Books replicas who (labels ++ [.replica event]) { server with
      replica := next
      requests := rest
      finalized := server.finalized ++ replicas.finalizes next event } := by
  have hevents : (labels ++ [ServerLabel.replica event]).filterMap ServerLabel.event? =
      labels.filterMap ServerLabel.event? ++ [event] := by
    rw [List.filterMap_append]
    rfl
  have hhappenings : happenings (labels ++ [.replica event]) = happenings labels := by
    rw [happenings, List.filterMap_append]
    exact List.append_nil _
  obtain ⟨hrequested, hfinalized, hexecuted, hwritten, hreplied, hanswered⟩ := h
  refine ⟨?_, ?_, ?_, ?_, ?_, ?_⟩
  · rw [hevents, hhappenings, ← hrequested, hrequests, List.filterMap_append, List.append_assoc]
    cases hevent : replicas.requested? event <;> simp [hevent]
  · rw [hevents, hhappenings, List.flatMap_append, List.flatMap_append, ← List.append_assoc,
      hfinalized, replicas.flatMap_finalizes, List.flatMap_singleton]
  · rwa [Server.executed, hhappenings]
  all_goals rwa [hhappenings]

theorem Books.serves (h : Books replicas who labels server) {select : ServiceSelect Finalized}
    {rest : List Finalized} {task : ServiceTask Reply} (htask : server.task = .ok task)
    (hfinalized : server.finalized = select.finalized?.toList ++ rest) :
    Books replicas who (labels ++ [.service ⟨select, (service.step task select).1⟩]) { server with
      requests := server.requests ++
        (service.step task select).1.filterMap ServiceAction.forwarded?
      finalized := rest
      task := (service.step task select).2 } := by
  obtain ⟨hrequested, hfinalized', ⟨reached, -, hexecuted, hall⟩, hwritten, hreplied,
    hanswered⟩ := h
  obtain ⟨rfl, hinv⟩ := hall task htask
  obtain ⟨hown, hanswered⟩ := hanswered task htask
  obtain ⟨reached, hprefix, hnow, hdone⟩ := hinv.step_novel hexecuted select
  obtain ⟨hreplies, hgoes⟩ := hinv.step_replies select
  set happening : Service.ServiceHappening Reply Finalized :=
    ⟨select, (service.step task select).1⟩
  have hevents : (labels ++ [ServerLabel.service happening]).filterMap ServerLabel.event? =
      labels.filterMap ServerLabel.event? := by
    rw [List.filterMap_append]
    exact List.append_nil _
  have hhappenings : happenings (labels ++ [.service happening]) =
      happenings labels ++ [happening] := by
    rw [happenings, List.filterMap_append]
    rfl
  have hexecutions : Service.executions (happenings labels ++ [happening]) =
      Service.executions (happenings labels) ++ Service.executed (service.step task select).1 := by
    rw [Service.executions, List.flatMap_append, List.flatMap_singleton]
    rfl
  have hdelivered : service.deliveredIn (happenings labels ++ [happening]) =
      service.deliveredIn (happenings labels) ++ service.delivered select := by
    rw [Service.deliveredIn, List.flatMap_append, List.flatMap_singleton]
    rfl
  refine ⟨?_, ?_, ?_, ?_, ?_, ?_⟩
  · rw [hevents, hhappenings, Service.forwardedIn, List.flatMap_append, List.flatMap_singleton,
      ← Service.forwardedIn, ← hrequested, List.append_assoc]
  · rw [hevents, hhappenings, hdelivered, ← hfinalized', hfinalized, List.flatMap_append,
      List.append_assoc]
    rfl
  · rw [Server.executed, hhappenings, hexecutions, hdelivered, hnow]
    refine ⟨_, (List.prefix_append_right_inj _).mpr hprefix, rfl, ?_⟩
    intro next hnext
    rw [hdone next hnext]
    exact ⟨rfl, (hinv.step select).2 next hnext⟩
  · rw [hhappenings, hexecutions]
    intro other hother clientId reply hwrite
    rcases List.mem_append.mp hother with hold | hlast
    · exact (hwritten other hold clientId reply hwrite).mono (List.subset_append_left _ _)
    · obtain rfl := List.mem_singleton.mp hlast
      exact hinv.step_answers select hwrite
  · rw [hhappenings, hexecutions]
    intro entry hentry
    rcases List.mem_append.mp hentry with hold | hlast
    · exact hreplied entry hold
    · rw [← hown]
      exact hreplies entry hlast
  · intro next hnext
    obtain ⟨hown', hwritten'⟩ := hgoes next hnext
    rw [hhappenings, hexecutions]
    refine ⟨hown'.trans hown, ?_⟩
    intro entry hentry
    rcases List.mem_append.mp hentry with hold | hlast
    · obtain ⟨other, hother, hwrite⟩ := hanswered entry hold
      exact ⟨other, List.mem_append_left _ hother, hwrite⟩
    · exact ⟨happening, List.mem_append_right _ (List.mem_singleton_self _), hwritten' entry hlast⟩

theorem ServersRun.books (hrun : ServersRun replicas history servers) (who : Nat) :
    Books replicas who (view who history) (servers who) := by
  have hlocal := @Run.view _ _ _ _ (Start replicas) (Step replicas) who
    (fun labels server label next => ∃ history, Step replicas who history server label next)
    (fun history _ _ _ hstep => ⟨history, hstep⟩) _ _ hrun
  refine Run.invariant (P := Books replicas who) ?_ ?_ hlocal
  · intro server hstart
    obtain ⟨-, hrequests, hfinalized, htask⟩ := hstart
    refine ⟨by rw [hrequests]; rfl, by rw [hfinalized]; rfl, ⟨[], List.prefix_rfl, rfl, ?_⟩,
      List.forall_mem_nil _, List.forall_mem_nil _, ?_⟩
    · intro task heq
      obtain rfl := Except.ok.inj (htask.symm.trans heq)
      refine ⟨rfl, Service.Cached.empty, ?_⟩
      intro clientId hsome
      simp [Service.new] at hsome
    · intro task heq
      obtain rfl := Except.ok.inj (htask.symm.trans heq)
      exact ⟨rfl, List.forall_mem_nil _⟩
  · rintro labels server label next - h ⟨history, hstep⟩
    cases hstep with
    | replica _ hrequests => exact h.orders hrequests
    | service htask hfinalized => exact h.serves htask hfinalized

/-- What the replica of a server has finalized. -/
def logOf (replicas : ReplicaTasks service Replica Event)
    (history : List (Nat × ServerLabel Event Reply Finalized)) (who : Nat) : List Command :=
  (view who (replicaHistory history)).flatMap replicas.log

/-- What is executed is what is new in a part of the log. -/
theorem ServersRun.executed_eq (hrun : ServersRun replicas history servers) (who : Nat) :
    ∃ reached, reached <+: logOf replicas history who ∧
      executed (view who history) = Service.novel reached := by
  obtain ⟨-, hfinalized, ⟨reached, hprefix, hexecuted, -⟩, -, -, -⟩ := ServersRun.books hrun who
  refine ⟨reached, hprefix.trans ?_, hexecuted⟩
  rw [logOf, view_replicaHistory, ← hfinalized]
  exact List.prefix_append _ _

/-- A service that has emptied its channel has executed what is new in the log. -/
theorem ServersRun.executed_eq_novel (hrun : ServersRun replicas history servers)
    {task : ServiceTask Reply} (htask : (servers who).task = .ok task)
    (hempty : (servers who).finalized = []) :
    executed (view who history) = Service.novel (logOf replicas history who) := by
  obtain ⟨-, hfinalized, ⟨reached, -, hexecuted, hall⟩, -, -, -⟩ := ServersRun.books hrun who
  rw [hempty, List.flatMap_nil, List.append_nil] at hfinalized
  rw [hexecuted, (hall task htask).1, hfinalized, logOf, view_replicaHistory]

/-- Servers execute the same commands in the same order, as far as their logs are the same. -/
theorem ServersRun.executed_comparable (hrun : ServersRun replicas history servers)
    {left right : Nat} (hlogs : logOf replicas history left <+: logOf replicas history right ∨
      logOf replicas history right <+: logOf replicas history left) :
    executed (view left history) <+: executed (view right history) ∨
      executed (view right history) <+: executed (view left history) := by
  obtain ⟨reached, hpre, heq⟩ := ServersRun.executed_eq hrun left
  obtain ⟨reached', hpre', heq'⟩ := ServersRun.executed_eq hrun right
  rw [heq, heq']
  have hreached : reached <+: reached' ∨ reached' <+: reached := by
    rcases hlogs with hlog | hlog
    · exact List.prefix_or_prefix_of_prefix (hpre.trans hlog) hpre'
    · exact List.prefix_or_prefix_of_prefix hpre (hpre'.trans hlog)
  exact hreached.imp records_prefix records_prefix

/-! ## Clients -/

/-- The service of a server has sent a reply to the client. -/
def Sent (history : List (Nat × ServerLabel Event Reply Finalized)) (who : Nat)
    (clientId : ClientId) (reply : Reply) : Prop :=
  ∃ happening ∈ happenings (view who history), .write clientId reply ∈ happening.actions

section Clients

variable {View : Type} [ToClient Reply]

open ToClient

end Clients

/-! ## What services can do on their own -/

/-- A step of a service task, as a step of the system. -/
theorem ServersRun.serves (hrun : ServersRun replicas history servers)
    (select : ServiceSelect Finalized) {rest : List Finalized} {task : ServiceTask Reply}
    (htask : (servers who).task = .ok task)
    (hfinalized : (servers who).finalized = select.finalized?.toList ++ rest) :
    ServersRun replicas (history ++ [(who, .service ⟨select, (service.step task select).1⟩)])
      (Function.update servers who { servers who with
        requests := (servers who).requests ++
          (service.step task select).1.filterMap ServiceAction.forwarded?
        finalized := rest
        task := (service.step task select).2 }) :=
  Run.step hrun ⟨_, .service htask hfinalized, rfl⟩

/-- A step of a replica task, as a step of the system. -/
theorem ServersRun.orders (hrun : ServersRun replicas history servers) {event : Event}
    {next : Replica} {rest : List Command}
    (hstep : replicas.step who (replicaHistory history) (servers who).replica event next)
    (hrequests : (servers who).requests = (replicas.requested? event).toList ++ rest) :
    ServersRun replicas (history ++ [(who, .replica event)])
      (Function.update servers who { servers who with
        replica := next
        requests := rest
        finalized := (servers who).finalized ++ replicas.finalizes next event }) :=
  Run.step hrun ⟨_, .replica hstep hrequests, rfl⟩

/-- Whatever the replicas do, the services can pass the requests on to them in time. -/
theorem exists_serversRun {events : List (Nat × Event)} {states : Nat → Replica}
    (hrun : Run (fun states => ∀ who, replicas.start who (states who)) (interleave replicas.step)
      events states) :
    ∃ history servers, ServersRun replicas history servers ∧ replicaHistory history = events ∧
      ∀ who, (servers who).replica = states who ∧ (servers who).requests = [] ∧
        (servers who).task = .ok (Service.new who) := by
  induction hrun with
  | start hstart =>
      exact ⟨[], fun who => ⟨_, [], [], .ok (Service.new who)⟩,
        .start fun who => ⟨hstart who, rfl, rfl, rfl⟩, rfl, fun _ => ⟨rfl, rfl, rfl⟩⟩
  | @step events states entry next hprev hstep ih =>
      obtain ⟨who, event⟩ := entry
      obtain ⟨target, hstep, rfl⟩ := hstep
      obtain ⟨history, servers, hservers, rfl, hall⟩ := ih
      -- the service forwards what the replica takes from the channel
      have hforwarded : ∃ history' servers', ServersRun replicas history' servers' ∧
          replicaHistory history' = replicaHistory history ∧
          (∀ other, (servers' other).replica = states other ∧
            (servers' other).task = .ok (Service.new other)) ∧
          (servers' who).requests = (replicas.requested? event).toList ∧
          ∀ other, other ≠ who → (servers' other).requests = [] := by
        cases hrequested : replicas.requested? event with
        | none =>
            exact ⟨history, servers, hservers, rfl,
              fun other => ⟨(hall other).1, (hall other).2.2⟩, (hall who).2.1,
              fun other _ => (hall other).2.1⟩
        | some command =>
            have hreceive : service.step (Service.new who) (.message (some command)) =
                ([.forward command], .ok (Service.new who)) := by
              rw [Service.step, Service.receive, Service.new, Finmap.lookup_empty]
            have hnext := ServersRun.serves hservers (.message (some command))
              (hall who).2.2 rfl
            rw [hreceive] at hnext
            refine ⟨_, _, hnext, ?_, ?_, ?_, ?_⟩
            · rw [replicaHistory_concat]
              exact List.append_nil _
            · intro other
              by_cases heq : other = who
              · subst heq
                rw [Function.update_self]
                exact ⟨(hall other).1, rfl⟩
              · rw [Function.update_of_ne heq]
                exact ⟨(hall other).1, (hall other).2.2⟩
            · rw [Function.update_self, (hall who).2.1]
              rfl
            · intro other hne
              rw [Function.update_of_ne hne]
              exact (hall other).2.1
      obtain ⟨history', servers', hservers', hsame, hall', hrequests, hothers⟩ := hforwarded
      have hstep' : replicas.step who (replicaHistory history') (servers' who).replica event
          target := by
        rw [hsame, (hall' who).1]
        exact hstep
      rw [← List.append_nil (replicas.requested? event).toList] at hrequests
      refine ⟨_, _, ServersRun.orders hservers' hstep' hrequests, ?_, ?_⟩
      · rw [replicaHistory_concat, hsame]
        rfl
      · intro other
        by_cases heq : other = who
        · subst heq
          rw [Function.update_self, Function.update_self]
          exact ⟨rfl, rfl, (hall' other).2⟩
        · rw [Function.update_of_ne heq, Function.update_of_ne heq]
          exact ⟨(hall' other).1, hothers other heq, (hall' other).2⟩

/-- The part of a system that a service task leaves alone. -/
structure Beside (who : Nat) (history history' : List (Nat × ServerLabel Event Reply Finalized))
    (servers servers' : Nat → Server Replica Reply Finalized) : Prop where
  longer : history <+: history'
  replicas : replicaHistory history' = replicaHistory history
  views : ∀ other, other ≠ who → view other history' = view other history
  others : ∀ other, other ≠ who → servers' other = servers other
  replica : (servers' who).replica = (servers who).replica
  requests : (servers' who).requests = (servers who).requests

theorem Beside.refl : Beside who history history servers servers :=
  ⟨List.prefix_rfl, rfl, fun _ _ => rfl, fun _ _ => rfl, rfl, rfl⟩

theorem Beside.trans {history' history'' : List (Nat × ServerLabel Event Reply Finalized)}
    {servers' servers'' : Nat → Server Replica Reply Finalized}
    (h : Beside who history history' servers servers')
    (h' : Beside who history' history'' servers' servers'') :
    Beside who history history'' servers servers'' where
  longer := h.longer.trans h'.longer
  replicas := h'.replicas.trans h.replicas
  views other hne := (h'.views other hne).trans (h.views other hne)
  others other hne := (h'.others other hne).trans (h.others other hne)
  replica := h'.replica.trans h.replica
  requests := h'.requests.trans h.requests

variable (history servers who) in
theorem Beside.of_serves (happening : Service.ServiceHappening Reply Finalized)
    (server : Server Replica Reply Finalized) (hreplica : server.replica = (servers who).replica)
    (hrequests : server.requests = (servers who).requests) :
    Beside who history (history ++ [(who, .service happening)]) servers
      (Function.update servers who server) where
  longer := List.prefix_append _ _
  replicas := by
    rw [replicaHistory_concat]
    exact List.append_nil _
  views other hne := by
    rw [view_append, view_singleton_of_ne (Ne.symm hne), List.append_nil]
  others other hne := Function.update_of_ne hne _ _
  replica := by rw [Function.update_self, hreplica]
  requests := by rw [Function.update_self, hrequests]

/-- Clients can connect. -/
theorem ServersRun.connects (hrun : ServersRun replicas history servers)
    {task : ServiceTask Reply} (htask : (servers who).task = .ok task) (clients : List ClientId) :
    ∃ history' servers', ServersRun replicas history' servers' ∧
      Beside who history history' servers servers' ∧
      ∃ task', (servers' who).task = .ok task' ∧ ∀ clientId ∈ clients,
        clientId ∈ task'.writeSenders := by
  induction clients with
  | nil => exact ⟨history, servers, hrun, .refl, task, htask, by simp⟩
  | cons clientId rest ih =>
      obtain ⟨history', servers', hrun', hbeside, task', htask', hrest⟩ := ih
      by_cases hmem : clientId ∈ task'.writeSenders
      · exact ⟨history', servers', hrun', hbeside, task', htask',
          List.forall_mem_cons.mpr ⟨hmem, hrest⟩⟩
      · have hnext := ServersRun.serves hrun' (.accept (some clientId)) htask' rfl
        have haccept : service.step task' (.accept (some clientId)) =
            ([], .ok { task' with writeSenders := insert clientId task'.writeSenders }) := by
          rw [Service.step, if_neg hmem]
        rw [haccept] at hnext
        refine ⟨_, _, hnext, hbeside.trans (.of_serves _ _ _ _ _ rfl (List.append_nil _)),
          { task' with writeSenders := insert clientId task'.writeSenders }, ?_, ?_⟩
        · rw [Function.update_self]
        · rintro other (_ | ⟨_, hother⟩)
          · exact Finset.mem_insert_self _ _
          · exact Finset.mem_insert_of_mem (hrest other hother)

/-- A service whose clients have connected catches up with its replica. -/
theorem ServersRun.catches_up (hrun : ServersRun replicas history servers)
    {task : ServiceTask Reply} (htask : (servers who).task = .ok task)
    (hconnected : ∀ command ∈ (servers who).finalized.flatMap service.commands,
      command.clientId ∈ task.writeSenders) :
    ∃ history' servers', ServersRun replicas history' servers' ∧
      Beside who history history' servers servers' ∧ (servers' who).finalized = [] ∧
      ∃ task', (servers' who).task = .ok task' ∧
        executed (view who history') = Service.novel (logOf replicas history who) := by
  generalize hfinalized : (servers who).finalized = finalized at hconnected
  induction finalized generalizing history servers task with
  | nil =>
      exact ⟨history, servers, hrun, .refl, hfinalized, task, htask,
        ServersRun.executed_eq_novel hrun htask hfinalized⟩
  | cons batch rest ih =>
      rw [List.flatMap_cons] at hconnected
      obtain ⟨hbatch, hrest⟩ := List.forall_mem_append.mp hconnected
      obtain ⟨replies, hserved⟩ := Service.serve_ok batch (service.commands batch) task hbatch
      have hnext := ServersRun.serves hrun (.finalized (some batch)) htask hfinalized
      have hbeside := Beside.of_serves history servers who
        ⟨.finalized (some batch), (service.step task (.finalized (some batch))).1⟩
        { servers who with
          requests := (servers who).requests ++
            (service.step task (.finalized (some batch))).1.filterMap ServiceAction.forwarded?
          finalized := rest
          task := (service.step task (.finalized (some batch))).2 } rfl
        ((congrArg _ (Service.serve_forwards _ _ _)).trans (List.append_nil _))
      obtain ⟨history', servers', hrun', hbeside', hempty, task', htask', hexecuted⟩ :=
        @ih _ _ hnext { task with replies := replies }
          (by rw [Function.update_self]; exact hserved) (by rw [Function.update_self]) hrest
      refine ⟨history', servers', hrun', hbeside.trans hbeside', hempty, task', htask', ?_⟩
      rw [hexecuted, logOf, hbeside.replicas, logOf]

/-- The part of a system that no service task has a hand in. -/
structure Ahead (history history' : List (Nat × ServerLabel Event Reply Finalized))
    (servers servers' : Nat → Server Replica Reply Finalized) : Prop where
  longer : history <+: history'
  replicas : replicaHistory history' = replicaHistory history
  replica : ∀ who, (servers' who).replica = (servers who).replica
  requests : ∀ who, (servers' who).requests = (servers who).requests
  task : ∀ who, (∃ task, (servers who).task = .ok task) → ∃ task, (servers' who).task = .ok task

/-- Services that go on all catch up with their replicas, once their clients have connected. -/
theorem ServersRun.all_catch_up (hrun : ServersRun replicas history servers) (parties : List Nat)
    (htasks : ∀ who ∈ parties, ∃ task, (servers who).task = .ok task) :
    ∃ history' servers', ServersRun replicas history' servers' ∧
      Ahead history history' servers servers' ∧
      ∀ who ∈ parties, (servers' who).finalized = [] ∧
        executed (view who history') = Service.novel (logOf replicas history who) := by
  induction parties with
  | nil =>
      exact ⟨history, servers, hrun, ⟨List.prefix_rfl, rfl, fun _ => rfl, fun _ => rfl, fun _ => id⟩,
        List.forall_mem_nil _⟩
  | cons who rest ih =>
      obtain ⟨hwho, htasks⟩ := List.forall_mem_cons.mp htasks
      obtain ⟨history', servers', hservers, hahead, hrest⟩ := ih htasks
      obtain ⟨task, htask⟩ := hahead.task who hwho
      obtain ⟨history₁, servers₁, hservers₁, hbeside₁, task₁, htask₁, hconnected⟩ :=
        ServersRun.connects hservers htask ((logOf replicas history' who).map Command.clientId)
      have hfinalized : ∀ command ∈ (servers₁ who).finalized.flatMap service.commands,
          command.clientId ∈ task₁.writeSenders := by
        intro command hcommand
        have hlog := (ServersRun.books hservers₁ who).finalized
        rw [← view_replicaHistory, hbeside₁.replicas] at hlog
        apply hconnected
        apply List.mem_map_of_mem
        rw [logOf, ← hlog]
        exact List.mem_append_right _ hcommand
      obtain ⟨history₂, servers₂, hservers₂, hbeside₂, hempty, task₂, htask₂, hexecuted⟩ :=
        ServersRun.catches_up hservers₁ htask₁ hfinalized
      have hbeside := hbeside₁.trans hbeside₂
      refine ⟨history₂, servers₂, hservers₂, ⟨hahead.longer.trans hbeside.longer,
        hbeside.replicas.trans hahead.replicas, ?_, ?_, ?_⟩, ?_⟩
      · intro other
        by_cases heq : other = who
        · subst heq
          exact hbeside.replica.trans (hahead.replica other)
        · rw [hbeside.others other heq]
          exact hahead.replica other
      · intro other
        by_cases heq : other = who
        · subst heq
          exact hbeside.requests.trans (hahead.requests other)
        · rw [hbeside.others other heq]
          exact hahead.requests other
      · intro other hsome
        by_cases heq : other = who
        · subst heq
          exact ⟨task₂, htask₂⟩
        · rw [hbeside.others other heq]
          exact hahead.task other hsome
      · intro other hother
        by_cases heq : other = who
        · subst heq
          rw [hexecuted, logOf, hbeside₁.replicas, hahead.replicas, logOf]
          exact ⟨hempty, rfl⟩
        · rw [hbeside.others other heq, hbeside.views other heq]
          exact hrest other ((List.mem_cons.mp hother).resolve_left heq)

variable (replicas) in
/-- Any run of the replicas is one of servers that have executed the logs. -/
theorem exists_caught_up {events : List (Nat × Event)} {states : Nat → Replica}
    (hrun : Run (fun states => ∀ who, replicas.start who (states who)) (interleave replicas.step)
      events states) (parties : List Nat) :
    ∃ history servers, ServersRun replicas history servers ∧ replicaHistory history = events ∧
      (∀ who, (servers who).replica = states who ∧ (servers who).requests = [] ∧
        ∃ task, (servers who).task = .ok task) ∧
      ∀ who ∈ parties, (servers who).finalized = [] ∧ executed (view who history) =
        Service.novel ((view who events).flatMap replicas.log) := by
  obtain ⟨history, servers, hservers, rfl, hall⟩ := exists_serversRun hrun
  obtain ⟨history', servers', hservers', hahead, hparties⟩ :=
    ServersRun.all_catch_up hservers parties fun who _ => ⟨_, (hall who).2.2⟩
  refine ⟨history', servers', hservers', hahead.replicas, ?_, hparties⟩
  intro who
  exact ⟨(hahead.replica who).trans (hall who).1, (hahead.requests who).trans (hall who).2.1,
    hahead.task who ⟨_, (hall who).2.2⟩⟩

end Server

end BftKit.Transport
