import BftKit.Transport.Client

/-! # Service tasks

A service task stands between the clients and a replica. It keeps the last reply to each
client, and with it answers or drops what need not be ordered again, and skips what was
executed before.
-/

namespace BftKit.Transport

open Foundation

/-- `AbstractService`. A service that executes nothing else replies to a command with its
sequence number. -/
structure Service (Reply Finalized : Type) where
  replySeq : Reply → ClientSeq
  /-- The commands that `on_finalized` goes through. -/
  commands : Finalized → List Command
  /-- The reply that a replica builds. -/
  reply : Nat → Finalized → Command → Reply
  replySeq_reply : ∀ replicaId finalized command,
    replySeq (reply replicaId finalized command) = command.seq

structure ServiceTask (Reply : Type) where
  replies : Map ClientId Reply
  replicaId : Nat
  /-- The clients that have connected. -/
  writeSenders : Finset ClientId

/-- Why a service task ends. -/
inductive ServiceEnd where
  | cancelled
  | endpointClosed
  /-- A client connects for a second time. -/
  | replaced
  /-- There is a reply to a client that has not connected. -/
  | unexpectedClient
  | unreachable
deriving DecidableEq

inductive ServiceSelect (Finalized : Type) where
  | accept (clientId : Option ClientId)
  | message (command : Option Command)
  | finalized (finalized : Option Finalized)
  | transportError
  | cancel

inductive ServiceAction (Reply : Type) where
  /-- `on_finalized` yields a reply. -/
  | execute (command : Command) (reply : Reply)
  | write (clientId : ClientId) (reply : Reply)
  /-- To the replica. -/
  | forward (command : Command)
deriving DecidableEq

namespace Service

variable {Reply Finalized : Type} (service : Service Reply Finalized)

def new (replicaId : Nat) : ServiceTask Reply := ⟨∅, replicaId, ∅⟩

/-- What the iterator of `on_finalized` yields when it gets to a command. -/
def visit (finalized : Finalized) (task : ServiceTask Reply) (command : Command) :
    Option Reply :=
  if (task.replies.lookup command.clientId).any (command.seq ≤ service.replySeq ·) then none
  else some (service.reply task.replicaId finalized command)

/-- The loop over `on_finalized`. The iterator is lazy, so nothing is executed beyond a
reply that cannot be sent. -/
def serve (finalized : Finalized) : List Command → ServiceTask Reply →
    List (ServiceAction Reply) × Except ServiceEnd (ServiceTask Reply)
  | [], task => ([], .ok task)
  | command :: rest, task =>
      match service.visit finalized task command with
      | none => serve finalized rest task
      | some reply =>
          let task := { task with replies := task.replies.insert command.clientId reply }
          if command.clientId ∈ task.writeSenders then
            let (actions, result) := serve finalized rest task
            (.execute command reply :: .write command.clientId reply :: actions, result)
          else ([.execute command reply], .error .unexpectedClient)

def receive (task : ServiceTask Reply) (command : Command) :
    List (ServiceAction Reply) × Except ServiceEnd (ServiceTask Reply) :=
  match task.replies.lookup command.clientId with
  | some reply =>
      if command.seq < service.replySeq reply then ([], .ok task)
      else if service.replySeq reply = command.seq then
        if command.clientId ∈ task.writeSenders then
          ([.write command.clientId reply], .ok task)
        else ([], .error .unexpectedClient)
      else ([.forward command], .ok task)
  | none => ([.forward command], .ok task)

/-- One iteration of the loop of a service task. The loops of `run` and `run_tcp` differ
in how a client connects. -/
def step (task : ServiceTask Reply) :
    ServiceSelect Finalized → List (ServiceAction Reply) × Except ServiceEnd (ServiceTask Reply)
  | .accept none => ([], .error .endpointClosed)
  | .accept (some clientId) =>
      if clientId ∈ task.writeSenders then ([], .error .replaced)
      else ([], .ok { task with writeSenders := insert clientId task.writeSenders })
  | .message none => ([], .error .unreachable)
  | .message (some command) => service.receive task command
  | .finalized none => ([], .error .unreachable)
  | .finalized (some finalized) => service.serve finalized (service.commands finalized) task
  | .transportError => ([], .ok task)
  | .cancel => ([], .error .cancelled)

/-! ## What was executed -/

/-- A command that a reply was produced for. -/
structure Executed (Reply : Type) where
  command : Command
  reply : Reply

end Service

/-- The execution that an action is. -/
def ServiceAction.executed? {Reply : Type} : ServiceAction Reply → Option (Service.Executed Reply)
  | .execute command reply => some ⟨command, reply⟩
  | .write _ _ | .forward _ => none

namespace Service

variable {Reply Finalized : Type}

def executed (actions : List (ServiceAction Reply)) : List (Executed Reply) :=
  actions.filterMap ServiceAction.executed?

/-- The last execution for a client, which is that of its highest sequence number. -/
def Highest (executions : List (Executed Reply)) (clientId : ClientId)
    (entry : Executed Reply) : Prop :=
  entry ∈ executions ∧ entry.command.clientId = clientId ∧
    ∀ other ∈ executions, other.command.clientId = clientId →
      other.command.seq ≤ entry.command.seq

/-- The cache holds the reply to the highest execution of each client. -/
structure Cached (service : Service Reply Finalized) (executions : List (Executed Reply))
    (replies : Map ClientId Reply) : Prop where
  increasing : SeqIncreasing (executions.map Executed.command)
  replySeq_eq : ∀ entry ∈ executions, service.replySeq entry.reply = entry.command.seq
  highest : ∀ clientId reply, replies.lookup clientId = some reply →
    ∃ entry, Highest executions clientId entry ∧ entry.reply = reply
  fresh : ∀ clientId, replies.lookup clientId = none →
    ∀ entry ∈ executions, entry.command.clientId ≠ clientId

section Cache

variable {service : Service Reply Finalized} {executions : List (Executed Reply)}
  {replies : Map ClientId Reply} {task : ServiceTask Reply} {finalized : Finalized}
  {command : Command} {reply : Reply} {clientId : ClientId} {entry other : Executed Reply}

theorem Cached.empty : service.Cached [] ∅ where
  increasing := SeqIncreasing.nil
  replySeq_eq := by simp
  highest clientId reply hreply := by simp at hreply
  fresh := by simp

theorem Highest.unique (h : service.Cached executions replies)
    (hentry : Highest executions clientId entry) (hother : Highest executions clientId other) :
    entry = other := by
  have hnodup := h.increasing.nodup
  rw [List.map_map] at hnodup
  have hinj := List.inj_on_of_nodup_map hnodup
  apply hinj hentry.1 hother.1
  have hseq := le_antisymm (hother.2.2 entry hentry.1 hentry.2.1)
    (hentry.2.2 other hother.1 hother.2.1)
  simp [hseq, hentry.2.1, hother.2.1]

theorem Cached.lookup_iff (h : service.Cached executions replies) :
    replies.lookup clientId = some reply ↔
      ∃ entry, Highest executions clientId entry ∧ entry.reply = reply := by
  constructor
  · exact h.highest clientId reply
  · rintro ⟨entry, hentry, rfl⟩
    cases hlookup : replies.lookup clientId with
    | none => exact absurd hentry.2.1 (h.fresh clientId hlookup entry hentry.1)
    | some cached =>
        obtain ⟨other, hother, rfl⟩ := h.highest clientId cached hlookup
        rw [hentry.unique h hother]

theorem visit_some (hvisit : service.visit finalized task command = some reply) :
    reply = service.reply task.replicaId finalized command ∧
      ∀ cached, task.replies.lookup command.clientId = some cached →
        service.replySeq cached < command.seq := by
  rw [visit] at hvisit
  split at hvisit
  · cases hvisit
  next hnot =>
    refine ⟨(Option.some.inj hvisit).symm, ?_⟩
    intro cached hcached
    rw [hcached] at hnot
    simpa using hnot

/-- What is executed was not executed before, nor was anything beyond it. -/
theorem Cached.visit (h : service.Cached executions task.replies)
    (hvisit : service.visit finalized task command = some reply) :
    service.Cached (executions ++ [⟨command, reply⟩])
      (task.replies.insert command.clientId reply) := by
  obtain ⟨rfl, hbeyond⟩ := visit_some hvisit
  -- the cache has the highest number of the client, and the command is beyond it
  have hlt : ∀ entry ∈ executions, entry.command.clientId = command.clientId →
      entry.command.seq < command.seq := by
    intro entry hentry hclient
    cases hlookup : task.replies.lookup command.clientId with
    | none => exact absurd hclient (h.fresh _ hlookup entry hentry)
    | some cached =>
        obtain ⟨highest, hhighest, rfl⟩ := h.highest _ cached hlookup
        have hseq := hbeyond _ hlookup
        rw [h.replySeq_eq highest hhighest.1] at hseq
        exact (hhighest.2.2 entry hentry hclient).trans_lt hseq
  constructor
  case increasing =>
    rw [List.map_append, SeqIncreasing.append_iff]
    refine ⟨h.increasing, List.pairwise_singleton _ _, ?_⟩
    intro earlier hearlier later hlater hclient
    obtain ⟨entry, hentry, rfl⟩ := List.mem_map.mp hearlier
    obtain rfl := List.mem_singleton.mp hlater
    exact hlt entry hentry hclient
  case replySeq_eq =>
    intro entry hentry
    rcases List.mem_append.mp hentry with hold | hlast
    · exact h.replySeq_eq entry hold
    · obtain rfl := List.mem_singleton.mp hlast
      exact service.replySeq_reply _ _ _
  case highest =>
    intro clientId cached hcached
    rw [Map.lookup_insert] at hcached
    split at hcached
    next heq =>
      obtain rfl := Option.some.inj hcached
      refine ⟨_, ⟨List.mem_append_right _ List.mem_cons_self, heq.symm, ?_⟩, rfl⟩
      intro other hother hclient
      rcases List.mem_append.mp hother with hold | hlast
      · exact (hlt other hold (hclient.trans heq)).le
      · obtain rfl := List.mem_singleton.mp hlast
        exact le_rfl
    next hne =>
      obtain ⟨entry, ⟨hentry, hclient, hmax⟩, rfl⟩ := h.highest clientId cached hcached
      refine ⟨entry, ⟨List.mem_append_left _ hentry, hclient, ?_⟩, rfl⟩
      intro other hother hother'
      rcases List.mem_append.mp hother with hold | hlast
      · exact hmax other hold hother'
      · obtain rfl := List.mem_singleton.mp hlast
        exact absurd hother'.symm hne
  case fresh =>
    intro clientId hnone entry hentry hclient
    rw [Map.lookup_insert] at hnone
    split at hnone
    · cases hnone
    next hne =>
      rcases List.mem_append.mp hentry with hold | hlast
      · exact h.fresh clientId hnone entry hold hclient
      · obtain rfl := List.mem_singleton.mp hlast
        exact hne hclient.symm

end Cache

/-! ## Runs -/

abbrev ServiceHappening (Reply Finalized : Type) :=
  Happening (ServiceSelect Finalized) (ServiceAction Reply)

def Run (service : Service Reply Finalized) (replicaId : Nat) :
    List (ServiceHappening Reply Finalized) → ServiceTask Reply → Prop :=
  TaskRun (new replicaId) service.step

/-- The executions of a run. -/
def executions (history : List (ServiceHappening Reply Finalized)) : List (Executed Reply) :=
  history.flatMap fun happening => executed happening.actions

/-- A task keeps its cache, and knows whom it has replied to. -/
structure Inv (service : Service Reply Finalized) (executions : List (Executed Reply))
    (task : ServiceTask Reply) : Prop where
  cached : service.Cached executions task.replies
  connected : ∀ clientId, (task.replies.lookup clientId).isSome → clientId ∈ task.writeSenders

section Iteration

variable {service : Service Reply Finalized} {executions : List (Executed Reply)}
  {task : ServiceTask Reply} {finalized : Finalized} {command : Command}

/-- The loop over a batch, up to its end or to a reply that cannot be sent. -/
theorem Inv.serve (h : service.Inv executions task) (commands : List Command) :
    SeqIncreasing ((executions ++ executed (service.serve finalized commands task).1).map
      Executed.command) ∧
    ∀ next, (service.serve finalized commands task).2 = .ok next →
      service.Inv (executions ++ executed (service.serve finalized commands task).1) next := by
  induction commands generalizing executions task with
  | nil =>
      have hsame : executions ++ executed (service.serve finalized [] task).1 = executions :=
        List.append_nil _
      rw [hsame]
      refine ⟨h.cached.increasing, ?_⟩
      intro next hnext
      obtain rfl := Except.ok.inj hnext
      exact h
  | cons command rest ih =>
      cases hvisit : service.visit finalized task command with
      | none =>
          rw [Service.serve, hvisit]
          exact ih h
      | some reply =>
          have hcached := h.cached.visit hvisit
          rw [Service.serve, hvisit]
          dsimp only
          split
          next hconnected =>
            have hnext : service.Inv (executions ++ [⟨command, reply⟩])
                { task with replies := task.replies.insert command.clientId reply } := by
              refine ⟨hcached, ?_⟩
              intro clientId hsome
              rw [Map.lookup_insert] at hsome
              split at hsome
              next heq => exact heq ▸ hconnected
              next => exact h.connected clientId hsome
            have hrest := ih hnext
            rw [List.append_assoc] at hrest
            exact hrest
          next =>
            refine ⟨hcached.increasing, ?_⟩
            intro next hnext
            cases hnext

theorem forward_mem_serve (commands : List Command) (task : ServiceTask Reply) :
    .forward command ∉ (service.serve finalized commands task).1 := by
  induction commands generalizing task with
  | nil => simp [Service.serve]
  | cons next rest ih =>
      rw [Service.serve]
      split
      · exact ih task
      · dsimp only
        split
        · simpa using ih _
        · simp

/-- A command is forwarded, answered or dropped as its client's cached reply says. -/
theorem Inv.receive_cases (h : service.Inv executions task) (command : Command) :
    (∀ entry, Highest executions command.clientId entry → entry.command.seq < command.seq) ∧
        service.receive task command = ([.forward command], .ok task) ∨
      ∃ entry, Highest executions command.clientId entry ∧
        (entry.command.seq = command.seq ∧
            service.receive task command = ([.write command.clientId entry.reply], .ok task) ∨
          command.seq < entry.command.seq ∧ service.receive task command = ([], .ok task)) := by
  rw [receive]
  cases hlookup : task.replies.lookup command.clientId with
  | none =>
      refine .inl ⟨?_, rfl⟩
      intro entry hentry
      exact absurd hentry.2.1 (h.cached.fresh _ hlookup entry hentry.1)
  | some reply =>
      obtain ⟨entry, hentry, rfl⟩ := h.cached.highest _ reply hlookup
      have hconnected := h.connected command.clientId (by rw [hlookup]; rfl)
      have hseq := h.cached.replySeq_eq entry hentry.1
      dsimp only
      rw [hseq]
      by_cases hlt : command.seq < entry.command.seq
      · rw [if_pos hlt]
        exact .inr ⟨entry, hentry, .inr ⟨hlt, rfl⟩⟩
      · rw [if_neg hlt]
        by_cases heq : entry.command.seq = command.seq
        · rw [if_pos heq, if_pos hconnected]
          exact .inr ⟨entry, hentry, .inl ⟨heq, rfl⟩⟩
        · rw [if_neg heq]
          refine .inl ⟨?_, rfl⟩
          intro other hother
          rw [hother.unique h.cached hentry]
          exact lt_of_le_of_ne (not_lt.mp hlt) heq

/-- Connecting a client, and what executes nothing, leaves the cache alone. -/
theorem Inv.keep (h : service.Inv executions task) {actions : List (ServiceAction Reply)}
    (hnone : executed actions = []) {result : Except ServiceEnd (ServiceTask Reply)}
    (hresult : ∀ next, result = .ok next →
      next.replies = task.replies ∧ task.writeSenders ⊆ next.writeSenders) :
    SeqIncreasing ((executions ++ executed actions).map Executed.command) ∧
      ∀ next, result = .ok next → service.Inv (executions ++ executed actions) next := by
  rw [hnone, List.append_nil]
  refine ⟨h.cached.increasing, ?_⟩
  intro next hnext
  obtain ⟨hreplies, hsubset⟩ := hresult next hnext
  constructor
  · rw [hreplies]
    exact h.cached
  · intro clientId hsome
    rw [hreplies] at hsome
    exact hsubset (h.connected clientId hsome)

theorem Inv.step (h : service.Inv executions task) (select : ServiceSelect Finalized) :
    SeqIncreasing ((executions ++ executed (service.step task select).1).map Executed.command) ∧
    ∀ next, (service.step task select).2 = .ok next →
      service.Inv (executions ++ executed (service.step task select).1) next := by
  have hsame : ∀ next, Except.ok (ε := ServiceEnd) task = .ok next →
      next.replies = task.replies ∧ task.writeSenders ⊆ next.writeSenders := by
    intro next hnext
    obtain rfl := Except.ok.inj hnext
    exact ⟨rfl, Finset.Subset.refl _⟩
  cases select with
  | accept clientId =>
      cases clientId with
      | none => exact h.keep rfl fun _ hnext => by cases hnext
      | some clientId =>
          rw [Service.step]
          split
          · exact h.keep rfl fun _ hnext => by cases hnext
          · apply h.keep rfl
            intro next hnext
            obtain rfl := Except.ok.inj hnext
            exact ⟨rfl, Finset.subset_insert _ _⟩
  | message command =>
      cases command with
      | none => exact h.keep rfl fun _ hnext => by cases hnext
      | some command =>
          rw [Service.step]
          rcases h.receive_cases command with ⟨-, heq⟩ | ⟨entry, -, ⟨-, heq⟩ | ⟨-, heq⟩⟩
          all_goals
            rw [heq]
            exact h.keep rfl hsame
  | finalized finalized =>
      cases finalized with
      | none => exact h.keep rfl fun _ hnext => by cases hnext
      | some finalized => exact h.serve _
  | transportError => exact h.keep rfl hsame
  | cancel => exact h.keep rfl fun _ hnext => by cases hnext

end Iteration

section History

variable {service : Service Reply Finalized} {replicaId : Nat}
  {history : List (ServiceHappening Reply Finalized)} {task : ServiceTask Reply}

theorem Run.inv (hrun : service.Run replicaId history task) :
    service.Inv (executions history) task := by
  refine @Foundation.Run.invariant _ _ _ _
    (fun history task => service.Inv (executions history) task) ?_ ?_ _ _ hrun
  · rintro _ rfl
    refine ⟨Cached.empty, ?_⟩
    intro clientId hsome
    simp [new] at hsome
  · rintro before current ⟨select, actions⟩ next - h hstep
    dsimp only at hstep
    have hnext := (h.step select).2 next (by rw [hstep])
    rw [hstep] at hnext
    rw [executions, List.flatMap_append, List.flatMap_singleton]
    exact hnext

end History

/-- What is executed, cached, forwarded, answered and dropped in the runs of a service. -/
structure AtMostOnce (service : Service Reply Finalized) : Prop where
  increasing : ∀ replicaId history task, service.Run replicaId history task → ∀ select,
    SeqIncreasing ((executions history ++ executed (service.step task select).1).map
      Executed.command)
  cached_iff : ∀ replicaId history task, service.Run replicaId history task →
    ∀ clientId reply, task.replies.lookup clientId = some reply ↔
      ∃ entry, Highest (executions history) clientId entry ∧ entry.reply = reply
  replySeq_eq : ∀ replicaId history task, service.Run replicaId history task →
    ∀ entry ∈ executions history, service.replySeq entry.reply = entry.command.seq
  forward_iff : ∀ replicaId history task, service.Run replicaId history task →
    ∀ select command, .forward command ∈ (service.step task select).1 ↔
      select = .message (some command) ∧ ∀ entry,
        Highest (executions history) command.clientId entry → entry.command.seq < command.seq
  answer_iff : ∀ replicaId history task, service.Run replicaId history task →
    ∀ command reply, service.step task (.message (some command)) =
        ([.write command.clientId reply], .ok task) ↔
      ∃ entry, Highest (executions history) command.clientId entry ∧
        entry.command.seq = command.seq ∧ entry.reply = reply
  drop_iff : ∀ replicaId history task, service.Run replicaId history task →
    ∀ command, service.step task (.message (some command)) = ([], .ok task) ↔
      ∃ entry, Highest (executions history) command.clientId entry ∧
        command.seq < entry.command.seq

section History

variable {service : Service Reply Finalized} {replicaId : Nat}
  {history : List (ServiceHappening Reply Finalized)} {task : ServiceTask Reply}

theorem Run.forward_mem_receive (hrun : service.Run replicaId history task)
    (command other : Command) : .forward other ∈ (service.receive task command).1 ↔
      command = other ∧ ∀ entry, Highest (executions history) other.clientId entry →
        entry.command.seq < other.seq := by
  rcases hrun.inv.receive_cases command with
    ⟨hlt, heq⟩ | ⟨entry, hentry, ⟨hseq, heq⟩ | ⟨hseq, heq⟩⟩
  · rw [heq]
    simp only [List.mem_singleton, ServiceAction.forward.injEq]
    constructor
    · rintro rfl
      exact ⟨rfl, hlt⟩
    · rintro ⟨rfl, -⟩
      rfl
  · rw [heq]
    simp only [List.mem_singleton, reduceCtorEq, false_iff]
    rintro ⟨rfl, hlt⟩
    exact (hlt entry hentry).ne hseq
  · rw [heq]
    simp only [List.not_mem_nil, false_iff]
    rintro ⟨rfl, hlt⟩
    exact (hlt entry hentry).not_gt hseq

theorem Run.receive_eq_write (hrun : service.Run replicaId history task) (command : Command)
    (reply : Reply) :
    service.receive task command = ([.write command.clientId reply], .ok task) ↔
      ∃ entry, Highest (executions history) command.clientId entry ∧
        entry.command.seq = command.seq ∧ entry.reply = reply := by
  rcases hrun.inv.receive_cases command with
    ⟨hlt, heq⟩ | ⟨entry, hentry, ⟨hseq, heq⟩ | ⟨hseq, heq⟩⟩
  · simp only [heq, Prod.mk.injEq, List.cons.injEq, reduceCtorEq, false_and, false_iff]
    rintro ⟨entry, hentry, hseq, -⟩
    exact (hlt entry hentry).ne hseq
  · simp only [heq, Prod.mk.injEq, List.cons.injEq, ServiceAction.write.injEq, and_true, true_and]
    constructor
    · intro hreply
      exact ⟨entry, hentry, hseq, hreply⟩
    · rintro ⟨other, hother, -, hreply⟩
      rw [hentry.unique hrun.inv.cached hother]
      exact hreply
  · simp only [heq, Prod.mk.injEq, reduceCtorEq, false_and, false_iff]
    rintro ⟨other, hother, heq', -⟩
    rw [hentry.unique hrun.inv.cached hother] at hseq
    exact hseq.ne heq'.symm

theorem Run.receive_eq_nil (hrun : service.Run replicaId history task) (command : Command) :
    service.receive task command = ([], .ok task) ↔
      ∃ entry, Highest (executions history) command.clientId entry ∧
        command.seq < entry.command.seq := by
  rcases hrun.inv.receive_cases command with
    ⟨hlt, heq⟩ | ⟨entry, hentry, ⟨hseq, heq⟩ | ⟨hseq, heq⟩⟩
  · simp only [heq, Prod.mk.injEq, reduceCtorEq, false_and, false_iff]
    rintro ⟨entry, hentry, hgt⟩
    exact (hlt entry hentry).not_gt hgt
  · simp only [heq, Prod.mk.injEq, reduceCtorEq, false_and, false_iff]
    rintro ⟨other, hother, hgt⟩
    rw [hother.unique hrun.inv.cached hentry] at hgt
    exact hgt.ne hseq.symm
  · simp only [heq, true_iff]
    exact ⟨entry, hentry, hseq⟩

theorem at_most_once (service : Service Reply Finalized) : service.AtMostOnce where
  increasing _ _ _ hrun select := (hrun.inv.step select).1
  cached_iff _ _ _ hrun _ _ := hrun.inv.cached.lookup_iff
  replySeq_eq _ _ _ hrun := hrun.inv.cached.replySeq_eq
  answer_iff _ _ _ hrun command reply := hrun.receive_eq_write command reply
  drop_iff _ _ _ hrun command := hrun.receive_eq_nil command
  forward_iff replicaId history task hrun select command := by
    cases select with
    | accept clientId =>
        cases clientId with
        | none => simp [Service.step]
        | some clientId =>
            rw [Service.step]
            split <;> simp
    | message received =>
        cases received with
        | none => simp [Service.step]
        | some received => simpa [Service.step] using hrun.forward_mem_receive received command
    | finalized finalized =>
        cases finalized with
        | none => simp [Service.step]
        | some finalized => simpa [Service.step] using forward_mem_serve _ task
    | transportError => simp [Service.step]
    | cancel => simp [Service.step]

end History

end Service

end Transport

namespace Pbft

structure Finalized where
  commands : List Command
  viewNum : Nat

def service : Transport.Service Reply Finalized where
  replySeq := Reply.seq
  commands := Finalized.commands
  reply replicaId finalized command := ⟨command.seq, finalized.viewNum, [], replicaId⟩
  replySeq_reply _ _ _ := rfl

end Pbft

def Hotstuff.service : Transport.Service Reply (List Command) where
  replySeq := Reply.seq
  commands := id
  reply replicaId _ command := ⟨command.seq, [], replicaId⟩
  replySeq_reply _ _ _ := rfl

namespace Unreplicated

structure Reply where
  seq : ClientSeq
  result : List UInt8
deriving DecidableEq

/-- Executes its only command at once, which the loop cannot tell from executing it when
the iterator is asked for it. -/
def service : Transport.Service Reply Command where
  replySeq := Reply.seq
  commands command := [command]
  reply _ _ command := ⟨command.seq, []⟩
  replySeq_reply _ _ _ := rfl

end Unreplicated

/-- The services execute a command at most once, whatever they select in whichever order. The
finalized lists may hold any commands, and clients may send any. -/
theorem Transport.services_at_most_once : Pbft.service.AtMostOnce ∧ Hotstuff.service.AtMostOnce ∧
    Unreplicated.service.AtMostOnce :=
  ⟨Service.at_most_once _, Service.at_most_once _, Service.at_most_once _⟩

/-- A batch holds the first command of a client twice and then its second one, and both are
executed once. From then on the second one is answered, the first one dropped and a third one
forwarded. -/
theorem Transport.services_at_most_once_batch : ∃ history task, Pbft.service.Run 2 history task ∧
    (Service.executions history).map (fun entry => entry.command.seq) = [1, 2] ∧
    (∃ entry, Service.Highest (Service.executions history) 7 entry ∧ entry.command.seq = 2) ∧
    (∃ entry, Service.Highest (Service.executions history) 7 entry ∧ 1 < entry.command.seq) ∧
    ∀ entry, Service.Highest (Service.executions history) 7 entry → entry.command.seq < 3 := by
  let selects : List (ServiceSelect Pbft.Finalized) := [.accept (some 7),
    .message (some ⟨7, 1, []⟩), .finalized (some ⟨[⟨7, 1, []⟩, ⟨7, 1, []⟩, ⟨7, 2, []⟩], 4⟩)]
  have hreplay : ∃ run ∈ replay Pbft.service.step (Service.new 2) selects,
      (Service.executions run.1).map (fun entry => entry.command.seq) = [1, 2] ∧
      Pbft.service.step run.2 (.message (some ⟨7, 2, []⟩)) =
        ([.write 7 ⟨2, 4, [], 2⟩], .ok run.2) ∧
      Pbft.service.step run.2 (.message (some ⟨7, 1, []⟩)) = ([], .ok run.2) ∧
      .forward ⟨7, 3, []⟩ ∈ (Pbft.service.step run.2 (.message (some ⟨7, 3, []⟩))).1 :=
    ⟨_, rfl, rfl, rfl, rfl, List.mem_singleton_self _⟩
  obtain ⟨⟨history, task⟩, hreplay, hexecutions, hwrite, hdrop, hforward⟩ := hreplay
  have hrun : Pbft.service.Run 2 history task := replay_run (.start rfl) hreplay
  have honce := services_at_most_once.1
  obtain ⟨second, hsecond, hseq, -⟩ := (honce.answer_iff 2 history task hrun _ _).mp hwrite
  obtain ⟨-, hforwarded⟩ := (honce.forward_iff 2 history task hrun _ _).mp hforward
  exact ⟨history, task, hrun, hexecutions, ⟨second, hsecond, hseq⟩,
    (honce.drop_iff 2 history task hrun _).mp hdrop, hforwarded⟩

end BftKit
