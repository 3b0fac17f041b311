import BftKit.Unreplicated.System

/-! # What the unreplicated system executes

The service executes the commands of a client in their order, each of them once, and the client
gets the replies in that order.
-/

namespace BftKit.Unreplicated

open Foundation Transport Workload

namespace SystemLabel

def executed : SystemLabel → List Command
  | .server (.service happening) =>
      (Service.executed happening.actions).map Service.Executed.command
  | .loop _ | .client _ _ | .server (.replica _) => []

/-- The reply that a client takes from its connection. -/
def received? (id : ClientId) : SystemLabel → Option Reply
  | .client other select => if other = id then reply? select else none
  | .loop _ | .server _ => none

def committed? : SystemLabel → Option ClientId
  | .loop (.commit id) => some id
  | .loop _ | .client _ _ | .server _ => none

end SystemLabel

/-- The numbers of the commands that have been executed for a client. -/
def executedFor (id : ClientId) (history : List SystemLabel) : List Nat :=
  ((history.flatMap SystemLabel.executed).filter (·.clientId = id)).map (·.seq.val)

/-- The numbers of the replies that a client has received. -/
def receivedBy (id : ClientId) (history : List SystemLabel) : List Nat :=
  (history.filterMap (SystemLabel.received? id)).map (·.seq.val)

def commits (history : List SystemLabel) : List ClientId :=
  history.filterMap SystemLabel.committed?

/-- The client has received a reply that it has not committed. -/
def uncommitted : Status ClientState → Nat
  | .committing _ => 1
  | .running _ | .ended _ => 0

variable {ids : Finset ClientId} {system next : System} {label : SystemLabel}
  {history : List SystemLabel} {task task' : ServiceTask Reply} {id : ClientId}

theorem executedFor_concat : executedFor id (history ++ [label]) =
    executedFor id history ++ ((label.executed).filter (·.clientId = id)).map (·.seq.val) := by
  rw [executedFor, List.flatMap_append, List.flatMap_singleton, List.filter_append,
    List.map_append]
  rfl

theorem receivedBy_concat : receivedBy id (history ++ [label]) =
    receivedBy id history ++ ((label.received? id).map (·.seq.val)).toList := by
  rw [receivedBy, List.filterMap_append, List.map_append]
  cases hreceived : label.received? id <;> simp [receivedBy, hreceived]

theorem commits_concat : commits (history ++ [label]) =
    commits history ++ label.committed?.toList := by
  rw [commits, List.filterMap_append]
  cases hcommitted : label.committed? <;> simp [commits, hcommitted]

/-- What has been executed for a client is what it has received, up to a reply on its way. -/
structure Ledger (history : List SystemLabel) (system : System) (task : ServiceTask Reply)
    (id : ClientId) : Prop where
  executed : executedFor id history = List.range' 1 (last task id)
  received : receivedBy id history ++ (system.downlinks id).map (·.seq.val) =
    List.range' 1 (last task id)
  committed : (commits history).count id + uncommitted (system.loop.clients id) =
    (receivedBy id history).length

theorem Ledger.quiet (h : Ledger history system task id)
    (hexecuted : label.executed.filter (·.clientId = id) = [])
    (hreceived : label.received? id = none) (hdown : next.downlinks id = system.downlinks id)
    (hlast : last task' id = last task id)
    (hcommitted : label.committed?.toList.count id + uncommitted (next.loop.clients id) =
      uncommitted (system.loop.clients id)) :
    Ledger (history ++ [label]) next task' id where
  executed := by
    rw [executedFor_concat, hexecuted, hlast]
    exact (List.append_nil _).trans h.executed
  received := by
    rw [receivedBy_concat, hreceived, hdown, hlast, Option.map_none, Option.toList_none,
      List.append_nil]
    exact h.received
  committed := by
    have hcommitted' := h.committed
    rw [receivedBy_concat, hreceived, commits_concat, List.count_append, Option.map_none,
      Option.toList_none, List.append_nil]
    omega

theorem uncommitted_of_step {loop next : ConcurrentClients ClientState}
    {label : Workload.Label Reply} (hstep : Step (closeLoop [0]) loop label next)
    (hlocal : ∀ id select, label ≠ .select id select) (id : ClientId) :
    (SystemLabel.loop label).committed?.toList.count id + uncommitted (next.clients id) =
      uncommitted (loop.clients id) := by
  cases hstep with
  | first | again | deadline => exact Nat.zero_add _
  | select | stop => exact absurd rfl (hlocal _ _)
  | @commit who client hclient hroom =>
      by_cases heq : id = who
      · subst heq
        simp [SystemLabel.committed?, hclient, uncommitted]
      · simp [SystemLabel.committed?, heq, Ne.symm heq]

/-- What a client selects leaves the others alone. -/
theorem clients_of_select {loop next : ConcurrentClients ClientState} {select : ClientSelect Reply}
    (hstep : Step (closeLoop [0]) loop (.select id select) next) {other : ClientId}
    (hne : other ≠ id) : next.clients other = loop.clients other := by
  obtain ⟨client, rest, status, -, -, -, rfl⟩ := hstep.selected
  exact Function.update_of_ne hne _ _

theorem uncommitted_of_invoke {loop next : ConcurrentClients ClientState} {invoke : Option Invoke}
    (hstep : Step (closeLoop [0]) loop (.select id (.invoke invoke)) next) (other : ClientId) :
    uncommitted (next.clients other) = uncommitted (loop.clients other) := by
  by_cases heq : other = id
  · subst heq
    obtain ⟨client, rest, status, hclient, -, houtcome, rfl⟩ := hstep.selected
    simp only [Function.update_self, hclient]
    cases houtcome with
    | stop => rfl
    | ok hresult =>
        cases invoke with
        | none => cases ((closeLoop [0]).finish other client).symm.trans hresult
        | some invoke =>
            rw [if_neg ((closeLoop [0]).invoke_ok hresult).1]
            rfl
  · rw [clients_of_select hstep heq]

/-- The client commits the reply that it takes from the connection. -/
theorem Ledger.reply (h : Ledger history system task id) {reply : Reply} {rest : List Reply}
    {loop : ConcurrentClients ClientState} {client client' : ClientState}
    (hreply : system.downlinks id = reply :: rest)
    (hclient : system.loop.clients id = .running client)
    (hclient' : loop.clients id = .committing client') :
    Ledger (history ++ [.client id (.message (some reply))]) { system with
      loop := loop
      downlinks := Function.update system.downlinks id rest } task id where
  executed := by
    rw [executedFor_concat]
    exact (List.append_nil _).trans h.executed
  received := by
    have hreceived := h.received
    rw [hreply] at hreceived
    simp only [receivedBy_concat, SystemLabel.received?, if_true, List.append_assoc,
      Function.update_self]
    exact hreceived
  committed := by
    have hcommitted := h.committed
    rw [hclient, uncommitted] at hcommitted
    rw [receivedBy_concat, SystemLabel.received?, if_pos rfl, commits_concat]
    simp only [hclient', uncommitted, SystemLabel.committed?, reply?]
    simpa using hcommitted

/-- The service executes the command that is due, and replies. -/
theorem Ledger.finalized (h : Ledger history system task id) {command : Command}
    (hid : command.clientId = id) (hdue : last task id + 1 = command.seq.val)
    {server : Server Unit Reply Command} {actions : List (ServiceAction Reply)}
    (hactions : actions =
      [.execute command ⟨command.seq, []⟩, .write command.clientId ⟨command.seq, []⟩]) :
    Ledger (history ++ [.server (.service ⟨.finalized (some command), actions⟩)]) { system with
      server := server
      downlinks := fun id => system.downlinks id ++ actions.filterMap (replyTo? id) }
      { task with replies := task.replies.insert command.clientId ⟨command.seq, []⟩ } id := by
  subst hid hactions
  have hlast : last { task with
      replies := task.replies.insert command.clientId ⟨command.seq, []⟩ } command.clientId =
        last task command.clientId + 1 := by
    rw [last_insert, if_pos rfl, hdue]
  have hrange : List.range' 1 (last task command.clientId + 1) =
      List.range' 1 (last task command.clientId) ++ [command.seq.val] := by
    rw [List.range'_1_concat, ← hdue, Nat.add_comm]
  refine ⟨?_, ?_, ?_⟩
  · rw [hlast, hrange, executedFor_concat, h.executed]
    simp [SystemLabel.executed, Service.executed, ServiceAction.executed?]
  · rw [hlast, hrange, ← h.received, receivedBy_concat]
    simp [SystemLabel.received?, replyTo?, List.filterMap_cons]
  · have hcommitted := h.committed
    rw [receivedBy_concat, commits_concat]
    simpa [SystemLabel.received?, SystemLabel.committed?] using hcommitted

/-- The system has served its clients so far. -/
def Account (ids : Finset ClientId) (history : List SystemLabel) (system : System) : Prop :=
  ∃ task, Serves ids system task ∧ ∀ id, Ledger history system task id

theorem Account.new (ids : Finset ClientId) : Account ids [] (System.new ids) := by
  refine ⟨_, .new ids, ?_⟩
  intro id
  refine ⟨rfl, rfl, ?_⟩
  simp only [System.new, Workload.new]
  split <;> rfl

theorem Account.step (h : Account ids history system) (hstep : SystemStep ids system label next) :
    Account ids (history ++ [label]) next := by
  obtain ⟨task, hserves, hledger⟩ := h
  cases hstep with
  | loop hstep hlocal =>
      refine ⟨task, hserves.loop hstep hlocal, ?_⟩
      intro id
      exact (hledger id).quiet rfl rfl rfl rfl (uncommitted_of_step hstep hlocal id)
  | @invoke who invoke loop hstep =>
      refine ⟨task, hserves.invoke hstep, ?_⟩
      intro id
      refine (hledger id).quiet rfl ?_ rfl rfl ?_
      · rw [SystemLabel.received?]
        split <;> rfl
      · exact (Nat.zero_add _).trans (uncommitted_of_invoke hstep id)
  | @reply who reply rest loop hstep hreply =>
      obtain ⟨⟨client', hclient'⟩, hnext⟩ := hserves.reply hstep hreply
      obtain ⟨client, -, -, hclient, -, -, -⟩ := hstep.selected
      refine ⟨task, hnext, ?_⟩
      intro id
      by_cases heq : id = who
      · subst heq
        exact (hledger id).reply hreply hclient hclient'
      · refine (hledger id).quiet rfl (if_neg (Ne.symm heq)) (Function.update_of_ne heq _ _) rfl ?_
        exact (Nat.zero_add _).trans (congrArg uncommitted (clients_of_select hstep heq))
  | order hstep =>
      refine ⟨task, hserves.order hstep, ?_⟩
      intro id
      exact (hledger id).quiet rfl rfl rfl rfl (Nat.zero_add _)
  | @accept who task' actions server htask hid hnew hstep =>
      obtain rfl := Except.ok.inj (hserves.task_eq.symm.trans htask)
      obtain ⟨hnext, rfl⟩ := hserves.accept hid hnew hstep
      refine ⟨_, hnext, ?_⟩
      intro id
      exact (hledger id).quiet rfl rfl rfl rfl (Nat.zero_add _)
  | @request command task' actions rest server htask hconnected huplink hstep =>
      obtain rfl := Except.ok.inj (hserves.task_eq.symm.trans htask)
      obtain ⟨rfl, hnext⟩ := hserves.request hconnected huplink hstep
      refine ⟨_, hnext, ?_⟩
      intro id
      exact (hledger id).quiet rfl rfl (List.append_nil _) rfl (Nat.zero_add _)
  | @finalized command actions server hstep =>
      obtain ⟨hactions, hnext⟩ := hserves.finalized hstep
      refine ⟨_, hnext, ?_⟩
      intro id
      by_cases heq : command.clientId = id
      · refine (hledger id).finalized heq ?_ hactions
        subst heq
        cases hstep with
        | service _ hfinalized => exact hserves.due (mem_asked_of_finalized hfinalized)
      · refine (hledger id).quiet ?_ rfl ?_ ?_ (Nat.zero_add _)
        · rw [hactions]
          simp [SystemLabel.executed, Service.executed, ServiceAction.executed?, heq]
        · rw [hactions]
          simp [replyTo?, heq]
        · rw [last_insert, if_neg (Ne.symm heq)]

theorem SystemRun.account (hrun : SystemRun ids history system) : Account ids history system := by
  refine Run.invariant (P := Account ids) ?_ ?_ hrun
  · rintro _ rfl
    exact .new ids
  · intro _ _ _ _ _ h hstep
    exact h.step hstep

/-- A client that has a reply to commit waits for nothing. -/
theorem Serves.committing (h : Serves ids system task) {client : ClientState}
    (hclient : system.loop.clients id = .committing client) (hid : id ∈ ids) :
    system.downlinks id = [] := by
  obtain ⟨current, hcurrent, htrace⟩ := h.traces id hid
  obtain rfl := hcurrent client (by rw [hclient]; exact rfl)
  have htokens := h.circulates.once id
  rw [ConcurrentClients.tokens, hclient] at htokens
  have hinflight : (closeLoop [0]).tokens (.committing client) = client.seqScratch.size + 1 := rfl
  have hscratch : client.seqScratch = ∅ := by
    rw [Std.ExtTreeMap.eq_empty_iff_size_eq_zero]
    omega
  exact (htrace.of_empty hscratch).2.1

theorem Trace.downlinks_le {client : ClientState} (h : Trace system task id client) :
    (system.downlinks id).length ≤ 1 := by
  cases h with
  | rest _ hdown | asked _ hdown | answered _ hdown => simp [hdown]

/-- Whatever the order of the steps is, the server stays up, the clients end only with the
workload or their sequence numbers, and the commands of a client are executed in order, each of
them once, no more than one ahead of what it has committed. The connections keep their order
and do not fail. -/
theorem exactly_once (hrun : SystemRun ids history system) :
    (∃ task, system.server.task = .ok task) ∧
    (∀ id stop, system.loop.clients id = .ended stop → stop = .finished ∨ stop = .overflow) ∧
    ∀ id ∈ ids, executedFor id history = List.range' 1 (executedFor id history).length ∧
      receivedBy id history <+: executedFor id history ∧
      (commits history).count id ≤ (receivedBy id history).length ∧
      (executedFor id history).length ≤ (commits history).count id + 1 := by
  obtain ⟨task, hserves, hledger⟩ := SystemRun.account hrun
  refine ⟨⟨task, hserves.task_eq⟩, hserves.unharmed, ?_⟩
  intro id hid
  obtain ⟨hexecuted, hreceived, hcommitted⟩ := hledger id
  have hsplit : receivedBy id history ++ (system.downlinks id).map (·.seq.val) =
      executedFor id history := hreceived.trans hexecuted.symm
  have hlength := congrArg List.length hsplit
  rw [List.length_append, List.length_map] at hlength
  refine ⟨?_, ⟨_, hsplit⟩, by omega, ?_⟩
  · rw [hexecuted, List.length_range']
  · cases hclient : system.loop.clients id with
    | committing client =>
        rw [hserves.committing hclient hid, List.length_nil] at hlength
        rw [hclient, uncommitted] at hcommitted
        omega
    | running | ended =>
        obtain ⟨current, -, htrace⟩ := hserves.traces id hid
        have hle := htrace.downlinks_le
        rw [hclient, uncommitted] at hcommitted
        omega

/-- One client, from its first command over the reply and the commit to the execution of its
second. -/
theorem run_twice : ∃ history system, SystemRun {0} history system ∧
    executedFor 0 history = [1, 2] ∧ receivedBy 0 history = [1] ∧ commits history = [0] ∧
    system.loop.sending = true ∧ ¬(system.loop.clients 0).IsEnded := by
  have first := Run.step (.start rfl : SystemRun {0} [] _)
    (.loop (.first (Finset.mem_singleton_self 0)) (by simp))
  have invoked := Run.step first
    (.invoke (.select rfl (⟨rfl, by simp⟩ : Selects _ 0 (.invoke (some ping)) []) rfl))
  have accepted := Run.step invoked (.accept rfl (Finset.mem_singleton_self 0)
    (Finset.notMem_empty 0) (.service rfl rfl))
  have requested := Run.step accepted
    (.request rfl (Finset.mem_insert_self 0 ∅) (by decide : _ = (⟨0, 1, []⟩ : Command) :: [])
      (.service rfl rfl))
  have ordered := Run.step requested
    (.order (@Server.Step.replica _ _ _ _ _ replicaTasks 0 [] _ _ () _ trivial rfl))
  have finalized := Run.step ordered (.finalized (.service rfl rfl))
  have replied := Run.step finalized (@SystemStep.reply _ _ 0 ⟨1, []⟩ [] _
    (.select rfl (⟨rfl, by simp⟩ : Selects _ 0 (.message (some (⟨1, []⟩ : Reply))) []) rfl)
    (by decide))
  have committed := Run.step replied
    (.loop (.commit ((Function.update_self _ _ _).trans (if_pos (by decide)))
      (Nat.zero_lt_succ _)) (by simp))
  -- the next command goes the same way, over the connection that is there
  have again := Run.step committed (.loop (.again rfl (by decide) rfl) (by simp))
  have reinvoked := Run.step again
    (.invoke (.select rfl (⟨rfl, by simp⟩ : Selects _ 0 (.invoke (some ping)) []) rfl))
  have rerequested := Run.step reinvoked
    (.request rfl (Finset.mem_insert_self 0 ∅) (by decide : _ = (⟨0, 2, []⟩ : Command) :: [])
      (.service rfl rfl))
  have reordered := Run.step rerequested
    (.order (@Server.Step.replica _ _ _ _ _ replicaTasks 0 [] _ _ () _ trivial rfl))
  have refinalized := Run.step reordered (.finalized (.service rfl rfl))
  exact ⟨_, _, refinalized, rfl, rfl, rfl, rfl, by decide +kernel⟩

theorem exactly_once_twice : ∃ history system, SystemRun {0} history system ∧
    executedFor 0 history = [1, 2] ∧ receivedBy 0 history <+: executedFor 0 history ∧
    (executedFor 0 history).length ≤ (commits history).count 0 + 1 := by
  obtain ⟨history, system, hrun, hexecuted, -⟩ := run_twice
  obtain ⟨-, hreceived, -, hahead⟩ :=
    (exactly_once hrun).2.2 0 (Finset.mem_singleton_self 0)
  exact ⟨_, _, hrun, hexecuted, hreceived, hahead⟩

end BftKit.Unreplicated
