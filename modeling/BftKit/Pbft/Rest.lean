import BftKit.Pbft.Quiescence
import BftKit.Pbft.Servers
import BftKit.Pbft.Termination
import BftKit.Transport.Rest

/-! # A group of servers at rest

When nothing is in flight among correct replicas and nothing waits in the channels of their
servers, all of these have executed the same commands, and have answered their clients.
-/

namespace BftKit.Pbft

open Foundation Transport CommandPool Replica

variable {crypto : Crypto}

/-- The command that comes through the request channel. -/
def Replica.Invocation.submitted? (invocation : Invocation crypto) : Option Command :=
  match invocation.call with
  | .request command => some command
  | .receive _ | .tick => none

namespace Group

/-- The replica tasks of a network. The effects of a call take place when its loop is done. -/
def networkTasks (crypto : Crypto) (group : Group) :
    ReplicaTasks service (Replica crypto) (Invocation crypto) where
  start who replica := replica = group.initial crypto who
  step who _ replica invocation next := (group.protocol crypto).step who replica invocation next
  requested? := Invocation.submitted?
  finalizes replica invocation := (finalizedLog invocation.events).map replica.finalized
  log invocation := (finalizedLog invocation.events).flatten
  flatMap_finalizes _ _ := by rw [List.flatMap_map]; exact List.flatMap_id

theorem networkTasks_networked (group : Group) :
    (group.networkTasks crypto).Networked (group.protocol crypto) where
  start_iff _ _ := Iff.rfl
  step_iff _ _ _ _ _ := Iff.rfl

abbrev NetworkHistory (crypto : Crypto) :=
  List (Nat × ServerLabel (Invocation crypto) Reply Finalized)

/-- The runs of a network of correct servers. -/
abbrev ServersNetworkRun (group : Group) : NetworkHistory crypto →
    Network Nat (Server (Replica crypto) Reply Finalized) (ToReplica crypto) → Prop :=
  (Server.protocol (group.networkTasks crypto) (group.protocol crypto)).NetworkRun

/-- What the service of a server has passed on, as its clients have asked. -/
abbrev forwardedBy (history : NetworkHistory crypto) (who : Nat) : List Command :=
  Service.forwardedIn (Server.happenings (view who history))

variable {group : Group} {who : Nat}

/-! ## What is asked for -/

section

variable {history : List (Nat × Invocation crypto)}
  {network : Network Nat (Replica crypto) (ToReplica crypto)}

theorem logOf_network (history : NetworkHistory crypto) (who : Nat) :
    Server.logOf (group.networkTasks crypto) history who =
      (finalizedLog (eventsOf who (Server.replicaHistory history))).flatten := by
  rw [finalizedLog, eventsOf, List.flatMap_assoc, ← List.flatMap_id, List.flatMap_assoc]
  simp only [List.flatMap_id]
  rfl

/-- A replica is asked by its clients or by other replicas. -/
theorem NetworkRun.requested_cases (hrun : (group.protocol crypto).NetworkRun history network)
    {command : Command} (hrequest : command ∈ requests (eventsOf who history)) :
    command ∈ (view who history).filterMap Invocation.submitted? ∨
      .request command ∈ delivered (eventsOf who history) := by
  obtain ⟨event, hevent, hrequested⟩ := List.mem_filterMap.mp hrequest
  obtain ⟨invocation, hmem, hevent'⟩ := List.mem_flatMap.mp hevent
  obtain ⟨_, _, _, -, hstep, -⟩ := (Protocol.NetworkRun.localRun hrun who).of_mem hmem
  have hcall : event = .call invocation.call invocation.actions := by
    rcases List.mem_cons.mp hevent' with heq | hperformed
    · exact heq
    · obtain ⟨after, -, hdrained⟩ := hstep.2.loop
      obtain ⟨action, actions, rfl⟩ := hdrained.performs event hperformed
      cases hrequested
  subst hcall
  rcases Replica.requested_cases hrequested with heq | heq
  · refine .inl (List.mem_filterMap.mpr ⟨invocation, hmem, ?_⟩)
    rw [Invocation.submitted?, heq]
  · refine .inr (List.mem_filterMap.mpr ⟨_, hevent, ?_⟩)
    rw [heq]
    rfl

/-- In the end it is clients that ask. -/
theorem NetworkRun.requests_submitted (hverifies : crypto.Verifies)
    (hrun : (group.protocol crypto).NetworkRun history network) (hwho : who < group.spec.numReplica)
    {command : Command} (hrequest : command ∈ requests (eventsOf who history)) :
    ∃ origin < group.spec.numReplica,
      command ∈ (view origin history).filterMap Invocation.submitted? := by
  rcases NetworkRun.requested_cases hrun hrequest with hclient | hdelivered
  · exact ⟨who, hwho, hclient⟩
  · obtain ⟨-, sender, hsender, hbackup, hrequest'⟩ :=
      NetworkRun.delivered_request hverifies hrun hdelivered
    rcases NetworkRun.requested_cases hrun hrequest' with hclient | hdelivered'
    · exact ⟨sender, hsender, hclient⟩
    · exact absurd (NetworkRun.delivered_request hverifies hrun hdelivered').1 hbackup

theorem requested_of_submitted {command : Command}
    (hsubmitted : command ∈ (view who history).filterMap Invocation.submitted?) :
    command ∈ requests (eventsOf who history) := by
  obtain ⟨invocation, hmem, hcall⟩ := List.mem_filterMap.mp hsubmitted
  refine List.mem_filterMap.mpr ⟨.call invocation.call invocation.actions,
    List.mem_flatMap.mpr ⟨invocation, hmem, List.mem_cons_self⟩, ?_⟩
  rw [Invocation.submitted?] at hcall
  split at hcall
  next other heq =>
    obtain rfl := Option.some.inj hcall
    rw [heq]
    rfl
  all_goals cases hcall

/-- Whatever is finalized has been asked for by clients. -/
theorem NetworkRun.finalized_submitted (hverifies : crypto.Verifies)
    (hmany : 1 < group.spec.numReplica)
    (hrun : (group.protocol crypto).NetworkRun history network) (hquiet : network.flight = [])
    (hwho : who < group.spec.numReplica) {command : Command}
    (hcommand : command ∈ (finalizedLog (eventsOf who history)).flatten) :
    ∃ origin < group.spec.numReplica,
      command ∈ (view origin history).filterMap Invocation.submitted? := by
  have hlocal := CorrectRun.localRun
    ((NetworkRun.harmonious hverifies hrun).runs _ (primary_lt hwho)) rfl
  have hsound := (LocalRun.accounts hlocal rfl).sound
  apply NetworkRun.requests_submitted hverifies hrun (primary_lt hwho)
  apply hsound
  rw [(NetworkRun.log_of_quiet hverifies hmany hrun hquiet hwho).1] at hcommand
  rw [handedOut, NetworkRun.idle hrun, List.append_nil]
  exact List.mem_append_left _ hcommand

end

/-! ## What is answered -/

section

variable {history : NetworkHistory crypto}
  {network : Network Nat (Server (Replica crypto) Reply Finalized) (ToReplica crypto)}

/-- Nothing waits in the channels of the group's servers. -/
def AllAtRest (group : Group)
    (network : Network Nat (Server (Replica crypto) Reply Finalized) (ToReplica crypto)) : Prop :=
  network.flight = [] ∧ ∀ who < group.spec.numReplica, Server.AtRest (network.states who)

theorem ServersNetworkRun.serversRun (hrun : group.ServersNetworkRun history network) :
    Server.ServersRun (group.networkTasks crypto) history network.states :=
  ((Server.networkRun_iff group.networkTasks_networked).mp hrun).1

theorem ServersNetworkRun.replicaRun (hrun : group.ServersNetworkRun history network) :
    (group.protocol crypto).NetworkRun (Server.replicaHistory history)
      ⟨fun who => (network.states who).replica, network.flight⟩ :=
  Server.NetworkRun.replicaRun group.networkTasks_networked hrun

section

variable (hrun : group.ServersNetworkRun history network) (hrest : group.AllAtRest network)
  (hwho : who < group.spec.numReplica)

include hrun hrest hwho

theorem AllAtRest.forwardedBy_eq : forwardedBy history who =
    (view who (Server.replicaHistory history)).filterMap Invocation.submitted? :=
  Server.AtRest.forwarded (ServersNetworkRun.serversRun hrun) (hrest.2 who hwho)

theorem AllAtRest.executed_eq : Server.executed (view who history) = Service.novel
    (finalizedLog (eventsOf who (Server.replicaHistory history))).flatten := by
  obtain ⟨-, hfinalized, task, htask⟩ := hrest.2 who hwho
  rw [← @logOf_network crypto group]
  exact Server.ServersRun.executed_eq_novel (ServersNetworkRun.serversRun hrun) htask hfinalized

end

section

variable (hverifies : crypto.Verifies) (hmany : 1 < group.spec.numReplica)
  (hrun : group.ServersNetworkRun history network) (hrest : group.AllAtRest network)
  (hwho : who < group.spec.numReplica)

include hverifies hmany hrun hrest hwho

theorem AllAtRest.executed_primary : Server.executed (view who history) = Service.novel
    (proposals (performedIn (eventsOf (group.spec.primary 0)
      (Server.replicaHistory history)))).flatten := by
  rw [hrest.executed_eq hrun hwho, (NetworkRun.log_of_quiet hverifies hmany
    (ServersNetworkRun.replicaRun hrun) hrest.1 hwho).1]

/-- Only what clients have sent is finalized. -/
theorem AllAtRest.finalized_forwarded {command : Command}
    (hcommand : command ∈
      (finalizedLog (eventsOf who (Server.replicaHistory history))).flatten) :
    ∃ origin < group.spec.numReplica, command ∈ forwardedBy history origin := by
  obtain ⟨origin, horigin, hsubmitted⟩ := NetworkRun.finalized_submitted hverifies hmany
    (ServersNetworkRun.replicaRun hrun) hrest.1 hwho hcommand
  refine ⟨origin, horigin, ?_⟩
  rwa [hrest.forwardedBy_eq hrun horigin]

/-- What any server has passed on is covered by all logs. -/
theorem AllAtRest.covered (hwindow : 0 < group.maxNumInflight (group.spec.primary 0))
    {origin : Nat} (horigin : origin < group.spec.numReplica) {command : Command}
    (hcommand : command ∈ forwardedBy history origin) :
    Covered (Server.logOf (group.networkTasks crypto) history who) command := by
  rw [hrest.forwardedBy_eq hrun horigin] at hcommand
  rw [logOf_network]
  apply NetworkRun.covered_of_quiet hverifies hmany (ServersNetworkRun.replicaRun hrun) hrest.1
    hwho hwindow
  exact requested_of_submitted hcommand

end

/-- Once the servers of correct replicas have nothing left to do, they have all executed the
same commands. These are commands of clients, and every command of a client is answered by
every server, unless the client has got beyond it. The servers are more than one, what replicas
sign verifies, and the primary has a window. -/
theorem answered_at_rest (hverifies : crypto.Verifies) (hmany : 1 < group.spec.numReplica)
    (hwindow : 0 < group.maxNumInflight (group.spec.primary 0))
    (hrun : group.ServersNetworkRun history network) (hrest : group.AllAtRest network)
    (hwho : who < group.spec.numReplica) :
    (∀ other < group.spec.numReplica,
      Server.executed (view other history) = Server.executed (view who history)) ∧
    (∀ command ∈ Server.executed (view who history), ∃ origin < group.spec.numReplica,
      command ∈ forwardedBy history origin) ∧
    ∀ origin < group.spec.numReplica, ∀ command ∈ forwardedBy history origin,
      ∃ entry ∈ Service.executions (Server.happenings (view who history)),
        entry.command.clientId = command.clientId ∧ command.seq ≤ entry.command.seq ∧
          Server.Sent history who command.clientId entry.reply := by
  refine ⟨?_, ?_, ?_⟩
  · intro other hother
    exact (hrest.executed_primary hverifies hmany hrun hother).trans
      (hrest.executed_primary hverifies hmany hrun hwho).symm
  · intro command hcommand
    rw [hrest.executed_eq hrun hwho] at hcommand
    exact hrest.finalized_forwarded hverifies hmany hrun hwho
      ((records_sublist _).subset hcommand)
  · intro origin horigin command hcommand
    exact Server.AtRest.answered (ServersNetworkRun.serversRun hrun) (hrest.2 who hwho)
      (hrest.covered hverifies hmany hrun hwho hwindow horigin hcommand)

/-- A client has asked the third of four servers, and nothing is left to do. -/
theorem exists_four_at_rest : ∃ (history : NetworkHistory .transparent)
    (network : Network Nat (Server (Replica .transparent) Reply Finalized) (ToReplica .transparent)),
    (four ∅).ServersNetworkRun history network ∧ (four ∅).AllAtRest network ∧
      ping 0 ∈ forwardedBy history 2 ∧
      ∀ other < 4, ∀ command ∈ forwardedBy history other, command = ping 0 := by
  have hreplay : ∃ run ∈ (four ∅).replayNetwork fourForwarded,
      (lost run.1).isEmpty ∧ run.2.flight.isEmpty ∧
        ping 0 ∈ (view 2 (steps run.1)).filterMap Invocation.submitted? ∧
        ∀ other < 4, ∀ command ∈ (view other (steps run.1)).filterMap Invocation.submitted?,
          command = ping 0 := by
    decide +kernel
  obtain ⟨⟨incidents, network⟩, hreplay, hlossless, hflight, hasked, hall⟩ := hreplay
  obtain ⟨flight, hrun, hperm⟩ := Protocol.LossyRun.networkRun (replayNetwork_run hreplay)
  have hquiet : flight = [] := by
    rw [List.isEmpty_iff.mp hflight, List.isEmpty_iff.mp hlossless] at hperm
    exact hperm.eq_nil
  obtain ⟨history, servers, hservers, hevents, hstates, hparties⟩ :=
    Server.exists_caught_up ((four ∅).networkTasks .transparent)
      (Protocol.NetworkRun.partiesRun hrun) [0, 1, 2, 3]
  have hflights := Protocol.NetworkRun.flights hrun
  rw [← hevents] at hflights hasked hall
  have hnetwork : (four ∅).ServersNetworkRun history ⟨servers, flight⟩ :=
    (Server.networkRun_iff (four ∅).networkTasks_networked).mpr ⟨hservers, hflights⟩
  have hrest : (four ∅).AllAtRest ⟨servers, flight⟩ := by
    refine ⟨hquiet, ?_⟩
    intro who hwho
    have hmem : ∀ who < 4, who ∈ [0, 1, 2, 3] := by decide
    exact ⟨(hstates who).2.1, (hparties who (hmem who hwho)).1, (hstates who).2.2⟩
  refine ⟨history, _, hnetwork, hrest, ?_, ?_⟩
  · rwa [hrest.forwardedBy_eq hnetwork (show 2 < (four ∅).spec.numReplica by decide)]
  · intro other hother
    rw [hrest.forwardedBy_eq hnetwork hother]
    exact hall other hother

theorem answered_at_rest_four : ∃ history : NetworkHistory .transparent,
    ping 0 ∈ forwardedBy history 2 ∧
      ∃ entry ∈ Service.executions (Server.happenings (view 1 history)),
        entry.command.clientId = 0 ∧ 1 ≤ entry.command.seq ∧
          Server.Sent history 1 0 entry.reply := by
  obtain ⟨history, network, hrun, hrest, hasked, -⟩ := exists_four_at_rest
  refine ⟨history, hasked, ?_⟩
  exact (answered_at_rest Crypto.transparent_verifies (by decide) (by decide) hrun hrest
    (show 1 < (four ∅).spec.numReplica by decide)).2.2 2 (by decide) (ping 0) hasked

end

end Group

end BftKit.Pbft
