import BftKit.CommandPool.Covering
import BftKit.Foundation.Flights
import BftKit.Transport.Server

/-! # Networks of servers at rest

The replicas of a network with their services beside them. Once a server has nothing left in
its channels, it has answered whatever its replica's log covers.
-/

namespace BftKit.Transport

open Foundation CommandPool

variable {Replica Event Message Reply Finalized : Type} {service : Service Reply Finalized}

/-- The replica tasks are the parties of a network. -/
structure ReplicaTasks.Networked (replicas : ReplicaTasks service Replica Event)
    (protocol : Protocol Nat Replica Event Message) : Prop where
  start_iff : ∀ who replica, replicas.start who replica ↔ replica = protocol.start who
  step_iff : ∀ who history replica event next,
    replicas.step who history replica event next ↔ protocol.step who replica event next

namespace Server

/-- The servers of a network of replicas. Only the replicas send each other messages. -/
def protocol (replicas : ReplicaTasks service Replica Event)
    (protocol : Protocol Nat Replica Event Message) :
    Protocol Nat (Server Replica Reply Finalized) (ServerLabel Event Reply Finalized) Message where
  start who := ⟨protocol.start who, [], [], .ok (Service.new who)⟩
  step who := Step replicas who []
  receives label := label.event?.bind protocol.receives
  sends who label := label.event?.toList.flatMap (protocol.sends who)

variable {replicas : ReplicaTasks service Replica Event}
  {protocol : Protocol Nat Replica Event Message}
  {history : List (Nat × ServerLabel Event Reply Finalized)}
  {network : Network Nat (Server Replica Reply Finalized) Message}
  {servers : Nat → Server Replica Reply Finalized} {who : Nat} {command : Command}

theorem moves_service {flight flight' : List (Nat × Message)}
    {happening : Service.ServiceHappening Reply Finalized} :
    (Server.protocol replicas protocol).Moves flight (who, .service happening) flight' ↔
      flight' = flight := by
  constructor
  · intro hmoves
    cases hmoves with
    | deliver hreceives => cases hreceives
    | act => exact List.append_nil flight
  · rintro rfl
    have hmoves : (Server.protocol replicas protocol).Moves flight' (who, .service happening)
        (flight' ++ []) := .act rfl
    rwa [List.append_nil] at hmoves

theorem moves_replica {flight flight' : List (Nat × Message)} {event : Event} :
    (Server.protocol replicas protocol).Moves flight (who, .replica event) flight' ↔
      protocol.Moves flight (who, event) flight' := by
  have hsends : (Server.protocol replicas protocol).sends who (.replica event) =
    protocol.sends who event := List.flatMap_singleton _ _
  constructor
  · intro hmoves
    cases hmoves with
    | @deliver _ _ message before after hreceives hflight =>
        rw [hsends]
        exact .deliver (show protocol.receives event = some message from hreceives) hflight
    | act hreceives =>
        rw [hsends]
        exact .act (show protocol.receives event = none from hreceives)
  · intro hmoves
    cases hmoves with
    | deliver hreceives hflight =>
        rw [← hsends]
        exact .deliver hreceives hflight
    | act hreceives =>
        rw [← hsends]
        exact .act hreceives

/-- What the services do is nothing to the messages in flight. -/
theorem flights_iff {flight : List (Nat × Message)} :
    (Server.protocol replicas protocol).Flights history flight ↔
      protocol.Flights (replicaHistory history) flight := by
  induction history using List.reverseRecOn generalizing flight with
  | nil => constructor <;> intro hrun <;> exact .start hrun.of_nil
  | append_singleton history entry ih =>
      obtain ⟨who, label⟩ := entry
      rw [replicaHistory_concat]
      cases label with
      | service happening =>
          apply Run.concat_iff.trans
          simp only [moves_service, exists_eq_right', ih, ServerLabel.event?, Option.map_none,
            Option.toList_none, List.append_nil]
      | replica event =>
          apply Run.concat_iff.trans
          apply Iff.trans _ Run.concat_iff.symm
          apply exists_congr
          intro before
          exact and_congr ih moves_replica

theorem start_iff (h : replicas.Networked protocol) (server : Server Replica Reply Finalized) :
    Start replicas who server ↔ server = (Server.protocol replicas protocol).start who := by
  constructor
  · rintro ⟨hreplica, hrequests, hfinalized, htask⟩
    obtain ⟨replica, requests, finalized, task⟩ := server
    obtain rfl : replica = protocol.start who := (h.start_iff who replica).mp hreplica
    obtain rfl : requests = [] := hrequests
    obtain rfl : finalized = [] := hfinalized
    obtain rfl : task = .ok (Service.new who) := htask
    rfl
  · rintro rfl
    exact ⟨(h.start_iff who _).mpr rfl, rfl, rfl, rfl⟩

/-- What the others have done is nothing to a step of a server. -/
theorem Step.of_networked (h : replicas.Networked protocol)
    {history' : List (Nat × ServerLabel Event Reply Finalized)}
    {server next : Server Replica Reply Finalized} {label : ServerLabel Event Reply Finalized}
    (hstep : Step replicas who history server label next) :
    Step replicas who history' server label next := by
  cases hstep with
  | replica hstep hrequests =>
      have hlocal := (h.step_iff _ _ _ _ _).mp hstep
      exact .replica ((h.step_iff _ _ _ _ _).mpr hlocal) hrequests
  | service htask hfinalized => exact .service htask hfinalized

/-- A network of servers is a system of them, with the messages of its replicas. -/
theorem networkRun_iff (h : replicas.Networked protocol) :
    (Server.protocol replicas protocol).NetworkRun history network ↔
      ServersRun replicas history network.states ∧
        protocol.Flights (replicaHistory history) network.flight := by
  constructor
  · intro hrun
    refine ⟨?_, flights_iff.mp (Protocol.NetworkRun.flights hrun)⟩
    apply Run.mono _ _ (Protocol.NetworkRun.partiesRun hrun)
    · intro servers hstart who
      exact (start_iff h _).mpr (hstart who)
    · rintro history servers entry next ⟨target, hstep, rfl⟩
      exact ⟨target, hstep.of_networked h, rfl⟩
  · rintro ⟨hservers, hflights⟩
    apply Protocol.PartiesRun.networkRun _ (flights_iff.mpr hflights)
    apply Run.mono _ _ hservers
    · intro servers hstart who
      exact (start_iff h _).mp (hstart who)
    · rintro history servers entry next ⟨target, hstep, rfl⟩
      exact ⟨target, hstep.of_networked h, rfl⟩

/-- The replicas of it are a network of their own. -/
theorem NetworkRun.replicaRun (h : replicas.Networked protocol)
    (hrun : (Server.protocol replicas protocol).NetworkRun history network) :
    protocol.NetworkRun (replicaHistory history)
      ⟨fun who => (network.states who).replica, network.flight⟩ := by
  obtain ⟨hservers, hflights⟩ := (networkRun_iff h).mp hrun
  apply Protocol.PartiesRun.networkRun _ hflights
  apply Run.mono _ _ hservers.replicaRun
  · intro states hstart who
    exact (h.start_iff who _).mp (hstart who)
  · rintro history states entry next ⟨target, hstep, rfl⟩
    exact ⟨target, (h.step_iff _ _ _ _ _).mp hstep, rfl⟩

/-! ## At rest -/

/-- Nothing is left in the channels of a server, and its service task goes on. -/
structure AtRest (server : Server Replica Reply Finalized) : Prop where
  requests : server.requests = []
  finalized : server.finalized = []
  task : ∃ task, server.task = .ok task

/-- What a server has passed on to its replica is what that has been asked for. -/
theorem AtRest.forwarded (hrun : ServersRun replicas history servers)
    (hrest : AtRest (servers who)) : Service.forwardedIn (happenings (view who history)) =
      (view who (replicaHistory history)).filterMap replicas.requested? := by
  have hrequested := (ServersRun.books hrun who).requested
  rw [hrest.requests, List.append_nil] at hrequested
  rw [view_replicaHistory, hrequested]

/-- A server has answered whatever is covered by the log of its replica. -/
theorem AtRest.answered (hrun : ServersRun replicas history servers)
    (hrest : AtRest (servers who)) (hcovered : Covered (logOf replicas history who) command) :
    ∃ entry ∈ Service.executions (happenings (view who history)),
      entry.command.clientId = command.clientId ∧ command.seq ≤ entry.command.seq ∧
        Sent history who command.clientId entry.reply := by
  obtain ⟨task, htask⟩ := hrest.task
  have hexecuted := ServersRun.executed_eq_novel hrun htask hrest.finalized
  have hreached : Reached Command.clientId Command.seq (executed (view who history)) command := by
    rw [hexecuted, reached_records_iff]
    exact hcovered
  obtain ⟨_, hmem, hclient, hseq⟩ := hreached
  obtain ⟨entry, hentry, rfl⟩ := List.mem_map.mp hmem
  obtain ⟨-, hanswered⟩ := (ServersRun.books hrun who).answered task htask
  exact ⟨entry, hentry, hclient, hseq, hclient ▸ hanswered entry hentry⟩

/-- The reply of a server to the newest command of a client. -/
theorem AtRest.newest (hrun : ServersRun replicas history servers) (hrest : AtRest (servers who))
    (hcovered : Covered (logOf replicas history who) command)
    (hnewest : ∀ newer ∈ logOf replicas history who, newer.clientId = command.clientId →
      newer.seq ≤ command.seq) :
    ∃ finalized command', command'.seq = command.seq ∧
      Sent history who command.clientId (service.reply who finalized command') := by
  obtain ⟨entry, hentry, hclientId, hle, hsent⟩ := hrest.answered hrun hcovered
  obtain ⟨reached, hpre, hexecuted⟩ := ServersRun.executed_eq hrun who
  have hmem : entry.command ∈ executed (view who history) := List.mem_map_of_mem hentry
  rw [hexecuted] at hmem
  have hge := hnewest _ (hpre.subset ((records_sublist _).subset hmem)) hclientId
  obtain ⟨finalized, hreply⟩ := (ServersRun.books hrun who).replied entry hentry
  exact ⟨finalized, entry.command, le_antisymm hge hle, hreply ▸ hsent⟩

/-! ## Clients -/

section Clients

open ToClient

variable {View : Type} [ToClient Reply]

/-- Replies tell who they are from, and all executions have one result. -/
structure Uniform (service : Service Reply Finalized) (found : List UInt8) : Prop where
  replicaId : ∀ who finalized command, replicaId (service.reply who finalized command) = who
  seq : ∀ who finalized command, seq (service.reply who finalized command) = command.seq
  result : ∀ who finalized command, result (service.reply who finalized command) = found

/-- A client can commit its newest command when the servers have nothing left to do. -/
theorem AtRest.commits (hrun : ServersRun replicas history servers) {numReplica : Nat}
    (hrest : ∀ who < numReplica, AtRest (servers who)) {found : List UInt8}
    (huniform : Uniform service found)
    (hcovered : ∀ who < numReplica, Covered (logOf replicas history who) command)
    (hnewest : ∀ who < numReplica, ∀ newer ∈ logOf replicas history who,
      newer.clientId = command.clientId → newer.seq ≤ command.seq)
    {task : ClientTask Reply View} (henough : task.numFaulty < numReplica)
    (hsmall : task.numFaulty + 1 < 2 ^ 16)
    {client : List (ClientHappening Reply)} {state : ClientState View}
    (hclient : task.Run client state) (hwaits : command.seq ∈ state.seqScratch)
    (hexpects : ClientTask.Expects client command.seq found) :
    ∃ more final, task.Run (client ++ more) final ∧
      (∀ happening ∈ more, ∃ reply, happening.select = .message (some reply) ∧
        Sent history (ToClient.replicaId reply) command.clientId reply) ∧
      (command.seq, found) ∈ ClientTask.committed (client ++ more) := by
  have hanswers : ∀ who < numReplica, ∃ reply, ToClient.replicaId reply = who ∧
      (ToClient.seq reply = command.seq ∧ ToClient.result reply = found) ∧
      Sent history who command.clientId reply := by
    intro who hwho
    obtain ⟨finalized, command', hseq, hsent⟩ :=
      (hrest who hwho).newest hrun (hcovered who hwho) (hnewest who hwho)
    exact ⟨_, huniform.replicaId _ _ _, ⟨(huniform.seq _ _ _).trans hseq, huniform.result _ _ _⟩,
      hsent⟩
  have hsome : Nonempty Reply := ⟨(hanswers 0 (Nat.zero_lt_of_lt henough)).choose⟩
  choose! reply hid hlike hsent using hanswers
  -- the replies of all servers, in the order of their ids
  let replies := (List.range numReplica).map reply
  have hreplies : ∀ entry ∈ replies, ToClient.seq entry = command.seq ∧
      ToClient.result entry = found := by
    intro entry hentry
    obtain ⟨who, hwho, rfl⟩ := List.mem_map.mp hentry
    exact hlike who (List.mem_range.mp hwho)
  have hids : replies.map ToClient.replicaId = List.range numReplica := by
    rw [List.map_map]
    apply (List.map_congr_left _).trans (List.map_id _)
    intro who hwho
    exact hid who (List.mem_range.mp hwho)
  have hmany : task.numFaulty < (replies.map ToClient.replicaId).toFinset.card := by
    rwa [hids, List.toFinset_card_of_nodup List.nodup_range, List.length_range]
  obtain ⟨more, final, hfinal, hpre, hcommitted⟩ :=
    ClientTask.Run.reaches_commit hclient hsmall hwaits hexpects hreplies hmany
  refine ⟨more, final, hfinal, ?_, hcommitted⟩
  intro happening hmem
  obtain ⟨entry, hentry, hselect⟩ := List.mem_map.mp (hpre.subset (List.mem_map_of_mem hmem))
  obtain ⟨who, hwho, rfl⟩ := List.mem_map.mp hentry
  rw [List.mem_range] at hwho
  refine ⟨reply who, hselect.symm, ?_⟩
  rw [hid who hwho]
  exact hsent who hwho

end Clients

end Server

end BftKit.Transport
