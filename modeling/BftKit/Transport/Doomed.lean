import Mathlib.Logic.Relation
import BftKit.Transport.Bounded
import BftKit.Transport.Rest

/-! # Networks of servers with bounded channels

A server is doomed when its service waits for room that only the replica task can make, and the
replica task has more to send than the service has left room for. Nothing helps a doomed server.
All others can be brought to rest, if the replicas can with channels that take everything.
-/

namespace BftKit.Transport.BoundedServer

open Foundation Relation

variable {Replica Event Message Reply Finalized : Type} {service : Service Reply Finalized}

/-- The servers of a network of replicas, whose channels have capacities. The messages of a call
are in flight before its finalized lists are waited with, wherever the calls have put them. -/
def protocol (replicas : ReplicaTasks service Replica Event)
    (protocol : Protocol Nat Replica Event Message) (capacities : Capacities) :
    Protocol Nat (BoundedServer Replica Reply Finalized) (BoundedLabel Event Reply Finalized)
      Message where
  start who := ⟨(Server.protocol replicas protocol).start who, [], []⟩
  step who := Step replicas capacities who []
  receives label := label.act?.bind (Server.protocol replicas protocol).receives
  sends who label := label.act?.toList.flatMap ((Server.protocol replicas protocol).sends who)

/-- What the network would be if the channels of its servers took everything. -/
def unboundedNetwork (network : Network Nat (BoundedServer Replica Reply Finalized) Message) :
    Network Nat (Server Replica Reply Finalized) Message :=
  ⟨fun who => (network.states who).unbounded, network.flight⟩

/-- The replicas of the network. -/
def replicaNetwork (network : Network Nat (BoundedServer Replica Reply Finalized) Message) :
    Network Nat Replica Message :=
  ⟨fun who => (network.states who).replica, network.flight⟩

/-- The service waits for room in the one channel, and the replica has more lists than fit into
the other one. -/
structure Doomed (capacities : Capacities) (server : BoundedServer Replica Reply Finalized) :
    Prop where
  forwarding : server.forwarding ≠ []
  requests : capacities.requests ≤ server.requests.length
  finalized : capacities.finalized < server.finalized.length + server.finalizing.length

/-- Nothing is left to be sent, or to be executed, and the service task goes on. -/
structure Settled (server : BoundedServer Replica Reply Finalized) : Prop where
  forwarding : server.forwarding = []
  finalizing : server.finalizing = []
  finalized : server.finalized = []
  task : ∃ task, server.task = .ok task

variable {replicas : ReplicaTasks service Replica Event}
  {net : Protocol Nat Replica Event Message} {capacities : Capacities} {who : Nat}
  {history : List (Nat × BoundedLabel Event Reply Finalized)}
  {acted : List (Nat × ServerLabel Event Reply Finalized)}
  {network next : Network Nat (BoundedServer Replica Reply Finalized) Message}
  {server after : BoundedServer Replica Reply Finalized}
  {label : BoundedLabel Event Reply Finalized}

/-! ## Without the bounds -/

theorem unboundedNetwork_update (states : Nat → BoundedServer Replica Reply Finalized)
    (who : Nat) (server : BoundedServer Replica Reply Finalized) (flight : List (Nat × Message)) :
    unboundedNetwork ⟨Function.update states who server, flight⟩ =
      ⟨Function.update (fun other => (states other).unbounded) who server.unbounded, flight⟩ :=
  congrArg (Network.mk · flight) (Function.comp_update BoundedServer.unbounded states who server)

theorem sends_act {action : ServerLabel Event Reply Finalized} (hact : label.act? = some action) :
    (protocol replicas net capacities).sends who label =
      (Server.protocol replicas net).sends who action := by
  change label.act?.toList.flatMap _ = _
  rw [hact]
  exact List.flatMap_singleton _ _

theorem sends_wait (hact : label.act? = none) :
    (protocol replicas net capacities).sends who label = [] := by
  change label.act?.toList.flatMap _ = _
  rw [hact]
  rfl

/-- A step of the network is one of a network without bounds, or no step of it. -/
theorem Step.unboundedNetwork
    (hstep : (protocol replicas net capacities).Step network (who, label) next) :
    (∃ action, label.act? = some action ∧
      (Server.protocol replicas net).Step (BoundedServer.unboundedNetwork network) (who, action)
        (BoundedServer.unboundedNetwork next)) ∨
    label.act? = none ∧
      BoundedServer.unboundedNetwork next = BoundedServer.unboundedNetwork network := by
  cases hstep with
  | @deliver _ _ message before rest server hreceives hflight hlocal =>
      have hreceives' : label.act?.bind (Server.protocol replicas net).receives = some message :=
        hreceives
      rcases Step.unbounded hlocal with ⟨action, hact, hstep⟩ | ⟨hact, -⟩
      · rw [hact] at hreceives'
        refine .inl ⟨action, hact, ?_⟩
        rw [unboundedNetwork_update, sends_act hact]
        exact .deliver hreceives' hflight hstep
      · rw [hact] at hreceives'
        cases hreceives'
  | @act _ _ server hreceives hlocal =>
      have hreceives' : label.act?.bind (Server.protocol replicas net).receives = none := hreceives
      rcases Step.unbounded hlocal with ⟨action, hact, hstep⟩ | ⟨hact, hsame⟩
      · rw [hact] at hreceives'
        refine .inl ⟨action, hact, ?_⟩
        rw [unboundedNetwork_update, sends_act hact]
        exact .act hreceives' hstep
      · refine .inr ⟨hact, ?_⟩
        rw [unboundedNetwork_update, sends_wait hact, List.append_nil, hsame]
        exact congrArg (Network.mk · network.flight) (Function.update_eq_self who _)

theorem NetworkRun.unboundedNetwork
    (hrun : (protocol replicas net capacities).NetworkRun history network) :
    (Server.protocol replicas net).NetworkRun (acts history)
      (BoundedServer.unboundedNetwork network) := by
  refine @Run.refine _ _ _ _ _ _ _ _ BoundedServer.unboundedNetwork _ ?_ ?_ _ _ hrun
  · rintro _ rfl
    rfl
  · rintro _ network ⟨who, label⟩ next hstep
    rcases Step.unboundedNetwork hstep with ⟨action, hact, hstep'⟩ | ⟨hact, hsame⟩
    · exact .inl ⟨(who, action), congrArg (Option.map (Prod.mk who)) hact, hstep'⟩
    · exact .inr ⟨congrArg (Option.map (Prod.mk who)) hact, hsame⟩

/-! ## Doomed servers -/

theorem Step.forwarding_le (hstep : Step replicas capacities who acted server label after)
    (hle : server.forwarding.length ≤ 1) : after.forwarding.length ≤ 1 := by
  cases hstep with
  | replica | finalize => exact hle
  | @service select rest task =>
      exact (service.step_forwards task select).trans Option.length_toList_le
  | forward hforwarding =>
      rw [hforwarding, List.length_cons] at hle
      exact (Nat.le_succ _).trans hle

/-- What each server of a network keeps: its bounds, and one command to wait with at most. -/
theorem NetworkRun.kept (hrun : (protocol replicas net capacities).NetworkRun history network)
    (who : Nat) : Within capacities (network.states who) ∧
      (network.states who).forwarding.length ≤ 1 := by
  refine @Run.invariant _ _ _ _ (fun _ server => Within capacities server ∧
    server.forwarding.length ≤ 1) ?_ ?_ _ _ (Protocol.NetworkRun.localRun hrun who)
  · rintro _ rfl
    exact ⟨⟨Nat.zero_le _, Nat.zero_le _⟩, Nat.zero_le _⟩
  · rintro _ server label after - ⟨hwithin, hle⟩ hstep
    exact ⟨Step.within hstep hwithin, Step.forwarding_le hstep hle⟩

/-- Nothing helps a doomed server. -/
theorem Doomed.step (h : Doomed capacities server) (hwithin : Within capacities server)
    (hstep : Step replicas capacities who acted server label after) :
    Doomed capacities after := by
  obtain ⟨hforwarding, hrequests, hfinalized⟩ := h
  cases hstep with
  | replica hsent =>
      rw [hsent, List.length_nil] at hfinalized
      exact absurd hwithin.finalized (not_le.mpr hfinalized)
  | service hsent => exact absurd hsent hforwarding
  | forward _ hroom => exact absurd hroom (not_lt.mpr hrequests)
  | finalize hfinalizing =>
      refine ⟨hforwarding, hrequests, ?_⟩
      rw [hfinalizing, List.length_cons] at hfinalized
      dsimp only
      rw [List.length_append, List.length_singleton]
      omega

/-! ## Quiet steps -/

variable (replicas capacities who) in
/-- A server does something by itself: its replica does nothing, and no client asks it. -/
def Quiet (server after : BoundedServer Replica Reply Finalized) : Prop :=
  ∃ label, Step replicas capacities who [] server label after ∧
    label.act?.bind ServerLabel.event? = none ∧
    Service.forwardedIn (Server.happenings label.act?.toList) = []

section Quiet

variable {replica : Replica} {requests : List Command} {finalized finalizing : List Finalized}
  {forwarding : List Command} {task : ServiceTask Reply} {command : Command}

/-- Clients can connect. -/
theorem connects (clients : List ClientId) : ∃ task', ReflTransGen (Quiet replicas capacities who)
      ⟨⟨replica, requests, finalized, .ok task⟩, [], finalizing⟩
      ⟨⟨replica, requests, finalized, .ok task'⟩, [], finalizing⟩ ∧
    ∀ clientId ∈ clients, clientId ∈ task'.writeSenders := by
  induction clients with
  | nil => exact ⟨task, .refl, List.forall_mem_nil _⟩
  | cons clientId rest ih =>
      obtain ⟨task', hquiet, hrest⟩ := ih
      by_cases hmem : clientId ∈ task'.writeSenders
      · exact ⟨task', hquiet, List.forall_mem_cons.mpr ⟨hmem, hrest⟩⟩
      · have hstep := @Step.service _ _ _ _ _ replicas capacities who []
          ⟨⟨replica, requests, finalized, .ok task'⟩, [], finalizing⟩ (.accept (some clientId))
          finalized task' rfl rfl rfl
        have haccept : service.step task' (.accept (some clientId)) =
            ([], .ok { task' with writeSenders := insert clientId task'.writeSenders }) := by
          rw [Service.step, if_neg hmem]
        rw [haccept] at hstep
        refine ⟨_, hquiet.tail ⟨_, hstep, rfl, rfl⟩, ?_⟩
        rintro other (_ | ⟨_, hother⟩)
        · exact Finset.mem_insert_self _ _
        · exact Finset.mem_insert_of_mem (hrest other hother)

/-- A service that does not wait executes what is in its channel. -/
theorem executes (finalized : List Finalized) (task : ServiceTask Reply) :
    ∃ task', ReflTransGen (Quiet replicas capacities who)
      ⟨⟨replica, requests, finalized, .ok task⟩, [], finalizing⟩
      ⟨⟨replica, requests, [], .ok task'⟩, [], finalizing⟩ := by
  induction finalized generalizing task with
  | nil => exact ⟨task, .refl⟩
  | cons batch rest ih =>
      obtain ⟨task₁, hconnects, hconnected⟩ :=
        @connects _ _ _ _ service replicas capacities who replica requests (batch :: rest)
          finalizing task ((service.commands batch).map Command.clientId)
      obtain ⟨replies, hserved⟩ := Service.serve_ok batch (service.commands batch) task₁
        fun command hcommand => hconnected _ (List.mem_map_of_mem hcommand)
      have hstep := @Step.service _ _ _ _ _ replicas capacities who []
        ⟨⟨replica, requests, batch :: rest, .ok task₁⟩, [], finalizing⟩ (.finalized (some batch))
        rest task₁ rfl rfl rfl
      have hforwards : (service.step task₁ (.finalized (some batch))).1.filterMap
          ServiceAction.forwarded? = [] :=
        Service.serve_forwards batch (service.commands batch) task₁
      have hresult : (service.step task₁ (.finalized (some batch))).2 =
          .ok { task₁ with replies := replies } := hserved
      rw [hforwards, hresult] at hstep
      obtain ⟨task', hrest⟩ := ih { task₁ with replies := replies }
      refine ⟨task', (hconnects.tail ⟨_, hstep, rfl, ?_⟩).trans hrest⟩
      exact (List.append_nil _).trans hforwards

/-- Both tasks catch up, the one passing on what the other one executes. -/
theorem catches_up (finalizing finalized : List Finalized) (task : ServiceTask Reply) :
    ∃ task', ReflTransGen (Quiet replicas capacities who)
      ⟨⟨replica, requests, finalized, .ok task⟩, [], finalizing⟩
      ⟨⟨replica, requests, [], .ok task'⟩, [], []⟩ := by
  induction finalizing generalizing finalized task with
  | nil => exact executes finalized task
  | cons batch rest ih =>
      obtain ⟨task₁, hexecutes⟩ := @executes _ _ _ _ service replicas capacities who replica
        requests (batch :: rest) finalized task
      have hstep := @Step.finalize _ _ _ _ _ replicas capacities who []
        ⟨⟨replica, requests, [], .ok task₁⟩, [], batch :: rest⟩ batch rest rfl
        capacities.finalized_pos
      obtain ⟨task', hrest⟩ := ih ([] ++ [batch]) task₁
      exact ⟨task', (hexecutes.tail ⟨_, hstep, rfl, rfl⟩).trans hrest⟩

/-- With enough room the replica task sends all that it waits with. -/
theorem sends_all {result : Except ServiceEnd (ServiceTask Reply)}
    (hroom : finalized.length + finalizing.length ≤ capacities.finalized) :
    ReflTransGen (Quiet replicas capacities who)
      ⟨⟨replica, requests, finalized, result⟩, forwarding, finalizing⟩
      ⟨⟨replica, requests, finalized ++ finalizing, result⟩, forwarding, []⟩ := by
  induction finalizing generalizing finalized with
  | nil =>
      rw [List.append_nil]
  | cons batch rest ih =>
      rw [List.length_cons] at hroom
      have hstep := @Step.finalize _ _ _ _ _ replicas capacities who []
        ⟨⟨replica, requests, finalized, result⟩, forwarding, batch :: rest⟩ batch rest rfl
        (by dsimp only; omega)
      have hrest := @ih (finalized ++ [batch])
        (by rw [List.length_append, List.length_singleton]; omega)
      rw [List.append_assoc] at hrest
      exact .head ⟨_, hstep, rfl, rfl⟩ hrest

/-- So does the service. -/
theorem forwards_one {result : Except ServiceEnd (ServiceTask Reply)}
    (hroom : requests.length < capacities.requests) :
    Quiet replicas capacities who
      ⟨⟨replica, requests, finalized, result⟩, [command], finalizing⟩
      ⟨⟨replica, requests ++ [command], finalized, result⟩, [], finalizing⟩ :=
  ⟨_, .forward rfl hroom, rfl, rfl⟩

end Quiet

/-! ## Onwards -/

variable (replicas net capacities) in
/-- A step of the network in which no client asks a server. -/
def Onward (network next : Network Nat (BoundedServer Replica Reply Finalized) Message) : Prop :=
  ∃ who label, (protocol replicas net capacities).Step network (who, label) next ∧
    Service.forwardedIn (Server.happenings label.act?.toList) = []

theorem NetworkRun.onwards (hrun : (protocol replicas net capacities).NetworkRun history network)
    (honward : ReflTransGen (Onward replicas net capacities) network next) :
    ∃ history', (protocol replicas net capacities).NetworkRun history' next := by
  induction honward with
  | refl => exact ⟨history, hrun⟩
  | tail _ hstep ih =>
      obtain ⟨who, label, hstep, -⟩ := hstep
      obtain ⟨history', hrun'⟩ := ih
      exact ⟨_, hrun'.step hstep⟩

/-- Going onwards is a run in which no client asks a server. -/
theorem exists_run (honward : ReflTransGen (Onward replicas net capacities) network next) :
    ∃ more : List (Nat × BoundedLabel Event Reply Finalized),
      Run (· = network) (fun _ => (protocol replicas net capacities).Step) more next ∧
      ∀ who, Service.forwardedIn (Server.happenings (view who (acts more))) = [] := by
  induction honward with
  | refl => exact ⟨[], .start rfl, fun _ => rfl⟩
  | tail _ hstep ih =>
      obtain ⟨who, label, hstep, hnone⟩ := hstep
      obtain ⟨more, hmore, hquiet⟩ := ih
      refine ⟨more ++ [(who, label)], hmore.step hstep, ?_⟩
      intro other
      have hacts : acts (more ++ [(who, label)]) =
          acts more ++ (label.act?.map (Prod.mk who)).toList := by
        rw [acts, List.filterMap_append]
        cases label <;> rfl
      rw [hacts, view_append, Server.happenings, List.filterMap_append, Service.forwardedIn,
        List.flatMap_append]
      apply List.append_eq_nil_iff.mpr ⟨hquiet other, ?_⟩
      cases hact : label.act? with
      | none => rfl
      | some action =>
          rw [hact] at hnone
          by_cases heq : who = other
          · subst heq
            rw [Option.map_some, Option.toList_some, view_singleton_self]
            exact hnone
          · rw [Option.map_some, Option.toList_some, view_singleton_of_ne heq]
            rfl

/-- What a server does by itself is nothing to the rest of the network. -/
theorem onwards_of_quiet (hself : network.states who = server)
    (hquiet : ReflTransGen (Quiet replicas capacities who) server after) :
    ReflTransGen (Onward replicas net capacities) network
      ⟨Function.update network.states who after, network.flight⟩ := by
  induction hquiet with
  | refl =>
      rw [← hself, Function.update_eq_self]
  | @tail current after _ hstep ih =>
      obtain ⟨label, hstep, hevent, hnone⟩ := hstep
      have hreceives : (protocol replicas net capacities).receives label = none := by
        change label.act?.bind (fun action => action.event?.bind net.receives) = none
        rw [← Option.bind_assoc, hevent, Option.bind_none]
      have hsends : (protocol replicas net capacities).sends who label = [] := by
        cases hact : label.act? with
        | none => exact sends_wait hact
        | some action =>
            rw [hact] at hevent
            rw [sends_act hact]
            change action.event?.toList.flatMap _ = []
            rw [show action.event? = none from hevent]
            rfl
      have hlocal : Step replicas capacities who [] (Function.update network.states who current who)
          label after := by
        rw [Function.update_self]
        exact hstep
      have hact := @Protocol.Step.act _ _ _ _ _ (protocol replicas net capacities)
        ⟨Function.update network.states who current, network.flight⟩ who label after hreceives
        hlocal
      rw [hsends, List.append_nil] at hact
      dsimp only at hact
      rw [Function.update_idem] at hact
      exact ih.tail ⟨who, label, hact, hnone⟩

/-- A replica that has sent everything goes on. -/
theorem Onward.order (h : replicas.Networked net) (hself : network.states who = server)
    (hsent : server.finalizing = []) {event : Event} {mid : Network Nat Replica Message}
    {rest : List Command} (hrequests : server.requests = (replicas.requested? event).toList ++ rest)
    (hstep : net.Step (replicaNetwork network) (who, event) mid) :
    Onward replicas net capacities network ⟨Function.update network.states who { server with
      replica := mid.states who
      requests := rest
      finalizing := replicas.finalizes (mid.states who) event }, mid.flight⟩ := by
  subst hself
  have hlocal : replicas.step who [] (network.states who).replica event (mid.states who) :=
    (h.step_iff _ _ _ _ _).mpr hstep.localStep.1
  have hbounded : Step replicas capacities who [] (network.states who) (.act (.replica event))
      { network.states who with
        replica := mid.states who
        requests := rest
        finalizing := replicas.finalizes (mid.states who) event } :=
    .replica hsent hlocal hrequests
  have hsends : (protocol replicas net capacities).sends who (.act (.replica event)) =
      net.sends who event := by
    rw [sends_act rfl]
    exact List.flatMap_singleton _ _
  refine ⟨who, .act (.replica event), ?_, rfl⟩
  cases hstep with
  | deliver hreceives hflight _ =>
      dsimp only
      rw [← hsends]
      exact .deliver hreceives hflight hbounded
  | act hreceives _ =>
      dsimp only
      rw [← hsends]
      exact .act hreceives hbounded

/-! ## Coming to rest -/

/-- Whatever the replicas have got into, they take requests, and come to an end with them. -/
structure Responsive (replicas : ReplicaTasks service Replica Event)
    (net : Protocol Nat Replica Event Message) (size : Nat) : Prop where
  member : ∀ who replica event next, net.step who replica event next → who < size
  takes : ∀ history network, net.NetworkRun history network → ∀ who < size, ∀ command,
    ∃ event next, net.receives event = none ∧ replicas.requested? event = some command ∧
      net.step who (network.states who) event next
  settles : ∀ history network, net.NetworkRun history network → ∀ asked : Nat → List Command,
    ∃ more final, Run (· = network) (fun _ => net.Step) more final ∧ final.flight = [] ∧
      ∀ who < size, (view who more).filterMap replicas.requested? = asked who

section Rest

variable {size : Nat} {states : Nat → BoundedServer Replica Reply Finalized}
  {flight : List (Nat × Message)}

theorem onwards_update (hquiet : ReflTransGen (Quiet replicas capacities who) server after) :
    ReflTransGen (Onward replicas net capacities) ⟨Function.update states who server, flight⟩
      ⟨Function.update states who after, flight⟩ := by
  have honward := @onwards_of_quiet _ _ _ _ _ _ replicas net capacities who
    ⟨Function.update states who server, flight⟩ server after (Function.update_self _ _ _) hquiet
  dsimp only at honward
  rwa [Function.update_idem] at honward

theorem NetworkRun.replicaNetwork (h : replicas.Networked net)
    (hrun : (protocol replicas net capacities).NetworkRun history network) :
    ∃ events, net.NetworkRun events (BoundedServer.replicaNetwork network) :=
  ⟨_, Server.NetworkRun.replicaRun h (NetworkRun.unboundedNetwork hrun)⟩

/-- If a service waits for room, the replica task sends what it waits with first, and makes room
for it then. -/
theorem NetworkRun.makes_room (h : replicas.Networked net)
    (hresponsive : Responsive replicas net size)
    (hrun : (protocol replicas net capacities).NetworkRun history network) (hwho : who < size)
    {replica : Replica} {request command : Command} {rest : List Command}
    {finalized finalizing : List Finalized} {task : ServiceTask Reply}
    (hself : network.states who =
      ⟨⟨replica, request :: rest, finalized, .ok task⟩, [command], finalizing⟩)
    (hfits : finalized.length + finalizing.length ≤ capacities.finalized)
    (hroom : rest.length < capacities.requests) :
    ∃ after flight, ReflTransGen (Onward replicas net capacities) network
      ⟨Function.update network.states who after, flight⟩ ∧ Settled after := by
  let sent : BoundedServer Replica Reply Finalized :=
    ⟨⟨replica, request :: rest, finalized ++ finalizing, .ok task⟩, [command], []⟩
  have hsent : ReflTransGen (Onward replicas net capacities) network
      ⟨Function.update network.states who sent, network.flight⟩ :=
    onwards_of_quiet hself (sends_all hfits)
  obtain ⟨history', hrun'⟩ := NetworkRun.onwards hrun hsent
  obtain ⟨events, hreplicas⟩ := NetworkRun.replicaNetwork h hrun'
  obtain ⟨event, next, hreceives, hrequested, hstep⟩ :=
    hresponsive.takes events _ hreplicas who hwho request
  have hrequests : sent.requests = (replicas.requested? event).toList ++ rest := by
    rw [hrequested]
    rfl
  have hordered : Onward replicas net capacities
      ⟨Function.update network.states who sent, network.flight⟩ _ :=
    Onward.order h (Function.update_self _ _ _) rfl hrequests (.act hreceives hstep)
  dsimp only at hordered
  rw [Function.update_idem] at hordered
  obtain ⟨task', hcatches⟩ := catches_up (replicas.finalizes _ event) (finalized ++ finalizing) task
  exact ⟨_, _, (hsent.tail hordered).trans (onwards_update (.head (forwards_one hroom) hcatches)),
    rfl, rfl, rfl, task', rfl⟩

/-- A server that is not doomed settles. -/
theorem NetworkRun.settles_one (h : replicas.Networked net)
    (hresponsive : Responsive replicas net size)
    (hrun : (protocol replicas net capacities).NetworkRun history network) (hwho : who < size)
    (hup : ∃ task, (network.states who).task = .ok task)
    (hnot : ¬Doomed capacities (network.states who)) :
    ∃ after flight, ReflTransGen (Onward replicas net capacities) network
      ⟨Function.update network.states who after, flight⟩ ∧ Settled after := by
  obtain ⟨hwithin, hle⟩ := NetworkRun.kept hrun who
  obtain ⟨task, htask⟩ := hup
  generalize hself : network.states who = server at htask hnot hwithin hle
  obtain ⟨⟨replica, requests, finalized, result⟩, forwarding, finalizing⟩ := server
  obtain rfl : result = .ok task := htask
  match forwarding, hle with
  | [], _ =>
      obtain ⟨task', hcatches⟩ := catches_up finalizing finalized task
      exact ⟨_, network.flight, onwards_of_quiet hself hcatches, rfl, rfl, rfl, task', rfl⟩
  | [command], _ =>
      by_cases hroom : requests.length < capacities.requests
      · obtain ⟨task', hcatches⟩ := catches_up finalizing finalized task
        exact ⟨_, network.flight, onwards_of_quiet hself (.head (forwards_one hroom) hcatches),
          rfl, rfl, rfl, task', rfl⟩
      · obtain ⟨request, rest, rfl⟩ := List.exists_cons_of_length_pos
          (capacities.requests_pos.trans_le (not_lt.mp hroom))
        refine NetworkRun.makes_room h hresponsive hrun hwho hself ?_ hwithin.requests
        by_contra hmany
        exact hnot ⟨List.cons_ne_nil _ _, not_lt.mp hroom, not_le.mp hmany⟩

theorem NetworkRun.settles_all (h : replicas.Networked net)
    (hresponsive : Responsive replicas net size)
    (hrun : (protocol replicas net capacities).NetworkRun history network)
    (hservers : ∀ who < size, (∃ task, (network.states who).task = .ok task) ∧
      ¬Doomed capacities (network.states who)) (parties : List Nat)
    (hparties : ∀ who ∈ parties, who < size) :
    ∃ next, ReflTransGen (Onward replicas net capacities) network next ∧
      (∀ who ∈ parties, Settled (next.states who)) ∧
      ∀ who ∉ parties, next.states who = network.states who := by
  induction parties with
  | nil => exact ⟨network, .refl, List.forall_mem_nil _, fun _ _ => rfl⟩
  | cons who rest ih =>
      obtain ⟨hwho, hrest⟩ := List.forall_mem_cons.mp hparties
      obtain ⟨next, honward, hsettled, hothers⟩ := ih hrest
      by_cases hmem : who ∈ rest
      · refine ⟨next, honward, List.forall_mem_cons.mpr ⟨hsettled who hmem, hsettled⟩, ?_⟩
        exact fun other hother => hothers other fun hin => hother (List.mem_cons_of_mem _ hin)
      · obtain ⟨history', hrun'⟩ := NetworkRun.onwards hrun honward
        have hsame := hothers who hmem
        obtain ⟨hup, hnot⟩ := hservers who hwho
        obtain ⟨after, flight, honward', hafter⟩ := NetworkRun.settles_one h hresponsive hrun' hwho
          (by rwa [hsame]) (by rwa [hsame])
        refine ⟨_, honward.trans honward', ?_, ?_⟩
        · intro other hother
          by_cases heq : other = who
          · subst heq
            dsimp only
            rwa [Function.update_self]
          · dsimp only
            rw [Function.update_of_ne heq]
            exact hsettled other ((List.mem_cons.mp hother).resolve_left heq)
        · intro other hother
          rw [List.mem_cons, not_or] at hother
          dsimp only
          rw [Function.update_of_ne hother.1]
          exact hothers other hother.2

/-- Settled servers do what their replicas do, and settle again after each step. -/
theorem mirrors (h : replicas.Networked net) (hmember : ∀ who replica event next,
      net.step who replica event next → who < size)
    (hsettled : ∀ who < size, Settled (network.states who))
    {more : List (Nat × Event)} {final : Network Nat Replica Message}
    (hmore : Run (· = replicaNetwork network) (fun _ => net.Step) more final)
    (remaining : Nat → List Command) (hrequests : ∀ who < size, (network.states who).requests =
      (view who more).filterMap replicas.requested? ++ remaining who) :
    ∃ next, ReflTransGen (Onward replicas net capacities) network next ∧
      replicaNetwork next = final ∧
      ∀ who < size, Settled (next.states who) ∧ (next.states who).requests = remaining who := by
  induction hmore generalizing remaining with
  | start hinit =>
      subst hinit
      exact ⟨network, .refl, rfl, fun who hwho => ⟨hsettled who hwho, hrequests who hwho⟩⟩
  | @step more mid entry final hprev hstep ih =>
      obtain ⟨who, event⟩ := entry
      have hwho := hmember _ _ _ _ hstep.localStep.1
      obtain ⟨next, honward, rfl, hservers⟩ := ih
        (Function.update remaining who ((replicas.requested? event).toList ++ remaining who)) (by
          intro other hother
          rw [hrequests other hother, view_append, List.filterMap_append, List.append_assoc]
          by_cases heq : other = who
          · subst heq
            rw [view_singleton_self, Function.update_self]
            cases hrequested : replicas.requested? event <;> simp [hrequested]
          · rw [view_singleton_of_ne (Ne.symm heq), Function.update_of_ne heq]
            rfl)
      obtain ⟨hself, hasked⟩ := hservers who hwho
      rw [Function.update_self] at hasked
      generalize hserver : next.states who = server at hself hasked
      obtain ⟨⟨replica, requests, finalized, result⟩, forwarding, finalizing⟩ := server
      obtain ⟨rfl, rfl, rfl, task, rfl⟩ := hself
      have hordered : Onward replicas net capacities next _ :=
        Onward.order h hserver rfl hasked hstep
      obtain ⟨task', hcatches⟩ := @catches_up _ _ _ _ _ replicas capacities who (final.states who)
        (remaining who) (replicas.finalizes (final.states who) event) [] task
      refine ⟨_, (honward.tail hordered).trans (onwards_update hcatches), ?_, ?_⟩
      · refine congrArg (Network.mk · final.flight) (funext fun other => ?_)
        by_cases heq : other = who
        · subst heq
          dsimp only
          rw [Function.update_self]
        · dsimp only
          rw [Function.update_of_ne heq]
          exact (hstep.localStep.2 other heq).symm
      · intro other hother
        by_cases heq : other = who
        · subst heq
          dsimp only
          rw [Function.update_self]
          exact ⟨⟨rfl, rfl, rfl, task', rfl⟩, rfl⟩
        · have hkept := hservers other hother
          rw [Function.update_of_ne heq] at hkept
          dsimp only
          rwa [Function.update_of_ne heq]

/-- Doomed servers stay doomed, along whatever the network does. -/
theorem Doomed.run (h : Doomed capacities (network.states who))
    (hwithin : Within capacities (network.states who))
    {more : List (Nat × BoundedLabel Event Reply Finalized)}
    (hmore : Run (· = network) (fun _ => (protocol replicas net capacities).Step) more next) :
    Doomed capacities (next.states who) ∧ Within capacities (next.states who) := by
  induction hmore with
  | start hinit => exact hinit ▸ ⟨h, hwithin⟩
  | @step more current entry next _ hstep ih =>
      obtain ⟨hdoomed, hkept⟩ := ih
      obtain ⟨hlocal, hothers⟩ := hstep.localStep
      by_cases heq : who = entry.1
      · subst heq
        exact ⟨hdoomed.step hkept hlocal, Step.within hlocal hkept⟩
      · rw [hothers who heq]
        exact ⟨hdoomed, hkept⟩

/-- A network goes on to rest without any more requests, unless a server of it is doomed. -/
theorem rests_iff (h : replicas.Networked net) (hresponsive : Responsive replicas net size)
    (hrun : (protocol replicas net capacities).NetworkRun history network)
    (hup : ∀ who < size, ∃ task, (network.states who).task = .ok task) :
    (∃ (more : List (Nat × BoundedLabel Event Reply Finalized)) (final : _),
      Run (· = network) (fun _ => (protocol replicas net capacities).Step) more final ∧
      final.flight = [] ∧ (∀ who < size, Server.AtRest (final.states who).unbounded) ∧
      ∀ who, Service.forwardedIn (Server.happenings (view who (acts more))) = []) ↔
    ∀ who < size, ¬Doomed capacities (network.states who) := by
  constructor
  · rintro ⟨more, final, hmore, -, hrest, -⟩ who hwho hdoomed
    obtain ⟨hdoomed', -⟩ := hdoomed.run (NetworkRun.kept hrun who).1 hmore
    have hrequests : (final.states who).requests ++ (final.states who).forwarding = [] :=
      (hrest who hwho).requests
    exact hdoomed'.forwarding (List.append_eq_nil_iff.mp hrequests).2
  · intro hnot
    have hparties : ∀ who ∈ List.range size, who < size := fun who => List.mem_range.mp
    obtain ⟨settled, honward, hsettled, -⟩ := NetworkRun.settles_all h hresponsive hrun
      (fun who hwho => ⟨hup who hwho, hnot who hwho⟩) (List.range size) hparties
    obtain ⟨history', hrun'⟩ := NetworkRun.onwards hrun honward
    obtain ⟨events, hreplicas⟩ := NetworkRun.replicaNetwork h hrun'
    -- the replicas take what is in the channels, and deliver what is in flight
    obtain ⟨more, final, hmore, hquiet, hasked⟩ :=
      hresponsive.settles events _ hreplicas fun who => (settled.states who).requests
    obtain ⟨next, honward', rfl, hservers⟩ := mirrors h hresponsive.member
      (fun who hwho => hsettled who (List.mem_range.mpr hwho)) hmore (fun _ => [])
      (fun who hwho => by rw [hasked who hwho, List.append_nil])
    obtain ⟨labels, hlabels, hnone⟩ := exists_run (honward.trans honward')
    refine ⟨labels, next, hlabels, hquiet, ?_, hnone⟩
    intro who hwho
    obtain ⟨⟨hforwarding, hfinalizing, hfinalized, htask⟩, hrequests⟩ := hservers who hwho
    refine ⟨?_, ?_, htask⟩
    · exact (congrArg₂ (· ++ ·) hrequests hforwarding).trans (List.append_nil _)
    · exact (congrArg₂ (· ++ ·) hfinalized hfinalizing).trans (List.append_nil _)

end Rest

end BftKit.Transport.BoundedServer
