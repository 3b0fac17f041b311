import BftKit.Transport.Server

/-! # Servers with bounded channels

The channels between the two tasks of a server hold so many entries at most. A task that finds
one full waits with what it has to send. For what a server can do that is no difference, but
with both tasks waiting it does nothing any more.
-/

namespace BftKit.Transport

open Foundation

variable {Replica Event Reply Finalized : Type} {service : Service Reply Finalized}

/-- The command that `select!` yielded. -/
def ServiceSelect.message? : ServiceSelect Finalized → Option Command
  | .message command => command
  | .accept _ | .finalized _ | .transportError | .cancel => none

/-- Only a message of a client is passed on. -/
theorem Service.step_forwards (service : Service Reply Finalized) (task : ServiceTask Reply)
    (select : ServiceSelect Finalized) :
    ((service.step task select).1.filterMap ServiceAction.forwarded?).length ≤
      select.message?.toList.length := by
  cases select with
  | accept clientId =>
      cases clientId with
      | none => exact le_rfl
      | some clientId =>
          rw [Service.step]
          split <;> exact le_rfl
  | message command =>
      cases command with
      | none => exact le_rfl
      | some command =>
          have hone : ∀ actions : List (ServiceAction Reply), actions.length ≤ 1 →
              (actions.filterMap ServiceAction.forwarded?).length ≤ 1 :=
            fun actions hle => (List.length_filterMap_le _ _).trans hle
          apply hone
          rw [Service.step, Service.receive]
          split
          · split
            · exact Nat.zero_le _
            · split
              · split
                · exact le_rfl
                · exact Nat.zero_le _
              · exact le_rfl
          · exact le_rfl
  | finalized finalized =>
      cases finalized with
      | none => exact le_rfl
      | some finalized =>
          have hnone :=
            @Service.serve_forwards _ _ service finalized (service.commands finalized) task
          exact (congrArg List.length hnone).le
  | transportError | cancel => exact le_rfl

/-- How much the channels of a server hold. There are no channels for nothing. -/
structure Capacities where
  requests : Nat
  finalized : Nat
  requests_pos : 0 < requests
  finalized_pos : 0 < finalized

/-- A server, with what its tasks have yet to send to each other. -/
structure BoundedServer (Replica Reply Finalized : Type) extends
    Server Replica Reply Finalized where
  /-- The service waits in `checked_send`. -/
  forwarding : List Command
  /-- The replica waits in `checked_send`. -/
  finalizing : List Finalized

inductive BoundedLabel (Event Reply Finalized : Type) where
  | act (label : ServerLabel Event Reply Finalized)
  | forward
  | finalize

namespace BoundedLabel

def act? : BoundedLabel Event Reply Finalized → Option (ServerLabel Event Reply Finalized)
  | act label => some label
  | forward | finalize => none

end BoundedLabel

namespace BoundedServer

/-- What the server would be if its channels took everything. -/
def unbounded (server : BoundedServer Replica Reply Finalized) : Server Replica Reply Finalized :=
  { server.toServer with
    requests := server.requests ++ server.forwarding
    finalized := server.finalized ++ server.finalizing }

/-- What the tasks do, apart from their waiting. -/
def acts (history : List (Nat × BoundedLabel Event Reply Finalized)) :
    List (Nat × ServerLabel Event Reply Finalized) :=
  history.filterMap fun entry => entry.2.act?.map (Prod.mk entry.1)

variable (replicas : ReplicaTasks service Replica Event) (capacities : Capacities)

/-- One of the two tasks goes on, which it does once it has sent everything, or sends something. -/
inductive Step (who : Nat) (history : List (Nat × ServerLabel Event Reply Finalized))
    (server : BoundedServer Replica Reply Finalized) :
    BoundedLabel Event Reply Finalized → BoundedServer Replica Reply Finalized → Prop
  | replica {event next rest} (hsent : server.finalizing = [])
      (hstep : replicas.step who (Server.replicaHistory history) server.replica event next)
      (hrequests : server.requests = (replicas.requested? event).toList ++ rest) :
      Step who history server (.act (.replica event)) { server with
        replica := next
        requests := rest
        finalizing := replicas.finalizes next event }
  | service {select rest task} (hsent : server.forwarding = []) (htask : server.task = .ok task)
      (hfinalized : server.finalized = select.finalized?.toList ++ rest) :
      Step who history server (.act (.service ⟨select, (service.step task select).1⟩)) { server with
        finalized := rest
        task := (service.step task select).2
        forwarding := (service.step task select).1.filterMap ServiceAction.forwarded? }
  | forward {command rest} (hforwarding : server.forwarding = command :: rest)
      (hroom : server.requests.length < capacities.requests) :
      Step who history server .forward { server with
        requests := server.requests ++ [command]
        forwarding := rest }
  | finalize {finalized rest} (hfinalizing : server.finalizing = finalized :: rest)
      (hroom : server.finalized.length < capacities.finalized) :
      Step who history server .finalize { server with
        finalized := server.finalized ++ [finalized]
        finalizing := rest }

/-- A new server. -/
structure Start (who : Nat) (server : BoundedServer Replica Reply Finalized) : Prop where
  start : Server.Start replicas who server.toServer
  forwarding : server.forwarding = []
  finalizing : server.finalizing = []

/-- The runs of a system of servers with bounded channels. -/
abbrev BoundedRun : List (Nat × BoundedLabel Event Reply Finalized) →
    (Nat → BoundedServer Replica Reply Finalized) → Prop :=
  Run (fun servers => ∀ who, Start replicas who (servers who))
    (interleave fun who history => Step replicas capacities who (acts history))

/-- No channel holds more than it can. -/
structure Within (server : BoundedServer Replica Reply Finalized) : Prop where
  requests : server.requests.length ≤ capacities.requests
  finalized : server.finalized.length ≤ capacities.finalized

variable {replicas} {capacities} {who : Nat}
  {history : List (Nat × BoundedLabel Event Reply Finalized)}
  {acted : List (Nat × ServerLabel Event Reply Finalized)}
  {servers : Nat → BoundedServer Replica Reply Finalized}
  {server next : BoundedServer Replica Reply Finalized}
  {label : BoundedLabel Event Reply Finalized}

theorem Start.unbounded (h : Start replicas who server) :
    Server.Start replicas who server.unbounded := by
  obtain ⟨⟨hreplica, hrequests, hfinalized, htask⟩, hforwarding, hfinalizing⟩ := h
  refine ⟨hreplica, ?_, ?_, htask⟩
  · exact (congrArg₂ (· ++ ·) hrequests hforwarding).trans (List.append_nil _)
  · exact (congrArg₂ (· ++ ·) hfinalized hfinalizing).trans (List.append_nil _)

/-- A step is one of a server that sends at once, or no step of it. -/
theorem Step.unbounded (h : Step replicas capacities who acted server label next) :
    (∃ action, label.act? = some action ∧
      Server.Step replicas who acted server.unbounded action next.unbounded) ∨
    label.act? = none ∧ next.unbounded = server.unbounded := by
  cases h with
  | @replica event after rest hsent hstep hrequests =>
      have hrequests' : server.unbounded.requests =
          (replicas.requested? event).toList ++ (rest ++ server.forwarding) := by
        rw [BoundedServer.unbounded, hrequests, List.append_assoc]
      have hfinalized : server.unbounded.finalized = server.finalized :=
        (congrArg (server.finalized ++ ·) hsent).trans (List.append_nil _)
      have hstep' := @Server.Step.replica _ _ _ _ _ replicas who acted server.unbounded event after _
        hstep hrequests'
      rw [hfinalized] at hstep'
      exact .inl ⟨_, rfl, hstep'⟩
  | @service select rest task hsent htask hfinalized =>
      have hfinalized' : server.unbounded.finalized =
          select.finalized?.toList ++ (rest ++ server.finalizing) := by
        rw [BoundedServer.unbounded, hfinalized, List.append_assoc]
      have hrequests : server.unbounded.requests = server.requests :=
        (congrArg (server.requests ++ ·) hsent).trans (List.append_nil _)
      have hstep' := @Server.Step.service _ _ _ _ _ replicas who acted server.unbounded select _ task
        htask hfinalized'
      rw [hrequests] at hstep'
      exact .inl ⟨_, rfl, hstep'⟩
  | @forward command rest hforwarding hroom =>
      refine .inr ⟨rfl, ?_⟩
      simp only [BoundedServer.unbounded, hforwarding, List.append_assoc, List.singleton_append]
  | @finalize finalized rest hfinalizing hroom =>
      refine .inr ⟨rfl, ?_⟩
      simp only [BoundedServer.unbounded, hfinalizing, List.append_assoc, List.singleton_append]

theorem Step.within (h : Step replicas capacities who acted server label next)
    (hwithin : Within capacities server) : Within capacities next := by
  obtain ⟨hrequests, hfinalized⟩ := hwithin
  cases h with
  | replica _ _ htaken =>
      refine ⟨?_, hfinalized⟩
      rw [htaken, List.length_append] at hrequests
      exact le_trans (Nat.le_add_left _ _) hrequests
  | service _ _ htaken =>
      refine ⟨hrequests, ?_⟩
      rw [htaken, List.length_append] at hfinalized
      exact le_trans (Nat.le_add_left _ _) hfinalized
  | forward _ hroom =>
      refine ⟨?_, hfinalized⟩
      rw [List.length_append]
      exact hroom
  | finalize _ hroom =>
      refine ⟨hrequests, ?_⟩
      rw [List.length_append]
      exact hroom

theorem BoundedRun.within (hrun : BoundedRun replicas capacities history servers) (who : Nat) :
    Within capacities (servers who) := by
  induction hrun with
  | start hinit =>
      obtain ⟨⟨-, hrequests, hfinalized, -⟩, -, -⟩ := hinit who
      constructor
      · rw [hrequests]
        exact Nat.zero_le _
      · rw [hfinalized]
        exact Nat.zero_le _
  | @step history servers entry servers' hprev hstep ih =>
      obtain ⟨other, label⟩ := entry
      obtain ⟨target, hstep, rfl⟩ := hstep
      by_cases heq : who = other
      · subst heq
        rw [Function.update_self]
        exact hstep.within ih
      · rw [Function.update_of_ne heq]
        exact ih

/-- Bounded channels make a run of servers no other, and they hold no more than they can. The
protocol of the replicas is arbitrary. -/
theorem refines_unbounded (hrun : BoundedRun replicas capacities history servers) :
    (Server.ServersRun replicas (acts history) fun who => (servers who).unbounded) ∧
      ∀ who, Within capacities (servers who) := by
  refine ⟨?_, fun who => hrun.within who⟩
  refine @Run.refine _ _ _ _ _ _ _ _ (fun servers who => (servers who).unbounded) _ ?_ ?_ _ _ hrun
  · exact fun _ hinit who => (hinit who).unbounded
  · rintro history servers ⟨who, label⟩ _ ⟨target, hstep, rfl⟩
    have hupdate : (fun other => (Function.update servers who target other).unbounded) =
        Function.update (fun other => (servers other).unbounded) who target.unbounded :=
      Function.comp_update BoundedServer.unbounded servers who target
    rcases hstep.unbounded with ⟨action, hact, hstep'⟩ | ⟨hact, hsame⟩
    · exact .inl ⟨(who, action), congrArg (Option.map (Prod.mk who)) hact, _, hstep', hupdate⟩
    · refine .inr ⟨congrArg (Option.map (Prod.mk who)) hact, ?_⟩
      rw [hupdate, hsame, Function.update_eq_self]

/-- A service forwards a command into a channel that is full with it, so it waits with the next
one, which without the bound is in the channel as well. -/
theorem refines_unbounded_full : ∃ (replicas : ReplicaTasks Unreplicated.service Unit Command)
    (history : List (Nat × BoundedLabel Command Unreplicated.Reply Command))
    (servers : Nat → BoundedServer Unit Unreplicated.Reply Command),
    BoundedRun replicas ⟨1, 1, by decide, by decide⟩ history servers ∧ history.length = 3 ∧
      (servers 0).requests = [⟨0, 1, []⟩] ∧ (servers 0).forwarding = [⟨0, 2, []⟩] ∧
      (∀ next, ¬Step replicas ⟨1, 1, by decide, by decide⟩ 0 (acts history) (servers 0)
        .forward next) ∧
      Server.ServersRun replicas (acts history) (fun who => (servers who).unbounded) ∧
      (servers 0).unbounded.requests = [⟨0, 1, []⟩, ⟨0, 2, []⟩] ∧
      Within ⟨1, 1, by decide, by decide⟩ (servers 0) := by
  let replicas : ReplicaTasks Unreplicated.service Unit Command :=
    { start := fun _ _ => True
      step := fun _ _ _ _ _ => True
      requested? := some
      finalizes := fun _ command => [command]
      log := fun command => [command]
      flatMap_finalizes := fun _ command => List.flatMap_singleton _ command }
  let capacities : Capacities := ⟨1, 1, by decide, by decide⟩
  let new : Nat → BoundedServer Unit Unreplicated.Reply Command :=
    fun who => ⟨⟨(), [], [], .ok (Service.new who)⟩, [], []⟩
  let server : List Command → List Command → BoundedServer Unit Unreplicated.Reply Command :=
    fun requests forwarding => ⟨⟨(), requests, [], .ok (Service.new 0)⟩, forwarding, []⟩
  let happening : Command → Service.ServiceHappening Unreplicated.Reply Command :=
    fun command => ⟨.message (some command), [.forward command]⟩
  have hwaits : ∀ acted requests command, Step replicas capacities 0 acted (server requests [])
      (.act (.service (happening command))) (server requests [command]) := by
    intro acted requests command
    have hreceive : Unreplicated.service.step (Service.new 0) (.message (some command)) =
        ([.forward command], .ok (Service.new 0)) := by
      rw [Service.step, Service.receive, Service.new, Finmap.lookup_empty]
    have hservice := @Step.service _ _ _ _ _ replicas capacities 0 acted (server requests [])
      (.message (some command)) [] (Service.new 0) rfl rfl rfl
    rw [hreceive] at hservice
    exact hservice
  have hnext : ∀ history before label after,
      BoundedRun replicas capacities history (Function.update new 0 before) →
      Step replicas capacities 0 (acts history) before label after →
      BoundedRun replicas capacities (history ++ [(0, label)]) (Function.update new 0 after) := by
    intro history before label after hrun hstep
    have hself : Function.update new 0 before 0 = before := Function.update_self _ _ _
    exact hrun.step ⟨after, hself.symm ▸ hstep, (Function.update_idem _ _ _).symm⟩
  have hstart : BoundedRun replicas capacities [] (Function.update new 0 (server [] [])) := by
    rw [show server [] [] = new 0 from rfl, Function.update_eq_self]
    exact .start fun _ => ⟨⟨trivial, rfl, rfl, rfl⟩, rfl, rfl⟩
  have hwaiting := hnext _ _ _ _ hstart (hwaits _ [] ⟨0, 1, []⟩)
  have hsent := hnext _ _ _ (server [⟨0, 1, []⟩] []) hwaiting (.forward rfl Nat.zero_lt_one)
  have hfull := hnext _ _ _ _ hsent (hwaits _ [⟨0, 1, []⟩] ⟨0, 2, []⟩)
  have hself : Function.update new 0 (server [⟨0, 1, []⟩] [⟨0, 2, []⟩]) 0 =
      server [⟨0, 1, []⟩] [⟨0, 2, []⟩] := Function.update_self _ _ _
  obtain ⟨hrun, hwithin⟩ := refines_unbounded hfull
  refine ⟨replicas, _, _, hfull, rfl, ?_, ?_, ?_, hrun, ?_, hwithin 0⟩
  · rw [hself]
  · rw [hself]
  · intro next hforward
    rw [hself] at hforward
    cases hforward with
    | forward _ hroom => exact absurd hroom (lt_irrefl 1)
  · rw [hself]
    rfl

/-- Both tasks wait for room that only the other one can make. -/
structure Blocked (capacities : Capacities) (server : BoundedServer Replica Reply Finalized) :
    Prop where
  forwarding : server.forwarding ≠ []
  requests : capacities.requests ≤ server.requests.length
  finalizing : server.finalizing ≠ []
  finalized : capacities.finalized ≤ server.finalized.length

/-- A blocked server does nothing. -/
theorem Blocked.not_step (h : Blocked capacities server) :
    ¬Step replicas capacities who acted server label next := by
  intro hstep
  cases hstep with
  | replica hsent => exact h.finalizing hsent
  | service hsent => exact h.forwarding hsent
  | forward _ hroom => exact absurd hroom (not_lt.mpr h.requests)
  | finalize _ hroom => exact absurd hroom (not_lt.mpr h.finalized)

end BoundedServer

end BftKit.Transport
