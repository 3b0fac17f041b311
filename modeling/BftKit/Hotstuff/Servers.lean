import BftKit.Hotstuff.Agreement
import BftKit.Hotstuff.Requests
import BftKit.Transport.Server

/-! # Servers of a group

As for the other protocol, what the logs agree on is what the services execute and what the
clients commit.
-/

namespace BftKit.Hotstuff

open Foundation Transport

variable {scheme : ThresholdScheme}

namespace Group

variable (guard : Replica scheme → Replica.Event scheme → Prop) (group : Group scheme)

def replicaTasks : ReplicaTasks service (Replica scheme) (Replica.Event scheme) where
  start := group.Start
  step who history replica event next :=
    group.Step who history replica event next ∧ guard replica event
  requested? := Replica.Event.requested?
  finalizes _ event := event.actions.filterMap ReplicaAction.finalized?
  log event := (event.actions.filterMap ReplicaAction.finalized?).flatten
  flatMap_finalizes _ _ := List.flatMap_id

abbrev ServerHistory (scheme : ThresholdScheme) :=
  List (Nat × ServerLabel (Replica.Event scheme) Reply (List Command))

abbrev Servers (scheme : ThresholdScheme) := Nat → Server (Replica scheme) Reply (List Command)

/-- The runs of a group of servers, with any clients. -/
abbrev ServersRun : ServerHistory scheme → Servers scheme → Prop :=
  Server.ServersRun (group.replicaTasks guard)

variable {guard : Replica scheme → Replica.Event scheme → Prop} {group : Group scheme}
  {history : ServerHistory scheme} {servers : Servers scheme} {left right who : Nat}

theorem ServersRun.groupRun (hrun : group.ServersRun guard history servers) :
    GuardedGroupRun guard group (Server.replicaHistory history) fun who => (servers who).replica :=
  Server.ServersRun.replicaRun hrun

theorem logOf_eq (history : ServerHistory scheme) (who : Nat) :
    Server.logOf (group.replicaTasks guard) history who =
      (Replica.finalizedIn (view who (Server.replicaHistory history))).flatten := by
  rw [Server.logOf, Replica.finalizedIn, ← List.flatMap_id, List.flatMap_assoc]
  simp only [List.flatMap_id]
  rfl

theorem ServersRun.logs_comparable (hrun : group.ServersRun Replica.Careful history servers)
    (hreplicas : 3 * group.spec.numFaulty < group.spec.numReplica)
    (hfaulty : group.faulty.card ≤ group.spec.numFaulty) (hsound : AggregateSound scheme)
    (hcollision : group.CollisionFree (Server.replicaHistory history))
    (hideal : group.Ideal (Server.replicaHistory history) fun who => (servers who).replica)
    (hleft : group.Honest left) (hright : group.Honest right) :
    Server.logOf (group.replicaTasks Replica.Careful) history left <+:
        Server.logOf (group.replicaTasks Replica.Careful) history right ∨
      Server.logOf (group.replicaTasks Replica.Careful) history right <+:
        Server.logOf (group.replicaTasks Replica.Careful) history left := by
  rw [logOf_eq, logOf_eq]
  have hlogs := lines_commands (ServersRun.groupRun hrun) hreplicas hfaulty hsound hcollision hideal
    hleft hright
  exact hlogs.imp List.IsPrefix.flatten List.IsPrefix.flatten

/-- Where the replicas are careful, the services beside the honest ones execute commands in the
same order, each of them at most once and only if it was finalized. The assumptions on the
group are those under which the logs extend one another. -/
theorem services_follow (hrun : group.ServersRun Replica.Careful history servers)
    (hreplicas : 3 * group.spec.numFaulty < group.spec.numReplica)
    (hfaulty : group.faulty.card ≤ group.spec.numFaulty) (hsound : AggregateSound scheme)
    (hcollision : group.CollisionFree (Server.replicaHistory history))
    (hideal : group.Ideal (Server.replicaHistory history) fun who => (servers who).replica)
    (hleft : group.Honest left) (hright : group.Honest right) :
    (Server.executed (view left history) <+: Server.executed (view right history) ∨
      Server.executed (view right history) <+: Server.executed (view left history)) ∧
    SeqIncreasing (Server.executed (view left history)) ∧
    (Server.executed (view left history)).Sublist
      (Replica.finalizedIn (view left (Server.replicaHistory history))).flatten := by
  have hlogs := ServersRun.logs_comparable hrun hreplicas hfaulty hsound hcollision hideal hleft
    hright
  obtain ⟨reached, hprefix, hexecuted⟩ := Server.ServersRun.executed_eq hrun left
  refine ⟨Server.ServersRun.executed_comparable hrun hlogs, ?_, ?_⟩
  · rw [hexecuted]
    exact records_increasing reached
  · rw [hexecuted, ← logOf_eq]
    exact (records_sublist reached).trans hprefix.sublist

/-- When four blocks in a row finalize the first one, two services execute its command. -/
theorem exists_servers_row :
    ∃ (history : ServerHistory .transparent) (servers : Servers .transparent),
      (four {0}).ServersRun Replica.Careful history servers ∧
      (four {0}).CollisionFree (Server.replicaHistory history) ∧
      (four {0}).Ideal (Server.replicaHistory history) (fun who => (servers who).replica) ∧
      (∀ who, ∃ task, (servers who).task = .ok task) ∧
      ∀ who ∈ [1, 2], Server.executed (view who history) = [ping 0] := by
  obtain ⟨events, states, hgroup, hcollision, hideal, hfinalized⟩ := exists_careful_row
  obtain ⟨history, servers, hrun, rfl, hservers, hexecuted⟩ :=
    Server.exists_caught_up ((four {0}).replicaTasks Replica.Careful) hgroup [1, 2]
  obtain rfl : (fun who => (servers who).replica) = states := funext fun who => (hservers who).1
  refine ⟨history, servers, hrun, hcollision, hideal, fun who => (hservers who).2.2, ?_⟩
  intro who hwho
  have heq : (view who (Server.replicaHistory history)).flatMap
      ((four {0}).replicaTasks Replica.Careful).log = [ping 0] := by
    refine (logOf_eq history who).trans ?_
    rw [hfinalized who hwho]
    rfl
  rw [(hexecuted who hwho).2, heq]
  rfl

theorem services_follow_row :
    ∃ history : ServerHistory .transparent, Server.executed (view 1 history) = [ping 0] ∧
      Server.executed (view 2 history) = [ping 0] ∧
      (Server.executed (view 1 history) <+: Server.executed (view 2 history) ∨
        Server.executed (view 2 history) <+: Server.executed (view 1 history)) := by
  obtain ⟨history, servers, hrun, hcollision, hideal, -, hexecuted⟩ := exists_servers_row
  exact ⟨history, hexecuted 1 (by simp), hexecuted 2 (by simp), (services_follow hrun (by decide)
    (by decide) transparent_aggregateSound hcollision hideal
    (show (four {0}).Honest 1 by decide) (show (four {0}).Honest 2 by decide)).1⟩

end Group

end BftKit.Hotstuff
