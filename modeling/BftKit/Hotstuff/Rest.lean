import BftKit.Hotstuff.Quiescence
import BftKit.Hotstuff.Servers
import BftKit.Transport.Rest

/-! # A group of servers at rest

The clients ask all servers, but it is the leader's that counts.
-/

namespace BftKit.Hotstuff

open Foundation Transport Threshold CommandPool

variable {scheme : ThresholdScheme}

namespace Group

theorem flatMap_commands (_ : Replica scheme) (event : Replica.Event scheme) :
    (event.actions.filterMap ReplicaAction.finalized?).flatMap service.commands =
      (event.actions.filterMap ReplicaAction.finalized?).flatten :=
  List.flatMap_id

/-- The replica tasks of a network. -/
def networkTasks (group : Group scheme) :
    ReplicaTasks service (Replica scheme) (Replica.Event scheme) where
  start who replica := replica = group.initial who
  step who _ replica event next := group.protocol.step who replica event next
  requested? := Replica.Event.requested?
  finalizes _ event := event.actions.filterMap ReplicaAction.finalized?
  log event := (event.actions.filterMap ReplicaAction.finalized?).flatten
  flatMap_finalizes := flatMap_commands

theorem networkTasks_networked (group : Group scheme) :
    group.networkTasks.Networked group.protocol where
  start_iff _ _ := Iff.rfl
  step_iff _ _ _ _ _ := Iff.rfl

/-- The runs of a network of correct servers. -/
abbrev ServersNetworkRun (group : Group scheme) : ServerHistory scheme →
    Network Nat (Server (Replica scheme) Reply (List Command)) (ToReplica scheme) → Prop :=
  (Server.protocol group.networkTasks group.protocol).NetworkRun

variable {group : Group scheme} {who : Nat} {history : ServerHistory scheme}
  {network : Network Nat (Server (Replica scheme) Reply (List Command)) (ToReplica scheme)}

/-- Nothing is left to do for the group's servers. -/
structure AllAtRest (group : Group scheme)
    (network : Network Nat (Server (Replica scheme) Reply (List Command)) (ToReplica scheme)) :
    Prop where
  replicas : group.Quiet ⟨fun who => (network.states who).replica, network.flight⟩
  servers : ∀ who < group.spec.numReplica, Server.AtRest (network.states who)

theorem ServersNetworkRun.serversRun (hrun : group.ServersNetworkRun history network) :
    Server.ServersRun group.networkTasks history network.states :=
  ((Server.networkRun_iff group.networkTasks_networked).mp hrun).1

theorem ServersNetworkRun.replicaRun (hrun : group.ServersNetworkRun history network) :
    group.NetworkRun (Server.replicaHistory history)
      ⟨fun who => (network.states who).replica, network.flight⟩ :=
  Server.NetworkRun.replicaRun group.networkTasks_networked hrun

theorem logOf_network (history : ServerHistory scheme) (who : Nat) :
    Server.logOf group.networkTasks history who =
      (Replica.finalizedIn (view who (Server.replicaHistory history))).flatten := by
  rw [Server.logOf, Replica.finalizedIn, ← List.flatMap_id, List.flatMap_assoc]
  simp only [List.flatMap_id]
  rfl

/-- What the replicas need to get blocks certified by one another. -/
structure Certifies (group : Group scheme)
    (network : Network Nat (Server (Replica scheme) Reply (List Command)) (ToReplica scheme)) :
    Prop where
  sound : AggregateSound scheme
  fresh : group.Fresh fun who => (network.states who).replica
  cooperates : group.Cooperates
  keys : ∀ who < group.spec.numReplica,
    scheme.sharedPublicKey (group.keyShare who) = scheme.sharedPublicKey (group.keyShare 0)
  enough : group.spec.numFaulty < group.spec.numReplica

section

variable (hrun : group.ServersNetworkRun history network) (hcertifies : group.Certifies network)
  (hvariant : group.openLoop 0 = false) (hrest : group.AllAtRest network)
  (hwho : who < group.spec.numReplica)

include hrun hcertifies hvariant hrest hwho

end

end Group

end BftKit.Hotstuff
