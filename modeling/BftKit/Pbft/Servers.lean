import BftKit.Pbft.Agreement
import BftKit.Transport.Server

/-! # Servers of a group

The services of honest replicas execute the same commands in the same order, at most once
each, whatever the faulty replicas and the clients do.
-/

namespace BftKit.Pbft

open Foundation Transport

variable {crypto : Crypto}

namespace Replica

/-- What comes through the request channel. A request that another replica relays does not. -/
def Event.submitted? : Event crypto → Option Command
  | .call (.request command) _ => some command
  | .call (.receive _) _ | .call .tick _ | .perform _ _ => none

/-- `AbstractReplica::finalized`. -/
def finalized (replica : Replica crypto) (commands : List Command) : Finalized :=
  ⟨commands, replica.core.viewNum⟩

end Replica

namespace Group

variable (group : Group)

def replicaTasks : ReplicaTasks service (Replica crypto) (Replica.Event crypto) where
  start := group.Start
  step := group.Step
  requested? := Replica.Event.submitted?
  finalizes replica event := (event.actions.filterMap ReplicaAction.finalized?).map replica.finalized
  log event := (event.actions.filterMap ReplicaAction.finalized?).flatten
  flatMap_finalizes _ _ := by rw [List.flatMap_map]; exact List.flatMap_id

/-- The events and the happenings of a group of servers. -/
abbrev ServerHistory (crypto : Crypto) :=
  List (Nat × ServerLabel (Replica.Event crypto) Reply Finalized)

abbrev Servers (crypto : Crypto) := Nat → Server (Replica crypto) Reply Finalized

/-- The runs of a group of servers, with any clients. -/
abbrev ServersRun : ServerHistory crypto → Servers crypto → Prop :=
  Server.ServersRun group.replicaTasks

variable {group : Group} {history : ServerHistory crypto} {servers : Servers crypto}
  {left right who : Nat}

theorem ServersRun.groupRun (hrun : group.ServersRun history servers) :
    GroupRun group (Server.replicaHistory history) fun who => (servers who).replica :=
  Server.ServersRun.replicaRun hrun

theorem logOf_eq (history : ServerHistory crypto) (who : Nat) :
    Server.logOf group.replicaTasks history who =
      (finalizedLog (view who (Server.replicaHistory history))).flatten := by
  rw [Server.logOf, finalizedLog, ← List.flatMap_id, List.flatMap_assoc]
  simp only [List.flatMap_id]
  rfl

theorem ServersRun.logs_comparable (hsize : 3 * group.spec.numFaulty + 1 ≤ group.spec.numReplica)
    (hfaulty : group.faulty.card ≤ group.spec.numFaulty)
    (hrun : group.ServersRun history servers)
    (hcollision : Set.InjOn (blockDigest crypto)
      (group.finalizedLists (Server.replicaHistory history)))
    (hleft : group.Honest left) (hright : group.Honest right) :
    Server.logOf group.replicaTasks history left <+: Server.logOf group.replicaTasks history right ∨
      Server.logOf group.replicaTasks history right <+:
        Server.logOf group.replicaTasks history left := by
  rw [logOf_eq, logOf_eq]
  have hlogs := prefix_total_of_agree fun _ _ _ => finalized_commands hsize hfaulty hcollision
    (ServersRun.groupRun hrun) hleft hright
  exact hlogs.imp List.IsPrefix.flatten List.IsPrefix.flatten

/-- With at most `numFaulty` faulty replicas of `3 * numFaulty + 1`, the services beside the
honest replicas execute commands in the same order, each of them at most once and only if it
was finalized. The lists that honest replicas finalize have different digests. -/
theorem services_agree (hsize : 3 * group.spec.numFaulty + 1 ≤ group.spec.numReplica)
    (hfaulty : group.faulty.card ≤ group.spec.numFaulty)
    (hrun : group.ServersRun history servers)
    (hcollision : Set.InjOn (blockDigest crypto)
      (group.finalizedLists (Server.replicaHistory history)))
    (hleft : group.Honest left) (hright : group.Honest right) :
    (Server.executed (view left history) <+: Server.executed (view right history) ∨
      Server.executed (view right history) <+: Server.executed (view left history)) ∧
    SeqIncreasing (Server.executed (view left history)) ∧
    (Server.executed (view left history)).Sublist
      (finalizedLog (view left (Server.replicaHistory history))).flatten := by
  have hlogs := ServersRun.logs_comparable hsize hfaulty hrun hcollision hleft hright
  obtain ⟨reached, hprefix, hexecuted⟩ := Server.ServersRun.executed_eq hrun left
  refine ⟨Server.ServersRun.executed_comparable hrun hlogs, ?_, ?_⟩
  · rw [hexecuted]
    exact records_increasing reached
  · rw [hexecuted, ← logOf_eq]
    exact (records_sublist reached).trans hprefix.sublist

/-- In the normal case among four, the services of the first two execute the command. -/
theorem exists_servers_normalCase :
    ∃ (history : ServerHistory .transparent) (servers : Servers .transparent),
      (four ∅).ServersRun history servers ∧
      Set.InjOn (blockDigest .transparent)
        ((four ∅).finalizedLists (Server.replicaHistory history)) ∧
      (∀ who, ∃ task, (servers who).task = .ok task) ∧
      ∀ who ∈ [0, 1], Server.executed (view who history) = [ping 0] := by
  have hreplay : ∃ run ∈ (four ∅).replay fourNormalCase,
      (∀ who ∈ [0, 1], finalizedLog (view who run.1) = [[ping 0]]) ∧
      ∀ who < 4, ∀ commands ∈ finalizedLog (view who run.1), commands = [ping 0] := by
    decide +kernel
  obtain ⟨⟨events, states⟩, hreplayed, hlog, hall⟩ := hreplay
  obtain ⟨history, servers, hrun, rfl, hservers, hexecuted⟩ :=
    Server.exists_caught_up (four ∅).replicaTasks (replay_run hreplayed) [0, 1]
  refine ⟨history, servers, hrun, ?_, fun who => (hservers who).2.2, ?_⟩
  · rintro commands ⟨who, hwho, hmem⟩ commands' ⟨who', hwho', hmem'⟩ -
    rw [hall who hwho.1 commands hmem, hall who' hwho'.1 commands' hmem']
  · intro who hwho
    have heq : (view who (Server.replicaHistory history)).flatMap (four ∅).replicaTasks.log =
        [ping 0] := by
      refine (logOf_eq history who).trans ?_
      rw [hlog who hwho]
      rfl
    rw [(hexecuted who hwho).2, heq]
    rfl

theorem services_agree_normalCase :
    ∃ history : ServerHistory .transparent, Server.executed (view 0 history) = [ping 0] ∧
      Server.executed (view 1 history) = [ping 0] ∧
      (Server.executed (view 0 history) <+: Server.executed (view 1 history) ∨
        Server.executed (view 1 history) <+: Server.executed (view 0 history)) := by
  obtain ⟨history, servers, hrun, hcollision, -, hexecuted⟩ := exists_servers_normalCase
  exact ⟨history, hexecuted 0 (by simp), hexecuted 1 (by simp), (services_agree (by decide)
    (by decide) hrun hcollision (show (four ∅).Honest 0 by decide)
    (show (four ∅).Honest 1 by decide)).1⟩

/-! ## Clients -/

/-- A reply to the client names a replica of the group, whose server has sent it unless that
is faulty. The code takes the name from the reply itself. -/
def Replied (group : Group) (history : ServerHistory crypto) (clientId : ClientId)
    (reply : Reply) : Prop :=
  reply.replicaId < group.spec.numReplica ∧ (reply.replicaId ∉ group.faulty →
    Server.Sent history reply.replicaId clientId reply)

end Group

end BftKit.Pbft
