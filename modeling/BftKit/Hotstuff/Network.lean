import BftKit.Foundation.Network
import BftKit.Hotstuff.Group
import BftKit.Hotstuff.Row

/-! # Networks of honest replicas

All replicas of a group follow the code, and the network delivers each message at most
once. Blocks come from the leader, votes and supplies go to it.
-/

namespace BftKit

open Foundation

namespace Hotstuff

open Threshold

variable {scheme : ThresholdScheme}

/-- The message that an event receives. -/
def Replica.Event.receives : Replica.Event scheme → Option (ToReplica scheme)
  | .call (.receive message) _ => some message
  | .call _ _ | .release _ _ | .perform _ _ _ => none

theorem Replica.Event.receives_of_received {event : Replica.Event scheme}
    {entry : Message.Generic scheme × Message.Block scheme} (h : event.received? = some entry) :
    event.receives = some (.generic entry.1 entry.2) := by
  unfold received? at h
  split at h
  · obtain rfl := Option.some.inj h
    rfl
  all_goals cases h

namespace Group

/-- The replicas of a group as the parties of a network. -/
def protocol (group : Group scheme) :
    Protocol Nat (Replica scheme) (Replica.Event scheme) (ToReplica scheme) where
  start := group.initial
  step who replica event next := who < group.spec.numReplica ∧ Replica.Step replica event next
  receives := Replica.Event.receives
  sends who event := event.actions.flatMap (ReplicaAction.deliveries group.spec.numReplica who)

abbrev NetworkRun (group : Group scheme) :
    History scheme → Network Nat (Replica scheme) (ToReplica scheme) → Prop :=
  group.protocol.NetworkRun

variable {group : Group scheme} {history : History scheme}
  {network : Network Nat (Replica scheme) (ToReplica scheme)} {who : Nat}

theorem NetworkRun.localRun (hrun : group.NetworkRun history network) (who : Nat) :
    LocalRun (group.coreConfig who) (group.cryptoConfig who) (view who history)
      (network.states who) :=
  (Protocol.NetworkRun.localRun hrun who).mono (fun _ h => h) fun _ _ _ _ h => h.2

end Group

namespace Replica

variable {replica next : Replica scheme} {event : Event scheme}

/-- Blocks are sent to all replicas. -/
theorem Effect.generic_action (h : Effect replica event next) {action : Action scheme}
    (haction : action ∈ event.actions) {generic : Message.Generic scheme}
    {block : Message.Block scheme} (hmessage : action.message? = some (.generic generic block)) :
    action = .sendToAllReplicas (.generic generic block) := by
  have hrefilled : ∀ {replica next : Replica scheme} {actions : List (Action scheme)},
      Refilled replica next actions → action ∉ actions := by
    intro replica next actions hrefilled hmem
    have hnone := List.filterMap_eq_nil_iff.mp hrefilled.generic action hmem
    rw [hmessage] at hnone
    cases hnone
  cases h with
  | init =>
      rw [refillNonces_generic replica haction] at hmessage
      cases hmessage
  | tick | request | ignore | accept | park | vote | supply | defer | release => cases haction
  | propose =>
      obtain rfl := List.mem_singleton.mp haction
      rw [← Option.some.inj hmessage]
  | finalize =>
      obtain rfl := List.mem_singleton.mp haction
      cases hmessage
  | perform _ _ _ _ hvote =>
      cases hvote with
      | unlisted | unsigned => cases haction
      | signed _ _ _ hcast =>
          cases hcast with
          | leader _ _ hrest => exact absurd haction (hrefilled hrest)
          | backup _ hrest =>
              rcases List.mem_cons.mp haction with rfl | hmem
              · cases hmessage
              · exact absurd hmem (hrefilled hrest)

end Replica

variable {coreConfig : ReplicaCoreConfig} {cryptoConfig : CryptoConfig scheme}
  {history : List (Replica.Event scheme)} {replica : Replica scheme}

/-- A backup sends no blocks. -/
theorem LocalRun.generics_nil (hrun : LocalRun coreConfig cryptoConfig history replica)
    (hbackup : coreConfig.id ≠ 0) : Replica.generics history = [] := by
  induction hrun with
  | start => rfl
  | @step history replica event next hprev hstep ih =>
      rw [Replica.generics_concat, ih, List.nil_append]
      rcases hstep.effect.generics with hnone | ⟨data, rest, _, _, _, hqueue, -⟩
      · exact hnone
      · have hplans := LocalRun.no_proposals hprev hbackup
        rw [proposals_append, hqueue, List.append_eq_nil_iff] at hplans
        cases hplans.2

namespace Group

variable {group : Group scheme} {history : History scheme}
  {network : Network Nat (Replica scheme) (ToReplica scheme)} {who : Nat}

/-- A delivered message is one that a replica has asked for. -/
theorem mem_sent {message : ToReplica scheme}
    (hsent : (who, message) ∈ group.protocol.sent history) :
    ∃ sender, ∃ event ∈ view sender history, ∃ action ∈ event.actions,
      (who, message) ∈ action.deliveries group.spec.numReplica sender := by
  obtain ⟨⟨sender, event⟩, hentry, hmem⟩ := List.mem_flatMap.mp hsent
  obtain ⟨action, haction, hdelivery⟩ := List.mem_flatMap.mp hmem
  exact ⟨sender, event, mem_view.mpr hentry, action, haction, hdelivery⟩

/-- Blocks are sent by the leader, to backups. -/
theorem NetworkRun.sent_generic (hrun : group.NetworkRun history network)
    {generic : Message.Generic scheme} {block : Message.Block scheme}
    (hsent : (who, ToReplica.generic generic block) ∈ group.protocol.sent history) :
    (who < group.spec.numReplica ∧ who ≠ 0) ∧
      (generic, block) ∈ Replica.generics (view 0 history) := by
  obtain ⟨sender, event, hevent, action, haction, hdelivery⟩ := mem_sent hsent
  have hgeneric : action.message? = some (.generic generic block) := by
    rcases ReplicaAction.mem_deliveries.mp hdelivery with rfl | ⟨rfl, -⟩ <;> rfl
  have hgenerics : (generic, block) ∈ Replica.generics (view sender history) := by
    refine List.mem_flatMap.mpr ⟨event, hevent, List.mem_filterMap.mpr ⟨action, haction, ?_⟩⟩
    rw [hgeneric]
    rfl
  have hlocal := NetworkRun.localRun hrun sender
  obtain rfl : sender = 0 := by
    by_contra hbackup
    rw [hlocal.generics_nil hbackup] at hgenerics
    cases hgenerics
  obtain ⟨before, current, next, -, hstep, -⟩ := hlocal.of_mem hevent
  obtain rfl := hstep.effect.generic_action haction hgeneric
  rcases ReplicaAction.mem_deliveries.mp hdelivery with hdirect | ⟨-, hreceiver⟩
  · cases hdirect
  · exact ⟨hreceiver, hgenerics⟩

/-- Blocks that are received have been sent by the leader, to a backup. -/
theorem NetworkRun.received (hrun : group.NetworkRun history network)
    {entry : Message.Generic scheme × Message.Block scheme}
    (hreceived : entry ∈ Replica.received (view who history)) :
    who ≠ 0 ∧ entry ∈ Replica.generics (view 0 history) := by
  obtain ⟨event, hevent, hentry⟩ := List.mem_filterMap.mp hreceived
  -- what has been received is among what has been sent
  have hmessage : (who, ToReplica.generic entry.1 entry.2) ∈ group.protocol.received history := by
    refine List.mem_filterMap.mpr ⟨(who, event), mem_view.mp hevent, ?_⟩
    exact congrArg (Option.map (Prod.mk who)) (Replica.Event.receives_of_received hentry)
  obtain ⟨⟨-, hbackup⟩, hsent⟩ := NetworkRun.sent_generic hrun
    ((Protocol.NetworkRun.account hrun).mem_iff.mp (List.mem_append_right _ hmessage))
  exact ⟨hbackup, hsent⟩

theorem NetworkRun.leader_received (hrun : group.NetworkRun history network) :
    Replica.received (view 0 history) = [] := by
  rw [List.eq_nil_iff_forall_not_mem]
  intro entry hentry
  exact (NetworkRun.received hrun hentry).1 rfl

end Group

end Hotstuff

end BftKit
