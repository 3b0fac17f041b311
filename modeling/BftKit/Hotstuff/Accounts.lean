import BftKit.Hotstuff.Supplies

/-! # Accounts of messages

What is in flight and what has been received are what has been sent: the blocks for a
backup, and the votes and supplies of one replica for the leader.
-/

namespace BftKit.Hotstuff

open Foundation Threshold

variable {scheme : ThresholdScheme}

namespace Replica

variable {replica next : Replica scheme} {event : Event scheme}

/-- Blocks go to all replicas, the other messages to the leader. -/
theorem Effect.action_cases (h : Effect replica event next) {action : Action scheme}
    (haction : action ∈ event.actions) :
    (∃ message, action = .sendToReplica 0 message ∧ message.generic? = none) ∨
      (∃ generic block, action = .sendToAllReplicas (.generic generic block)) ∨
      ∃ commands, action = .finalize commands := by
  have hrefill : ∀ replica : Replica scheme, action ∈ replica.refillNonces.2 →
      ∃ message, action = .sendToReplica 0 message ∧ message.generic? = none := by
    intro replica hmem
    exact ⟨_, refillNonces_generic replica hmem, rfl⟩
  have hrefilled : ∀ {replica next : Replica scheme} {actions : List (Action scheme)},
      Refilled replica next actions → action ∈ actions →
      ∃ message, action = .sendToReplica 0 message ∧ message.generic? = none := by
    intro replica next actions hrefilled hmem
    cases hrefilled with
    | enough => cases hmem
    | refill => exact hrefill _ hmem
  cases h with
  | init => exact .inl (hrefill replica haction)
  | tick | request | ignore | accept | park | vote | supply | defer | release => cases haction
  | propose => exact .inr (.inl ⟨_, _, List.mem_singleton.mp haction⟩)
  | finalize => exact .inr (.inr ⟨_, List.mem_singleton.mp haction⟩)
  | perform _ _ _ _ hvote =>
      cases hvote with
      | unlisted | unsigned => cases haction
      | signed _ _ _ hcast =>
          cases hcast with
          | leader _ _ hrest => exact .inl (hrefilled hrest haction)
          | backup _ hrest =>
              rcases List.mem_cons.mp haction with rfl | hmem
              · exact .inl ⟨_, rfl, rfl⟩
              · exact .inl (hrefilled hrest hmem)

end Replica

namespace Group

variable {group : Group scheme} {history : History scheme}
  {network : Network Nat (Replica scheme) (ToReplica scheme)} {who : Nat} {Item : Type}

/-- What goes to the leader, as far as it is picked. -/
def toLeader (pick : ToReplica scheme → Option Item) (entry : Nat × ToReplica scheme) :
    Option Item :=
  if entry.1 = 0 then pick entry.2 else none

theorem NetworkRun.action_cases (hrun : group.NetworkRun history network)
    {entry : Nat × Replica.Event scheme} (hentry : entry ∈ history) {action : Action scheme}
    (haction : action ∈ entry.2.actions) :
    (∃ message, action = .sendToReplica 0 message ∧ message.generic? = none) ∨
      (∃ generic block, action = .sendToAllReplicas (.generic generic block)) ∨
      ∃ commands, action = .finalize commands := by
  have hlocal := NetworkRun.localRun hrun entry.1
  obtain ⟨before, current, next, -, hstep, -⟩ := hlocal.of_mem (mem_view.mpr hentry)
  exact hstep.effect.action_cases haction

/-- The account of the messages from one replica to the leader. -/
theorem NetworkRun.account_leader (hrun : group.NetworkRun history network)
    {pick : ToReplica scheme → Option Item}
    (hgeneric : ∀ generic block, pick (.generic generic block) = none)
    (hothers : ∀ other, other ≠ who → Replica.sentIn pick (view other history) = []) :
    (network.flight.filterMap (toLeader pick) ++ Replica.receivedIn pick (view 0 history)).Perm
      (Replica.sentIn pick (view who history)) := by
  have hmessages : ∀ entry ∈ history,
      (group.protocol.sends entry.1 entry.2).filterMap (toLeader pick) = entry.2.messages pick := by
    intro entry hentry
    change (entry.2.actions.flatMap _).filterMap _ = _
    rw [List.filterMap_flatMap, Replica.Event.messages, List.filterMap_eq_flatMap_toList]
    apply List.flatMap_congr
    intro action haction
    rcases NetworkRun.action_cases hrun hentry haction with
      ⟨message, rfl, -⟩ | ⟨generic, block, rfl⟩ | ⟨commands, rfl⟩
    · change (List.filterMap (toLeader pick) [(0, message)]) = (pick message).toList
      cases hpick : pick message <;> simp [toLeader, hpick]
    · have hnone : ∀ id, toLeader pick (id, .generic generic block) = none := by
        intro id
        rw [toLeader, hgeneric, ite_self]
      change List.filterMap _ (List.map _ _) = (pick (.generic generic block)).toList
      rw [hgeneric, List.filterMap_map, Option.toList_none, List.filterMap_eq_nil_iff]
      exact fun id _ => hnone id
    · rfl
  have haccount := @Protocol.NetworkRun.account_pick _ _ _ _ _ group.protocol history network Item
    hrun 0 who pick (by
      intro entry hentry hne
      refine (hmessages entry hentry).trans ?_
      have hnone := hothers entry.1 hne
      exact List.flatMap_eq_nil_iff.mp hnone entry.2 (mem_view.mpr hentry))
  refine haccount.trans (List.Perm.of_eq ?_)
  apply List.flatMap_congr
  intro event hevent
  exact hmessages (who, event) (mem_view.mp hevent)

/-- What goes to a backup, as far as it is a block. -/
def toBackup (who : Nat) (entry : Nat × ToReplica scheme) :
    Option (Message.Generic scheme × Message.Block scheme) :=
  if entry.1 = who then entry.2.generic? else none

/-- The account of the blocks for a backup. -/
theorem NetworkRun.account_backup (hrun : group.NetworkRun history network)
    (hwho : who < group.spec.numReplica) (hbackup : who ≠ 0) :
    (network.flight.filterMap (toBackup who) ++ Replica.received (view who history)).Perm
      (Replica.generics (view 0 history)) := by
  have hmessages : ∀ entry ∈ history, entry.1 ≠ who →
      (group.protocol.sends entry.1 entry.2).filterMap (toBackup who) = entry.2.generics := by
    intro entry hentry hne
    change (entry.2.actions.flatMap _).filterMap _ = _
    rw [List.filterMap_flatMap, Replica.Event.generics, List.filterMap_eq_flatMap_toList]
    apply List.flatMap_congr
    intro action haction
    rcases NetworkRun.action_cases hrun hentry haction with
      ⟨message, rfl, hnone⟩ | ⟨generic, block, rfl⟩ | ⟨commands, rfl⟩
    · change List.filterMap (toBackup who) [(0, message)] = message.generic?.toList
      simp [toBackup, hnone]
    · exact ReplicaAction.deliveries_pick hwho (Ne.symm hne) ToReplica.generic? _
    · rfl
  -- a broadcast leaves out its sender
  have hself : ∀ entry ∈ history, entry.1 = who →
      (group.protocol.sends entry.1 entry.2).filterMap (toBackup who) = [] := by
    intro entry hentry heq
    refine List.filterMap_eq_nil_iff.mpr ?_
    intro delivery hdelivery
    obtain ⟨action, haction, hmem⟩ := List.mem_flatMap.mp hdelivery
    rcases NetworkRun.action_cases hrun hentry haction with
      ⟨message, rfl, hnone⟩ | ⟨generic, block, rfl⟩ | ⟨commands, rfl⟩
    · obtain rfl := List.mem_singleton.mp hmem
      rw [toBackup, hnone, ite_self]
    · obtain ⟨id, hid, rfl⟩ := List.mem_map.mp hmem
      have hne : id ≠ entry.1 := by simpa using (List.mem_filter.mp hid).2
      exact if_neg (heq ▸ hne)
    · cases hmem
  have hothers : ∀ entry ∈ history, entry.1 ≠ 0 →
      (group.protocol.sends entry.1 entry.2).filterMap (toBackup who) = [] := by
    intro entry hentry hne
    by_cases heq : entry.1 = who
    · exact hself entry hentry heq
    · rw [hmessages entry hentry heq]
      have hnone := (NetworkRun.localRun hrun entry.1).generics_nil hne
      exact List.flatMap_eq_nil_iff.mp hnone entry.2 (mem_view.mpr hentry)
  have haccount := @Protocol.NetworkRun.account_pick _ _ _ _ _ group.protocol history network _
    hrun who 0 ToReplica.generic? hothers
  have hreceived : Replica.received (view who history) =
      (view who history).filterMap fun event => event.receives.bind ToReplica.generic? := by
    apply List.filterMap_congr
    intro event _
    cases event with
    | call call => cases call with
      | receive message => cases message <;> rfl
      | init | request | tick => rfl
    | release | perform => rfl
  rw [hreceived]
  refine haccount.trans (List.Perm.of_eq ?_)
  apply List.flatMap_congr
  intro event hevent
  exact hmessages (0, event) (mem_view.mp hevent) (Ne.symm hbackup)

/-- No commitment is listed more often than its owner has drawn it. -/
theorem NetworkRun.count_listed (hrun : group.NetworkRun history network) (index : Nat)
    (publicCommitments : scheme.GivrePublicCommitments) :
    (Replica.listedIn (view 0 history)).count (index, publicCommitments) ≤
      (Replica.drawn (group.keyShare index) (network.states index).numDraw).count
        publicCommitments := by
  have hleader := NetworkRun.localRun hrun 0
  have howner := NetworkRun.localRun hrun index
  have hindex : (network.states 0).signerIndex = 0 := congrArg ReplicaCoreConfig.id hleader.config
  have hpools := hleader.pools index publicCommitments
  have hsent := howner.sent_supplies index publicCommitments
  have haccount := @NetworkRun.account_leader _ group history network index _ hrun
    (Replica.supplyOf index) (fun _ _ => rfl)
    (fun other hne => (NetworkRun.localRun hrun other).sent_supplies_nil (.inl (Ne.symm hne)))
  have hreceived := haccount.flatten.count_eq publicCommitments
  rw [List.flatten_append, List.count_append] at hreceived
  rw [howner.cryptoConfig_eq] at hsent
  unfold Replica.supplied at hpools
  rw [hindex, List.count_append, hleader.cryptoConfig_eq] at hpools
  by_cases hzero : index = 0
  · subst hzero
    have hnone := howner.sent_supplies_nil (.inr rfl)
    rw [hnone, List.flatten_nil, List.count_nil] at hreceived
    rw [if_pos rfl] at hpools
    change _ ≤ _ + List.count publicCommitments (Replica.drawn (group.keyShare 0) _) at hpools
    omega
  · rw [if_neg hzero, List.count_nil] at hpools
    change _ ≤ List.count publicCommitments (Replica.drawn (group.keyShare index) _) at hsent
    omega

end Group

end BftKit.Hotstuff
