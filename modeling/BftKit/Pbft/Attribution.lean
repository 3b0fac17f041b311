import Mathlib.Algebra.Order.BigOperators.Group.List
import Mathlib.Algebra.Order.Group.Nat
import BftKit.Pbft.Network

/-! # Who sent what

Among correct replicas a vote comes from the replica it names. A Prepare for a backup is
part of the one broadcast of that replica for its block number, so a Prepare that has been
lost is not among those received.
-/

namespace BftKit.Pbft.Group

open Foundation Replica

variable {crypto : Crypto} {group : Group} {who : Nat} {message : ToReplica crypto}
  {vote : Vote crypto}

section

variable {history : List (Nat × Invocation crypto)}
  {network : Network Nat (Replica crypto) (ToReplica crypto)}

/-- Only replicas of the group have events. -/
theorem NetworkRun.lt_of_event (hrun : (group.protocol crypto).NetworkRun history network)
    {event : Event crypto} (hevent : event ∈ eventsOf who history) :
    who < group.spec.numReplica := by
  obtain ⟨invocation, hmem, -⟩ := List.mem_flatMap.mp hevent
  obtain ⟨_, _, _, -, hstep, -⟩ := (Protocol.NetworkRun.localRun hrun who).of_mem hmem
  exact hstep.1

section

variable (hrun : (group.protocol crypto).NetworkRun history network)
  (hharmonious : Harmonious group history network)
  (hsent : (who, message) ∈ (group.protocol crypto).sent history)
  (hvote : message.vote? = some vote)

include hrun hharmonious hsent hvote

/-- A vote is sent by the replica it names. -/
theorem Harmonious.vote_sent : vote.replicaId < group.spec.numReplica ∧
    ∃ event ∈ eventsOf vote.replicaId history, ∃ action ∈ event.actions,
      (who, message) ∈ action.deliveries group.spec.numReplica vote.replicaId := by
  obtain ⟨sender, event, hevent, action, haction, hdelivery⟩ := mem_sent.mp hsent
  have hsender := NetworkRun.lt_of_event hrun hevent
  have hmessage := mem_sentMessages_of_deliveries hevent haction hdelivery
  obtain ⟨-, hid, -⟩ :=
    (CorrectRun.accountable (hharmonious.runs sender hsender)).votes message hmessage vote hvote
  obtain rfl : vote.replicaId = sender := hid
  exact ⟨hsender, event, hevent, action, haction, hdelivery⟩

theorem Harmonious.vote_sentMessages : vote.replicaId < group.spec.numReplica ∧
    message ∈ sentMessages (eventsOf vote.replicaId history) := by
  obtain ⟨hlt, event, hevent, action, haction, hdelivery⟩ := hharmonious.vote_sent hrun hsent hvote
  exact ⟨hlt, mem_sentMessages_of_deliveries hevent haction hdelivery⟩

end

/-- Prepares come from backups. -/
theorem Harmonious.prepare_backup (hharmonious : Harmonious group history network)
    (hrun : (group.protocol crypto).NetworkRun history network)
    (hsent : (who, .prepare vote) ∈ (group.protocol crypto).sent history) :
    vote.replicaId < group.spec.numReplica ∧ vote.replicaId ≠ group.spec.primary 0 := by
  obtain ⟨hlt, hmessage⟩ := hharmonious.vote_sentMessages hrun hsent rfl
  refine ⟨hlt, fun heq => ?_⟩
  exact CorrectRun.no_prepares (hharmonious.runs _ hlt) heq.symm vote hmessage

/-- What is delivered to a backup as a Prepare has been broadcast. -/
theorem Harmonious.prepare_event (hharmonious : Harmonious group history network)
    (hbackup : who ≠ group.spec.primary 0) {sender : Nat} (hsender : sender < group.spec.numReplica)
    {event : Event crypto} (hevent : event ∈ eventsOf sender history) {action : Action crypto}
    (haction : action ∈ event.actions)
    (hdelivery : (who, .prepare vote) ∈ action.deliveries group.spec.numReplica sender) :
    event = .perform (.prepare vote.blockNum vote.digest) [.sendToAllReplicas (.prepare vote)] ∧
      who < group.spec.numReplica ∧ who ≠ sender := by
  have hcorrect := hharmonious.runs sender hsender
  rcases ReplicaAction.mem_deliveries.mp hdelivery with rfl | ⟨rfl, hreceiver⟩
  · rcases CorrectRun.broadcast_of_mem hcorrect hevent haction with ⟨_, heq⟩ | ⟨hprimary, -⟩
    · cases heq
    · exact absurd hprimary hbackup
  · exact ⟨((CorrectRun.accountable hcorrect).broadcasts event hevent _ vote haction).1 rfl,
      hreceiver⟩

/-- Prepares of one replica for one block number. -/
def prepareFrom (sender blockNum : Nat) : ToReplica crypto → Option Unit
  | .prepare vote => if vote.replicaId = sender ∧ vote.blockNum = blockNum then some () else none
  | .request _ | .prePrepare _ _ | .commit _ => none

theorem prepareFrom_isSome {sender blockNum : Nat} {item : Unit}
    (hpick : prepareFrom sender blockNum message = some item) :
    ∃ vote, message = .prepare vote ∧ vote.replicaId = sender ∧ vote.blockNum = blockNum := by
  cases message with
  | prepare vote =>
      simp only [prepareFrom, Option.ite_none_right_eq_some] at hpick
      exact ⟨vote, rfl, hpick.1⟩
  | request | prePrepare | commit => cases hpick

/-- An event sends a backup at most the one Prepare that it performs. -/
theorem Harmonious.length_prepares (hharmonious : Harmonious group history network)
    (hbackup : who ≠ group.spec.primary 0) {sender : Nat} (hsender : sender < group.spec.numReplica)
    (blockNum : Nat) {event : Event crypto} (hevent : event ∈ eventsOf sender history) :
    ((event.actions.flatMap (ReplicaAction.deliveries group.spec.numReplica sender)).filterMap
      fun entry => if entry.1 = who then prepareFrom sender blockNum entry.2 else none).length ≤
      (Event.prepared? blockNum event).toList.length := by
  generalize hpicked : List.filterMap _ _ = picked
  cases picked with
  | nil => exact Nat.zero_le _
  | cons first rest =>
      have hfirst : first ∈ first :: rest := List.mem_cons_self
      rw [← hpicked] at hfirst
      obtain ⟨⟨receiver, message⟩, hmem, hpick⟩ := List.mem_filterMap.mp hfirst
      simp only [Option.ite_none_right_eq_some] at hpick
      obtain ⟨rfl, hpick⟩ := hpick
      obtain ⟨vote, rfl, rfl, rfl⟩ := prepareFrom_isSome hpick
      obtain ⟨action, haction, hdelivery⟩ := List.mem_flatMap.mp hmem
      obtain ⟨rfl, hlt, hne⟩ :=
        hharmonious.prepare_event hbackup hsender hevent haction hdelivery
      have hone := ReplicaAction.deliveries_pick hlt hne
        (prepareFrom vote.replicaId vote.blockNum) (.prepare vote)
      simp only [Event.actions, List.flatMap_singleton] at hpicked
      rw [← hpicked, hone]
      simp [prepareFrom, Event.prepared?]

/-- Of what a replica sends a backup, one Prepare at most is for a given block number. -/
theorem Harmonious.length_sent (hharmonious : Harmonious group history network)
    (hbackup : who ≠ group.spec.primary 0) {sender : Nat} (hsender : sender < group.spec.numReplica)
    (blockNum : Nat) :
    ((view sender history).flatMap fun invocation =>
      ((group.protocol crypto).sends sender invocation).filterMap fun entry =>
        if entry.1 = who then prepareFrom sender blockNum entry.2 else none).length ≤ 1 := by
  refine le_trans ?_ (CorrectRun.length_prepared (hharmonious.runs sender hsender) blockNum)
  have hevents : ((view sender history).flatMap fun invocation =>
      ((group.protocol crypto).sends sender invocation).filterMap fun entry =>
        if entry.1 = who then prepareFrom sender blockNum entry.2 else none) =
      (eventsOf sender history).flatMap fun event =>
        (event.actions.flatMap (ReplicaAction.deliveries group.spec.numReplica sender)).filterMap
          fun entry => if entry.1 = who then prepareFrom sender blockNum entry.2 else none := by
    simp only [eventsOf, protocol, List.flatMap_assoc, List.filterMap_flatMap]
  rw [hevents, List.filterMap_eq_flatMap_toList, List.length_flatMap, List.length_flatMap]
  apply List.sum_le_sum
  intro event hevent
  exact hharmonious.length_prepares hbackup hsender blockNum hevent

end

/-! ## What is lost is not received -/

section

variable {history : List (Incident Nat (Invocation crypto) (ToReplica crypto))}
  {network : Network Nat (Replica crypto) (ToReplica crypto)} (hverifies : crypto.Verifies)
  (hrun : (group.protocol crypto).LossyRun history network)

include hverifies hrun

/-- A backup has not received what a replica has sent it and lost. -/
theorem LossyRun.not_received_of_lost (hbackup : who ≠ group.spec.primary 0) {vote' : Vote crypto}
    (hlost : (who, .prepare vote) ∈ lost history)
    (hreceived : (who, .prepare vote') ∈ (group.protocol crypto).received (steps history))
    (hnum : vote.blockNum = vote'.blockNum) : vote.replicaId ≠ vote'.replicaId := by
  intro hid
  obtain ⟨flight, hnetwork, hperm⟩ := Protocol.LossyRun.networkRun hrun
  have hharmonious := NetworkRun.harmonious hverifies hnetwork
  obtain ⟨hsender, -⟩ := hharmonious.prepare_backup hnetwork
    (Protocol.LossyRun.sent_of_lost hrun hlost)
  have haccount := @Protocol.NetworkRun.account_pick _ _ _ _ _ (group.protocol crypto) _ _ _
    hnetwork who vote.replicaId (prepareFrom vote.replicaId vote.blockNum) (by
      intro entry hentry hne
      apply List.filterMap_eq_nil_iff.mpr
      rintro ⟨receiver, message⟩ hmem
      by_contra hpick
      obtain ⟨item, hpick⟩ := Option.ne_none_iff_exists'.mp hpick
      simp only [Option.ite_none_right_eq_some] at hpick
      obtain ⟨other, rfl, hother, -⟩ := prepareFrom_isSome hpick.2
      -- the sender of a vote is the one it names
      obtain ⟨action, haction, hdelivery⟩ := List.mem_flatMap.mp hmem
      obtain ⟨event, hevent, haction⟩ := List.mem_flatMap.mp haction
      have hevent' : event ∈ eventsOf entry.1 (steps history) :=
        List.mem_flatMap.mpr ⟨entry.2, mem_view.mpr hentry, hevent⟩
      have hown := (CorrectRun.accountable (hharmonious.runs entry.1
        (NetworkRun.lt_of_event hnetwork hevent'))).votes _
        (mem_sentMessages_of_deliveries hevent' haction hdelivery) other rfl
      exact hne (hown.2.1.symm.trans hother))
  have hlength := haccount.length_eq.le.trans
    (hharmonious.length_sent hbackup hsender vote.blockNum)
  rw [List.length_append] at hlength
  dsimp only at hlength
  have hflight : () ∈ flight.filterMap (fun entry => if entry.1 = who then
      prepareFrom vote.replicaId vote.blockNum entry.2 else none) := by
    refine List.mem_filterMap.mpr ⟨_, hperm.mem_iff.mpr (List.mem_append_right _ hlost), ?_⟩
    simp [prepareFrom]
  have hview : () ∈ (view who (steps history)).filterMap (fun label =>
      ((group.protocol crypto).receives label).bind
        (prepareFrom vote.replicaId vote.blockNum)) := by
    obtain ⟨⟨receiver, invocation⟩, hmem, heq⟩ := List.mem_filterMap.mp hreceived
    obtain ⟨message, hreceives, heq⟩ := Option.map_eq_some_iff.mp heq
    obtain ⟨rfl, rfl⟩ := Prod.mk.inj heq
    refine List.mem_filterMap.mpr ⟨invocation, mem_view.mpr hmem, ?_⟩
    rw [hreceives, Option.bind_some]
    simp [prepareFrom, hid, hnum]
  have hpos := List.length_pos_of_mem hflight
  have hpos' := List.length_pos_of_mem hview
  omega

end

end BftKit.Pbft.Group
