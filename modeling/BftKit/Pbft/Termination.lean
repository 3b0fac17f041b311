import Mathlib.Tactic.Ring
import BftKit.Pbft.Traffic

/-! # How much is sent

Among correct replicas the requests of the clients and the ticks of the primary bound how
many messages are sent, so deliveries come to an end. What they end in is a network in
which every request is finalized.
-/

namespace BftKit.Pbft

open Foundation CommandPool Replica

variable {crypto : Crypto}

namespace Group

variable {group : Group} {who : Nat} {history : List (Nat × Invocation crypto)}
  {network : Network Nat (Replica crypto) (ToReplica crypto)}

/-! ## What is sent to whom -/

section

variable (hrun : (group.protocol crypto).NetworkRun history network)

include hrun

theorem NetworkRun.parties : ∀ entry ∈ history, entry.1 ∈ Finset.range group.spec.numReplica := by
  intro entry hentry
  obtain ⟨_, _, _, -, hstep, -⟩ := hrun.of_mem hentry
  exact Finset.mem_range.mpr hstep.localStep.1.1

theorem NetworkRun.eq_nil (hzero : group.spec.numReplica = 0) : history = [] := by
  apply List.eq_nil_iff_forall_not_mem.mpr
  intro entry hentry
  have hlt := NetworkRun.parties hrun entry hentry
  simp [hzero] at hlt

theorem NetworkRun.delivered_eq :
    delivered (eventsOf who history) = (view who history).filterMap Invocation.receives := by
  induction hrun with
  | start => rfl
  | @step history network entry next hprev hstep ih =>
      obtain ⟨party, invocation⟩ := entry
      obtain ⟨hinvokes, -⟩ := hstep.localStep
      by_cases heq : party = who
      · subst heq
        rw [eventsOf_concat_self, delivered_append, ih, hinvokes.2.delivered, view_append,
          view_singleton_self, List.filterMap_append]
        cases hreceives : invocation.receives <;> simp [hreceives]
      · rw [eventsOf_concat_of_ne heq, ih, view_append, view_singleton_of_ne heq, List.append_nil]

omit hrun in
theorem flatMap_sends (history : List (Nat × Invocation crypto)) :
    (view who history).flatMap ((group.protocol crypto).sends who) =
      ((eventsOf who history).flatMap Event.actions).flatMap
        (ReplicaAction.deliveries group.spec.numReplica who) := by
  simp only [eventsOf, protocol, List.flatMap_assoc]

/-- All that is sent. -/
theorem NetworkRun.length_sent : ((group.protocol crypto).sent history).length =
    ∑ who ∈ Finset.range group.spec.numReplica,
      traffic group.spec.numReplica (eventsOf who history) := by
  rw [Protocol.length_sent (NetworkRun.parties hrun)]
  apply Finset.sum_congr rfl
  intro who hwho
  rw [← List.length_flatMap, flatMap_sends, length_flatMap_deliveries (Finset.mem_range.mp hwho)]

/-- What is delivered to a replica of a kind of message, the replicas have sent. -/
theorem NetworkRun.length_delivered_le {Item : Type*} (pick : ToReplica crypto → Option Item) :
    ((delivered (eventsOf who history)).filterMap pick).length ≤
      ∑ other ∈ Finset.range group.spec.numReplica,
        ((sentMessages (eventsOf other history)).filterMap pick).length := by
  rw [NetworkRun.delivered_eq hrun, List.filterMap_filterMap]
  refine (Protocol.NetworkRun.length_received_le hrun (NetworkRun.parties hrun) pick who).trans ?_
  apply Finset.sum_le_sum
  intro other _
  rw [← List.length_flatMap, ← List.filterMap_flatMap, flatMap_sends]
  exact length_filterMap_deliveries_le pick _ _ _ _

end

/-! ## The bill of a network -/

/-- The number of requests that clients have made. -/
def clientRequests (history : List (Nat × Invocation crypto)) : Nat :=
  history.countP fun entry => (Event.call entry.2.call entry.2.actions).isRequest

/-- The number of ticks of the primary. -/
def primaryTicks (group : Group) (history : List (Nat × Invocation crypto)) : Nat :=
  (eventsOf (group.spec.primary 0) history).countP Event.isTick

/-- The number of blocks that the primary has proposed. -/
def numProposed (group : Group) (history : List (Nat × Invocation crypto)) : Nat :=
  (proposals (performedIn (eventsOf (group.spec.primary 0) history))).length

section

variable (hverifies : crypto.Verifies) (hrun : (group.protocol crypto).NetworkRun history network)

include hverifies hrun

/-- Nobody has more blocks than the primary has proposed. -/
theorem NetworkRun.size_le (hwho : who < group.spec.numReplica) :
    (network.states who).core.blocks.size ≤ group.numProposed history := by
  have hharmonious := NetworkRun.harmonious hverifies hrun
  have hprimary := (CorrectRun.accountable (hharmonious.runs _ (primary_lt hwho))).coherent
  apply Replica.size_le
  intro blockNum hmem
  obtain ⟨block, hblock⟩ := Coherent.mem_blocks.mp hmem
  obtain ⟨stored, hstored, -⟩ := same_block (hharmonious.runs who hwho)
    (hharmonious.runs _ (primary_lt hwho)) (fun message hdelivered =>
      (hharmonious.sound who message ((Protocol.NetworkRun.account hrun).mem_iff.mp
        (List.mem_append_right _ ((NetworkRun.mem_delivered hrun).mp hdelivered)))).backed) hblock
  exact hprimary.bounds (hprimary.isPrimary_eq.trans (beq_self_eq_true _)) hstored

/-- Only the primary sends PrePrepares. -/
theorem NetworkRun.prePrepares_nil (hwho : who < group.spec.numReplica)
    (hbackup : who ≠ group.spec.primary 0) :
    (sentMessages (eventsOf who history)).filterMap ToReplica.prePrepare? = [] := by
  have h := CorrectRun.accountable ((NetworkRun.harmonious hverifies hrun).runs who hwho)
  rw [List.filterMap_eq_nil_iff]
  intro message hsent
  cases message with
  | request | prepare | commit => rfl
  | prePrepare sent commands =>
      obtain ⟨hprimary, -⟩ := h.prePrepares sent commands hsent
      rw [h.coherent.isPrimary_eq, beq_iff_eq] at hprimary
      exact absurd hprimary (Ne.symm hbackup)

/-- A backup proposes nothing. -/
theorem NetworkRun.proposals_nil (hwho : who < group.spec.numReplica)
    (hbackup : who ≠ group.spec.primary 0) : proposals (performedIn (eventsOf who history)) = [] := by
  have h := (CorrectRun.accountable ((NetworkRun.harmonious hverifies hrun).runs who hwho)).coherent
  apply h.backup
  rw [h.isPrimary_eq]
  exact beq_eq_false_iff_ne.mpr (Ne.symm hbackup)

/-- A PrePrepare is sent for each proposal and, at each tick, for all of them again. -/
theorem NetworkRun.prePrepares_le (hwho : who < group.spec.numReplica) :
    ((delivered (eventsOf who history)).filterMap ToReplica.prePrepare?).length ≤
      (group.primaryTicks history + 1) * group.numProposed history := by
  have hprimary := (NetworkRun.harmonious hverifies hrun).runs _ (primary_lt hwho)
  refine (NetworkRun.length_delivered_le hrun ToReplica.prePrepare?).trans ?_
  rw [Finset.sum_eq_single (group.spec.primary 0)]
  · exact hprimary.prePrepares_le
  · intro other hother hne
    rw [NetworkRun.prePrepares_nil hverifies hrun (Finset.mem_range.mp hother) hne, List.length_nil]
  · intro hnot
    exact absurd (Finset.mem_range.mpr (primary_lt hwho)) hnot

/-- Requests are delivered to the primary only, from backups that have been asked for them. -/
theorem NetworkRun.delivered_request {command : Command}
    (hdelivered : .request command ∈ delivered (eventsOf who history)) :
    who = group.spec.primary 0 ∧ ∃ sender < group.spec.numReplica, sender ≠ group.spec.primary 0 ∧
      command ∈ requests (eventsOf sender history) := by
  have hsent := (Protocol.NetworkRun.account hrun).mem_iff.mp
    (List.mem_append_right _ ((NetworkRun.mem_delivered hrun).mp hdelivered))
  obtain ⟨sender, event, hevent, action, haction, hdelivery⟩ := mem_sent.mp hsent
  have hlt := NetworkRun.lt_of_event hrun hevent
  have hsender := (NetworkRun.harmonious hverifies hrun).runs sender hlt
  have hmessage : action.message? = some (.request command) := by
    rcases ReplicaAction.mem_deliveries.mp hdelivery with rfl | ⟨rfl, -⟩ <;> rfl
  obtain ⟨rfl, hbackup, hrequest⟩ := hsender.forwards hevent haction hmessage
  refine ⟨?_, sender, hlt, Ne.symm hbackup, hrequest⟩
  rcases ReplicaAction.mem_deliveries.mp hdelivery with heq | ⟨heq, -⟩
  · exact (ReplicaAction.sendToReplica.inj heq).1.symm
  · cases heq

/-- Backups are asked by clients only. -/
theorem NetworkRun.length_requests_backup
    (hbackup : who ≠ group.spec.primary 0) : (requests (eventsOf who history)).length =
      (eventsOf who history).countP Event.isRequest := by
  have hnone : (delivered (eventsOf who history)).filterMap ToReplica.request? = [] := by
    rw [List.filterMap_eq_nil_iff]
    intro message hdelivered
    cases message with
    | prePrepare | prepare | commit => rfl
    | request command =>
        exact absurd (NetworkRun.delivered_request hverifies hrun hdelivered).1 hbackup
  rw [length_requests, hnone, List.length_nil, Nat.add_zero]

/-- What a backup forwards its clients have asked for. -/
theorem NetworkRun.forwarded_le (hwho : who < group.spec.numReplica)
    (hbackup : who ≠ group.spec.primary 0) :
    (forwardedIn (eventsOf who history)).length ≤
      (eventsOf who history).countP Event.isRequest := by
  have hforwarded := ((NetworkRun.harmonious hverifies hrun).runs who hwho).forwarded.length_le
  rw [if_neg (show (group.config who).spec.primary 0 ≠ (group.config who).id from Ne.symm hbackup),
    List.length_append, List.length_map,
    NetworkRun.length_requests_backup hverifies hrun hbackup] at hforwarded
  omega

/-- The primary forwards nothing. -/
theorem NetworkRun.forwarded_nil (hwho : who < group.spec.numReplica) :
    forwardedIn (eventsOf (group.spec.primary 0) history) = [] := by
  have hforwarded :=
    ((NetworkRun.harmonious hverifies hrun).runs _ (primary_lt hwho)).forwarded
  rw [if_pos (show (group.config (group.spec.primary 0)).spec.primary 0 =
    (group.config (group.spec.primary 0)).id from rfl)] at hforwarded
  exact (List.append_eq_nil_iff.mp (List.sublist_nil.mp hforwarded)).1

omit hverifies in
/-- The requests of the clients are made at the replicas. -/
theorem NetworkRun.sum_requests : clientRequests history =
    ∑ who ∈ Finset.range group.spec.numReplica,
      (eventsOf who history).countP Event.isRequest := by
  rw [clientRequests, countP_eq_sum, sum_view (NetworkRun.parties hrun)]
  apply Finset.sum_congr rfl
  intro who _
  rw [eventsOf, List.countP_flatMap]
  apply congrArg List.sum
  apply List.map_congr_left
  intro invocation hmem
  -- the loop behind a call makes no calls
  obtain ⟨_, _, _, -, hstep, -⟩ := (Protocol.NetworkRun.localRun hrun who).of_mem hmem
  obtain ⟨next, -, hdrained⟩ := hstep.2.loop
  have hperformed : invocation.performed.countP Event.isRequest = 0 := by
    rw [List.countP_eq_zero]
    intro event hevent
    obtain ⟨action, actions, rfl⟩ := hdrained.performs event hevent
    exact Bool.false_ne_true
  rw [Function.comp_apply, Invocation.events, List.countP_cons, hperformed, Nat.zero_add]

/-- The primary proposes at most one block for each request of a client. -/
theorem NetworkRun.numProposed_le
    (hsize : 0 < group.maxBatchSize (group.spec.primary 0)) :
    group.numProposed history ≤ clientRequests history := by
  rcases Nat.eq_zero_or_pos group.spec.numReplica with hzero | hpos
  · obtain rfl := NetworkRun.eq_nil hrun hzero
    exact le_rfl
  have hprimary : group.spec.primary 0 ∈ Finset.range group.spec.numReplica :=
    Finset.mem_range.mpr (Nat.mod_lt _ hpos)
  have hcorrect := (NetworkRun.harmonious hverifies hrun).runs _ (primary_lt hpos)
  have hlocal := CorrectRun.localRun hcorrect rfl
  refine (LocalRun.length_proposals hlocal rfl hsize).trans ?_
  rw [NetworkRun.sum_requests hrun, ← Finset.add_sum_erase _ _ hprimary, length_requests]
  apply Nat.add_le_add_left
  refine (NetworkRun.length_delivered_le hrun ToReplica.request?).trans ?_
  rw [← Finset.add_sum_erase _ _ hprimary]
  have hown := hcorrect.requests_le
  rw [NetworkRun.forwarded_nil hverifies hrun hpos] at hown
  rw [Nat.le_zero.mp hown, Nat.zero_add]
  apply Finset.sum_le_sum
  intro other hother
  obtain ⟨hne, hlt⟩ := mem_backups.mp hother
  exact ((NetworkRun.harmonious hverifies hrun).runs other hlt).requests_le.trans
    (NetworkRun.forwarded_le hverifies hrun hlt hne)

/-- Nobody sends the primary anything to answer. -/
theorem NetworkRun.answers_primary :
    (eventsOf (group.spec.primary 0) history).countP Event.isAnswer = 0 := by
  rw [List.countP_eq_zero]
  intro event hevent hanswer
  have hsound : ∀ message, event.delivered? = some message → message.prePrepare? = none := by
    intro message hmessage
    have hdelivered := List.mem_filterMap.mpr ⟨event, hevent, hmessage⟩
    have hsent := (Protocol.NetworkRun.account hrun).mem_iff.mp
      (List.mem_append_right _ ((NetworkRun.mem_delivered hrun).mp hdelivered))
    exact ((NetworkRun.harmonious hverifies hrun).sound _ message hsent).receiver rfl
  cases event with
  | perform => cases hanswer
  | call call actions =>
      cases call with
      | request | tick => cases hanswer
      | receive message =>
          cases message with
          | request | prepare | commit => cases hanswer
          | prePrepare => cases hsound _ rfl

/-- What the primary sends. -/
theorem NetworkRun.traffic_primary (hwho : who < group.spec.numReplica) :
    traffic group.spec.numReplica (eventsOf (group.spec.primary 0) history) ≤
      (group.spec.numReplica - 1) *
        ((group.primaryTicks history + 2) * group.numProposed history) := by
  have hprimary := (NetworkRun.harmonious hverifies hrun).runs _ (primary_lt hwho)
  have hblocks := NetworkRun.size_le hverifies hrun (primary_lt hwho)
  have hphases := Nat.mul_le_mul_left (group.spec.numReplica - 1) (Nat.add_le_add
    (hprimary.length_started.trans hblocks) (hprimary.length_committed.trans hblocks))
  have htraffic := hprimary.traffic_le group.spec.numReplica
  rw [NetworkRun.answers_primary hverifies hrun, NetworkRun.forwarded_nil hverifies hrun hwho,
    List.length_nil] at htraffic
  rw [Nat.add_mul, Nat.mul_add, Nat.two_mul]
  exact htraffic.trans (Nat.add_le_add_left (by omega) _)

/-- What a backup sends. -/
theorem NetworkRun.traffic_backup (hwho : who < group.spec.numReplica)
    (hbackup : who ≠ group.spec.primary 0) :
    traffic group.spec.numReplica (eventsOf who history) ≤
      (eventsOf who history).countP Event.isRequest +
        2 * ((group.primaryTicks history + (group.spec.numReplica - 1)) *
          group.numProposed history) := by
  have hcorrect := (NetworkRun.harmonious hverifies hrun).runs who hwho
  have hblocks := NetworkRun.size_le hverifies hrun hwho
  have hforwarded := NetworkRun.forwarded_le hverifies hrun hwho hbackup
  have hprePrepares := NetworkRun.prePrepares_le hverifies hrun hwho
  have hphases := Nat.mul_le_mul_left (group.spec.numReplica - 1) (Nat.add_le_add
    hcorrect.length_started hcorrect.length_committed)
  have htraffic := hcorrect.traffic_le group.spec.numReplica
  have hanswered := hcorrect.answered
  rw [NetworkRun.proposals_nil hverifies hrun hwho hbackup, List.length_nil] at htraffic hanswered
  -- a block costs more than an answer, as there is another replica
  have hprimary := primary_lt hwho
  obtain ⟨others, hothers⟩ : ∃ others, group.spec.numReplica - 1 = others + 1 :=
    ⟨group.spec.numReplica - 2, by omega⟩
  rw [hothers] at hphases htraffic ⊢
  have hmore := Nat.mul_le_mul_left others hblocks
  simp only [Nat.add_mul, Nat.mul_add, Nat.mul_zero, Nat.one_mul] at *
  omega

end

/-- What replicas send is bounded by what the primary proposes and how often it ticks. -/
theorem NetworkRun.length_sent_le (hverifies : crypto.Verifies)
    (hrun : (group.protocol crypto).NetworkRun history network) :
    ((group.protocol crypto).sent history).length ≤ clientRequests history +
      (group.spec.numReplica - 1) *
        ((2 * group.spec.numReplica + 3 * group.primaryTicks history) *
          group.numProposed history) := by
  rcases Nat.eq_zero_or_pos group.spec.numReplica with hzero | hpos
  · obtain rfl := NetworkRun.eq_nil hrun hzero
    exact Nat.zero_le _
  have hprimary : group.spec.primary 0 ∈ Finset.range group.spec.numReplica :=
    Finset.mem_range.mpr (Nat.mod_lt _ hpos)
  rw [NetworkRun.length_sent hrun, NetworkRun.sum_requests hrun, ← Finset.add_sum_erase _ _ hprimary,
    ← Finset.add_sum_erase _ _ hprimary]
  have htraffic := NetworkRun.traffic_primary hverifies hrun hpos
  have hbackups := Finset.sum_le_sum fun who (hwho : who ∈ group.backups) =>
    NetworkRun.traffic_backup hverifies hrun (mem_backups.mp hwho).2 (mem_backups.mp hwho).1
  rw [Finset.sum_add_distrib, Finset.sum_const, nsmul_eq_mul, Nat.cast_id] at hbackups
  rw [backups] at hbackups
  have hcard := card_backups hpos
  have hsum : (group.spec.numReplica - 1) *
        ((group.primaryTicks history + 2) * group.numProposed history) +
      group.backups.card * (2 * ((group.primaryTicks history + (group.spec.numReplica - 1)) *
        group.numProposed history)) =
      (group.spec.numReplica - 1) *
        ((2 * group.spec.numReplica + 3 * group.primaryTicks history) *
          group.numProposed history) := by
    rw [← hcard, Nat.add_sub_cancel]
    ring
  rw [backups] at hsum
  omega

/-- The primary proposes at most one block for each request of a client, and the requests
and its ticks bound how much is sent. The replicas follow the code, what they sign verifies,
and the primary batches at least one command. -/
theorem message_bound (hverifies : crypto.Verifies)
    (hsize : 0 < group.maxBatchSize (group.spec.primary 0))
    (hrun : (group.protocol crypto).NetworkRun history network) :
    group.numProposed history ≤ clientRequests history ∧
      ((group.protocol crypto).sent history).length ≤ clientRequests history +
        (group.spec.numReplica - 1) *
          ((2 * group.spec.numReplica + 3 * group.primaryTicks history) *
            group.numProposed history) :=
  ⟨NetworkRun.numProposed_le hverifies hrun hsize, NetworkRun.length_sent_le hverifies hrun⟩

/-- A request to a backup among four takes all of the messages that the bound allows. -/
theorem message_bound_four : ∃ history network,
    ((four ∅).protocol .transparent).NetworkRun history network ∧
      (((four ∅).protocol .transparent).sent history).length = 25 ∧
      (four ∅).numProposed history ≤ 1 ∧
      25 ≤ 1 + 3 * ((2 * 4 + 3 * 0) * (four ∅).numProposed history) := by
  have hreplay : ∃ run ∈ (four ∅).replayNetwork fourForwarded,
      clientRequests (steps run.1) = 1 ∧ (four ∅).primaryTicks (steps run.1) = 0 ∧
        (((four ∅).protocol .transparent).sent (steps run.1)).length = 25 := by
    decide +kernel
  obtain ⟨⟨incidents, network⟩, hreplay, hrequests, hticks, hlength⟩ := hreplay
  obtain ⟨flight, hrun, -⟩ := Protocol.LossyRun.networkRun (replayNetwork_run hreplay)
  have hbound := message_bound Crypto.transparent_verifies (by decide) hrun
  rw [hrequests, hticks, hlength] at hbound
  exact ⟨_, _, hrun, hlength, hbound⟩

/-! ## Deliveries -/

/-- All the invocations of a history deliver messages. -/
def OnlyDelivers (history : List (Nat × Invocation crypto)) : Prop :=
  ∀ entry ∈ history, entry.2.receives.isSome

variable {more : List (Nat × Invocation crypto)}

/-- What replicas receive is no request of a client and no tick. -/
theorem OnlyDelivers.clientRequests (h : OnlyDelivers more) :
    Group.clientRequests (history ++ more) = Group.clientRequests history := by
  have hnone : Group.clientRequests more = 0 := by
    rw [Group.clientRequests, List.countP_eq_zero]
    intro entry hentry
    have hreceives := h entry hentry
    unfold Invocation.receives at hreceives
    cases hcall : entry.2.call with
    | request | tick => simp [hcall] at hreceives
    | receive message => exact Bool.false_ne_true
  rw [Group.clientRequests, List.countP_append, ← Group.clientRequests, ← Group.clientRequests,
    hnone, Nat.add_zero]

theorem OnlyDelivers.primaryTicks (h : OnlyDelivers more)
    (hrun : (group.protocol crypto).NetworkRun (history ++ more) network) :
    group.primaryTicks (history ++ more) = group.primaryTicks history := by
  have hnone : (eventsOf (group.spec.primary 0) more).countP Event.isTick = 0 := by
    rw [List.countP_eq_zero]
    intro event hevent
    obtain ⟨invocation, hmem, hevent⟩ := List.mem_flatMap.mp hevent
    have hview := mem_view.mp hmem
    obtain ⟨_, _, _, -, hstep, -⟩ := hrun.of_mem (List.mem_append_right _ hview)
    obtain ⟨next, -, hdrained⟩ := hstep.localStep.1.2.loop
    rcases List.mem_cons.mp hevent with rfl | hperformed
    · have hreceives := h _ hview
      unfold Invocation.receives at hreceives
      cases hcall : invocation.call with
      | request | tick => simp [hcall] at hreceives
      | receive message => exact Bool.false_ne_true
    · obtain ⟨action, actions, rfl⟩ := hdrained.performs event hperformed
      exact Bool.false_ne_true
  rw [Group.primaryTicks, eventsOf, view_append, List.flatMap_append, ← eventsOf, ← eventsOf,
    List.countP_append, hnone, Nat.add_zero, Group.primaryTicks]

section

variable (hverifies : crypto.Verifies)

include hverifies

/-- Deliveries come to an end. -/
theorem OnlyDelivers.length_le (h : OnlyDelivers more)
    (hsize : 0 < group.maxBatchSize (group.spec.primary 0))
    (hrun : (group.protocol crypto).NetworkRun (history ++ more) network) :
    more.length ≤ Group.clientRequests history + (group.spec.numReplica - 1) *
      ((2 * group.spec.numReplica + 3 * group.primaryTicks history) *
        Group.clientRequests history) := by
  have hreceived : ((group.protocol crypto).received more).length = more.length := by
    rw [Protocol.received, List.length_filterMap_eq_countP, List.countP_eq_length]
    intro entry hentry
    rw [Option.isSome_map]
    exact h entry hentry
  have haccount := (Protocol.NetworkRun.account hrun).length_eq
  rw [Protocol.received, List.filterMap_append, ← Protocol.received, ← Protocol.received,
    List.length_append, List.length_append, hreceived] at haccount
  have hsent := NetworkRun.length_sent_le hverifies hrun
  have hproposed := NetworkRun.numProposed_le hverifies hrun hsize
  rw [h.clientRequests] at hsent hproposed
  rw [h.primaryTicks hrun] at hsent
  refine le_trans ?_ (hsent.trans (Nat.add_le_add_left
    (Nat.mul_le_mul_left _ (Nat.mul_le_mul_left _ hproposed)) _))
  omega

/-- Messages are in flight to replicas. -/
theorem NetworkRun.receiver_lt {message : ToReplica crypto}
    (hrun : (group.protocol crypto).NetworkRun history network)
    (hsent : (who, message) ∈ (group.protocol crypto).sent history) :
    who < group.spec.numReplica := by
  obtain ⟨sender, event, hevent, action, haction, hdelivery⟩ := mem_sent.mp hsent
  have hlt := NetworkRun.lt_of_event hrun hevent
  have hsender := (NetworkRun.harmonious hverifies hrun).runs sender hlt
  rcases ReplicaAction.mem_deliveries.mp hdelivery with rfl | ⟨-, hwho, -⟩
  · rcases hsender.broadcast_of_mem hevent haction with ⟨command, rfl⟩ | ⟨rfl, -⟩
    · rw [(ReplicaAction.sendToReplica.inj (hsender.forwards hevent haction rfl).1).1]
      exact primary_lt hlt
    · exact primary_lt hlt
  · exact hwho

/-- Whatever is in flight can be delivered. -/
theorem NetworkRun.delivers (hfaulty : group.spec.numFaulty ≤ group.spec.numReplica)
    (hrun : (group.protocol crypto).NetworkRun history network) (hflight : network.flight ≠ []) :
    ∃ entry next, entry.2.receives.isSome ∧ (group.protocol crypto).Step network entry next := by
  obtain ⟨⟨who, message⟩, hmem⟩ := List.exists_mem_of_ne_nil _ hflight
  have hwho := NetworkRun.receiver_lt hverifies hrun
    ((Protocol.NetworkRun.account hrun).mem_iff.mp (List.mem_append_left _ hmem))
  obtain ⟨incidents, hlossy, -, -⟩ := Protocol.NetworkRun.lossyRun hrun
  obtain ⟨invocation, next, hcall, hstep⟩ :=
    LossyRun.delivers hverifies hlossy hfaulty hwho hmem
  refine ⟨(who, invocation), next, ?_, hstep⟩
  rw [Invocation.receives, hcall]
  rfl

/-- As long as there is a bound on how many, deliveries can go on until nothing is left. -/
theorem NetworkRun.drains_within (hfaulty : group.spec.numFaulty ≤ group.spec.numReplica)
    {bound : Nat} (hbound : ∀ more network, OnlyDelivers more →
      (group.protocol crypto).NetworkRun (history ++ more) network → more.length ≤ bound)
    (budget : Nat) (hmore : OnlyDelivers more)
    (hrun : (group.protocol crypto).NetworkRun (history ++ more) network)
    (hbudget : bound < more.length + budget) :
    ∃ rest final, OnlyDelivers rest ∧
      Run (· = network) (fun _ => (group.protocol crypto).Step) rest final ∧ final.flight = [] := by
  induction budget generalizing more network with
  | zero => exact absurd (hbound more network hmore hrun) (Nat.not_le.mpr hbudget)
  | succ budget ih =>
      by_cases hflight : network.flight = []
      · exact ⟨[], network, List.forall_mem_nil _, .start rfl, hflight⟩
      · obtain ⟨entry, next, hreceives, hstep⟩ :=
          NetworkRun.delivers hverifies hfaulty hrun hflight
        have hnext := hrun.step hstep
        rw [List.append_assoc] at hnext
        have hone : OnlyDelivers [entry] := List.forall_mem_singleton.mpr hreceives
        obtain ⟨rest, final, hrest, hfinal, hquiet⟩ :=
          ih (List.forall_mem_append.mpr ⟨hmore, hone⟩) hnext
            (by rw [List.length_append, List.length_singleton]; omega)
        have hfirst : Run (· = network) (fun _ => (group.protocol crypto).Step) ([] ++ [entry])
            next := .step (.start rfl) hstep
        exact ⟨[entry] ++ rest, final, List.forall_mem_append.mpr ⟨hone, hrest⟩,
          hfirst.append hfinal, hquiet⟩

/-- All that is in flight can be delivered. -/
theorem NetworkRun.drains (hfaulty : group.spec.numFaulty ≤ group.spec.numReplica)
    (hsize : 0 < group.maxBatchSize (group.spec.primary 0))
    (hrun : (group.protocol crypto).NetworkRun history network) :
    ∃ rest final, OnlyDelivers rest ∧
      Run (· = network) (fun _ => (group.protocol crypto).Step) rest final ∧ final.flight = [] := by
  have hnone : OnlyDelivers ([] : List (Nat × Invocation crypto)) := List.forall_mem_nil _
  rw [← List.append_nil history] at hrun
  apply NetworkRun.drains_within hverifies hfaulty
    (fun more network hmore hrun => hmore.length_le hverifies hsize hrun) _ hnone hrun
  exact (Nat.lt_succ_self _).trans_eq (Nat.zero_add _).symm

end

/-- Delivering what is in flight, in any order, comes to an end, and can always be brought
to one in which every replica has finalized every request so far. The replicas are more than
one and no fewer than the fault bound, and what they sign verifies. The primary has a window
and batches at least one command. -/
theorem settles (hverifies : crypto.Verifies)
    (hfaulty : group.spec.numFaulty ≤ group.spec.numReplica) (hmany : 1 < group.spec.numReplica)
    (hsize : 0 < group.maxBatchSize (group.spec.primary 0))
    (hwindow : 0 < group.maxNumInflight (group.spec.primary 0))
    (hrun : (group.protocol crypto).NetworkRun (history ++ more) network)
    (hmore : OnlyDelivers more) :
    more.length ≤ clientRequests history + (group.spec.numReplica - 1) *
        ((2 * group.spec.numReplica + 3 * group.primaryTicks history) * clientRequests history) ∧
      ∃ rest final, OnlyDelivers rest ∧
        (group.protocol crypto).NetworkRun (history ++ more ++ rest) final ∧ final.flight = [] ∧
        ∀ who < group.spec.numReplica, ∀ other,
          ∀ command ∈ requests (eventsOf other (history ++ more)),
            Covered (finalizedLog (eventsOf who (history ++ more ++ rest))).flatten command := by
  refine ⟨hmore.length_le hverifies hsize hrun, ?_⟩
  obtain ⟨rest, final, hrest, hmore', hquiet⟩ := NetworkRun.drains hverifies hfaulty hsize hrun
  have hfinal := hrun.append hmore'
  refine ⟨rest, final, hrest, hfinal, hquiet, fun who hwho other command hcommand => ?_⟩
  apply NetworkRun.covered_of_quiet hverifies hmany hfinal hquiet hwho hwindow
  rw [eventsOf, view_append, List.flatMap_append, requests, List.filterMap_append]
  exact List.mem_append_left _ hcommand

/-- A backup has been asked and has forwarded the request. -/
def fourAsked : List (Move .transparent) := [.call 2 (.request (ping 0))]

theorem settles_four : ∃ history network,
    ((four ∅).protocol .transparent).NetworkRun history network ∧ network.flight.length = 1 ∧
      ∃ rest final, OnlyDelivers rest ∧
        ((four ∅).protocol .transparent).NetworkRun (history ++ rest) final ∧ final.flight = [] ∧
        Covered (finalizedLog (eventsOf 1 (history ++ rest))).flatten (ping 0) := by
  have hreplay : ∃ run ∈ (four ∅).replayNetwork fourAsked, (lost run.1).isEmpty ∧
      run.2.flight.length = 1 ∧ ping 0 ∈ requests (eventsOf 2 (steps run.1)) := by
    decide +kernel
  obtain ⟨⟨incidents, network⟩, hreplay, hlossless, hlength, hasked⟩ := hreplay
  obtain ⟨flight, hrun, hperm⟩ := Protocol.LossyRun.networkRun (replayNetwork_run hreplay)
  rw [List.isEmpty_iff.mp hlossless, List.append_nil] at hperm
  refine ⟨_, _, hrun, hperm.length_eq.trans hlength, ?_⟩
  have hnone : OnlyDelivers ([] : List (Nat × Invocation .transparent)) := List.forall_mem_nil _
  rw [← List.append_nil (steps incidents)] at hrun hasked ⊢
  obtain ⟨-, rest, final, hrest, hfinal, hquiet, hcovers⟩ := settles Crypto.transparent_verifies
    (by decide) (by decide) (by decide) (by decide) hrun hnone
  exact ⟨rest, final, hrest, hfinal, hquiet, hcovers 1 (by decide) 2 (ping 0) hasked⟩

end Group

end BftKit.Pbft
