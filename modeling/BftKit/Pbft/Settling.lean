import BftKit.Pbft.Rest
import BftKit.Transport.Doomed

/-! # Coming to rest

Whatever a group of correct servers has got into, it can be brought to rest without any more
requests, as long as no service has ended and no server is doomed.
-/

namespace BftKit.Pbft

open Foundation Transport Replica

variable {crypto : Crypto}

/-- A request is always taken in. -/
theorem Replica.CorrectRun.takes {config : ReplicaCoreConfig} {history : List (Event crypto)}
    {replica : Replica crypto} (hrun : CorrectRun config history replica)
    (hfaulty : config.spec.numFaulty ≤ config.spec.numReplica) (hidle : replica.coreActions = [])
    (command : Command) :
    ∃ invocation final, invocation.call = .request command ∧
      replica.Invokes invocation final := by
  obtain ⟨log, hready⟩ := (accountable hrun).ready
  obtain ⟨⟨next, actions⟩, hcall⟩ := request_ok hready command
  obtain ⟨performed, final, hinvokes⟩ := hrun.invokes hfaulty hidle
    (fun _ hdelivered => by cases hdelivered) hcall
  exact ⟨_, final, rfl, hinvokes⟩

/-- A message that is delivered is no request. -/
theorem Replica.submitted_of_receives {invocation : Invocation crypto}
    (hreceives : invocation.receives.isSome) : invocation.submitted? = none := by
  unfold Invocation.receives at hreceives
  rw [Invocation.submitted?]
  cases hcall : invocation.call with
  | request =>
      rw [hcall] at hreceives
      cases hreceives
  | receive | tick => rfl

namespace Group

variable {group : Group} {who : Nat}

section Replicas

variable {history : List (Nat × Invocation crypto)}
  {network : Network Nat (Replica crypto) (ToReplica crypto)}
  (hverifies : crypto.Verifies) (hfaulty : group.spec.numFaulty ≤ group.spec.numReplica)
  (hrun : (group.protocol crypto).NetworkRun history network)

include hverifies hfaulty hrun

/-- A replica of the network takes a request. -/
theorem NetworkRun.takes (hwho : who < group.spec.numReplica) (command : Command) :
    ∃ invocation next, (group.protocol crypto).receives invocation = none ∧
      invocation.submitted? = some command ∧
      (group.protocol crypto).step who (network.states who) invocation next := by
  obtain ⟨invocation, next, hcall, hinvokes⟩ :=
    ((NetworkRun.harmonious hverifies hrun).runs who hwho).takes hfaulty (NetworkRun.idle hrun who)
      command
  refine ⟨invocation, next, ?_, ?_, hwho, hinvokes⟩
  · change invocation.receives = none
    rw [Invocation.receives, hcall]
  · rw [Invocation.submitted?, hcall]

/-- It can take any number of them, one after the other. -/
theorem NetworkRun.takes_all (hwho : who < group.spec.numReplica) (commands : List Command) :
    ∃ more next, Run (· = network) (fun _ => (group.protocol crypto).Step) more next ∧
      (view who more).filterMap Invocation.submitted? = commands ∧
      ∀ other, other ≠ who → view other more = [] := by
  induction commands using List.reverseRecOn with
  | nil => exact ⟨[], network, .start rfl, rfl, fun _ _ => rfl⟩
  | append_singleton commands command ih =>
      obtain ⟨more, next, hmore, hsubmitted, hothers⟩ := ih
      obtain ⟨invocation, target, hreceives, hcommand, hstep⟩ :=
        NetworkRun.takes hverifies hfaulty (hrun.append hmore) hwho command
      refine ⟨more ++ [(who, invocation)], _, hmore.step (.act hreceives hstep), ?_, ?_⟩
      · rw [view_append, view_singleton_self, List.filterMap_append, hsubmitted,
          List.filterMap_cons_some hcommand, List.filterMap_nil]
      · intro other hne
        rw [view_append, view_singleton_of_ne (Ne.symm hne), List.append_nil]
        exact hothers other hne

/-- So can all the replicas. -/
theorem NetworkRun.all_take (asked : Nat → List Command) (parties : List Nat)
    (hparties : ∀ who ∈ parties, who < group.spec.numReplica) (hnodup : parties.Nodup) :
    ∃ more next, Run (· = network) (fun _ => (group.protocol crypto).Step) more next ∧
      ∀ who, (view who more).filterMap Invocation.submitted? =
        if who ∈ parties then asked who else [] := by
  induction parties with
  | nil => exact ⟨[], network, .start rfl, fun _ => rfl⟩
  | cons who rest ih =>
      obtain ⟨hwho, hrest⟩ := List.forall_mem_cons.mp hparties
      obtain ⟨hnot, hnodup⟩ := List.nodup_cons.mp hnodup
      obtain ⟨more, next, hmore, hall⟩ := ih hrest hnodup
      obtain ⟨later, final, hlater, hasked, hothers⟩ :=
        NetworkRun.takes_all hverifies hfaulty (hrun.append hmore) hwho (asked who)
      refine ⟨more ++ later, final, hmore.append hlater, ?_⟩
      intro other
      rw [view_append, List.filterMap_append, hall other]
      by_cases heq : other = who
      · subst heq
        rw [if_neg hnot, if_pos List.mem_cons_self, hasked, List.nil_append]
      · rw [hothers other heq, List.filterMap_nil, List.append_nil]
        simp only [List.mem_cons, heq, false_or]

end Replicas

/-- Correct replicas take requests and come to an end with them. -/
theorem networkTasks_responsive (hverifies : crypto.Verifies)
    (hfaulty : group.spec.numFaulty ≤ group.spec.numReplica)
    (hsize : 0 < group.maxBatchSize (group.spec.primary 0)) :
    BoundedServer.Responsive (group.networkTasks crypto) (group.protocol crypto)
      group.spec.numReplica where
  member _ _ _ _ hstep := hstep.1
  takes _ _ hrun _ hwho command := NetworkRun.takes hverifies hfaulty hrun hwho command
  settles history network hrun asked := by
    obtain ⟨more, next, hmore, hasked⟩ := NetworkRun.all_take hverifies hfaulty hrun asked
      (List.range group.spec.numReplica) (fun who => List.mem_range.mp) List.nodup_range
    obtain ⟨rest, final, hrest, hfinal, hquiet⟩ :=
      NetworkRun.drains hverifies hfaulty hsize (hrun.append hmore)
    refine ⟨more ++ rest, final, hmore.append hfinal, hquiet, ?_⟩
    intro who hwho
    have hnone : (view who rest).filterMap Invocation.submitted? = [] := by
      apply List.filterMap_eq_nil_iff.mpr
      intro invocation hinvocation
      exact submitted_of_receives (hrest _ (mem_view.mp hinvocation))
    change (view who (more ++ rest)).filterMap Invocation.submitted? = asked who
    rw [view_append, List.filterMap_append, hasked who, if_pos (List.mem_range.mpr hwho), hnone,
      List.append_nil]

/-! ## Servers with bounded channels -/

/-- The runs of a network of correct servers, whose channels have capacities. -/
abbrev BoundedNetworkRun (group : Group) (capacities : Capacities) :
    List (Nat × BoundedLabel (Invocation crypto) Reply Finalized) →
      Network Nat (BoundedServer (Replica crypto) Reply Finalized) (ToReplica crypto) → Prop :=
  (BoundedServer.protocol (group.networkTasks crypto) (group.protocol crypto)
    capacities).NetworkRun

/-- How such a network goes on. -/
abbrev BoundedNetworkContinues (group : Group) (capacities : Capacities)
    (network : Network Nat (BoundedServer (Replica crypto) Reply Finalized) (ToReplica crypto)) :
    List (Nat × BoundedLabel (Invocation crypto) Reply Finalized) →
      Network Nat (BoundedServer (Replica crypto) Reply Finalized) (ToReplica crypto) → Prop :=
  Run (· = network) fun _ => (BoundedServer.protocol (group.networkTasks crypto)
    (group.protocol crypto) capacities).Step

/-- Unless a service has ended, correct servers can go on to where nothing is left to do, without
any more requests of clients, just if none of them is doomed: a service that waits for room in a
full request channel has left room in the other one for all that its replica task has finalized.
In the code these hold a thousand requests and a hundred finalized lists. The channels of the
connections are taken to have room. The group is not smaller than its fault bound, the primary
batches at least one command, and what correct replicas sign verifies. There need not be another
replica, or a window: commands may stay in the pool. -/
theorem comes_to_rest_iff (capacities : Capacities) (hverifies : crypto.Verifies)
    (hfaulty : group.spec.numFaulty ≤ group.spec.numReplica)
    (hsize : 0 < group.maxBatchSize (group.spec.primary 0))
    {history : List (Nat × BoundedLabel (Invocation crypto) Reply Finalized)}
    {network : Network Nat (BoundedServer (Replica crypto) Reply Finalized) (ToReplica crypto)}
    (hrun : group.BoundedNetworkRun capacities history network)
    (hup : ∀ who < group.spec.numReplica, ∃ task, (network.states who).task = .ok task) :
    (∃ more final, group.BoundedNetworkContinues capacities network more final ∧
      group.AllAtRest (BoundedServer.unboundedNetwork final) ∧
      ∀ who, forwardedBy (BoundedServer.acts more) who = []) ↔
    ∀ who < group.spec.numReplica, ¬BoundedServer.Doomed capacities (network.states who) := by
  rw [← BoundedServer.rests_iff group.networkTasks_networked
    (networkTasks_responsive hverifies hfaulty hsize) hrun hup]
  constructor
  · rintro ⟨more, final, hmore, ⟨hquiet, hrest⟩, hnone⟩
    exact ⟨more, final, hmore, hquiet, hrest, hnone⟩
  · rintro ⟨more, final, hmore, hquiet, hrest, hnone⟩
    exact ⟨more, final, hmore, ⟨hquiet, hrest⟩, hnone⟩

/-- Two clients have asked the third of four servers, whose request channel holds one request, so
that its service waits with the other one. It is not doomed, and all go on to rest. -/
theorem comes_to_rest_iff_four : ∃ (capacities : Capacities)
    (history : List (Nat × BoundedLabel (Invocation .transparent) Reply Finalized))
    (network : Network Nat (BoundedServer (Replica .transparent) Reply Finalized)
      (ToReplica .transparent)),
    (four ∅).BoundedNetworkRun capacities history network ∧ capacities.requests = 1 ∧
      (network.states 2).requests = [ping 0] ∧ (network.states 2).forwarding = [ping 1] ∧
      ∃ more final, (four ∅).BoundedNetworkContinues capacities network more final ∧
        (four ∅).AllAtRest (BoundedServer.unboundedNetwork final) ∧
        ∀ who, forwardedBy (BoundedServer.acts more) who = [] := by
  let capacities : Capacities := ⟨1, 100, by decide, by decide⟩
  let tasks := (four ∅).networkTasks .transparent
  let protocol := BoundedServer.protocol tasks ((four ∅).protocol .transparent) capacities
  let server : List Command → List Command → BoundedServer (Replica .transparent) Reply Finalized :=
    fun requests forwarding => { protocol.start 2 with requests, forwarding }
  let among : BoundedServer (Replica .transparent) Reply Finalized →
      Network Nat (BoundedServer (Replica .transparent) Reply Finalized) (ToReplica .transparent) :=
    fun server => ⟨Function.update protocol.start 2 server, []⟩
  have hself : ∀ before, (among before).states 2 = before :=
    fun before => Function.update_self 2 before protocol.start
  have hnext : ∀ history before label after, (four ∅).BoundedNetworkRun capacities history
      (among before) → protocol.step 2 before label after → protocol.receives label = none →
      protocol.sends 2 label = [] →
      (four ∅).BoundedNetworkRun capacities (history ++ [(2, label)]) (among after) := by
    intro history before label after hrun hstep hreceives hsends
    rw [← hself before] at hstep
    have hact := @Protocol.Step.act _ _ _ _ _ protocol (among before) 2 label after hreceives hstep
    rw [hsends] at hact
    dsimp only [among] at hact
    rw [Function.update_idem, List.append_nil] at hact
    exact hrun.step hact
  have hwaits : ∀ requests command, protocol.step 2 (server requests [])
      (.act (.service ⟨.message (some command), [.forward command]⟩))
      (server requests [command]) := by
    intro requests command
    have hreceive : service.step (Service.new 2) (.message (some command)) =
        ([.forward command], .ok (Service.new 2)) := by
      rw [Service.step, Service.receive, Service.new, Finmap.lookup_empty]
    have hservice := @BoundedServer.Step.service _ _ _ _ _ tasks capacities 2 []
      (server requests []) (.message (some command)) [] (Service.new 2) rfl rfl rfl
    rw [hreceive] at hservice
    exact hservice
  have hstart : (four ∅).BoundedNetworkRun capacities [] (among (server [] [])) := by
    apply Run.start
    exact congrArg (Network.mk · []) (Function.update_eq_self 2 protocol.start)
  have hwaiting := hnext _ _ _ _ hstart (hwaits [] (ping 0)) rfl rfl
  have hsent := hnext _ _ _ (server [ping 0] []) hwaiting (.forward rfl Nat.zero_lt_one) rfl rfl
  have hfull := hnext _ _ _ _ hsent (hwaits [ping 0] (ping 1)) rfl rfl
  have hidle : ∀ who, (∃ task, ((among (server [ping 0] [ping 1])).states who).task = .ok task) ∧
      ¬BoundedServer.Doomed capacities ((among (server [ping 0] [ping 1])).states who) := by
    intro who
    by_cases heq : who = 2
    · subst heq
      rw [hself]
      exact ⟨⟨_, rfl⟩, fun hdoomed => Nat.not_lt_zero _ hdoomed.finalized⟩
    · dsimp only [among]
      rw [Function.update_of_ne heq]
      exact ⟨⟨_, rfl⟩, fun hdoomed => hdoomed.forwarding rfl⟩
  refine ⟨capacities, _, _, hfull, rfl, ?_, ?_, ?_⟩
  · rw [hself]
  · rw [hself]
  · exact (comes_to_rest_iff capacities Crypto.transparent_verifies (by decide) (by decide) hfull
      fun who _ => (hidle who).1).mpr fun who _ => (hidle who).2

end Group

end BftKit.Pbft
