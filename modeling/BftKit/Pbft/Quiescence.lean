import BftKit.Pbft.Requests
import BftKit.Pbft.Retransmission

/-! # When nothing is in flight any more

Among correct replicas a network that loses nothing needs no ticks. Once all messages are
delivered, every replica has finalized all that the primary has proposed, and the primary
has proposed all that anybody has asked for.
-/

namespace BftKit.Pbft

open Foundation CommandPool

variable {crypto : Crypto}

/-! ## What a replica has broadcast -/

namespace Replica

variable {config : ReplicaCoreConfig} {history : List (Event crypto)}
  {replica next final : Replica crypto} {blockNum : Nat} {block : Block crypto}

/-- A performed action is an event of the history. -/
theorem exists_event_of_performed {action : ReplicaCoreAction crypto}
    (hperformed : action ∈ performedIn history) :
    ∃ actions, .perform action actions ∈ history := by
  obtain ⟨event, hevent, hperformed⟩ := List.mem_filterMap.mp hperformed
  cases event with
  | call call actions => cases hperformed
  | perform other actions =>
      obtain rfl : other = action := Option.some.inj hperformed
      exact ⟨actions, hevent⟩

/-- Proposals are performed under the numbers 1, 2, 3, … -/
theorem CorrectRun.proposal_performed (hrun : CorrectRun config history replica) (hge : 1 ≤ blockNum)
    (hle : blockNum ≤ (proposals (performedIn history)).length) :
    ∃ commands, .propose blockNum commands ∈ performedIn history := by
  induction hrun with
  | start =>
      rw [performedIn_nil] at hle
      exact absurd (hge.trans hle) (by simp [proposals])
  | @step history replica event next hprev hstep ih =>
      rw [performedIn_concat] at hle ⊢
      by_cases hold : blockNum ≤ (proposals (performedIn history)).length
      · obtain ⟨commands, hcommands⟩ := ih hold
        exact ⟨commands, List.mem_append_left _ hcommands⟩
      · cases hstep.1 with
        | call => exact absurd (by simpa [Event.performed?] using hle) hold
        | @perform action rest next actions hqueue hperform =>
            obtain ⟨lists, hshape, -⟩ := (accountable hprev).coherent.queue
            cases action with
            | propose other commands =>
                simp only [Event.performed?, Option.toList_some, proposals_concat,
                  ReplicaCoreAction.proposal?, List.length_append, List.length_singleton] at hle
                cases hshape.head hqueue with
                | propose =>
                    obtain rfl : blockNum = (proposals (performedIn history)).length + 1 := by omega
                    exact ⟨commands, by simp [Event.performed?]⟩
                | solo hsolo => exact False.elim hsolo
            | prepare | commit | finalize | forward | viewChange | newView | enterView =>
                refine absurd ?_ hold
                simpa [Event.performed?, proposals_concat, ReplicaCoreAction.proposal?] using hle

/-- A primary has broadcast a PrePrepare for each of its blocks. -/
theorem CorrectRun.proposes (hrun : CorrectRun config history replica) (hge : 1 ≤ blockNum)
    (hle : blockNum ≤ (proposals (performedIn history)).length) :
    ∃ event ∈ history, ∃ sent commands, sent.blockNum = blockNum ∧
      .sendToAllReplicas (.prePrepare sent commands) ∈ event.actions := by
  obtain ⟨commands, hperformed⟩ := proposal_performed hrun hge hle
  obtain ⟨actions, hevent⟩ := exists_event_of_performed hperformed
  obtain ⟨before, log, current, next, -, -, heffect⟩ := effect_of_mem hrun hevent
  cases heffect with
  | propose => exact ⟨_, hevent, _, commands, rfl, List.mem_singleton_self _⟩

/-- A replica that is done with the calls so far has sent a Commit for each of its blocks
that is prepared. -/
theorem CorrectRun.commits (hrun : CorrectRun config history replica)
    (hidle : replica.coreActions = [])
    (hblock : replica.core.blocks[blockNum]? = some block) (hprepared : block.prepareQuorum.isSome) :
    ∃ event ∈ history, ∃ vote : Vote crypto, vote.blockNum = blockNum ∧
      vote.replicaId = config.id ∧ .sendToAllReplicas (.commit vote) ∈ event.actions := by
  have h := accountable hrun
  have hphase : Phase.commit ∈ phases blockNum (performedIn history) := by
    rw [h.coherent.phases blockNum]
    have hnot : block.prepareQuorum.isNone = false := by simpa using hprepared
    simp only [stage, hblock, hidle, preparing_nil, committing_nil, hnot, Bool.or_self,
      Bool.false_eq_true, if_false]
    split <;> simp
  obtain ⟨action, haction, hphaseOf⟩ := List.mem_filterMap.mp hphase
  obtain ⟨actions, hevent⟩ := exists_event_of_performed haction
  obtain ⟨before, log, current, next, hcurrent, -, heffect⟩ := effect_of_mem hrun hevent
  cases heffect with
  | @commit other rest stored next =>
      obtain rfl : other = blockNum := by
        by_contra hne
        simp [ReplicaCoreAction.phaseOf, hne] at hphaseOf
      refine ⟨_, hevent, _, rfl, ?_, List.mem_singleton_self _⟩
      exact congrArg ReplicaCoreConfig.id (accountable hcurrent).coherent.configured
  | propose | prepare | finalize => simp [ReplicaCoreAction.phaseOf] at hphaseOf
  | forward => cases hphaseOf

/-- A loop makes no calls. -/
theorem Drained.performs {events : List (Event crypto)} (h : Drained replica events final) :
    ∀ event ∈ events, ∃ action actions, event = .perform action actions := by
  induction h with
  | nil => simp
  | cons _ _ _ ih => simpa using ih

theorem requested_cases {call : Call crypto} {actions : List (Action crypto)} {command : Command}
    (hrequested : (Event.call call actions).requested? = some command) :
    call = .request command ∨ call = .receive (.request command) := by
  cases call with
  | request other =>
      obtain rfl : other = command := Option.some.inj hrequested
      exact .inl rfl
  | tick => cases hrequested
  | receive message =>
      cases message with
      | request other =>
          obtain rfl : other = command := Option.some.inj hrequested
          exact .inr rfl
      | prePrepare | prepare | commit => cases hrequested

/-- A backup forwards a request before it is done with it. -/
theorem Invokes.forwards {invocation : Invocation crypto} {command : Command}
    (h : replica.Invokes invocation final) (hbackup : replica.core.isPrimary = false)
    (hrequested : (Event.call invocation.call invocation.actions).requested? = some command) :
    ∃ event ∈ invocation.performed,
      .sendToReplica (replica.core.config.spec.primary replica.core.viewNum)
        (.request command) ∈ event.actions := by
  obtain ⟨next, hcall, hdrained⟩ := h.loop
  have hreceive : replica.receiveMessage (.request command) =
      .ok (next, invocation.actions) := by
    rcases requested_cases hrequested with heq | heq
    · rw [heq] at hcall
      exact hcall
    · rw [heq] at hcall
      exact hcall
  obtain ⟨queued, hhandle, hqueue⟩ := receiveRequest_hands hreceive
  simp only [ReplicaCore.handle, bind_eq_ok] at hhandle
  obtain ⟨⟨pool, accepted⟩, -, hhandle⟩ := hhandle
  have hbackup' : ReplicaCore.isPrimary { replica.core with pool } = false := hbackup
  simp only [hbackup', Bool.false_eq_true, if_false] at hhandle
  obtain ⟨-, rfl⟩ := Prod.mk.inj (Except.ok.inj hhandle)
  rw [h.idle, List.nil_append] at hqueue
  generalize invocation.performed = performed at hdrained ⊢
  cases hdrained with
  | nil =>
      have hdone := h.done
      rw [hqueue] at hdone
      cases hdone
  | cons hhead hperform =>
      obtain ⟨rfl, -⟩ := List.cons.inj (hqueue.symm.trans hhead)
      obtain ⟨-, rfl⟩ := Prod.mk.inj (Except.ok.inj hperform)
      exact ⟨_, List.mem_cons_self, List.mem_singleton_self _⟩

end Replica

/-! ## Nothing lost, nothing in flight -/

namespace Group

open Replica

variable {group : Group} {who blockNum : Nat} {message : ToReplica crypto}
  {history : List (Incident Nat (Invocation crypto) (ToReplica crypto))}
  {network : Network Nat (Replica crypto) (ToReplica crypto)}

/-- All that has been sent has been received. -/
def Quiet (history : List (Incident Nat (Invocation crypto) (ToReplica crypto)))
    (network : Network Nat (Replica crypto) (ToReplica crypto)) : Prop :=
  lost history = [] ∧ network.flight = []

section

variable (hrun : (group.protocol crypto).LossyRun history network) (hquiet : Quiet history network)

include hrun hquiet

theorem Quiet.received (hsent : (who, message) ∈ (group.protocol crypto).sent (steps history)) :
    (who, message) ∈ (group.protocol crypto).received (steps history) := by
  rcases Protocol.LossyRun.sent_cases hrun hsent with (hflight | hreceived) | hlost
  · simp [hquiet.2] at hflight
  · exact hreceived
  · simp [hquiet.1] at hlost

/-- A broadcast has reached everyone else. -/
theorem Quiet.reached {sender : Nat} {event : Event crypto} (hwho : who < group.spec.numReplica)
    (hne : who ≠ sender) (hevent : event ∈ eventsOf sender (steps history))
    (haction : .sendToAllReplicas message ∈ event.actions) :
    (who, message) ∈ (group.protocol crypto).received (steps history) := by
  refine hquiet.received hrun (mem_sent.mpr ⟨sender, event, hevent, _, haction, ?_⟩)
  exact ReplicaAction.mem_deliveries.mpr (.inr ⟨rfl, hwho, hne⟩)

end

section

variable (hverifies : crypto.Verifies) (hrun : (group.protocol crypto).LossyRun history network)
  (hquiet : Quiet history network) (hwho : who < group.spec.numReplica)

include hverifies hrun hquiet hwho

/-- Everyone has the blocks that the primary has proposed. -/
theorem Quiet.stored (hge : 1 ≤ blockNum)
    (hle : blockNum ≤ (network.states (group.spec.primary 0)).core.proposeNum) :
    group.Holds who blockNum (fun _ => True) history network := by
  have hprimary := primary_lt hwho
  have hharmonious := LossyRun.harmonious hverifies hrun
  by_cases heq : who = group.spec.primary 0
  · subst heq
    exact (LossyRun.issued hverifies hrun (Nat.zero_lt_of_lt hwho) hge hle).2
  · have h := (CorrectRun.accountable (hharmonious.runs _ hprimary)).coherent
    rw [(h.idle (LossyRun.idle hrun _)).2.1] at hle
    obtain ⟨event, hevent, sent, commands, rfl, haction⟩ :=
      CorrectRun.proposes (hharmonious.runs _ hprimary) hge hle
    have hreceived := hquiet.reached hrun hwho heq hevent haction
    obtain ⟨block, hblock⟩ := CorrectRun.stored_of_delivered (hharmonious.runs who hwho)
      (Ne.symm heq) ((LossyRun.mem_delivered hrun).mpr hreceived)
    exact ⟨block, hblock, trivial⟩

/-- The Prepare of a backup has reached everyone else. -/
theorem Quiet.counted {other : Nat} (hother : other ∈ group.backups) (hne : other ≠ who)
    (hge : 1 ≤ blockNum)
    (hle : blockNum ≤ (network.states (group.spec.primary 0)).core.proposeNum) :
    ∃ vote : Vote crypto, vote.blockNum = blockNum ∧ vote.replicaId = other ∧
      (who, .prepare vote) ∈ (group.protocol crypto).received (steps history) := by
  obtain ⟨hbackup, hlt⟩ := mem_backups.mp hother
  obtain ⟨block, hblock, -⟩ := hquiet.stored hverifies hrun hlt hge hle
  obtain ⟨vote, hnum, -, hid, hevent⟩ :=
    CorrectRun.prepares ((LossyRun.harmonious hverifies hrun).runs other hlt) (Ne.symm hbackup)
      (LossyRun.idle hrun other) hblock
  exact ⟨vote, hnum, hid,
    hquiet.reached hrun hwho (Ne.symm hne) hevent (List.mem_singleton_self _)⟩

/-- Everyone has prepared what the primary has proposed. -/
theorem Quiet.prepared (hsize : 1 < group.spec.numReplica) (hge : 1 ≤ blockNum)
    (hle : blockNum ≤ (network.states (group.spec.primary 0)).core.proposeNum) :
    group.Holds who blockNum (fun block => block.prepareQuorum.isSome) history network := by
  have hstored := hquiet.stored hverifies hrun hwho hge hle
  by_cases heq : who = group.spec.primary 0
  · obtain ⟨block, hblock, -⟩ := hstored
    have hcorrect := (LossyRun.harmonious hverifies hrun).runs who hwho
    have htally := (hcorrect.primaryTallied heq.symm).tally blockNum
    rw [hblock, LossyRun.idle hrun who] at htally
    refine ⟨block, hblock, ?_⟩
    have hvoters : group.backups ⊆ voters block.digest (preparesFor blockNum
        (delivered (eventsOf who (steps history)))) := by
      intro id hid
      have hne : id ≠ who := by
        rw [heq]
        exact (mem_backups.mp hid).1
      obtain ⟨vote, rfl, rfl, hreceived⟩ :=
        hquiet.counted hverifies hrun hwho hid hne hge hle
      exact LossyRun.prepare_voter hverifies hrun hwho hreceived hblock
    have hcard := Finset.card_le_card hvoters
    have hbackups := card_backups (Nat.zero_lt_of_lt hsize)
    cases htally with
    | prepared hqueue => simp at hqueue
    | committing _ hprepared | committed hprepared => exact hprepared
    | preparing _ _ _ hfew =>
        rcases hfew with hnone | hfew
        · -- there is a backup to hear of
          have hzero : (voters block.digest ([] : List (Vote crypto))).card = 0 := by
            simp [voters, matchingVotes]
          rw [hnone, hzero] at hcard
          omega
        · refine absurd ?_ hfew
          change group.spec.numReplica ≤ _ + 1 + group.spec.numFaulty
          omega
  · refine LossyRun.prepared_of_counted hverifies hrun (mem_backups.mpr ⟨heq, hwho⟩) ?_ hstored ?_
    · rw [hquiet.1]
      intro hcut
      have hmore := (Finset.mem_filter.mp hcut).2
      simp [lostPrepares, preparesFor, view] at hmore
    · intro other hother hne
      obtain ⟨vote, hnum, hid, hreceived⟩ :=
        hquiet.counted hverifies hrun hwho hother hne hge hle
      exact ⟨vote, hnum, hid, .inl hreceived⟩

/-- Everyone has committed what the primary has proposed. -/
theorem Quiet.committed (hsize : 1 < group.spec.numReplica) (hge : 1 ≤ blockNum)
    (hle : blockNum ≤ (network.states (group.spec.primary 0)).core.proposeNum) :
    group.Holds who blockNum (fun block => block.commitQuorum.isSome) history network := by
  obtain ⟨block, hblock, hprepared⟩ := hquiet.prepared hverifies hrun hwho hsize hge hle
  have hharmonious := LossyRun.harmonious hverifies hrun
  have hcorrect := hharmonious.runs who hwho
  refine ⟨block, hblock, ?_⟩
  -- the Commits of all replicas have been counted
  have hall : Finset.range group.spec.numReplica ⊆ committers (group.config who)
      (delivered (eventsOf who (steps history))) blockNum block.digest := by
    intro id hid
    rw [Finset.mem_range] at hid
    by_cases heq : id = who
    · exact Finset.mem_insert.mpr (.inl heq)
    · obtain ⟨stored, hstored, hsome⟩ := hquiet.prepared hverifies hrun hid hsize hge hle
      obtain ⟨event, hevent, vote, rfl, rfl, haction⟩ :=
        CorrectRun.commits (hharmonious.runs id hid) (LossyRun.idle hrun id) hstored hsome
      have hreceived := hquiet.reached hrun hwho (Ne.symm heq) hevent haction
      exact Finset.mem_insert_of_mem (LossyRun.commit_voter hverifies hrun hwho hreceived hblock)
  have hcard := Finset.card_le_card hall
  rw [Finset.card_range] at hcard
  have henough : Enough (group.config who) (committers (group.config who)
      (delivered (eventsOf who (steps history))) blockNum block.digest).card :=
    hcard.trans (Nat.le_add_right _ _)
  by_cases heq : who = group.spec.primary 0
  · have htally := (hcorrect.primaryTallied heq.symm).tally blockNum
    rw [hblock, LossyRun.idle hrun who] at htally
    cases htally with
    | preparing hnone => simp [hnone] at hprepared
    | prepared hqueue => simp at hqueue
    | committing _ _ _ _ _ hfew => exact absurd henough hfew
    | committed _ hcommitted => exact hcommitted
  · have htally := (hcorrect.tallied (Ne.symm heq)).tally blockNum
    rw [hblock, LossyRun.idle hrun who] at htally
    cases htally with
    | accepted _ _ hnone | preparing _ _ hnone => simp [hnone] at hprepared
    | prepared _ hqueue => simp at hqueue
    | committing _ _ _ _ _ _ hfew => exact absurd henough hfew
    | committed _ _ hcommitted => exact hcommitted

/-- Everyone has finalized exactly what the primary has proposed. -/
theorem Quiet.finalizeNum (hsize : 1 < group.spec.numReplica) :
    (network.states who).core.finalizeNum =
      (network.states (group.spec.primary 0)).core.proposeNum := by
  have hharmonious := LossyRun.harmonious hverifies hrun
  have hcorrect := hharmonious.runs who hwho
  have h := (CorrectRun.accountable hcorrect).coherent
  have hprimary := (CorrectRun.accountable (hharmonious.runs _ (primary_lt hwho))).coherent
  have hisPrimary := hprimary.isPrimary_eq.trans (beq_self_eq_true _)
  refine le_antisymm ?_ ?_
  · by_cases hzero : (network.states who).core.finalizeNum = 0
    · omega
    · obtain ⟨block, hblock, -⟩ :=
        h.committed (network.states who).core.finalizeNum (by omega) le_rfl
      obtain ⟨stored, hstored, -⟩ := LossyRun.same_block hverifies hrun hwho hblock
      rw [(hprimary.idle (LossyRun.idle hrun _)).2.1]
      exact (hprimary.bounds hisPrimary hstored).2
  · have hsettled : (network.states who).core.Settled := by
      by_cases heq : who = group.spec.primary 0
      · exact (hcorrect.primaryTallied heq.symm).settled
      · exact (hcorrect.tallied (Ne.symm heq)).settled
    by_contra hlt
    obtain ⟨block, hblock, hcommitted⟩ := hquiet.committed hverifies hrun hwho hsize
      (show 1 ≤ (network.states who).core.finalizeNum + 1 by omega) (by omega)
    exact hsettled block hblock ⟨h.prepared _ block hblock hcommitted, hcommitted⟩

omit hquiet in
/-- The blocks of a replica hold what the primary has proposed under their numbers. -/
theorem LossyRun.same_commands {block : Block crypto}
    (hblock : (network.states who).core.blocks[blockNum]? = some block) :
    ∃ stored : Block crypto,
      (network.states (group.spec.primary 0)).core.blocks[blockNum]? = some stored ∧
        stored.commands = block.commands := by
  by_cases heq : who = group.spec.primary 0
  · subst heq
    exact ⟨block, hblock, rfl⟩
  · obtain ⟨sent, hdelivered, rfl⟩ := CorrectRun.proposed
      ((LossyRun.harmonious hverifies hrun).runs who hwho) (Ne.symm heq) hblock
    exact (LossyRun.sound hverifies hrun (.inr ((LossyRun.mem_delivered hrun).mp hdelivered))).backed

/-- Every log is all that the primary has proposed. -/
theorem Quiet.log (hsize : 1 < group.spec.numReplica) :
    finalizedLog (eventsOf who (steps history)) =
      proposals (performedIn (eventsOf (group.spec.primary 0) (steps history))) := by
  have hharmonious := LossyRun.harmonious hverifies hrun
  have haccountable := CorrectRun.accountable (hharmonious.runs who hwho)
  have hprimary := (CorrectRun.accountable (hharmonious.runs _ (primary_lt hwho))).coherent
  have hlength : (finalizedLog (eventsOf who (steps history))).length =
      (proposals (performedIn (eventsOf (group.spec.primary 0) (steps history)))).length := by
    rw [haccountable.length_log, ← (haccountable.coherent.idle (LossyRun.idle hrun who)).1,
      hquiet.finalizeNum hverifies hrun hwho hsize,
      (hprimary.idle (LossyRun.idle hrun _)).2.1]
  refine List.ext_getElem hlength fun index hlt hlt' => ?_
  obtain ⟨block, hblock, hcommands⟩ := Option.map_eq_some_iff.mp
    (haccountable.commandsAt_of_log (List.getElem?_eq_getElem hlt))
  obtain ⟨stored, hstored, hsame⟩ := LossyRun.same_commands hverifies hrun hwho hblock
  have hproposal := hprimary.primary (hprimary.isPrimary_eq.trans (beq_self_eq_true _)) (index + 1)
  rw [commandsAt, hstored, Option.map_some, if_neg (Nat.succ_ne_zero index),
    Nat.add_sub_cancel, List.getElem?_eq_getElem hlt', Option.some.injEq] at hproposal
  rw [← hproposal, hsame, hcommands]

end

/-! ## Requests -/

section

variable {history : List (Nat × Invocation crypto)}

variable {history : List (Nat × Invocation crypto)} (hverifies : crypto.Verifies)
  (hrun : (group.protocol crypto).NetworkRun history network)

include hverifies hrun

/-- A backup passes on to the primary what it is asked for. -/
theorem NetworkRun.forwarded {other : Nat} (hbackup : other ≠ group.spec.primary 0)
    {command : Command} (hrequest : command ∈ requests (eventsOf other history)) :
    (group.spec.primary 0, .request command) ∈ (group.protocol crypto).sent history := by
  obtain ⟨event, hevent, hrequested⟩ := List.mem_filterMap.mp hrequest
  obtain ⟨invocation, hmem, hevent'⟩ := List.mem_flatMap.mp hevent
  obtain ⟨before, current, next, hcurrent, hstep, -⟩ := hrun.of_mem (mem_view.mp hmem)
  obtain ⟨⟨hother, hinvokes⟩, -⟩ := hstep.localStep
  have h := (CorrectRun.accountable
    ((NetworkRun.harmonious hverifies hcurrent).runs other hother)).coherent
  have hcall : event = .call invocation.call invocation.actions := by
    rcases List.mem_cons.mp hevent' with heq | hperformed
    · exact heq
    · obtain ⟨after, -, hdrained⟩ := hinvokes.loop
      obtain ⟨action, actions, rfl⟩ := hdrained.performs event hperformed
      cases hrequested
  rw [hcall] at hrequested
  have hnot : (current.states other).core.isPrimary = false := by
    rw [h.isPrimary_eq]
    exact beq_eq_false_iff_ne.mpr (Ne.symm hbackup)
  obtain ⟨forward, hforward, haction⟩ := hinvokes.forwards hnot hrequested
  rw [h.configured, h.view] at haction
  refine mem_sent.mpr ⟨other, forward, ?_, _, haction, ReplicaAction.mem_deliveries.mpr (.inl rfl)⟩
  exact List.mem_flatMap.mpr ⟨invocation, hmem, List.mem_cons_of_mem _ hforward⟩

/-- When nothing is in flight, the primary has been asked for what anybody has been. -/
theorem NetworkRun.requests_subset (hquiet : network.flight = []) (other : Nat) :
    requests (eventsOf other history) ⊆ requests (eventsOf (group.spec.primary 0) history) := by
  intro command hcommand
  by_cases heq : other = group.spec.primary 0
  · rwa [← heq]
  · have hsent := NetworkRun.forwarded hverifies hrun heq hcommand
    have haccount := Protocol.NetworkRun.account hrun
    rw [hquiet, List.nil_append] at haccount
    have hdelivered := (NetworkRun.mem_delivered hrun).mpr (haccount.mem_iff.mpr hsent)
    obtain ⟨event, hevent, hmessage⟩ := List.mem_filterMap.mp hdelivered
    refine List.mem_filterMap.mpr ⟨event, hevent, ?_⟩
    cases event with
    | perform => cases hmessage
    | call call actions =>
        cases call with
        | request | tick => cases hmessage
        | receive message =>
            obtain rfl : message = .request command := Option.some.inj hmessage
            rfl

end

section

variable {history : List (Nat × Invocation crypto)} (hverifies : crypto.Verifies)
  (hsize : 1 < group.spec.numReplica) (hrun : (group.protocol crypto).NetworkRun history network)
  (hquiet : network.flight = []) (hwho : who < group.spec.numReplica)

include hverifies hsize hrun hquiet hwho

/-- When nothing is in flight, everyone has finalized all that the primary has proposed. -/
theorem NetworkRun.log_of_quiet : finalizedLog (eventsOf who history) =
      proposals (performedIn (eventsOf (group.spec.primary 0) history)) ∧
    (network.states who).core.finalizeNum =
      (network.states (group.spec.primary 0)).core.proposeNum := by
  obtain ⟨incidents, hlossy, rfl, hlossless⟩ := Protocol.NetworkRun.lossyRun hrun
  have hquiet' : Quiet incidents network := ⟨hlossless, hquiet⟩
  exact ⟨hquiet'.log hverifies hlossy hwho hsize,
    hquiet'.finalizeNum hverifies hlossy hwho hsize⟩

/-- When nothing is in flight, what anybody has been asked for is finalized. -/
theorem NetworkRun.covered_of_quiet (hwindow : 0 < group.maxNumInflight (group.spec.primary 0))
    {other : Nat} {command : Command} (hcommand : command ∈ requests (eventsOf other history)) :
    Covered (finalizedLog (eventsOf who history)).flatten command := by
  have hlocal := CorrectRun.localRun
    ((NetworkRun.harmonious hverifies hrun).runs _ (primary_lt hwho)) rfl
  have hidle := NetworkRun.idle hrun (group.spec.primary 0)
  -- with everything finalized there is room in the window, so nothing waits
  have hempty : (network.states (group.spec.primary 0)).core.pool.pending = [] := by
    rcases (LocalRun.busy hlocal rfl).conserving with hempty | hfull
    · exact hempty
    · have hconfig := (Accountable.of_run hlocal).coherent.configured
      have hnum := (NetworkRun.log_of_quiet hverifies hsize hrun hquiet (primary_lt hwho)).2
      rw [hconfig] at hfull
      change _ = _ + group.maxNumInflight (group.spec.primary 0) at hfull
      omega
  have hcovered := (LocalRun.accounts hlocal rfl).covered command
    (NetworkRun.requests_subset hverifies hrun hquiet other hcommand)
  rwa [hempty, handedOut, hidle, List.append_nil, List.append_nil,
    ← (NetworkRun.log_of_quiet hverifies hsize hrun hquiet hwho).1] at hcovered

end

/-- Once nothing is in flight any more, every replica has finalized the same log: all that
the primary has proposed, which covers all that any replica has been asked for. The replicas
are more than one and follow the code, what they sign verifies, and the primary has a window.
Nothing is assumed of the order of deliveries and ticks. -/
theorem quiescent {history : List (Nat × Invocation crypto)} (hverifies : crypto.Verifies)
    (hsize : 1 < group.spec.numReplica)
    (hwindow : 0 < group.maxNumInflight (group.spec.primary 0))
    (hrun : (group.protocol crypto).NetworkRun history network) (hquiet : network.flight = [])
    (hwho : who < group.spec.numReplica) :
    finalizedLog (eventsOf who history) =
        proposals (performedIn (eventsOf (group.spec.primary 0) history)) ∧
      ∀ other, ∀ command ∈ requests (eventsOf other history),
        Covered (finalizedLog (eventsOf who history)).flatten command := by
  refine ⟨(NetworkRun.log_of_quiet hverifies hsize hrun hquiet hwho).1, ?_⟩
  intro other command hcommand
  exact NetworkRun.covered_of_quiet hverifies hsize hrun hquiet hwho hwindow hcommand

/-- A client asks a backup, and everything in flight is delivered in order. -/
def fourForwarded : List (Move .transparent) :=
  .call 2 (.request (ping 0)) :: List.replicate 25 (.deliver 0)

/-- A client's command is finalized by all four. -/
theorem quiescent_normalCase : ∃ history network,
    ((four ∅).protocol .transparent).NetworkRun history network ∧
      finalizedLog (eventsOf 1 history) = [[ping 0]] ∧
      ∀ other, ∀ command ∈ requests (eventsOf other history),
        Covered (finalizedLog (eventsOf 1 history)).flatten command := by
  have hreplay : ∃ run ∈ (four ∅).replayNetwork fourForwarded,
      (lost run.1).isEmpty ∧ run.2.flight.isEmpty ∧
        finalizedLog (eventsOf 1 (steps run.1)) = [[ping 0]] := by
    decide +kernel
  obtain ⟨⟨incidents, network⟩, hreplay, hlossless, hflight, hlog⟩ := hreplay
  obtain ⟨flight, hrun, hperm⟩ := Protocol.LossyRun.networkRun (replayNetwork_run hreplay)
  have hquiet : flight = [] := by
    rw [List.isEmpty_iff.mp hflight, List.isEmpty_iff.mp hlossless] at hperm
    exact hperm.eq_nil
  refine ⟨_, _, hrun, hlog, ?_⟩
  exact (quiescent Crypto.transparent_verifies (by decide) (by decide) hrun hquiet
    (by decide : 1 < (four ∅).spec.numReplica)).2

end Group

end BftKit.Pbft
