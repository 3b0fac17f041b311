import BftKit.Pbft.Attribution

/-! # Sending again

Among correct replicas every message in flight can be delivered. When the primary ticks
twice, it sends the PrePrepares of all blocks that are not committed again, and a backup
with the block answers such a PrePrepare with its Prepare and, once prepared, its Commit.
-/

namespace BftKit.Pbft

open Foundation

variable {crypto : Crypto}

/-! ## One replica -/

namespace Replica

variable {config : ReplicaCoreConfig} {history : List (Event crypto)}
  {replica next final : Replica crypto} {message : ToReplica crypto}

/-- Nothing is performed on an empty queue. -/
theorem Drained.of_idle {events : List (Event crypto)} (h : Drained replica events final)
    (hidle : replica.coreActions = []) : events = [] ∧ final = replica := by
  cases h with
  | nil => exact ⟨rfl, rfl⟩
  | cons hqueue => simp [hidle] at hqueue

/-- A call that is made comes to its end. -/
theorem CorrectRun.invokes (hrun : CorrectRun config history replica)
    (hfaulty : config.spec.numFaulty ≤ config.spec.numReplica) (hidle : replica.coreActions = [])
    {call : Call crypto} {actions : List (Action crypto)}
    (hinformed : Informed config replica (.call call actions))
    (hcall : replica.call call = .ok (next, actions)) :
    ∃ performed final, replica.Invokes ⟨call, actions, performed⟩ final := by
  have hnext : CorrectRun config (history ++ [.call call actions]) next :=
    .step hrun ⟨.call hidle hcall, hinformed⟩
  obtain ⟨fuel, final, performed, hdrain, hdone⟩ := drains (accountable hnext) hfaulty hnext.roomy
  exact ⟨performed, final, hidle, ⟨next, hcall, drain_drained hdrain⟩, hdone⟩

theorem CorrectRun.receives (hrun : CorrectRun config history replica)
    (hfaulty : config.spec.numFaulty ≤ config.spec.numReplica) (hidle : replica.coreActions = [])
    (hinforms : Informs config replica message) :
    ∃ invocation final, invocation.call = .receive message ∧
      replica.Invokes invocation final := by
  obtain ⟨⟨next, actions⟩, hcall⟩ := hrun.receives_ok hfaulty hinforms
  obtain ⟨performed, final, hinvokes⟩ := hrun.invokes hfaulty hidle (by
    intro other hdelivered
    obtain rfl := Option.some.inj hdelivered
    exact hinforms) hcall
  exact ⟨_, final, rfl, hinvokes⟩

/-- A tick of the primary sends again what had been proposed by the tick before. -/
theorem CorrectRun.tick (hrun : CorrectRun config history replica)
    (hfaulty : config.spec.numFaulty ≤ config.spec.numReplica)
    (hprimary : config.spec.primary 0 = config.id) :
    ∃ actions, replica.call .tick =
        .ok ({ replica with tickedScratchNum := replica.core.proposeNum }, actions) ∧
      ∀ (blockNum : Nat) (block : Block crypto), replica.core.blocks[blockNum]? = some block →
        block.commitQuorum = none → blockNum ≤ replica.tickedScratchNum →
        .sendToAllReplicas (.prePrepare (replica.signPrePrepare blockNum block.digest)
          block.commands) ∈ actions := by
  have h := (accountable hrun).coherent
  obtain ⟨lists, -, hissued, -⟩ := h.queue
  have hisPrimary : ReplicaCore.isPrimary replica.core = true := by
    rw [h.isPrimary_eq]
    exact beq_iff_eq.mpr hprimary
  have hlawful := tick_lawful (h.ready hissued) none
  cases htick : replica.tick with
  | error panic =>
      rw [htick] at hlawful
      rw [← h.configured] at hfaulty
      exact absurd hlawful (not_tolerated hfaulty hrun.roomy)
  | ok result =>
      obtain ⟨next, actions⟩ := result
      have hcall := htick
      simp only [Replica.tick, hisPrimary, Bool.not_true, Bool.false_eq_true, if_false,
        bind_eq_ok] at hcall
      obtain ⟨resent, hmap, heq⟩ := hcall
      obtain ⟨rfl, rfl⟩ := Prod.mk.inj (Except.ok.inj heq)
      refine ⟨resent.flatten, htick, ?_⟩
      intro blockNum block hblock hopen hticked
      have hlate := h.toStored.late_of_uncommitted fun stored hstored =>
        Option.some.inj (hblock.symm.trans hstored) ▸ hopen
      have hpos := pos hrun hblock
      -- an uncommitted block is past the finalized ones, so the loop comes to it
      have hitem : blockNum ∈ List.range' (replica.core.finalizeNum + 1)
          (replica.tickedScratchNum + 1 - (replica.core.finalizeNum + 1)) := by
        rw [List.mem_range'_1]
        omega
      obtain ⟨sent, hsent, hresend⟩ := mapM_mem hmap hitem
      refine List.mem_flatten.mpr ⟨sent, hsent, ?_⟩
      have hnot : replica.core.isCommitted blockNum = false := by
        rw [h.isCommitted_eq hpos, hblock, Option.any_some, hopen]
        rfl
      simp only [resendPrePrepare, hnot, Bool.false_eq_true, if_false, hblock] at hresend
      obtain rfl := Except.ok.inj hresend
      exact List.mem_singleton_self _

/-- A PrePrepare for a block that is there is answered with the votes there are. -/
theorem receivePrePrepare_stored {sent : PrePrepare crypto} {commands : List Command}
    {block : Block crypto} (hview : sent.viewNum = replica.core.viewNum)
    (hblock : replica.core.blocks[sent.blockNum]? = some block)
    (hdigest : block.digest = sent.digest) :
    replica.call (.receive (.prePrepare sent commands)) = .ok (replica,
      let vote := replica.signVote sent.blockNum sent.digest
      let primary := replica.core.config.spec.primary replica.core.viewNum
      .sendToReplica primary (.prepare vote) ::
        if block.prepareQuorum.isSome then [.sendToReplica primary (.commit vote)] else []) := by
  simp only [Replica.call, receiveMessage, receivePrePrepare, hview, ne_eq, not_true_eq_false,
    if_false, hblock, hdigest, if_true]

/-- A backup has the blocks that have been proposed to it. -/
theorem CorrectRun.stored_of_delivered (hrun : CorrectRun config history replica)
    (hbackup : config.spec.primary 0 ≠ config.id) {sent : PrePrepare crypto}
    {commands : List Command} (hdelivered : .prePrepare sent commands ∈ delivered history) :
    ∃ block : Block crypto, replica.core.blocks[sent.blockNum]? = some block := by
  have htally := (tallied hrun hbackup).tally sent.blockNum
  cases hblock : replica.core.blocks[sent.blockNum]? with
  | some block => exact ⟨block, rfl⟩
  | none =>
      rw [hblock] at htally
      cases htally with
      | missing hnew => exact absurd ⟨sent, hdelivered, rfl⟩ (hnew commands)

end Replica

/-! ## The network -/

namespace Group

open Replica

/-- What may repair a run: ticks of the primary, and deliveries. -/
def Repairs (group : Group) (who : Nat) (invocation : Invocation crypto) : Prop :=
  match invocation.call with
  | .tick => who = group.spec.primary 0
  | .receive _ => True
  | .request _ => False

variable {group : Group} {who : Nat} {message : ToReplica crypto}

theorem mem_sends {invocation : Invocation crypto} {sender : Nat} {action : Action crypto}
    (haction : action ∈ invocation.actions)
    (hdelivery : (who, message) ∈ action.deliveries group.spec.numReplica sender) :
    (who, message) ∈ (group.protocol crypto).sends sender invocation := by
  refine List.mem_flatMap.mpr ⟨action, ?_, hdelivery⟩
  exact List.mem_flatMap.mpr ⟨_, List.mem_cons_self, haction⟩

variable {history : List (Incident Nat (Invocation crypto) (ToReplica crypto))}
  {network : Network Nat (Replica crypto) (ToReplica crypto)}

/-- A delivered message has been received. -/
theorem mem_received {invocation : Invocation crypto} (hcall : invocation.call = .receive message) :
    (who, message) ∈ (group.protocol crypto).received
      (steps (history ++ [.step who invocation])) := by
  have hreceives : (group.protocol crypto).receives invocation = some message := by
    change invocation.receives = some message
    rw [Invocation.receives, hcall]
  rw [steps_concat_step, Protocol.received_concat, hreceives]
  exact List.mem_append_right _ (List.mem_singleton_self _)

section

variable (hverifies : crypto.Verifies) (hrun : (group.protocol crypto).LossyRun history network)

include hverifies hrun

/-- What arrives is sound. -/
theorem LossyRun.sound (harrives : (group.protocol crypto).Arrives history network (who, message)) :
    Sound group (network.states (group.spec.primary 0)).core.blocks who message :=
  (LossyRun.harmonious hverifies hrun).sound who message
    (Protocol.LossyRun.sent_of_arrives hrun harrives)

theorem LossyRun.same_block (hwho : who < group.spec.numReplica) {blockNum : Nat}
    {block : Block crypto} (hblock : (network.states who).core.blocks[blockNum]? = some block) :
    ∃ stored : Block crypto,
      (network.states (group.spec.primary 0)).core.blocks[blockNum]? = some stored ∧
        stored.digest = block.digest := by
  have h := LossyRun.harmonious hverifies hrun
  refine Group.same_block (h.runs who hwho) (h.runs _ (primary_lt hwho)) ?_ hblock
  intro message hmessage
  exact (LossyRun.sound hverifies hrun
    (.inr ((LossyRun.mem_delivered hrun).mp hmessage))).backed

variable (hfaulty : group.spec.numFaulty ≤ group.spec.numReplica)
  (hwho : who < group.spec.numReplica)

include hfaulty hwho

/-- Any message in flight can be delivered. -/
theorem LossyRun.delivers (hflight : (who, message) ∈ network.flight) :
    ∃ invocation next, invocation.call = .receive message ∧
      (group.protocol crypto).Step network (who, invocation) next := by
  have hsound := LossyRun.sound hverifies hrun (.inl hflight)
  have hcorrect := (LossyRun.harmonious hverifies hrun).runs who hwho
  obtain ⟨invocation, final, hcall, hinvokes⟩ :=
    hcorrect.receives hfaulty (LossyRun.idle hrun who) ⟨hsound.passes, hsound.byBackup, by
      intro hprimary
      obtain rfl : group.spec.primary 0 = who := hprimary
      exact hsound.answers rfl⟩
  obtain ⟨before, after, hsplit⟩ := List.append_of_mem hflight
  refine ⟨invocation, _, hcall, .deliver ?_ hsplit ⟨hwho, hinvokes⟩⟩
  change invocation.receives = some message
  rw [Invocation.receives, hcall]

theorem LossyRun.reaches_received
    (harrives : (group.protocol crypto).Arrives history network (who, message)) :
    (group.protocol crypto).Reaches group.Repairs
      (fun history _ => (who, message) ∈ (group.protocol crypto).received (steps history))
      history network := by
  rcases harrives with hflight | hreceived
  · obtain ⟨invocation, next, hcall, hstep⟩ :=
      LossyRun.delivers hverifies hrun hfaulty hwho hflight
    refine .step ?_ hstep (.of_goal (mem_received hcall))
    rw [Repairs, hcall]
    trivial
  · exact .of_goal hreceived

/-- A tick of the primary, with what it sends again. -/
theorem LossyRun.ticks : ∃ invocation next, invocation.call = .tick ∧
    (group.protocol crypto).Step network (group.spec.primary 0, invocation) next ∧
    next.states (group.spec.primary 0) = { network.states (group.spec.primary 0) with
      tickedScratchNum := (network.states (group.spec.primary 0)).core.proposeNum } ∧
    ∀ (blockNum : Nat) (block : Block crypto),
      (network.states (group.spec.primary 0)).core.blocks[blockNum]? = some block →
      block.commitQuorum = none →
      blockNum ≤ (network.states (group.spec.primary 0)).tickedScratchNum →
      who ≠ group.spec.primary 0 →
      (who, .prePrepare ((network.states (group.spec.primary 0)).signPrePrepare blockNum
        block.digest) block.commands) ∈ next.flight := by
  have hprimary := primary_lt hwho
  have hcorrect := (LossyRun.harmonious hverifies hrun).runs _ hprimary
  have hidle := LossyRun.idle hrun (group.spec.primary 0)
  obtain ⟨actions, hcall, hresent⟩ := hcorrect.tick hfaulty rfl
  obtain ⟨performed, final, hinvokes⟩ := hcorrect.invokes hfaulty hidle
    (fun _ hdelivered => by cases hdelivered) hcall
  obtain ⟨next, hcall', hdrained⟩ := hinvokes.loop
  obtain ⟨rfl, -⟩ := Prod.mk.inj (Except.ok.inj (hcall.symm.trans hcall'))
  obtain ⟨-, rfl⟩ := hdrained.of_idle hidle
  refine ⟨_, _, rfl, .act rfl ⟨hprimary, hinvokes⟩, by simp, ?_⟩
  intro blockNum block hblock hopen hticked hne
  refine List.mem_append_right _ (mem_sends (hresent blockNum block hblock hopen hticked) ?_)
  exact ReplicaAction.mem_deliveries.mpr (.inr ⟨rfl, hwho, hne⟩)

/-- Two ticks send the PrePrepare of a block again that is not committed. -/
theorem LossyRun.reaches_offered (hne : who ≠ group.spec.primary 0) {blockNum : Nat}
    {block : Block crypto}
    (hblock : (network.states (group.spec.primary 0)).core.blocks[blockNum]? = some block)
    (hopen : block.commitQuorum = none) :
    (group.protocol crypto).Reaches group.Repairs
      (fun _ network => ∃ sent, sent.blockNum = blockNum ∧
        (who, .prePrepare sent block.commands) ∈ network.flight) history network := by
  have hprimary := primary_lt hwho
  have h := (CorrectRun.accountable
    ((LossyRun.harmonious hverifies hrun).runs _ hprimary)).coherent
  have hle : blockNum ≤ (network.states (group.spec.primary 0)).core.proposeNum := by
    rw [(h.idle (LossyRun.idle hrun _)).2.1]
    exact (h.bounds (h.isPrimary_eq.trans (beq_self_eq_true _)) hblock).2
  obtain ⟨first, middle, hfirst, hstep, hmiddle, -⟩ :=
    LossyRun.ticks hverifies hrun hfaulty hwho
  have hrun' := Run.step hrun (.step hstep)
  obtain ⟨second, next, hsecond, hstep', -, hflight⟩ :=
    LossyRun.ticks hverifies hrun' hfaulty hwho
  rw [hmiddle] at hflight
  have hoffered := hflight blockNum block hblock hopen hle hne
  refine .step ?_ hstep (.step ?_ hstep' (.of_goal ⟨_, rfl, hoffered⟩))
  · rw [Repairs, hfirst]
  · rw [Repairs, hsecond]

/-- A backup that is offered a block has it then; if it has it already, it answers. -/
theorem LossyRun.offer (hne : who ≠ group.spec.primary 0) {sent : PrePrepare crypto}
    {commands : List Command} (hflight : (who, .prePrepare sent commands) ∈ network.flight) :
    ∃ invocation next, invocation.call = .receive (.prePrepare sent commands) ∧
      (group.protocol crypto).Step network (who, invocation) next ∧
      (∃ block : Block crypto, (next.states who).core.blocks[sent.blockNum]? = some block) ∧
      ∀ block : Block crypto, (network.states who).core.blocks[sent.blockNum]? = some block →
        ∃ vote : Vote crypto, vote.blockNum = sent.blockNum ∧ vote.replicaId = who ∧
          (group.spec.primary 0, .prepare vote) ∈ next.flight ∧
          (block.prepareQuorum.isSome → (group.spec.primary 0, .commit vote) ∈ next.flight) := by
  have hharmonious := LossyRun.harmonious hverifies hrun
  have hcorrect := hharmonious.runs who hwho
  have h := (CorrectRun.accountable hcorrect).coherent
  have hsound := LossyRun.sound hverifies hrun (.inl hflight)
  obtain ⟨invocation, next, hcall, hstep⟩ := LossyRun.delivers hverifies hrun hfaulty hwho hflight
  obtain ⟨⟨-, hinvokes⟩, -⟩ := hstep.localStep
  have hrun' := Run.step hrun (.step hstep)
  refine ⟨invocation, next, hcall, hstep, ?_, ?_⟩
  · have hcorrect' := (LossyRun.harmonious hverifies hrun').runs who hwho
    exact CorrectRun.stored_of_delivered hcorrect' (Ne.symm hne)
      ((LossyRun.mem_delivered hrun').mpr (mem_received hcall))
  · intro block hblock
    obtain ⟨hview, -, -, hdigest⟩ := hsound.passes
    obtain ⟨stored, hstored, hsame⟩ := LossyRun.same_block hverifies hrun hwho hblock
    obtain ⟨stored', hstored', rfl⟩ := hsound.backed
    obtain rfl := Option.some.inj (hstored.symm.trans hstored')
    have hagree : block.digest = sent.digest := by
      rw [← hsame, hdigest]
      exact (CorrectRun.accountable
        (hharmonious.runs _ (primary_lt hwho))).coherent.digest _ _ hstored
    obtain ⟨after, hcall', -⟩ := hinvokes.loop
    rw [hcall, receivePrePrepare_stored (hview.trans h.view.symm) hblock hagree, h.view,
      h.configured] at hcall'
    obtain ⟨-, hactions⟩ := Prod.mk.inj (Except.ok.inj hcall')
    refine ⟨(network.states who).signVote sent.blockNum sent.digest, rfl,
      congrArg ReplicaCoreConfig.id h.configured, ?_, ?_⟩
    · refine hstep.mem_flight_of_sends (mem_sends ?_ (ReplicaAction.mem_deliveries.mpr (.inl rfl)))
      rw [← hactions]
      exact List.mem_cons_self
    · intro hprepared
      refine hstep.mem_flight_of_sends (mem_sends ?_ (ReplicaAction.mem_deliveries.mpr (.inl rfl)))
      rw [← hactions]
      dsimp only
      rw [if_pos hprepared]
      exact List.mem_cons_of_mem _ (List.mem_singleton_self _)

end

end Group

end BftKit.Pbft
