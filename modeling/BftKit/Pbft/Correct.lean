import BftKit.Pbft.Delivery
import BftKit.Pbft.MainPath

/-! # Replicas among correct ones

What a replica is delivered when everyone follows the code: messages that pass its
checks, and at the primary only answers to what it has proposed. What it sends then
passes the checks of the others.
-/

namespace BftKit.Pbft

open Foundation

variable {crypto : Crypto}

namespace Replica

/-- The message is what a primary is sent: a request, or a vote for one of its blocks. -/
def Answers (replica : Replica crypto) : ToReplica crypto → Prop
  | .request _ => True
  | .prePrepare _ _ => False
  | .prepare vote | .commit vote => ∃ block : Block crypto,
      replica.core.blocks[vote.blockNum]? = some block ∧ block.digest = vote.digest

/-- A Prepare is a backup's, as the primary sends a PrePrepare in its place. -/
def ByBackup (config : ReplicaCoreConfig) : ToReplica crypto → Prop
  | .prepare vote => vote.replicaId ≠ config.spec.primary 0
  | .request _ | .prePrepare _ _ | .commit _ => True

/-- A delivered message passes its checks and, at the primary, answers it. -/
structure Informs (config : ReplicaCoreConfig) (replica : Replica crypto)
    (message : ToReplica crypto) : Prop where
  passes : Passes config message
  byBackup : ByBackup config message
  answers : config.spec.primary 0 = config.id → replica.Answers message

def Informed (config : ReplicaCoreConfig) (replica : Replica crypto) (event : Event crypto) :
    Prop :=
  ∀ message, event.delivered? = some message → Informs config replica message

/-- The runs of a replica among correct ones. -/
abbrev CorrectRun (config : ReplicaCoreConfig) :
    List (Event crypto) → Replica crypto → Prop :=
  Run (fun replica => Replica.new crypto config = .ok replica)
    fun _ replica event next => Step replica event next ∧ Informed config replica event

variable {config : ReplicaCoreConfig} {history : List (Event crypto)}
  {replica next : Replica crypto} {event : Event crypto} {log : List Command}
  {action : Action crypto} {message : ToReplica crypto}

namespace CorrectRun

theorem freeRun (hrun : CorrectRun config history replica) : FreeRun config history replica :=
  hrun.mono (fun _ h => h) fun _ _ _ _ h => h.1

theorem passes (hrun : CorrectRun config history replica)
    (hmessage : message ∈ delivered history) : Passes config message := by
  obtain ⟨event, hevent, hdelivered⟩ := List.mem_filterMap.mp hmessage
  obtain ⟨before, current, next, -, hstep, -⟩ := hrun.of_mem hevent
  exact (hstep.2 message hdelivered).passes

/-- Nobody sends a PrePrepare to the primary. -/
theorem localRun (hrun : CorrectRun config history replica)
    (hprimary : config.spec.primary 0 = config.id) : LocalRun config history replica := by
  apply hrun.mono (fun _ h => h)
  intro history replica event next hstep
  refine ⟨hstep.1, ?_⟩
  rintro prePrepare commands actions rfl -
  exact absurd ((hstep.2 _ rfl).answers hprimary) id

theorem accountable (hrun : CorrectRun config history replica) :
    Accountable config history replica := by
  by_cases hprimary : config.spec.primary 0 = config.id
  · exact .of_run (localRun hrun hprimary)
  · exact FreeRun.accountable hprimary (freeRun hrun)

theorem tallied (hrun : CorrectRun config history replica)
    (hbackup : config.spec.primary 0 ≠ config.id) :
    Tallied config (delivered history) replica :=
  FreeRun.tallied hbackup (freeRun hrun) fun _ hmessage => passes hrun hmessage

/-- The block of a backup is one that a PrePrepare has brought. -/
theorem proposed (hrun : CorrectRun config history replica)
    (hbackup : config.spec.primary 0 ≠ config.id) {blockNum : Nat} {block : Block crypto}
    (hblock : replica.core.blocks[blockNum]? = some block) :
    Proposed (delivered history) blockNum block.commands := by
  have htally := (tallied hrun hbackup).tally blockNum
  rw [hblock] at htally
  exact htally.proposed

theorem pos (hrun : CorrectRun config history replica) {blockNum : Nat} {block : Block crypto}
    (hblock : replica.core.blocks[blockNum]? = some block) : 1 ≤ blockNum := by
  by_cases hprimary : config.spec.primary 0 = config.id
  · have hcoherent := (accountable hrun).coherent
    refine (hcoherent.bounds ?_ hblock).1
    rw [hcoherent.isPrimary_eq]
    exact beq_iff_eq.mpr hprimary
  · obtain ⟨prePrepare, hmem, rfl⟩ := proposed hrun hprimary hblock
    exact (passes hrun hmem).2.1

end CorrectRun

/-! ## What is sent -/

theorem mem_sentMessages : message ∈ sentMessages history ↔
    ∃ event ∈ history, ∃ action ∈ event.actions, action.message? = some message := by
  simp [sentMessages]

/-- Only the primary is sent messages of its own: votes, and requests. -/
theorem Effect.sendToReplica (heffect : Effect log replica event next) {id : Nat}
    (haction : .sendToReplica id message ∈ event.actions) :
    (∃ command, message = .request command) ∨
      id = replica.core.config.spec.primary replica.core.viewNum ∧
        ∃ vote, message = .prepare vote ∨ message = .commit vote := by
  cases heffect with
  | drop | request | accept | keepPrepare | countPrepare | keepCommit | countCommit =>
      simp [Event.actions] at haction
  | resend _ _ _ hactions =>
      right
      rcases hactions _ haction with heq | heq
      · obtain ⟨rfl, rfl⟩ := ReplicaAction.sendToReplica.inj heq
        exact ⟨rfl, _, .inl rfl⟩
      · obtain ⟨rfl, rfl⟩ := ReplicaAction.sendToReplica.inj heq
        exact ⟨rfl, _, .inr rfl⟩
  | tick hactions =>
      obtain ⟨-, _, _, -, heq⟩ := hactions _ haction
      cases heq
  | propose | prepare | commit | finalize => cases List.mem_singleton.mp haction
  | @forward replicaId command =>
      obtain ⟨-, rfl⟩ := ReplicaAction.sendToReplica.inj (List.mem_singleton.mp haction)
      exact .inl ⟨command, rfl⟩

/-- Signing makes up what verifies. -/
theorem Coherent.verify_vote {performed : ReplicaCoreActions crypto}
    (h : Coherent config performed replica) (hverifies : crypto.Verifies) (blockNum : Nat)
    (digest : Digest) :
    crypto.verify (replica.signVote blockNum digest)
      (crypto.publicKey (crypto.replicaSecretKey config.id))
      (replica.signVote blockNum digest).sig = true := by
  rw [← h.secretKey]
  exact hverifies _ _

theorem Coherent.verify_prePrepare {performed : ReplicaCoreActions crypto}
    (h : Coherent config performed replica) (hverifies : crypto.Verifies) (blockNum : Nat)
    (digest : Digest) :
    crypto.verify (replica.signPrePrepare blockNum digest)
      (crypto.publicKey (crypto.replicaSecretKey config.id))
      (replica.signPrePrepare blockNum digest).sig = true := by
  rw [← h.secretKey]
  exact hverifies _ _

namespace CorrectRun

/-- An event of the run, as an effect in the state it was a step from. -/
theorem effect_of_mem (hrun : CorrectRun config history replica) (hevent : event ∈ history) :
    ∃ before log current next, CorrectRun config before current ∧ Step current event next ∧
      Effect log current event next := by
  obtain ⟨before, current, next, hcurrent, hstep, -⟩ := hrun.of_mem hevent
  obtain ⟨lists, -, heffect⟩ := (accountable hcurrent).coherent.effect hstep.1
  exact ⟨before, _, current, next, hcurrent, hstep.1, heffect⟩

/-- What a replica sends passes the checks of the others. -/
theorem sent_passes (hrun : CorrectRun config history replica) (hverifies : crypto.Verifies)
    (hsent : message ∈ sentMessages history) : Passes config message := by
  have h := accountable hrun
  obtain ⟨event, hevent, action, haction, hmessage⟩ := mem_sentMessages.mp hsent
  obtain ⟨before, log, current, next, hcurrent, -, heffect⟩ := effect_of_mem hrun hevent
  have hcoherent := (accountable hcurrent).coherent
  have hvote : ∀ vote, message.vote? = some vote → PassesVote config vote := by
    intro vote hvote
    obtain ⟨hview, hid, block, hblock, -⟩ := h.votes message hsent vote hvote
    refine ⟨hview, pos hrun hblock, hid ▸ h.coherent.id, ?_⟩
    obtain ⟨blockNum, _, -, rfl⟩ := heffect.vote_sent haction hmessage hvote
    rw [hid]
    exact hcoherent.verify_vote hverifies _ _
  cases message with
  | request command => trivial
  | prePrepare prePrepare commands =>
      obtain ⟨hprimary, hview, block, hblock, hdigest, rfl⟩ := h.prePrepares _ _ hsent
      refine ⟨hview, pos hrun hblock, ?_, ?_⟩
      · obtain ⟨-, _, _, -, -, rfl⟩ := heffect.prePrepare_sent haction hmessage
        have hid : config.spec.primary 0 = config.id :=
          beq_iff_eq.mp (h.coherent.isPrimary_eq ▸ hprimary)
        rw [hid]
        exact hcoherent.verify_prePrepare hverifies _ _
      · rw [← hdigest]
        exact h.coherent.digest _ block hblock
  | prepare vote => exact hvote vote rfl
  | commit vote => exact hvote vote rfl

/-- PrePrepares are broadcast, and votes go to the primary unless they are. -/
theorem broadcast_of_mem (hrun : CorrectRun config history replica) (hevent : event ∈ history)
    {id : Nat} (haction : .sendToReplica id message ∈ event.actions) :
    (∃ command, message = .request command) ∨ id = config.spec.primary 0 ∧
      ∃ vote, message = .prepare vote ∨ message = .commit vote := by
  obtain ⟨before, log, current, next, hcurrent, -, heffect⟩ := effect_of_mem hrun hevent
  have hcoherent := (accountable hcurrent).coherent
  rcases heffect.sendToReplica haction with hrequest | ⟨rfl, hvote⟩
  · exact .inl hrequest
  · rw [hcoherent.configured, hcoherent.view]
    exact .inr ⟨rfl, hvote⟩

end CorrectRun

/-! ## Prepares and Commits -/

/-- A Commit is sent for a prepared block, also when it is sent again. -/
theorem Step.commit_prepared (h : Coherent config (performedIn history) replica)
    (hstep : Step replica event next) (haction : action ∈ event.actions) {vote : Vote crypto}
    (hmessage : action.message? = some (.commit vote)) :
    ∃ block : Block crypto, next.core.blocks[vote.blockNum]? = some block ∧
      block.prepareQuorum.isSome := by
  obtain ⟨lists, -, heffect⟩ := h.effect hstep
  have hkeeps := heffect.keeps
  cases heffect with
  | drop | request | accept | keepPrepare | countPrepare | keepCommit | countCommit =>
      simp [Event.actions] at haction
  | @resend prePrepare commands block actions hview hblock hdigest =>
      cases hstep with
      | call hidle hcall =>
          simp only [Replica.call, receiveMessage, receivePrePrepare, hview, ne_eq,
            not_true_eq_false, if_false, hblock, hdigest, if_true] at hcall
          obtain ⟨-, rfl⟩ := Prod.mk.inj (Except.ok.inj hcall)
          simp only [Event.actions, List.mem_cons] at haction
          rcases haction with rfl | haction
          · simp [ReplicaAction.message?] at hmessage
          · split at haction
            next hprepared =>
              obtain rfl := List.mem_singleton.mp haction
              obtain rfl : _ = vote := ToReplica.commit.inj (Option.some.inj hmessage)
              exact ⟨block, hblock, hprepared⟩
            next => cases haction
  | tick hactions =>
      obtain ⟨_, _, _, _, rfl⟩ := hactions action haction
      cases hmessage
  | @commit blockNum rest block _ hqueue hblock =>
      obtain rfl := List.mem_singleton.mp haction
      obtain rfl : _ = vote := ToReplica.commit.inj (Option.some.inj hmessage)
      obtain ⟨-, stored, hstored, hprepared, -⟩ := h.enabled hqueue
      obtain rfl := Option.some.inj (hblock.symm.trans hstored)
      obtain ⟨block', hblock', -, -, hquorum, -⟩ := hkeeps _ block hblock
      exact ⟨block', hblock', hquorum hprepared ▸ hprepared⟩
  | propose | prepare | finalize | forward =>
      obtain rfl := List.mem_singleton.mp haction
      cases hmessage

/-- The digest of a Prepare that an event performs for a block number. -/
def Event.prepared? (blockNum : Nat) : Event crypto → Option Digest
  | .perform (.prepare other digest) _ => if other = blockNum then some digest else none
  | .perform _ _ | .call _ _ => none

theorem length_prepared_le (blockNum : Nat) (history : List (Event crypto)) :
    (history.filterMap (Event.prepared? blockNum)).length ≤
      (phases blockNum (performedIn history)).count .prepare := by
  induction history using List.reverseRecOn with
  | nil => exact Nat.zero_le _
  | append_singleton history event ih =>
      rw [List.filterMap_append, List.length_append, performedIn_concat]
      cases event with
      | call call actions => simpa [List.filterMap_cons, Event.prepared?, Event.performed?] using ih
      | perform action actions =>
          simp only [Event.performed?, Option.toList_some]
          rw [phases_concat, List.count_append]
          refine Nat.add_le_add ih ?_
          cases action with
          | prepare other digest =>
              by_cases heq : other = blockNum
              · simp [Event.prepared?, ReplicaCoreAction.phaseOf, heq]
              · simp [Event.prepared?, heq]
          | propose | commit | finalize | forward | viewChange | newView | enterView =>
              simp [List.filterMap_cons, Event.prepared?]

namespace CorrectRun

theorem commit_prepared (hrun : CorrectRun config history replica) {vote : Vote crypto}
    (hsent : .commit vote ∈ sentMessages history) :
    ∃ block : Block crypto, replica.core.blocks[vote.blockNum]? = some block ∧
      block.prepareQuorum.isSome := by
  induction hrun with
  | start => simp [sentMessages] at hsent
  | @step history replica event next hprev hstep ih =>
      have hcoherent := (accountable hprev).coherent
      rcases mem_sentMessages_concat.mp hsent with hold | ⟨action, haction, hmessage⟩
      · obtain ⟨block, hblock, hprepared⟩ := ih hold
        obtain ⟨lists, -, heffect⟩ := hcoherent.effect hstep.1
        obtain ⟨block', hblock', -, -, hquorum, -⟩ := heffect.keeps _ block hblock
        exact ⟨block', hblock', hquorum hprepared ▸ hprepared⟩
      · exact hstep.1.commit_prepared hcoherent haction hmessage

/-- A block number is prepared once. -/
theorem length_prepared (hrun : CorrectRun config history replica) (blockNum : Nat) :
    (history.filterMap (Event.prepared? blockNum)).length ≤ 1 := by
  refine (length_prepared_le blockNum history).trans ?_
  rw [(accountable hrun).coherent.phases blockNum]
  exact (phases_stage _ replica blockNum).sublist.count_le _

/-- A backup that is done with the calls so far has sent a Prepare for each of its blocks. -/
theorem prepares (hrun : CorrectRun config history replica)
    (hbackup : config.spec.primary 0 ≠ config.id) (hidle : replica.coreActions = [])
    {blockNum : Nat} {block : Block crypto}
    (hblock : replica.core.blocks[blockNum]? = some block) :
    ∃ vote : Vote crypto, vote.blockNum = blockNum ∧ vote.digest = block.digest ∧
      vote.replicaId = config.id ∧
      .perform (.prepare blockNum block.digest) [.sendToAllReplicas (.prepare vote)] ∈ history := by
  have h := accountable hrun
  obtain ⟨digest, actions, hevent⟩ := h.performed_prepare hbackup hidle hblock
  obtain ⟨before, log, current, next, -, -, heffect⟩ := effect_of_mem hrun hevent
  cases heffect with
  | prepare =>
      have hsent : .prepare (current.signVote blockNum digest) ∈ sentMessages history :=
        mem_sentMessages.mpr ⟨_, hevent, _, List.mem_singleton_self _, rfl⟩
      obtain ⟨-, hid, stored, hstored, hdigest⟩ := h.votes _ hsent _ rfl
      obtain rfl := Option.some.inj (hblock.symm.trans hstored)
      obtain rfl : block.digest = digest := hdigest
      exact ⟨_, rfl, rfl, hid, hevent⟩

end CorrectRun

end Replica

end BftKit.Pbft
