import BftKit.Pbft.FreeRuns
import BftKit.Pbft.Order

/-! # Equivocation

Votes are signed in four places and always for the block that is stored under their number,
which is never replaced. PrePrepares are signed for what the primary proposes and, later, for
what it has stored; the two are the same unless it has stored a block that it has not
proposed.
-/

namespace BftKit.Pbft

open Foundation

variable {crypto : Crypto}

namespace Replica

/-- All votes for one view and block number carry one digest, Prepares and Commits alike. -/
def VotesAgree (history : List (Event crypto)) : Prop :=
  ∀ message ∈ sentMessages history, ∀ message' ∈ sentMessages history, ∀ vote vote',
    message.vote? = some vote → message'.vote? = some vote' →
    vote.viewNum = vote'.viewNum → vote.blockNum = vote'.blockNum → vote.digest = vote'.digest

/-- All PrePrepares for one view and block number carry one digest and the same commands. -/
def PrePreparesAgree (history : List (Event crypto)) : Prop :=
  ∀ prePrepare commands prePrepare' commands',
    .prePrepare prePrepare commands ∈ sentMessages history →
    .prePrepare prePrepare' commands' ∈ sentMessages history →
    prePrepare.viewNum = prePrepare'.viewNum → prePrepare.blockNum = prePrepare'.blockNum →
    prePrepare.digest = prePrepare'.digest ∧ commands = commands'

/-- The next Commit is for a block that holds a quorum of Prepares. -/
def CommitsPrepared (replica : Replica crypto) : Prop :=
  ∀ event next, Step replica event next → ∀ action ∈ event.actions, ∀ vote,
    action.message? = some (.commit vote) → ∃ block : Block crypto,
      replica.core.blocks[vote.blockNum]? = some block ∧ block.prepareQuorum.isSome

variable {config : ReplicaCoreConfig} {replica next : Replica crypto} {event : Event crypto}
  {history : List (Event crypto)}

/-- A vote is for the block that is stored, and a Commit for one with a quorum of Prepares. -/
theorem Outcome.vote_sent (hsound : Sound config replica) (h : Outcome replica event next)
    {action : Action crypto} (haction : action ∈ event.actions) {message : ToReplica crypto}
    (hmessage : action.message? = some message) {vote : Vote crypto}
    (hvote : message.vote? = some vote) :
    ∃ block : Block crypto, replica.core.blocks[vote.blockNum]? = some block ∧
      block.digest = vote.digest ∧ (message = .commit vote → block.prepareQuorum.isSome) := by
  cases h with
  | drop | request | accept | keepPrepare | countPrepare | keepCommit | countCommit | enterView =>
      simp [Event.actions] at haction
  | @resend prePrepare _ block _ _ hblock hdigest hactions =>
      rcases hactions action haction with rfl | ⟨rfl, hprepared⟩
      · obtain rfl := Option.some.inj hmessage
        obtain rfl := Option.some.inj hvote
        exact ⟨block, hblock, hdigest, by simp⟩
      · obtain rfl := Option.some.inj hmessage
        obtain rfl := Option.some.inj hvote
        exact ⟨block, hblock, hdigest, fun _ => hprepared⟩
  | tick hactions =>
      obtain ⟨_, _, rfl⟩ := hactions action haction
      obtain rfl := Option.some.inj hmessage
      simp [ToReplica.vote?] at hvote
  | prepare hqueue =>
      obtain rfl := List.mem_singleton.mp haction
      obtain rfl := Option.some.inj hmessage
      obtain rfl := Option.some.inj hvote
      obtain ⟨block, hblock, hdigest⟩ := hsound.head hqueue
      exact ⟨block, hblock, hdigest, by simp⟩
  | @commit _ _ block _ hqueue hblock =>
      obtain rfl := List.mem_singleton.mp haction
      obtain rfl := Option.some.inj hmessage
      obtain rfl := Option.some.inj hvote
      obtain ⟨stored, hstored, hprepared⟩ := hsound.head hqueue
      obtain rfl := Option.some.inj (hstored.symm.trans hblock)
      exact ⟨stored, hblock, rfl, fun _ => hprepared⟩
  | propose | forward =>
      obtain rfl := List.mem_singleton.mp haction
      obtain rfl := Option.some.inj hmessage
      simp [ToReplica.vote?] at hvote
  | finalize =>
      obtain rfl := List.mem_singleton.mp haction
      simp [ReplicaAction.message?] at hmessage

/-- What has been voted for is still stored. -/
theorem FreeRun.voted (hrun : FreeRun config history replica) {message : ToReplica crypto}
    (hsent : message ∈ sentMessages history) {vote : Vote crypto}
    (hvote : message.vote? = some vote) :
    ∃ block : Block crypto, replica.core.blocks[vote.blockNum]? = some block ∧
      block.digest = vote.digest := by
  induction hrun with
  | start => simp [sentMessages] at hsent
  | @step before current event next hprev hstep ih =>
      have houtcome := hstep.outcome
      have hbefore : ∃ block : Block crypto,
          current.core.blocks[vote.blockNum]? = some block ∧ block.digest = vote.digest := by
        rcases mem_sentMessages_concat.mp hsent with hold | ⟨action, haction, hmessage⟩
        · exact ih hold
        · obtain ⟨block, hblock, hdigest, -⟩ :=
            houtcome.vote_sent (FreeRun.sound hprev) haction hmessage hvote
          exact ⟨block, hblock, hdigest⟩
      obtain ⟨block, hblock, hdigest⟩ := hbefore
      obtain ⟨block', hblock', -, hdigest', -⟩ := houtcome.keeps _ block hblock
      exact ⟨block', hblock', hdigest'.trans hdigest⟩

theorem FreeRun.votesAgree (hrun : FreeRun config history replica) : VotesAgree history := by
  intro message hsent message' hsent' vote vote' hvote hvote' _ hnum
  obtain ⟨block, hblock, hdigest⟩ := FreeRun.voted hrun hsent hvote
  obtain ⟨block', hblock', hdigest'⟩ := FreeRun.voted hrun hsent' hvote'
  rw [hnum] at hblock
  obtain rfl := Option.some.inj (hblock.symm.trans hblock')
  exact hdigest.symm.trans hdigest'

theorem FreeRun.commitsPrepared (hrun : FreeRun config history replica) :
    CommitsPrepared replica := by
  intro event next hstep action haction vote hmessage
  obtain ⟨block, hblock, -, hprepared⟩ :=
    hstep.outcome.vote_sent (FreeRun.sound hrun) haction hmessage rfl
  exact ⟨block, hblock, hprepared rfl⟩

/-- A replica that stands by its PrePrepares stands by one for each number. -/
theorem Accountable.prePreparesAgree (h : Accountable config history replica) :
    PrePreparesAgree history := by
  intro prePrepare commands prePrepare' commands' hsent hsent' _ hnum
  obtain ⟨-, -, block, hblock, hdigest, hcommands⟩ := h.prePrepares _ _ hsent
  obtain ⟨-, -, block', hblock', hdigest', hcommands'⟩ := h.prePrepares _ _ hsent'
  rw [hnum] at hblock
  obtain rfl := Option.some.inj (hblock.symm.trans hblock')
  exact ⟨hdigest.symm.trans hdigest', hcommands.symm.trans hcommands'⟩

/-- Whatever a replica is shown, its votes agree and its Commits are for prepared blocks. Its
PrePrepares agree as long as nobody else signs PrePrepares for a primary. -/
theorem no_equivocation (hrun : FreeRun config history replica) :
    VotesAgree history ∧ CommitsPrepared replica ∧
      ((config.spec.primary 0 = config.id → LocalRun config history replica) →
        PrePreparesAgree history) := by
  refine ⟨FreeRun.votesAgree hrun, FreeRun.commitsPrepared hrun, fun hlocal => ?_⟩
  by_cases hprimary : config.spec.primary 0 = config.id
  · exact (Accountable.of_run (hlocal hprimary)).prePreparesAgree
  · exact (FreeRun.accountable hprimary hrun).prePreparesAgree

/-- The normal case, in which the primary has sent its PrePrepare twice. -/
theorem no_equivocation_normalCase :
    ∃ (history : List (Event .transparent)) (replica : Replica .transparent),
      ((sentMessages history).filterMap ToReplica.prePrepare?).length = 2 ∧
      ((sentMessages history).filterMap ToReplica.vote?).length = 1 ∧
      VotesAgree history ∧ CommitsPrepared replica ∧ PrePreparesAgree history := by
  have hreplay : ∃ run ∈ (Group.four ∅).replay
        ((0, .request (Group.ping 0)) :: (0, .tick) :: (0, .tick) :: Group.fourNormalCase.tail),
      ((sentMessages (view 0 run.1)).filterMap ToReplica.prePrepare?).length = 2 ∧
      ((sentMessages (view 0 run.1)).filterMap ToReplica.vote?).length = 1 := by
    decide +kernel
  obtain ⟨⟨history, states⟩, hreplay, hprePrepares, hvotes⟩ := hreplay
  have hhonest : (Group.four ∅).Honest 0 := by decide
  have hlocal := (Group.replay_run hreplay).localRun hhonest
  obtain ⟨hvotesAgree, hcommits, hagree⟩ := no_equivocation (freeRun_of_localRun hlocal)
  exact ⟨view 0 history, states 0, hprePrepares, hvotes, hvotesAgree, hcommits,
    hagree fun _ => hlocal⟩

/-- A primary of four that has lost its state is shown what it signed before, and then takes
a request. -/
def fourRestart : List (Call .transparent) :=
  [.receive (.prePrepare (Group.fourPrePrepare 1 [Group.ping 1]) [Group.ping 1]),
    .request (Group.ping 0), .tick, .tick]

/-- It proposes the request under the number of the block that it then sends again. -/
theorem no_equivocation_fails : ¬ ∀ (config : ReplicaCoreConfig)
    (history : List (Event .transparent)) (replica : Replica .transparent),
    FreeRun config history replica →
      VotesAgree history ∧ CommitsPrepared replica ∧ PrePreparesAgree history := by
  intro hclaim
  have hreplay : ∃ run, ((Group.four ∅).initial .transparent 0).replay fourRestart = .ok run ∧
      ((sentMessages run.1).filterMap ToReplica.prePrepare?).map
          (fun sent => (sent.viewNum, sent.blockNum, sent.digest)) =
        [(0, 1, blockDigest .transparent [Group.ping 0]),
          (0, 1, blockDigest .transparent [Group.ping 1])] := by
    refine ⟨_, rfl, ?_⟩
    decide +kernel
  obtain ⟨⟨history, replica⟩, hreplay, hsent⟩ := hreplay
  have hrun := replay_run (Group.new_initial (by decide)) hreplay
  obtain ⟨-, -, hagree⟩ := hclaim _ history replica hrun
  have hfields : ∀ fields ∈ [(0, 1, blockDigest .transparent [Group.ping 0]),
      (0, 1, blockDigest .transparent [Group.ping 1])], ∃ sent commands,
      .prePrepare sent commands ∈ sentMessages history ∧
        (sent.viewNum, sent.blockNum, sent.digest) = fields := by
    intro fields hmem
    obtain ⟨sent, hmem, heq⟩ := List.mem_map.mp (hsent ▸ hmem)
    obtain ⟨commands, hmessage⟩ := mem_prePrepares.mp hmem
    exact ⟨sent, commands, hmessage, heq⟩
  obtain ⟨proposed, _, hproposed, hfirst⟩ := hfields _ List.mem_cons_self
  obtain ⟨resent, _, hresent, hsecond⟩ := hfields _ (List.mem_cons_of_mem _ List.mem_cons_self)
  simp only [Prod.mk.injEq] at hfirst hsecond
  have hdigest := (hagree _ _ _ _ hproposed hresent (hfirst.1.trans hsecond.1.symm)
    (hfirst.2.1.trans hsecond.2.1.symm)).1
  rw [hfirst.2.2, hsecond.2.2] at hdigest
  exact absurd hdigest (by decide +kernel)

end Replica

end BftKit.Pbft
