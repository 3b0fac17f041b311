import BftKit.Hotstuff.Trace
import BftKit.Pbft.FreeRuns
import BftKit.Pbft.Replay

/-! # Who a replica sends to

A transport has no connection from a replica to itself, so a replica must not address
itself. HotStuff backups address the leader only. A PBFT primary that is shown its
own PrePrepare answers itself.
-/

namespace BftKit

open Foundation

/-- A message for the replica of the given id alone. -/
def Addresses {Message : Type} (id : Nat) (actions : List (ReplicaAction Message)) : Prop :=
  ∃ message, .sendToReplica id message ∈ actions

namespace Pbft.Replica

variable {crypto : Crypto} {config : ReplicaCoreConfig} {replica next : Replica crypto}
  {history : List (Event crypto)} {event : Event crypto}

/-- A primary receives a PrePrepare of its view for a block it has. -/
def Reflected (replica : Replica crypto) (event : Event crypto) : Prop :=
  ∃ prePrepare commands actions block,
    event = .call (.receive (.prePrepare prePrepare commands)) actions ∧
      replica.core.isPrimary = true ∧ prePrepare.viewNum = replica.core.viewNum ∧
      replica.core.blocks[prePrepare.blockNum]? = some block ∧ block.digest = prePrepare.digest

/-- An action does not forward to the replica of the given id. -/
def Forwardable (id : Nat) : ReplicaCoreAction crypto → Prop
  | .forward replicaId _ => replicaId ≠ id
  | .propose _ _ | .prepare _ _ | .commit _ | .finalize _ | .viewChange _ _ | .newView _ _ _
  | .enterView => True

theorem forwardable_of_looped {action : ReplicaCoreAction crypto} {id : Nat}
    (h : Looped action) : Forwardable id action := by
  cases action with
  | forward => cases h
  | propose | prepare | commit | finalize | viewChange | newView | enterView => trivial

/-- What a backup forwards is for another replica. -/
theorem Outcome.forwardable (houtcome : Outcome replica event next) (hsound : Sound config replica)
    (h : ∀ action ∈ replica.coreActions, Forwardable config.id action) :
    ∀ action ∈ next.coreActions, Forwardable config.id action := by
  have hrest : ∀ {action rest}, replica.coreActions = action :: rest →
      ∀ action ∈ rest, Forwardable config.id action :=
    fun hqueue action hmem => h action (hqueue ▸ List.mem_cons_of_mem _ hmem)
  have hprepare : ∀ {core : ReplicaCore crypto} {blockNum digest},
      ∀ action ∈ if core.isPrimary then [] else [.prepare blockNum digest],
        Forwardable config.id (action : ReplicaCoreAction crypto) := by
    intro core blockNum digest action hmem
    split at hmem
    · cases hmem
    · rw [List.mem_singleton.mp hmem]
      trivial
  cases houtcome with
  | drop | resend | keepPrepare | keepCommit | tick => exact h
  | request _ _ hhandle =>
      refine List.forall_mem_append.mpr ⟨h, fun action hmem => ?_⟩
      rcases (ReplicaCore.request_queued hhandle).2 action hmem with hlooped | ⟨hbackup, rfl⟩
      · exact forwardable_of_looped hlooped
      · rw [← hsound.configured]
        simpa [Forwardable, ReplicaCore.isPrimary, ReplicaCore.isPrimaryOf] using hbackup
  | accept => exact List.forall_mem_append.mpr ⟨h, hprepare⟩
  | countPrepare _ _ _ hcheck =>
      cases hcheck with
      | waiting => exact h
      | prepared => exact List.forall_mem_append.mpr ⟨h, List.forall_mem_singleton.mpr trivial⟩
  | countCommit _ _ _ hcheck =>
      cases hcheck with
      | waiting => exact h
      | committed _ _ _ _ hlooped =>
          exact List.forall_mem_append.mpr
            ⟨h, fun action hmem => forwardable_of_looped (hlooped action hmem)⟩
  | prepare hqueue hcheck =>
      cases hcheck with
      | waiting => exact hrest hqueue
      | prepared =>
          exact List.forall_mem_append.mpr ⟨hrest hqueue, List.forall_mem_singleton.mpr trivial⟩
  | commit hqueue _ hcheck =>
      cases hcheck with
      | waiting => exact hrest hqueue
      | committed _ _ _ _ hlooped =>
          exact List.forall_mem_append.mpr
            ⟨hrest hqueue, fun action hmem => forwardable_of_looped (hlooped action hmem)⟩
  | propose hqueue hstored =>
      rcases hstored with ⟨-, rfl, rfl⟩ | ⟨block, -, -, -, -, rfl, rfl⟩
      · rw [List.append_nil]
        exact hrest hqueue
      · exact List.forall_mem_append.mpr ⟨hrest hqueue, hprepare⟩
  | finalize hqueue | forward hqueue | enterView hqueue => exact hrest hqueue

theorem FreeRun.forwardable (hrun : FreeRun config history replica) :
    ∀ action ∈ replica.coreActions, Forwardable config.id action := by
  induction hrun with
  | start hnew =>
      simp only [Replica.new, bind_eq_ok] at hnew
      obtain ⟨_, -, hreplica⟩ := hnew
      obtain rfl := Except.ok.inj hreplica
      exact fun action hmem => by cases hmem
  | step hprev hstep ih => exact hstep.outcome.forwardable (FreeRun.sound hprev) ih

theorem addresses_iff (hrun : FreeRun config history replica) (hstep : Step replica event next) :
    Addresses config.id event.actions ↔ replica.Reflected event := by
  have h := FreeRun.sound hrun
  constructor
  · rintro ⟨message, hmem⟩
    cases hstep.outcome with
    | drop | request | accept | keepPrepare | countPrepare | keepCommit | countCommit =>
        simp [Event.actions] at hmem
    | propose | prepare | commit | finalize | enterView => simp [Event.actions] at hmem
    | resend hview hblock hdigest hactions =>
        refine ⟨_, _, _, _, rfl, ?_, hview, hblock, hdigest⟩
        have hid : replica.core.config.spec.primary replica.core.viewNum = config.id := by
          rcases hactions _ hmem with heq | ⟨heq, -⟩ <;>
            exact (ReplicaAction.sendToReplica.inj heq).1.symm
        rw [ReplicaCore.isPrimary, ReplicaCore.isPrimaryOf, hid, h.configured, beq_self_eq_true]
    | tick hactions =>
        obtain ⟨_, _, heq⟩ := hactions _ hmem
        cases heq
    | @forward replicaId command rest hqueue =>
        obtain ⟨hid, -⟩ := ReplicaAction.sendToReplica.inj (List.mem_singleton.mp hmem)
        have hforward := FreeRun.forwardable hrun _ (hqueue ▸ List.mem_cons_self)
        exact absurd hid.symm hforward
  · rintro ⟨prePrepare, commands, actions, block, rfl, hprimary, hview, hblock, hdigest⟩
    cases hstep with
    | call _ hcall =>
        simp only [call, receiveMessage, receivePrePrepare, hview, ne_eq, not_true_eq_false, if_false,
          hblock, hdigest, if_true] at hcall
        obtain ⟨-, rfl⟩ := Prod.mk.inj (Except.ok.inj hcall)
        have hid : replica.core.config.spec.primary replica.core.viewNum = config.id := by
          rw [← h.configured]
          exact beq_iff_eq.mp hprimary
        refine ⟨.prepare (replica.signVote prePrepare.blockNum prePrepare.digest), ?_⟩
        simp [Event.actions, hid]

end Pbft.Replica

namespace Hotstuff.Replica

open Threshold

variable {scheme : ThresholdScheme} {coreConfig : ReplicaCoreConfig}
  {cryptoConfig : CryptoConfig scheme} {replica next : Replica scheme}
  {history : List (Event scheme)} {event : Event scheme}

theorem refill_addresses (replica : Replica scheme) :
    ¬ Addresses replica.core.config.id replica.refillNonces.2 := by
  rintro ⟨message, hmem⟩
  unfold refillNonces at hmem
  split at hmem
  · simp at hmem
  next hbackup =>
    obtain ⟨hid, -⟩ := ReplicaAction.sendToReplica.inj (List.mem_singleton.mp hmem)
    exact hbackup (beq_iff_eq.mpr hid.symm)

theorem Refilled.addresses {actions : List (Action scheme)} (h : Refilled replica next actions) :
    ¬ Addresses replica.core.config.id actions := by
  cases h with
  | enough => simp [Addresses]
  | refill => exact refill_addresses replica

theorem VoteTaken.config {vote : Message.VoteGeneric scheme} (h : VoteTaken replica vote next)
    (hstored : replica.core.Stored) : next.core.config = replica.core.config := by
  cases h with
  | share => rfl
  | quorum _ _ hhandle =>
      obtain ⟨core, pushed, hcore, rfl⟩ := handle_eq_ok.mp hhandle
      exact (hstored.handle hcore).2.config

theorem not_addresses (hrun : LocalRun coreConfig cryptoConfig history replica)
    (hstep : Step replica event next) : ¬ Addresses coreConfig.id event.actions := by
  have hstored := hrun.stored
  rw [← hrun.config]
  cases hstep.effect with
  | init => exact refill_addresses replica
  | tick | request | ignore | accept | park | vote | supply | defer | release =>
      simp [Addresses, Event.actions]
  | propose | finalize => simp [Addresses, Event.actions]
  | perform _ _ _ _ hvote =>
      cases hvote with
      | unlisted | unsigned => simp [Addresses, Event.actions]
      | signed _ _ _ hcast =>
          cases hcast with
          | leader _ htaken hrefilled =>
              have hnot := hrefilled.addresses
              rwa [htaken.config hstored] at hnot
          | backup hbackup hrefilled =>
              rintro ⟨message, hmem⟩
              rcases List.mem_cons.mp hmem with heq | hmem
              · obtain ⟨hid, -⟩ := ReplicaAction.sendToReplica.inj heq
                exact absurd (beq_iff_eq.mpr hid.symm) (by simpa [isPrimary] using hbackup)
              · exact hrefilled.addresses ⟨message, hmem⟩

end Hotstuff.Replica

/-- A PBFT replica addresses itself exactly when a primary is shown a PrePrepare for a
block it has, a HotStuff replica never. Both may have been shown anything before. -/
theorem addressing (crypto : Crypto) (scheme : ThresholdScheme) :
    (∀ {config : Pbft.ReplicaCoreConfig}
      {history : List (Pbft.Replica.Event crypto)} {replica next : Pbft.Replica crypto}
      {event : Pbft.Replica.Event crypto}, Pbft.Replica.FreeRun config history replica →
      replica.Step event next →
      (Addresses config.id event.actions ↔ replica.Reflected event)) ∧
    ∀ {coreConfig : Hotstuff.ReplicaCoreConfig}
      {cryptoConfig : Hotstuff.CryptoConfig scheme} {history : List (Hotstuff.Replica.Event scheme)}
      {replica next : Hotstuff.Replica scheme} {event : Hotstuff.Replica.Event scheme},
      Hotstuff.LocalRun coreConfig cryptoConfig history replica → replica.Step event next →
      ¬ Addresses coreConfig.id event.actions :=
  ⟨Pbft.Replica.addresses_iff, Hotstuff.Replica.not_addresses⟩

namespace Pbft.Group

/-- The primary proposes a block and is then shown its own PrePrepare. -/
theorem reflected_primary : ∃ (history : List (Replica.Event .transparent))
    (replica next : Replica .transparent) (event : Replica.Event .transparent),
    LocalRun ((four ∅).config 0) history replica ∧ replica.Step event next ∧
      replica.Reflected event := by
  let message : ToReplica .transparent := .prePrepare (fourPrePrepare 1 [ping 0]) [ping 0]
  have hreplay : ∃ run ∈ (four ∅).replay [(0, .request (ping 0))],
      (run.2 0).coreActions.isEmpty ∧ (run.2 0).core.isPrimary = true ∧
      (run.2 0).core.viewNum = 0 ∧
      ((run.2 0).core.blocks[1]?.map Block.digest) = some (fourPrePrepare 1 [ping 0]).digest ∧
      (((run.2 0).call (.receive message)).toOption).isSome := by
    decide +kernel
  obtain ⟨⟨history, states⟩, hrun, hidle, hprimary, hview, hdigest, hcall⟩ := hreplay
  obtain ⟨block, hblock, hdigest⟩ := Option.map_eq_some_iff.mp hdigest
  cases hresult : (states 0).call (.receive message) with
  | error panic => simp [hresult, Except.toOption] at hcall
  | ok result =>
      have hhonest : (four ∅).Honest 0 := by decide
      exact ⟨view 0 history, states 0, result.1, .call (.receive message) result.2,
        (replay_run hrun).localRun hhonest, .call (List.isEmpty_iff.mp hidle) hresult, _, _, _, block,
        rfl, hprimary, hview.symm, hblock, hdigest⟩

end Pbft.Group

theorem addressing_reflected : ∃ (history : List (Pbft.Replica.Event .transparent))
    (replica next : Pbft.Replica .transparent) (event : Pbft.Replica.Event .transparent),
    Pbft.LocalRun ((Pbft.Group.four ∅).config 0) history replica ∧ replica.Step event next ∧
      Addresses 0 event.actions := by
  obtain ⟨history, replica, next, event, hrun, hstep, hreflected⟩ := Pbft.Group.reflected_primary
  exact ⟨history, replica, next, event, hrun, hstep,
    ((addressing _ .transparent).1 (Pbft.Replica.freeRun_of_localRun hrun) hstep).mpr hreflected⟩

/-- A backup that sends the primary's PrePrepare back makes it address itself. -/
theorem addressing_fails : ¬ ∀ (crypto : Crypto) (config : Pbft.ReplicaCoreConfig)
    (history : List (Pbft.Replica.Event crypto)) (replica next : Pbft.Replica crypto)
    (event : Pbft.Replica.Event crypto), Pbft.LocalRun config history replica →
    replica.Step event next → ¬ Addresses config.id event.actions := by
  intro hclaim
  obtain ⟨history, replica, next, event, hrun, hstep, hreflected⟩ := Pbft.Group.reflected_primary
  exact hclaim _ _ history replica next event hrun hstep
    ((Pbft.Replica.addresses_iff (Pbft.Replica.freeRun_of_localRun hrun) hstep).mpr hreflected)

end BftKit
