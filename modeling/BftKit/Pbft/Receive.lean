import BftKit.Pbft.Trace
import BftKit.Pbft.Voters

/-! # The loop of a call

In a group that is not smaller than its fault bound the loop of a call comes to its end, as
long as there is room to count the Prepares it counts.
-/

namespace BftKit.Pbft

open Foundation

variable {crypto : Crypto}

namespace Replica

variable {config : ReplicaCoreConfig} {replica next : Replica crypto} {log : List Command}
  {history : List (Event crypto)} {message : ToReplica crypto}

/-! ## The loop ends -/

theorem perform_flat {action : ReplicaCoreAction crypto} {rest : ReplicaCoreActions crypto}
    (henabled : replica.Enabled action) (hflat : Flat action) :
    ∃ next actions, perform { replica with coreActions := rest } action = .ok (next, actions) ∧
      next.coreActions = rest := by
  cases action with
  | propose blockNum commands =>
      obtain ⟨hnone, hprimary⟩ := henabled
      have hprimary' : ReplicaCore.isPrimary replica.core = true := hprimary
      simp only [perform, performPropose, handle, ReplicaCore.handle_proposal hnone, ok_bind,
        hprimary', if_true, List.append_nil]
      exact ⟨_, _, rfl, rfl⟩
  | finalize blockNum =>
      obtain ⟨hscratch, block, hblock⟩ := henabled
      simp only [perform, performFinalize, hscratch, not_true_eq_false, if_false, hblock]
      exact ⟨_, _, rfl, rfl⟩
  | forward replicaId command => exact ⟨_, _, rfl, rfl⟩
  | prepare _ _ | commit _ | viewChange _ _ | newView _ _ _ | enterView => exact absurd hflat id

theorem drain_cons {action : ReplicaCoreAction crypto} {rest : ReplicaCoreActions crypto}
    {actions : List (Action crypto)} {final : Replica crypto} {events : List (Event crypto)}
    {fuel : Nat} (hqueue : replica.coreActions = action :: rest)
    (hperform : perform { replica with coreActions := rest } action = .ok (next, actions))
    (hdrain : next.drain fuel = .ok (final, events)) :
    replica.drain (fuel + 1) = .ok (final, .perform action actions :: events) := by
  rw [drain]
  simp only [hqueue, hperform, ok_bind, hdrain]

/-- The loop comes to its end from here. -/
def Drains (replica : Replica crypto) : Prop :=
  ∃ fuel final events, replica.drain fuel = .ok (final, events) ∧ final.coreActions = []

theorem drains_nil (hidle : replica.coreActions = []) : replica.Drains :=
  ⟨0, replica, [], rfl, hidle⟩

/-- The loop comes to its end by performing what is queued first. -/
theorem drains_cons {action : ReplicaCoreAction crypto} {rest : ReplicaCoreActions crypto}
    (hqueue : replica.coreActions = action :: rest) :
    replica.Drains ↔ ∃ next actions,
      perform { replica with coreActions := rest } action = .ok (next, actions) ∧ next.Drains := by
  constructor
  · rintro ⟨fuel, final, events, hdrain, hidle⟩
    cases fuel with
    | zero =>
        obtain ⟨rfl, -⟩ := Prod.mk.inj (Except.ok.inj hdrain)
        simp [hqueue] at hidle
    | succ fuel =>
        rw [drain] at hdrain
        simp only [hqueue, bind_eq_ok] at hdrain
        obtain ⟨⟨next, actions⟩, hperform, ⟨last, more⟩, hmore, heq⟩ := hdrain
        obtain ⟨rfl, -⟩ := Prod.mk.inj (Except.ok.inj heq)
        exact ⟨next, actions, hperform, fuel, last, more, hmore, hidle⟩
  · rintro ⟨next, actions, hperform, fuel, final, events, hdrain, hidle⟩
    exact ⟨fuel + 1, final, _, drain_cons hqueue hperform hdrain, hidle⟩

theorem Drains.of_perform {action : ReplicaCoreAction crypto} {rest : ReplicaCoreActions crypto}
    {actions : List (Action crypto)} (hqueue : replica.coreActions = action :: rest)
    (hperform : perform { replica with coreActions := rest } action = .ok (next, actions))
    (hnext : next.Drains) : replica.Drains :=
  (drains_cons hqueue).mpr ⟨next, actions, hperform, hnext⟩

theorem unforged_perform (action : ReplicaCoreAction crypto) (actions : List (Action crypto)) :
    Unforged config history (.perform action actions) := by
  intro _ _ _ h
  cases h

theorem drains_flat (h : Accountable config history replica)
    (hflat : ∀ action ∈ replica.coreActions, Flat action) : replica.Drains := by
  induction hqueue : replica.coreActions generalizing replica history with
  | nil => exact drains_nil hqueue
  | cons action rest ih =>
      obtain ⟨next, actions, hperform, hrest⟩ := @perform_flat _ replica action rest
        (h.coherent.enabled hqueue) (hflat action (by simp [hqueue]))
      refine Drains.of_perform hqueue hperform
        (ih (h.step (.perform hqueue hperform) (unforged_perform _ _)) ?_ hrest)
      intro other hmem
      rw [hrest] at hmem
      exact hflat other (by simp [hqueue, hmem])

/-- In a group that is not smaller than its fault bound, performing succeeds. -/
theorem Accountable.performs (h : Accountable config history replica)
    (hfaulty : config.spec.numFaulty ≤ config.spec.numReplica) (hroom : replica.Roomy)
    {action : ReplicaCoreAction crypto} {rest : ReplicaCoreActions crypto}
    (hqueue : replica.coreActions = action :: rest) :
    ∃ next actions, perform { replica with coreActions := rest } action = .ok (next, actions) ∧
      Accountable config (history ++ [.perform action actions]) next ∧
      ∃ log, Effect log replica (.perform action actions) next := by
  obtain ⟨lists, hlists, hissued, -⟩ := h.coherent.queue
  have hlawful := perform_lawful (h.coherent.ready hissued) hqueue (h.coherent.enabled hqueue)
  cases hperform : perform { replica with coreActions := rest } action with
  | ok result =>
      obtain ⟨next, actions⟩ := result
      rw [hperform] at hlawful
      exact ⟨next, actions, rfl, h.step (.perform hqueue hperform) (unforged_perform _ _), _,
        hlawful⟩
  | error panic =>
      rw [hperform] at hlawful
      rw [← h.coherent.configured] at hfaulty
      exact absurd hlawful (not_tolerated hfaulty hroom)

theorem flat_run {done count stored : Nat} {lists : List (List Command)}
    {action : ReplicaCoreAction crypto}
    (hmem : action ∈ finalizeActions crypto done count ++ proposeActions crypto stored lists) :
    Flat action := by
  rcases List.mem_append.mp hmem with hfinalize | hpropose
  · obtain ⟨_, -, rfl⟩ := List.mem_map.mp hfinalize
    trivial
  · obtain ⟨_, -, rfl⟩ := List.mem_map.mp hpropose
    trivial

theorem CommitCheck.flat {blockNum : Nat} {block : Block crypto} {scratch : BlockScratch crypto}
    (hcheck : CommitCheck log replica blockNum block scratch next)
    (hidle : replica.coreActions = []) : ∀ action ∈ next.coreActions, Flat action := by
  cases hcheck with
  | waiting => simp [hidle]
  | committed =>
      simp only [hidle, List.nil_append]
      exact fun _ hmem => flat_run hmem

/-- Only a Prepare has Prepares to count. -/
theorem roomy_of_head {action : ReplicaCoreAction crypto} {rest : ReplicaCoreActions crypto}
    (hqueue : replica.coreActions = action :: rest)
    (hother : ∀ blockNum digest, action ≠ .prepare blockNum digest) : replica.Roomy := by
  intro quorum hgathers
  cases hgathers with
  | perform hqueue' => exact absurd (List.cons.inj (hqueue.symm.trans hqueue')).1 (hother _ _)

theorem drains_commit (h : Accountable config history replica)
    (hfaulty : config.spec.numFaulty ≤ config.spec.numReplica) {blockNum : Nat}
    (hqueue : replica.coreActions = [.commit blockNum]) : replica.Drains := by
  obtain ⟨next, actions, hperform, hnext, log, heffect⟩ :=
    h.performs hfaulty (roomy_of_head hqueue fun _ _ heq => by cases heq) hqueue
  refine Drains.of_perform hqueue hperform (drains_flat hnext ?_)
  cases heffect with
  | commit hqueue' _ _ hcheck =>
      obtain ⟨-, rfl⟩ := List.cons.inj (hqueue'.symm.trans hqueue)
      exact hcheck.flat rfl

/-- A queue that a coherent replica can have is worked off. -/
theorem drains (h : Accountable config history replica)
    (hfaulty : config.spec.numFaulty ≤ config.spec.numReplica) (hroom : replica.Roomy) :
    replica.Drains := by
  obtain ⟨lists, hlists, -, -⟩ := h.coherent.queue
  cases hlists with
  | run hqueue =>
      refine drains_flat h ?_
      rw [hqueue]
      exact fun _ hmem => flat_run hmem
  | @solo action hqueue hsolo =>
      cases action with
      | forward _ _ => exact drains_flat h (by simp [hqueue, Flat])
      | commit blockNum => exact drains_commit h hfaulty hqueue
      | prepare blockNum digest =>
          obtain ⟨next, actions, hperform, hnext, log, heffect⟩ := h.performs hfaulty hroom hqueue
          refine Drains.of_perform hqueue hperform ?_
          cases heffect with
          | prepare hqueue' _ _ _ hcheck =>
              obtain ⟨-, rfl⟩ := List.cons.inj (hqueue'.symm.trans hqueue)
              cases hcheck with
              | waiting => exact drains_nil rfl
              | prepared => exact drains_commit hnext hfaulty rfl
      | propose _ _ | finalize _ | viewChange _ _ | newView _ _ _ | enterView =>
          exact absurd hsolo id

/-- A request is always taken in. -/
theorem request_ok (hready : replica.Ready log) (command : Command) :
    ∃ result, replica.call (.request command) = .ok result := by
  obtain ⟨pool, lists, hhandle, -⟩ :=
    ReplicaCore.handle_request hready.pool hready.closeLoop hready.window command
  cases hcall : replica.call (.request command) with
  | ok result => exact ⟨result, rfl⟩
  | error panic =>
      simp only [Replica.call, receiveMessage, handle, hhandle, ok_bind] at hcall
      cases hcall

theorem Accountable.ready (h : Accountable config history replica) : ∃ log, Ready log replica := by
  obtain ⟨lists, -, hissued, -⟩ := h.coherent.queue
  exact ⟨_, h.coherent.ready hissued⟩

end Replica

end BftKit.Pbft
