import BftKit.Hotstuff.Trace

/-! # Groups of replicas

Honest replicas of one group take steps in any interleaving. The network and the
faulty replicas are the choice of the messages that are delivered: any message may
be, at any time and any number of times.
-/

namespace BftKit.Hotstuff

open Foundation

variable {scheme : ThresholdScheme}

structure Group (scheme : ThresholdScheme) where
  spec : Spec
  openLoop : Nat → Bool
  maxBatchSize : Nat → Nat
  keyShare : Nat → scheme.GivreKeyShare
  supplySize : Nat → Nat
  refillThreshold : Nat → Nat
  faulty : Finset Nat

/-- The events of a group, with the replica each belongs to. -/
abbrev History (scheme : ThresholdScheme) := List (Nat × Replica.Event scheme)

namespace Group

def coreConfig (group : Group scheme) (id : Nat) : ReplicaCoreConfig where
  spec := group.spec
  id
  openLoop := group.openLoop id
  maxBatchSize := group.maxBatchSize id

def cryptoConfig (group : Group scheme) (id : Nat) : CryptoConfig scheme where
  keyShare := group.keyShare id
  supplySize := group.supplySize id
  refillThreshold := group.refillThreshold id

/-- A replica as `Replica::new` makes it. -/
def initial (group : Group scheme) (id : Nat) : Replica scheme :=
  .new (group.coreConfig id) (group.cryptoConfig id)

def Honest (group : Group scheme) (id : Nat) : Prop :=
  id < group.spec.numReplica ∧ id ∉ group.faulty

instance (group : Group scheme) (id : Nat) : Decidable (group.Honest id) :=
  inferInstanceAs (Decidable (_ ∧ _))

/-- One honest replica steps. -/
def Step (group : Group scheme) (who : Nat) (_history : History scheme)
    (replica : Replica scheme) (event : Replica.Event scheme) (next : Replica scheme) : Prop :=
  group.Honest who ∧ Replica.Step replica event next

/-- The honest replicas are new. -/
def Start (group : Group scheme) (who : Nat) (replica : Replica scheme) : Prop :=
  group.Honest who → replica = group.initial who

/-- The runs of a group. -/
abbrev GroupRun (group : Group scheme) : History scheme → (Nat → Replica scheme) → Prop :=
  Run (fun states => ∀ who, group.Start who (states who)) (interleave group.Step)

/-- The runs of a group whose steps meet a guard. -/
abbrev GuardedGroupRun (guard : Replica scheme → Replica.Event scheme → Prop)
    (group : Group scheme) : History scheme → (Nat → Replica scheme) → Prop :=
  Run (fun states => ∀ who, group.Start who (states who))
    (interleave fun who history replica event next =>
      group.Step who history replica event next ∧ guard replica event)

variable {group : Group scheme} {history : History scheme} {states : Nat → Replica scheme}
  {who : Nat} {guard : Replica scheme → Replica.Event scheme → Prop}

theorem GuardedGroupRun.groupRun (hrun : GuardedGroupRun guard group history states) :
    GroupRun group history states :=
  hrun.mono (fun _ h => h) fun _ _ _ _ ⟨target, h, hnext⟩ => ⟨target, h.1, hnext⟩

/-- Each honest replica sees a run of its own. -/
theorem GroupRun.localRun (hrun : GroupRun group history states) (hhonest : group.Honest who) :
    LocalRun (group.coreConfig who) (group.cryptoConfig who) (view who history) (states who) := by
  have hlocal : ∀ (history : History scheme) replica event next,
      group.Step who history replica event next → Replica.Step replica event next :=
    fun _ _ _ _ hstep => hstep.2
  exact (Run.view hlocal hrun).mono (fun _ hstart => hstart hhonest) fun _ _ _ _ h => h

theorem GuardedGroupRun.localRun (hrun : GuardedGroupRun guard group history states)
    (hhonest : group.Honest who) :
    GuardedRun guard (group.coreConfig who) (group.cryptoConfig who) (view who history)
      (states who) := by
  have hlocal : ∀ (history : History scheme) replica event next,
      group.Step who history replica event next ∧ guard replica event →
      Replica.Step replica event next ∧ guard replica event :=
    fun _ _ _ _ hstep => ⟨hstep.1.2, hstep.2⟩
  exact (Run.view hlocal hrun).mono (fun _ hstart => hstart hhonest) fun _ _ _ _ h => h

end Group

end BftKit.Hotstuff
