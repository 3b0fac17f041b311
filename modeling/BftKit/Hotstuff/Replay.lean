import BftKit.Crypto.Transparent
import BftKit.Hotstuff.Group

/-! # Replaying runs

A script lists calls with the replica that receives each. Replaying it runs each
call to the end of its loops, checks a guard at every step, and yields a run of the
group, so that facts about concrete runs can be computed.
-/

namespace BftKit.Hotstuff

open Foundation

variable {scheme : ThresholdScheme}

namespace Group

section

variable (guard : Replica scheme → Replica.Event scheme → Prop)
  [∀ replica event, Decidable (guard replica event)]

/-- The loops of a call, for at most the given number of iterations. -/
def drain : Nat → Replica scheme → Option (Replica scheme × List (Replica.Event scheme))
  | 0, _ => none
  | fuel + 1, replica =>
      match replica.pending, replica.coreActions with
      | (blockDigest, block) :: rest, _ =>
          let event := .release blockDigest block
          match Replica.release { replica with pending := rest } blockDigest block with
          | .ok next =>
              if guard replica event then
                (drain fuel next).map fun (final, events) => (final, event :: events)
              else none
          | .error _ => none
      | [], action :: rest =>
          match Replica.perform { replica with coreActions := rest } action with
          | .ok (next, actions) =>
              let event := .perform action (replica.signing action) actions
              if guard replica event then
                (drain fuel next).map fun (final, events) => (final, event :: events)
              else none
          | .error _ => none
      | [], [] => some (replica, [])

/-- One call, with its loops. -/
def replayCall (group : Group scheme) (run : History scheme × (Nat → Replica scheme))
    (entry : Nat × Replica.Call scheme) : Option (History scheme × (Nat → Replica scheme)) :=
  let (history, states) := run
  let (who, call) := entry
  if group.Honest who ∧ (states who).Idle then
    match (states who).call call with
    | .error _ => none
    | .ok (next, actions) =>
        if guard (states who) (.call call actions) then
          (drain guard 64 next).map fun (final, events) =>
            (history ++ (who, .call call actions) :: events.map (Prod.mk who),
              Function.update states who final)
        else none
  else none

def replay (group : Group scheme) (script : List (Nat × Replica.Call scheme)) :
    Option (History scheme × (Nat → Replica scheme)) :=
  script.foldlM (replayCall guard group) ([], group.initial)

end

variable {group : Group scheme} {history : History scheme} {states : Nat → Replica scheme}
  {who : Nat} {guard : Replica scheme → Replica.Event scheme → Prop}
  [∀ replica event, Decidable (guard replica event)]

/-- Iterations of the loops, under a guard. -/
inductive Drained (guard : Replica scheme → Replica.Event scheme → Prop) :
    Replica scheme → List (Replica.Event scheme) → Replica scheme → Prop
  | nil {replica} : Drained guard replica [] replica
  | cons {replica event next events final} (hstep : Replica.Step replica event next)
      (hguard : guard replica event) (hloop : ∀ call actions, event ≠ .call call actions)
      (hrest : Drained guard next events final) : Drained guard replica (event :: events) final

/-- The loops of a call are releases and performed actions. -/
theorem drain_drained (fuel : Nat) {replica final : Replica scheme}
    {events : List (Replica.Event scheme)}
    (hdrain : drain guard fuel replica = some (final, events)) :
    Drained guard replica events final := by
  induction fuel generalizing replica events with
  | zero => cases hdrain
  | succ fuel ih =>
      have hnext : ∀ {event next}, Replica.Step replica event next →
          (∀ call actions, event ≠ .call call actions) →
          (if guard replica event then
            (drain guard fuel next).map fun (final, events) => (final, event :: events)
          else none) = some (final, events) →
          Drained guard replica events final := by
        intro event next hstep hloop hrest
        split at hrest
        next hguard =>
          obtain ⟨⟨final', events'⟩, htail, heq⟩ := Option.map_eq_some_iff.mp hrest
          obtain ⟨rfl, rfl⟩ := Prod.mk.inj heq
          exact .cons hstep hguard hloop (ih htail)
        next => cases hrest
      unfold drain at hdrain
      split at hdrain
      next hpending =>
        split at hdrain
        next hrelease => exact hnext (.release hpending hrelease) nofun hdrain
        next => cases hdrain
      next hpending hqueue =>
        split at hdrain
        next hperform => exact hnext (.perform hpending hqueue hperform) nofun hdrain
        next => cases hdrain
      next =>
        obtain ⟨rfl, rfl⟩ := Prod.mk.inj (Option.some.inj hdrain)
        exact .nil

omit [∀ replica event, Decidable (guard replica event)] in
/-- Iterations of the loops extend a run. -/
theorem Drained.run {replica final : Replica scheme} {events : List (Replica.Event scheme)}
    (h : Drained guard replica events final) (hhonest : group.Honest who)
    (hrun : GuardedGroupRun guard group history states) (hstate : states who = replica) :
    GuardedGroupRun guard group (history ++ events.map (Prod.mk who))
      (Function.update states who final) := by
  induction h generalizing history states with
  | nil =>
      rw [List.map_nil, List.append_nil, ← hstate, Function.update_eq_self]
      exact hrun
  | @cons replica event next events final hstep hguard _ _ ih =>
      have hstep' : GuardedGroupRun guard group (history ++ [(who, event)])
          (Function.update states who next) :=
        .step hrun ⟨next, ⟨⟨hhonest, hstate ▸ hstep⟩, hstate ▸ hguard⟩, rfl⟩
      have htail := ih hstep' (Function.update_self _ _ _)
      rwa [Function.update_idem, List.append_assoc] at htail

theorem replayCall_run (hrun : GuardedGroupRun guard group history states)
    {call : Replica.Call scheme} {history' : History scheme} {states' : Nat → Replica scheme}
    (hreplay : replayCall guard group (history, states) (who, call) = some (history', states')) :
    GuardedGroupRun guard group history' states' := by
  simp only [replayCall] at hreplay
  split at hreplay
  next hhonest =>
    split at hreplay
    next => cases hreplay
    next next actions hcall =>
      split at hreplay
      next hguard =>
        obtain ⟨⟨final, events⟩, hdrain, heq⟩ := Option.map_eq_some_iff.mp hreplay
        obtain ⟨rfl, rfl⟩ := Prod.mk.inj heq
        have hstep : GuardedGroupRun guard group (history ++ [(who, .call call actions)])
            (Function.update states who next) :=
          .step hrun ⟨next, ⟨⟨hhonest.1, .call hhonest.2 hcall⟩, hguard⟩, rfl⟩
        have htail := (drain_drained 64 hdrain).run hhonest.1 hstep (Function.update_self _ _ _)
        rwa [Function.update_idem, List.append_assoc] at htail
      next => cases hreplay
  next => cases hreplay

/-- A script that can be replayed yields a run. -/
theorem replay_run {script : List (Nat × Replica.Call scheme)}
    (hreplay : replay guard group script = some (history, states)) :
    GuardedGroupRun guard group history states := by
  suffices hfold : ∀ (script : List (Nat × Replica.Call scheme)) start,
      GuardedGroupRun guard group start.1 start.2 →
      script.foldlM (replayCall guard group) start = some (history, states) →
      GuardedGroupRun guard group history states from
    hfold script _ (.start fun who _ => rfl) hreplay
  intro script
  induction script with
  | nil =>
      intro start hstart hfold
      obtain rfl := Option.some.inj hfold
      exact hstart
  | cons entry rest ih =>
      intro start hstart hfold
      rw [List.foldlM_cons] at hfold
      obtain ⟨middle, hmiddle, hrest⟩ := Option.bind_eq_some_iff.mp hfold
      exact ih middle (replayCall_run hstart hmiddle) hrest

/-! ## A group of four -/

/-- Four replicas that tolerate one fault and never refill their nonces. -/
def four (faulty : Finset Nat) : Group .transparent where
  spec := { numFaulty := 1, numReplica := 4 }
  openLoop _ := false
  maxBatchSize _ := 1
  keyShare id := (id, 3)
  supplySize _ := 8
  refillThreshold _ := 0
  faulty

/-- A client command with an empty operation. -/
def ping (clientId : ClientId) : Command where
  clientId
  seq := 1
  op := []

/-- The certificate of genesis. -/
def genesisCert : Message.QuorumCert .transparent := ⟨.zero, .vec []⟩

/-- The digest of a block of the four. -/
def fourDigest (block : Message.Block .transparent) : Digest :=
  ThresholdScheme.transparent.digest block

/-- A certificate that the first three of the four sign. -/
def fourCert (block : Message.Block .transparent) : Message.QuorumCert .transparent :=
  ⟨fourDigest block, .givre (fourDigest block, [0, 1, 2])⟩

/-- A block on top of another one, which it justifies. -/
def fourChild (parent : Message.Block .transparent) (commands : List Command) :
    Message.Block .transparent where
  parent := fourDigest parent
  commands
  justify := fourCert parent
  height := (parent.height + 1) % 2 ^ 32
  height_lt := Nat.mod_lt _ (by decide)

/-- The blocks of a chain on top of another block, up to a number. -/
def fourChain : Nat → Message.Block .transparent → List (Message.Block .transparent)
  | 0, block => [block]
  | count + 1, block => block :: fourChain count (fourChild block [])

/-- The delivery of a block to one of the four, for its first three to sign with
their nonces of a draw. -/
def deliver (draw : Nat) (block : Message.Block .transparent) (who : Nat) :
    Nat × Replica.Call .transparent :=
  (who, .receive (.generic
    { block := fourDigest block
      signers := [(0, (0, draw)), (1, (1, draw)), (2, (2, draw))] } block))

theorem firstHeight_lt : 1 < 2 ^ 32 := by decide

/-- The first block of the four. -/
def fourFirst : Message.Block .transparent where
  parent := .zero
  commands := [ping 0]
  justify := genesisCert
  height := 1
  height_lt := firstHeight_lt

/-- The first blocks of a chain from genesis, as the first backup receives them. -/
def fourRow (count : Nat) : List (Nat × Replica.Call .transparent) :=
  (1, .init) :: (fourChain count fourFirst).zipIdx.map fun entry => deliver entry.2 entry.1 1

/-- The delivery of blocks to the first two backups, one after another. -/
def fourPair (blocks : List (Message.Block .transparent)) :
    List (Nat × Replica.Call .transparent) :=
  (1, .init) :: (2, .init) ::
    blocks.zipIdx.flatMap fun entry => [deliver entry.2 entry.1 1, deliver entry.2 entry.1 2]

/-- The third block of a chain from genesis, then the first one, for the first backup. -/
def fourGap : List (Nat × Replica.Call .transparent) :=
  [(1, .init), deliver 2 (fourChild (fourChild fourFirst []) []) 1, deliver 0 fourFirst 1]

/-- The commitments that a backup of the four supplies to the leader. -/
def fourSupply (who : Nat) : Nat × Replica.Call .transparent :=
  (0, .receive (.publicCommitmentsSupply who ((List.range 8).map (who, ·))))

/-- The vote of a backup of the four, as it reaches the leader. -/
def fourVote (block : Message.Block .transparent) (who : Nat) : Nat × Replica.Call .transparent :=
  (0, .receive (.voteGeneric
    { node := fourDigest block, partialSig := .givre (who, fourDigest block), signerIndex := who }))

/-- A leader that gets one command finalized: it takes the votes on four blocks. -/
def fourLead : List (Nat × Replica.Call .transparent) :=
  [(0, .init), fourSupply 1, fourSupply 2, (0, .request (ping 0))] ++
    (fourChain 3 fourFirst).flatMap fun block => [fourVote block 1, fourVote block 2]

end Group

end BftKit.Hotstuff
