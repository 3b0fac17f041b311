import BftKit.Crypto.Transparent
import BftKit.Pbft.Group

/-! # Replaying runs

A script lists calls with the replica that receives each. Replaying it runs each
call to the end of its loop, checks what the step relation asks for, and yields a
run of the group, so that facts about concrete runs can be computed.
-/

namespace BftKit.Pbft

open Foundation

variable {crypto : Crypto}

namespace Group

/-- A replica as `Replica::new` makes it. -/
def initial (crypto : Crypto) (group : Group) (id : Nat) : Replica crypto where
  core := .new (group.config id)
  coreActions := []
  cryptoConfig := {
    secretKey := crypto.replicaSecretKey id
    publicKeys := (List.range group.spec.numReplica).map fun id =>
      crypto.publicKey (crypto.replicaSecretKey id) }
  blockScratches := ∅
  tickedScratchNum := 0

/-- A call may be made now, as far as its message goes. -/
def Deliverable (group : Group) (history : History crypto) : Replica.Call crypto → Prop
  | .request _ | .tick => True
  | .receive message => group.Authentic history message

instance (group : Group) (history : History crypto) (call : Replica.Call crypto) :
    Decidable (group.Deliverable history call) :=
  match call with
  | .request _ | .tick => .isTrue trivial
  | .receive message => inferInstanceAs (Decidable (group.Authentic history message))

/-- One call, with its loop. -/
def replayCall (group : Group) (run : History crypto × (Nat → Replica crypto))
    (entry : Nat × Replica.Call crypto) : Option (History crypto × (Nat → Replica crypto)) :=
  let (history, states) := run
  let (who, call) := entry
  if group.Honest who ∧ (states who).coreActions.isEmpty ∧ group.Deliverable history call then
    match (states who).call call with
    | .error _ => none
    | .ok (next, actions) =>
        match next.drain 64 with
        | .error _ => none
        | .ok (final, events) => some
            (history ++ (who, .call call actions) :: events.map (Prod.mk who),
              Function.update states who final)
  else none

def replay (group : Group) (script : List (Nat × Replica.Call crypto)) :
    Option (History crypto × (Nat → Replica crypto)) :=
  script.foldlM group.replayCall ([], group.initial crypto)

variable {group : Group} {history : History crypto} {states : Nat → Replica crypto} {who : Nat}

theorem new_initial (hid : who < group.spec.numReplica) :
    Replica.new crypto (group.config who) = .ok (group.initial crypto who) := by
  have hkey : ((List.range group.spec.numReplica).map crypto.replicaSecretKey)[who]? =
      some (crypto.replicaSecretKey who) := by
    rw [List.getElem?_map, List.getElem?_range hid, Option.map_some]
  simp only [Replica.new, ReplicaConfig.new, config, hkey, ok_bind, initial, List.map_map]
  rfl

/-- The loop of a call is a run of performed actions. -/
theorem drained_run {replica final : Replica crypto} {events : List (Replica.Event crypto)}
    (hdrained : Replica.Drained replica events final) (hrun : GroupRun group history states)
    (hhonest : group.Honest who) (hstate : states who = replica) :
    GroupRun group (history ++ events.map (Prod.mk who)) (Function.update states who final) := by
  induction hdrained generalizing history states with
  | nil =>
      rw [← hstate, List.map_nil, List.append_nil, Function.update_eq_self]
      exact hrun
  | @cons replica action rest next actions events final hqueue hperform _ ih =>
      have hstep : GroupRun group (history ++ [(who, .perform action actions)])
          (Function.update states who next) :=
        .step hrun ⟨next, ⟨hhonest, hstate ▸ .perform hqueue hperform, by simp⟩, rfl⟩
      have htail := ih hstep (Function.update_self _ _ _)
      rwa [Function.update_idem, List.append_assoc] at htail

theorem replayCall_run (hrun : GroupRun group history states) {call : Replica.Call crypto}
    {history' : History crypto} {states' : Nat → Replica crypto}
    (hreplay : group.replayCall (history, states) (who, call) = some (history', states')) :
    GroupRun group history' states' := by
  simp only [replayCall] at hreplay
  split at hreplay
  next hguard =>
    obtain ⟨hhonest, hidle, hdeliverable⟩ := hguard
    split at hreplay
    next => cases hreplay
    next next actions hcall =>
      split at hreplay
      next => cases hreplay
      next final events hdrain =>
        obtain ⟨rfl, rfl⟩ := Prod.mk.inj (Option.some.inj hreplay)
        have hstep : GroupRun group (history ++ [(who, .call call actions)])
            (Function.update states who next) := by
          refine .step hrun ⟨next, ⟨hhonest, .call (by simpa using hidle) hcall, ?_⟩, rfl⟩
          intro message actions' heq
          obtain rfl := (Replica.Event.call.inj heq).1
          exact hdeliverable
        have htail := drained_run (Replica.drain_drained hdrain) hstep hhonest
          (Function.update_self _ _ _)
        rwa [Function.update_idem, List.append_assoc] at htail
  next => cases hreplay

/-- A script that can be replayed yields a run. -/
theorem replay_run {script : List (Nat × Replica.Call crypto)}
    (hreplay : group.replay script = some (history, states)) : GroupRun group history states := by
  suffices hfold : ∀ (script : List (Nat × Replica.Call crypto)) start,
      GroupRun group start.1 start.2 →
      script.foldlM group.replayCall start = some (history, states) →
      GroupRun group history states from
    hfold script _ (.start fun who hhonest => new_initial hhonest.1) hreplay
  intro script
  induction script with
  | nil =>
      intro start hstart hfold
      obtain rfl := Option.some.inj hfold
      exact hstart
  | cons entry rest ih =>
      intro start hstart hfold
      rw [List.foldlM_cons] at hfold
      obtain ⟨middle, hmiddle, hrest⟩ := Option.bind_eq_some_iff.mp hfold
      exact ih middle (replayCall_run hstart hmiddle) hrest

/-! ## A group of four -/

/-- Four replicas that tolerate one fault, with single commands in flight. -/
def four (faulty : Finset Nat) : Group where
  spec := { numFaulty := 1, numReplica := 4 }
  maxNumInflight _ := 1
  maxBatchSize _ := 1
  faulty

/-- The PrePrepare that a primary of the four signs. -/
def fourPrePrepare (blockNum : Nat) (commands : List Command) : PrePrepare .transparent :=
  ((four ∅).initial .transparent 0).signPrePrepare blockNum (blockDigest .transparent commands)

/-- The vote that one of the four signs. -/
def fourVote (id blockNum : Nat) (commands : List Command) : Vote .transparent :=
  ((four ∅).initial .transparent id).signVote blockNum (blockDigest .transparent commands)

/-- A client command with an empty operation. -/
def ping (clientId : ClientId) : Command where
  clientId
  seq := 1
  op := []

/-- One command on its way through replicas 0, 1 and 2, up to its finalization by
the first two. -/
def fourNormalCase : List (Nat × Replica.Call .transparent) :=
  let vote := fun id => fourVote id 1 [ping 0]
  [(0, .request (ping 0)),
    (1, .receive (.prePrepare (fourPrePrepare 1 [ping 0]) [ping 0])),
    (2, .receive (.prePrepare (fourPrePrepare 1 [ping 0]) [ping 0])),
    (0, .receive (.prepare (vote 1))), (0, .receive (.prepare (vote 2))),
    (1, .receive (.prepare (vote 2))), (2, .receive (.prepare (vote 1))),
    (0, .receive (.commit (vote 1))), (0, .receive (.commit (vote 2))),
    (1, .receive (.commit (vote 0))), (1, .receive (.commit (vote 2)))]

end Group

namespace Replica

/-- What the primary of four is called with until its first block is committed. -/
def fourCalls : List (Call .transparent) :=
  let vote := fun id => Group.fourVote id 1 [Group.ping 0]
  [.request (Group.ping 0), .receive (.prepare (vote 1)), .receive (.prepare (vote 2)),
    .receive (.commit (vote 1)), .receive (.commit (vote 2))]

end Replica

end BftKit.Pbft
