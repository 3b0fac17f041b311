import BftKit.Hotstuff.Network
import BftKit.Hotstuff.Replay

/-! # Replaying networks

A script of calls and of deliveries, each the index of a message in flight. Replaying
it yields a run of the network.
-/

namespace BftKit.Hotstuff.Group

open Foundation

variable {scheme : ThresholdScheme}

inductive Move (scheme : ThresholdScheme) where
  | call (who : Nat) (call : Replica.Call scheme)
  | deliver (index : Nat)

/-- One call with its loops, over the messages that remain in flight. -/
def replayInvoke (group : Group scheme)
    (run : History scheme × Network Nat (Replica scheme) (ToReplica scheme))
    (who : Nat) (call : Replica.Call scheme) (flight : List (Nat × ToReplica scheme)) :
    Option (History scheme × Network Nat (Replica scheme) (ToReplica scheme)) :=
  let (history, network) := run
  if who < group.spec.numReplica ∧ (network.states who).Idle then
    match (network.states who).call call with
    | .error _ => none
    | .ok (next, actions) =>
        (drain (fun _ _ => True) 64 next).map fun (final, events) =>
          let events := .call call actions :: events
          (history ++ events.map (Prod.mk who),
            ⟨Function.update network.states who final,
              flight ++ events.flatMap (group.protocol.sends who)⟩)
  else none

def replayMove (group : Group scheme)
    (run : History scheme × Network Nat (Replica scheme) (ToReplica scheme)) :
    Move scheme → Option (History scheme × Network Nat (Replica scheme) (ToReplica scheme))
  | .call _ (.receive _) => none
  | .call who call => replayInvoke group run who call run.2.flight
  | .deliver index =>
      match run.2.flight[index]? with
      | some (who, message) =>
          replayInvoke group run who (.receive message) (run.2.flight.eraseIdx index)
      | none => none

def replayNetwork (group : Group scheme) (script : List (Move scheme)) :
    Option (History scheme × Network Nat (Replica scheme) (ToReplica scheme)) :=
  script.foldlM (replayMove group) ([], ⟨group.initial, []⟩)

variable {group : Group scheme} {history history' : History scheme}
  {network network' : Network Nat (Replica scheme) (ToReplica scheme)} {who : Nat}

/-- Iterations of the loops extend a run of a network. -/
theorem Drained.networkRun {guard : Replica scheme → Replica.Event scheme → Prop}
    {replica final : Replica scheme} {events : List (Replica.Event scheme)}
    (h : Drained guard replica events final) (hwho : who < group.spec.numReplica)
    (hrun : group.NetworkRun history network) (hstate : network.states who = replica) :
    group.NetworkRun (history ++ events.map (Prod.mk who))
      ⟨Function.update network.states who final,
        network.flight ++ events.flatMap (group.protocol.sends who)⟩ := by
  induction h generalizing history network with
  | nil =>
      rw [← hstate, Function.update_eq_self, List.flatMap_nil, List.append_nil, List.map_nil,
        List.append_nil]
      exact hrun
  | @cons replica event next events final hstep _ hloop _ ih =>
      have hreceives : group.protocol.receives event = none := by
        cases event with
        | call call actions => exact absurd rfl (hloop call actions)
        | release | perform => rfl
      have htail := ih (.step hrun (.act hreceives ⟨hwho, hstate ▸ hstep⟩))
        (Function.update_self _ _ _)
      rwa [Function.update_idem, List.append_assoc, List.append_assoc] at htail

/-- A call extends a run when its first step does. -/
theorem replayInvoke_run {call : Replica.Call scheme} {flight : List (Nat × ToReplica scheme)}
    (hfirst : ∀ {next actions}, who < group.spec.numReplica →
      Replica.Step (network.states who) (.call call actions) next →
      group.NetworkRun (history ++ [(who, .call call actions)])
        ⟨Function.update network.states who next,
          flight ++ group.protocol.sends who (.call call actions)⟩)
    (hreplay : replayInvoke group (history, network) who call flight = some (history', network')) :
    group.NetworkRun history' network' := by
  simp only [replayInvoke] at hreplay
  split at hreplay
  next hready =>
    split at hreplay
    next => cases hreplay
    next next actions hcall =>
      obtain ⟨⟨final, events⟩, hdrain, heq⟩ := Option.map_eq_some_iff.mp hreplay
      obtain ⟨rfl, rfl⟩ := Prod.mk.inj heq
      have hrun := hfirst hready.1 (.call hready.2 hcall)
      have htail := (drain_drained 64 hdrain).networkRun hready.1 hrun (Function.update_self _ _ _)
      rwa [Function.update_idem, List.append_assoc, List.append_assoc] at htail
  next => cases hreplay

theorem replayMove_run (hrun : group.NetworkRun history network) {move : Move scheme}
    (hreplay : replayMove group (history, network) move = some (history', network')) :
    group.NetworkRun history' network' := by
  have hact : ∀ (who : Nat) (call : Replica.Call scheme), (∀ message, call ≠ .receive message) →
      replayInvoke group (history, network) who call network.flight = some (history', network') →
      group.NetworkRun history' network' := by
    intro who call hcall
    apply replayInvoke_run
    intro next actions hwho hstep
    have hreceives : group.protocol.receives (.call call actions) = none := by
      cases call with
      | receive message => exact absurd rfl (hcall message)
      | init | request | tick => rfl
    exact .step hrun (.act hreceives ⟨hwho, hstep⟩)
  cases move with
  | call who call =>
      cases call with
      | receive => cases hreplay
      | init => exact hact who .init nofun hreplay
      | request command => exact hact who (.request command) nofun hreplay
      | tick => exact hact who .tick nofun hreplay
  | deliver index =>
      simp only [replayMove] at hreplay
      split at hreplay
      next who message hflight =>
        refine replayInvoke_run (fun hwho hstep => ?_) hreplay
        obtain ⟨hlt, hget⟩ := List.getElem?_eq_some_iff.mp hflight
        have hsplit : network.flight =
            network.flight.take index ++ (who, message) :: network.flight.drop (index + 1) := by
          rw [← hget, List.getElem_cons_drop, List.take_append_drop]
        rw [List.eraseIdx_eq_take_drop_succ]
        exact .step hrun (.deliver rfl hsplit ⟨hwho, hstep⟩)
      next => cases hreplay

/-- A script that can be replayed yields a run of the network. -/
theorem replayNetwork_run {script : List (Move scheme)}
    (hreplay : replayNetwork group script = some (history, network)) :
    group.NetworkRun history network := by
  have hinit : group.NetworkRun [] ⟨group.initial, []⟩ := .start rfl
  suffices hfold : ∀ (script : List (Move scheme)) start, group.NetworkRun start.1 start.2 →
      script.foldlM (replayMove group) start = some (history, network) →
      group.NetworkRun history network from
    hfold script ([], ⟨group.initial, []⟩) hinit hreplay
  intro script
  induction script with
  | nil =>
      intro start hstart hfold
      obtain rfl := Option.some.inj hfold
      exact hstart
  | cons move rest ih =>
      intro start hstart hfold
      rw [List.foldlM_cons] at hfold
      obtain ⟨⟨history, network⟩, hmiddle, hrest⟩ := Option.bind_eq_some_iff.mp hfold
      exact ih _ (replayMove_run hstart hmiddle) hrest

/-- All replicas of a group of four start, and the leader gets a client's command; then
messages are delivered first come, first served. -/
def fourQueue (deliveries : Nat) : List (Move .transparent) :=
  (List.range 4).map (.call · .init) ++ List.replicate 3 (.deliver 0) ++
    .call 0 (.request (ping 0)) :: List.replicate deliveries (.deliver 0)

end BftKit.Hotstuff.Group
