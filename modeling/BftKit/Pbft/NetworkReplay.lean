import BftKit.Pbft.Network
import BftKit.Pbft.Replay

/-! # Replaying lossy networks

A script of calls, and of deliveries and losses, each the index of a message in flight.
Replaying it yields a lossy run of the network.
-/

namespace BftKit.Pbft.Group

open Foundation Replica

variable {crypto : Crypto}

inductive Move (crypto : Crypto) where
  | call (who : Nat) (call : Call crypto)
  | deliver (index : Nat)
  | lose (index : Nat)

/-- One call with its loop. -/
def replayInvoke (replica : Replica crypto) (call : Call crypto) :
    Option (Invocation crypto × Replica crypto) :=
  if replica.coreActions.isEmpty then
    match replica.call call with
    | .error _ => none
    | .ok (next, actions) =>
        match next.drain 64 with
        | .error _ => none
        | .ok (final, performed) =>
            if final.coreActions.isEmpty then some (⟨call, actions, performed⟩, final) else none
  else none

/-- The states and histories of a replay. -/
abbrev Replayed (crypto : Crypto) :=
  List (Incident Nat (Invocation crypto) (ToReplica crypto)) ×
    Network Nat (Replica crypto) (ToReplica crypto)

/-- A call of one replica, over the messages that remain in flight. -/
def replayStep (group : Group) (run : Replayed crypto) (who : Nat) (call : Call crypto)
    (flight : List (Nat × ToReplica crypto)) : Option (Replayed crypto) :=
  if who < group.spec.numReplica then
    (replayInvoke (run.2.states who) call).map fun (invocation, final) =>
      (run.1 ++ [.step who invocation], ⟨Function.update run.2.states who final,
        flight ++ (group.protocol crypto).sends who invocation⟩)
  else none

def replayMove (group : Group) (run : Replayed crypto) : Move crypto → Option (Replayed crypto)
  | .call _ (.receive _) => none
  | .call who call => group.replayStep run who call run.2.flight
  | .deliver index =>
      match run.2.flight[index]? with
      | some (who, message) =>
          group.replayStep run who (.receive message) (run.2.flight.eraseIdx index)
      | none => none
  | .lose index =>
      match run.2.flight[index]? with
      | some (who, message) =>
          some (run.1 ++ [.lose who message], ⟨run.2.states, run.2.flight.eraseIdx index⟩)
      | none => none

def replayNetwork (group : Group) (script : List (Move crypto)) : Option (Replayed crypto) :=
  script.foldlM group.replayMove ([], ⟨group.initial crypto, []⟩)

variable {group : Group} {run run' : Replayed crypto}

theorem replayInvoke_invokes {replica final : Replica crypto} {call : Call crypto}
    {invocation : Invocation crypto}
    (hreplay : replayInvoke replica call = some (invocation, final)) :
    invocation.call = call ∧ replica.Invokes invocation final := by
  unfold replayInvoke at hreplay
  split at hreplay
  next hidle =>
    split at hreplay
    next => cases hreplay
    next next actions hcall =>
      split at hreplay
      next => cases hreplay
      next final' performed hdrain =>
        split at hreplay
        next hdone =>
          obtain ⟨rfl, rfl⟩ := Prod.mk.inj (Option.some.inj hreplay)
          exact ⟨rfl, List.isEmpty_iff.mp hidle, ⟨next, hcall, drain_drained hdrain⟩,
            List.isEmpty_iff.mp hdone⟩
        next => cases hreplay
  next => cases hreplay

theorem eraseIdx_split {Item : Type*} {items : List Item} {index : Nat} {item : Item}
    (hget : items[index]? = some item) :
    items = items.take index ++ item :: items.drop (index + 1) ∧
      items.eraseIdx index = items.take index ++ items.drop (index + 1) := by
  obtain ⟨hlt, rfl⟩ := List.getElem?_eq_some_iff.mp hget
  rw [List.getElem_cons_drop, List.take_append_drop]
  exact ⟨rfl, List.eraseIdx_eq_take_drop_succ ..⟩

theorem replayMove_run (hrun : (group.protocol crypto).LossyRun run.1 run.2) {move : Move crypto}
    (hreplay : group.replayMove run move = some run') :
    (group.protocol crypto).LossyRun run'.1 run'.2 := by
  -- calls that take no message off the network
  have hact : ∀ (who : Nat) (call : Call crypto), (∀ message, call ≠ .receive message) →
      group.replayStep run who call run.2.flight = some run' →
      (group.protocol crypto).LossyRun run'.1 run'.2 := by
    intro who call hcall hreplay
    unfold replayStep at hreplay
    split at hreplay
    next hwho =>
      obtain ⟨⟨invocation, final⟩, hinvoke, rfl⟩ := Option.map_eq_some_iff.mp hreplay
      obtain ⟨rfl, hinvokes⟩ := replayInvoke_invokes hinvoke
      refine .step hrun (.step (.act ?_ ⟨hwho, hinvokes⟩))
      change invocation.receives = none
      unfold Invocation.receives
      split
      next message heq => exact absurd heq (hcall message)
      all_goals rfl
    next => cases hreplay
  cases move with
  | call who call =>
      cases call with
      | receive => cases hreplay
      | request command => exact hact who (.request command) nofun hreplay
      | tick => exact hact who .tick nofun hreplay
  | deliver index =>
      simp only [replayMove] at hreplay
      split at hreplay
      next who message hflight =>
        obtain ⟨hsplit, herase⟩ := eraseIdx_split hflight
        unfold replayStep at hreplay
        split at hreplay
        next hwho =>
          obtain ⟨⟨invocation, final⟩, hinvoke, rfl⟩ := Option.map_eq_some_iff.mp hreplay
          obtain ⟨hcall, hinvokes⟩ := replayInvoke_invokes hinvoke
          rw [herase]
          refine .step hrun (.step (.deliver ?_ hsplit ⟨hwho, hinvokes⟩))
          change invocation.receives = some message
          rw [Invocation.receives, hcall]
        next => cases hreplay
      next => cases hreplay
  | lose index =>
      simp only [replayMove] at hreplay
      split at hreplay
      next who message hflight =>
        obtain ⟨hsplit, herase⟩ := eraseIdx_split hflight
        obtain rfl := Option.some.inj hreplay
        rw [herase]
        exact .step hrun (.lose hsplit)
      next => cases hreplay

/-- A script that can be replayed yields a lossy run. -/
theorem replayNetwork_run {script : List (Move crypto)}
    (hreplay : group.replayNetwork script = some run) :
    (group.protocol crypto).LossyRun run.1 run.2 := by
  suffices hfold : ∀ (script : List (Move crypto)) start,
      (group.protocol crypto).LossyRun start.1 start.2 →
      script.foldlM group.replayMove start = some run →
      (group.protocol crypto).LossyRun run.1 run.2 from
    hfold script ([], ⟨group.initial crypto, []⟩) (.start rfl) hreplay
  intro script
  induction script with
  | nil =>
      intro start hstart hfold
      obtain rfl := Option.some.inj hfold
      exact hstart
  | cons move rest ih =>
      intro start hstart hfold
      rw [List.foldlM_cons] at hfold
      obtain ⟨middle, hmiddle, hrest⟩ := Option.bind_eq_some_iff.mp hfold
      exact ih middle (replayMove_run hstart hmiddle) hrest

/-- A client's command is proposed by the first of four replicas and accepted by the
others; then messages are lost. -/
def fourLosses (losses : List Nat) : List (Move .transparent) :=
  .call 0 (.request (ping 0)) :: List.replicate 3 (.deliver 0) ++ losses.map .lose

end BftKit.Pbft.Group
