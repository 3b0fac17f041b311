import BftKit.Foundation.Network

/-! # What is in flight

What is in flight in a network is told by the labels alone. So a network is an interleaving
of its parties, with labels that fit together.
-/

namespace BftKit.Foundation

universe u v w x

variable {Party : Type u} {State : Type v} {Label : Type w} {Message : Type x} [DecidableEq Party]
  (protocol : Protocol Party State Label Message)

namespace Protocol

/-- What a label makes of the messages in flight. -/
inductive Moves (flight : List (Party × Message)) : Party × Label → List (Party × Message) → Prop
  | deliver {who label message before after} (hreceives : protocol.receives label = some message)
      (hflight : flight = before ++ (who, message) :: after) :
      Moves flight (who, label) (before ++ after ++ protocol.sends who label)
  | act {who label} (hreceives : protocol.receives label = none) :
      Moves flight (who, label) (flight ++ protocol.sends who label)

/-- The messages in flight after the labels. -/
abbrev Flights : List (Party × Label) → List (Party × Message) → Prop :=
  Run (· = []) fun _ flight entry next => protocol.Moves flight entry next

/-- The parties of a network, without the messages. -/
abbrev PartiesRun : List (Party × Label) → (Party → State) → Prop :=
  Run (fun states => ∀ who, states who = protocol.start who)
    (interleave fun who _ => protocol.step who)

variable {protocol} {history : List (Party × Label)} {network : Network Party State Message}
  {states : Party → State} {flight : List (Party × Message)}

theorem NetworkRun.partiesRun (hrun : protocol.NetworkRun history network) :
    protocol.PartiesRun history network.states := by
  induction hrun with
  | start hinit =>
      subst hinit
      exact .start fun _ => rfl
  | step hprev hstep ih =>
      cases hstep with
      | deliver _ _ hstep | act _ hstep => exact ih.step ⟨_, hstep, rfl⟩

theorem NetworkRun.flights (hrun : protocol.NetworkRun history network) :
    protocol.Flights history network.flight := by
  induction hrun with
  | start hinit =>
      subst hinit
      exact .start rfl
  | step hprev hstep ih =>
      cases hstep with
      | deliver hreceives hflight => exact ih.step (.deliver hreceives hflight)
      | act hreceives => exact ih.step (.act hreceives)

/-- Parties and messages that fit together make a network. -/
theorem PartiesRun.networkRun (hrun : protocol.PartiesRun history states)
    (hflights : protocol.Flights history flight) :
    protocol.NetworkRun history ⟨states, flight⟩ := by
  induction hrun generalizing flight with
  | @start states hinit =>
      obtain rfl : flight = [] := hflights.of_nil
      obtain rfl : states = protocol.start := funext hinit
      exact .start rfl
  | @step history states entry next hprev hstep ih =>
      obtain ⟨before, hbefore, hmoves⟩ := Run.concat_iff.mp hflights
      obtain ⟨target, hstep, rfl⟩ := hstep
      cases hmoves with
      | deliver hreceives hflight => exact (ih hbefore).step (.deliver hreceives hflight hstep)
      | act hreceives => exact (ih hbefore).step (.act hreceives hstep)

end Protocol

end BftKit.Foundation
