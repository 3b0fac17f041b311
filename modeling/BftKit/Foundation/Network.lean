import Mathlib.Algebra.Order.Group.Multiset
import Mathlib.Tactic.Abel
import BftKit.Foundation.Run

/-! # Networks

Parties with local steps send messages to each other. A message that has been sent is
in flight until it is received, which it is at most once, in any order; a message that
is never received is lost. What is in flight and what has been received are together
what has been sent.
-/

namespace BftKit.Foundation

universe u v w x

/-- The local steps of parties, with what an event receives and sends. -/
structure Protocol (Party : Type u) (State : Type v) (Label : Type w) (Message : Type x) where
  start : Party → State
  step : Party → State → Label → State → Prop
  receives : Label → Option Message
  sends : Party → Label → List (Party × Message)

/-- The states of the parties and the messages in flight, with their receivers. -/
structure Network (Party : Type u) (State : Type v) (Message : Type x) where
  states : Party → State
  flight : List (Party × Message)

variable {Party : Type u} {State : Type v} {Label : Type w} {Message : Type x} [DecidableEq Party]
  (protocol : Protocol Party State Label Message)

namespace Protocol

/-- The messages received along a history, with their receivers. -/
def received (history : List (Party × Label)) : List (Party × Message) :=
  history.filterMap fun entry => (protocol.receives entry.2).map (Prod.mk entry.1)

/-- The messages sent along a history, with their receivers. -/
def sent (history : List (Party × Label)) : List (Party × Message) :=
  history.flatMap fun entry => protocol.sends entry.1 entry.2

/-- A party receives a message in flight, or acts without receiving any. -/
inductive Step (network : Network Party State Message) :
    Party × Label → Network Party State Message → Prop
  | deliver {who label message before after next} (hreceives : protocol.receives label = some message)
      (hflight : network.flight = before ++ (who, message) :: after)
      (hstep : protocol.step who (network.states who) label next) :
      Step network (who, label)
        ⟨Function.update network.states who next, before ++ after ++ protocol.sends who label⟩
  | act {who label next} (hreceives : protocol.receives label = none)
      (hstep : protocol.step who (network.states who) label next) :
      Step network (who, label)
        ⟨Function.update network.states who next, network.flight ++ protocol.sends who label⟩

/-- The runs of a network from the start of its parties. -/
abbrev NetworkRun : List (Party × Label) → Network Party State Message → Prop :=
  Run (· = ⟨protocol.start, []⟩) fun _ network entry next => protocol.Step network entry next

variable {protocol} {history : List (Party × Label)} {network next : Network Party State Message}
  {entry : Party × Label} {who : Party}

/-- A step is a local step of one party. -/
theorem Step.localStep (h : protocol.Step network entry next) :
    protocol.step entry.1 (network.states entry.1) entry.2 (next.states entry.1) ∧
      ∀ other, other ≠ entry.1 → next.states other = network.states other := by
  cases h with
  | @deliver who _ _ _ _ state _ _ hstep | @act who _ state _ hstep =>
      have hself : Function.update network.states who state who = state := Function.update_self _ _ _
      refine ⟨?_, fun other hne => Function.update_of_ne hne _ _⟩
      change protocol.step who (network.states who) _ (Function.update network.states who state who)
      rwa [hself]

/-- A received message was in flight. -/
theorem Step.mem_flight (h : protocol.Step network entry next) {message : Message}
    (hreceives : protocol.receives entry.2 = some message) : (entry.1, message) ∈ network.flight := by
  cases h with
  | deliver hreceives' hflight =>
      obtain rfl := Option.some.inj (hreceives'.symm.trans hreceives)
      rw [hflight]
      exact List.mem_append_right _ List.mem_cons_self
  | act hnone => cases hnone.symm.trans hreceives

/-- What is sent is in flight. -/
theorem Step.mem_flight_of_sends (h : protocol.Step network entry next) {item : Party × Message}
    (hsends : item ∈ protocol.sends entry.1 entry.2) : item ∈ next.flight := by
  cases h with
  | deliver | act => exact List.mem_append_right _ hsends

/-- What is received has been in flight. -/
theorem Step.flight (h : protocol.Step network entry next) :
    (next.flight ++ (protocol.receives entry.2).toList.map (Prod.mk entry.1)).Perm
      (network.flight ++ protocol.sends entry.1 entry.2) := by
  rw [← Multiset.coe_eq_coe]
  cases h with
  | @deliver who _ message before after _ hreceives hflight =>
      simp only [hreceives, hflight, Option.toList_some, List.map_cons, List.map_nil,
        ← Multiset.coe_add, ← Multiset.cons_coe, Multiset.coe_nil, Multiset.add_cons,
        Multiset.cons_add, add_zero]
  | act hreceives => simp [hreceives]

/-- One party of a network sees a run of its own. -/
theorem NetworkRun.localRun (hrun : protocol.NetworkRun history network) (who : Party) :
    Run (· = protocol.start who) (fun _ state label next => protocol.step who state label next)
      (view who history) (network.states who) := by
  induction hrun with
  | start hinit =>
      subst hinit
      exact .start rfl
  | @step history network entry next hprev hstep ih =>
      obtain ⟨hlocal, hothers⟩ := hstep.localStep
      obtain ⟨party, label⟩ := entry
      rw [view_append]
      by_cases heq : party = who
      · subst heq
        rw [view_singleton_self]
        exact .step ih hlocal
      · rw [view_singleton_of_ne heq, List.append_nil, hothers who (Ne.symm heq)]
        exact ih

omit [DecidableEq Party] in
theorem received_concat (entry : Party × Label) (history : List (Party × Label)) :
    protocol.received (history ++ [entry]) = protocol.received history ++
      (protocol.receives entry.2).toList.map (Prod.mk entry.1) := by
  unfold received
  rw [List.filterMap_append]
  cases hlabel : protocol.receives entry.2 <;> simp [hlabel]

/-- Messages are neither made up nor received twice. -/
theorem NetworkRun.account (hrun : protocol.NetworkRun history network) :
    (network.flight ++ protocol.received history).Perm (protocol.sent history) := by
  induction hrun with
  | start hinit =>
      subst hinit
      exact .refl _
  | @step history network entry next hprev hstep ih =>
      have hsent : protocol.sent (history ++ [entry]) =
          protocol.sent history ++ protocol.sends entry.1 entry.2 := by
        simp [sent]
      have hflight := Multiset.coe_eq_coe.mpr hstep.flight
      have hold := Multiset.coe_eq_coe.mpr ih
      rw [received_concat, hsent, ← Multiset.coe_eq_coe]
      simp only [← Multiset.coe_add] at hflight hold ⊢
      rw [← hold, add_right_comm, ← hflight]
      abel

/-- The account of what one party picks from the messages for it, all of which come from
one sender. -/
theorem NetworkRun.account_pick {Item : Type*} (hrun : protocol.NetworkRun history network)
    {receiver sender : Party} {pick : Message → Option Item}
    (hothers : ∀ entry ∈ history, entry.1 ≠ sender →
      (protocol.sends entry.1 entry.2).filterMap
        (fun entry => if entry.1 = receiver then pick entry.2 else none) = []) :
    (network.flight.filterMap (fun entry => if entry.1 = receiver then pick entry.2 else none) ++
        (view receiver history).filterMap fun label => (protocol.receives label).bind pick).Perm
      ((view sender history).flatMap fun label => (protocol.sends sender label).filterMap
        fun entry => if entry.1 = receiver then pick entry.2 else none) := by
  have haccount := (NetworkRun.account hrun).filterMap
    fun entry => if entry.1 = receiver then pick entry.2 else none
  have hreceived : (protocol.received history).filterMap
      (fun entry => if entry.1 = receiver then pick entry.2 else none) =
      (view receiver history).filterMap fun label => (protocol.receives label).bind pick := by
    unfold received view
    rw [List.filterMap_filterMap, List.filterMap_filterMap]
    apply List.filterMap_congr
    rintro ⟨party, label⟩ -
    by_cases heq : party = receiver
    · cases hlabel : protocol.receives label <;> simp [heq, hlabel]
    · simp [heq]
  rw [List.filterMap_append, hreceived, sent, List.filterMap_flatMap, flatMap_view hothers]
    at haccount
  exact haccount

end Protocol

end BftKit.Foundation
