import Mathlib.Algebra.BigOperators.Group.Finset.Basic
import Mathlib.Algebra.Order.BigOperators.Group.Finset
import BftKit.Foundation.Network
import BftKit.Foundation.Result

/-! # Totals over a network

What happens in a network is what happens at its parties together, and no party receives
more of a kind of message than the others have sent it.
-/

namespace BftKit.Foundation

variable {Party State Label Message : Type*} [DecidableEq Party]

theorem countP_eq_sum {Item : Type*} (pick : Item → Bool) (items : List Item) :
    items.countP pick = (items.map fun item => if pick item then 1 else 0).sum := by
  induction items with
  | nil => rfl
  | cons item rest ih => rw [List.countP_cons, List.map_cons, List.sum_cons, ih, Nat.add_comm]

/-- What a traversal collects is bounded in sum by what it collects for an item. -/
theorem mapM_sum_le {Error Item Value : Type} {f : Item → Except Error Value}
    (measure : Value → Nat) {bound : Nat}
    (hbound : ∀ item value, f item = .ok value → measure value ≤ bound)
    {items : List Item} {values : List Value} (hmap : items.mapM f = .ok values) :
    (values.map measure).sum ≤ bound * items.length := by
  induction items generalizing values with
  | nil =>
      obtain rfl : [] = values := Except.ok.inj hmap
      exact Nat.zero_le _
  | cons first rest ih =>
      rw [List.mapM_cons, bind_eq_ok] at hmap
      obtain ⟨value, hvalue, hmap⟩ := hmap
      rw [bind_eq_ok] at hmap
      obtain ⟨others, hothers, heq⟩ := hmap
      obtain rfl : value :: others = values := Except.ok.inj heq
      rw [List.map_cons, List.sum_cons, List.length_cons, Nat.mul_succ, Nat.add_comm]
      exact Nat.add_le_add (ih hothers) (hbound first value hvalue)

/-- A total over a history is the total over the parties of what each of them sees. -/
theorem sum_view {history : List (Party × Label)} {parties : Finset Party}
    (hparties : ∀ entry ∈ history, entry.1 ∈ parties) (measure : Party × Label → Nat) :
    (history.map measure).sum =
      ∑ who ∈ parties, ((view who history).map fun label => measure (who, label)).sum := by
  induction history with
  | nil => simp
  | cons entry rest ih =>
      obtain ⟨party, label⟩ := entry
      have hsplit : ∀ who, view who ((party, label) :: rest) =
          view who [(party, label)] ++ view who rest :=
        fun who => view_append who [(party, label)] rest
      simp only [hsplit, List.map_append, List.sum_append, Finset.sum_add_distrib, List.map_cons,
        List.sum_cons]
      rw [← ih fun other hother => hparties other (List.mem_cons_of_mem _ hother),
        Finset.sum_eq_single party]
      · simp
      · intro other _ hne
        rw [view_singleton_of_ne (Ne.symm hne)]
        rfl
      · intro hnot
        exact absurd (hparties _ List.mem_cons_self) hnot

variable {protocol : Protocol Party State Label Message} {history : List (Party × Label)}
  {network : Network Party State Message}

namespace Protocol

theorem length_sent {parties : Finset Party} (hparties : ∀ entry ∈ history, entry.1 ∈ parties) :
    (protocol.sent history).length =
      ∑ who ∈ parties, ((view who history).map fun label =>
        (protocol.sends who label).length).sum := by
  rw [sent, List.length_flatMap]
  exact sum_view hparties fun entry => (protocol.sends entry.1 entry.2).length

/-- What a party receives of a kind of message has been sent to it. -/
theorem NetworkRun.length_received_le {Item : Type*} {parties : Finset Party}
    (hrun : protocol.NetworkRun history network)
    (hparties : ∀ entry ∈ history, entry.1 ∈ parties) (pick : Message → Option Item)
    (receiver : Party) :
    ((view receiver history).filterMap fun label => (protocol.receives label).bind pick).length ≤
      ∑ who ∈ parties, ((view who history).map fun label =>
        ((protocol.sends who label).filterMap
          fun entry => if entry.1 = receiver then pick entry.2 else none).length).sum := by
  have haccount := (NetworkRun.account hrun).filterMap
    fun entry => if entry.1 = receiver then pick entry.2 else none
  have hreceived : (protocol.received history).filterMap
      (fun entry => if entry.1 = receiver then pick entry.2 else none) =
      (view receiver history).filterMap fun label => (protocol.receives label).bind pick := by
    unfold received view
    rw [List.filterMap_filterMap, List.filterMap_filterMap]
    apply List.filterMap_congr
    intro entry _
    by_cases heq : entry.1 = receiver
    · cases hmessage : protocol.receives entry.2 <;> simp [heq, hmessage]
    · simp [heq]
  have hlength := haccount.length_eq
  rw [List.filterMap_append, List.length_append, hreceived, sent, List.filterMap_flatMap,
    List.length_flatMap] at hlength
  rw [← sum_view hparties fun entry => ((protocol.sends entry.1 entry.2).filterMap
    fun entry => if entry.1 = receiver then pick entry.2 else none).length]
  omega

end Protocol

end BftKit.Foundation
