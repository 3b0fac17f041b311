import Mathlib.Data.Finset.Card

/-! # Quorum intersection

Two sets of voters drawn from one universe share a voter outside any set that is
too small to hold their overlap.
-/

namespace BftKit.Foundation

variable {Voter : Type*} [DecidableEq Voter]

/-- Two sets of voters whose sizes exceed the universe by more than the faulty
ones share a voter that is not faulty. -/
theorem exists_common_voter {voters left right faulty : Finset Voter}
    (hleft : left ⊆ voters) (hright : right ⊆ voters)
    (hcard : voters.card + faulty.card < left.card + right.card) :
    ∃ voter ∈ left, voter ∈ right ∧ voter ∉ faulty := by
  have hunion : (left ∪ right).card ≤ voters.card :=
    Finset.card_le_card (Finset.union_subset hleft hright)
  have hsum := Finset.card_union_add_card_inter left right
  have hlt : faulty.card < (left ∩ right).card := by omega
  obtain ⟨voter, hmem, hnot⟩ := Finset.exists_mem_notMem_of_card_lt_card hlt
  exact ⟨voter, (Finset.mem_inter.mp hmem).1, (Finset.mem_inter.mp hmem).2, hnot⟩

end BftKit.Foundation
