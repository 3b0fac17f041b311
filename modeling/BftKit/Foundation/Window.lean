import Mathlib.Data.List.DropRight

/-! # The last items of a list

A buffer of bounded size that forgets its oldest item holds the last items of what was
put into it.
-/

namespace BftKit.Foundation

variable {Item : Type*} {items first second : List Item} {item : Item} {size : Nat}

@[simp] theorem length_rtake (items : List Item) (size : Nat) :
    (items.rtake size).length = min size items.length := by
  rw [List.rtake, List.length_drop]
  omega

theorem rtake_sublist (items : List Item) (size : Nat) : (items.rtake size).Sublist items :=
  List.drop_sublist _ _

theorem rtake_eq_self (hlength : items.length ≤ size) : items.rtake size = items := by
  rw [List.rtake, Nat.sub_eq_zero_of_le hlength, List.drop_zero]

theorem rtake_rtake (items : List Item) (size size' : Nat) :
    (items.rtake size).rtake size' = items.rtake (min size' size) := by
  rw [List.rtake, length_rtake, List.rtake, List.drop_drop, List.rtake]
  congr 1
  omega

/-- Whether an item is among the last ones is up to how many follow it. -/
theorem mem_rtake_append_cons (hfirst : item ∉ first) (hsecond : item ∉ second) :
    item ∈ (first ++ item :: second).rtake size ↔ second.length < size := by
  rw [List.rtake, List.length_append, List.length_cons]
  constructor
  · intro hmem
    by_contra hle
    rw [List.drop_append, List.mem_append] at hmem
    rcases hmem with hold | hnew
    · exact hfirst (List.mem_of_mem_drop hold)
    · have hpos : first.length + (second.length + 1) - size - first.length =
          second.length - size + 1 := by omega
      rw [hpos, List.drop_succ_cons] at hnew
      exact hsecond (List.mem_of_mem_drop hnew)
  · intro hlt
    have hle : first.length + (second.length + 1) - size ≤ first.length := by omega
    rw [List.drop_append_of_le_length hle]
    exact List.mem_append_right _ List.mem_cons_self

/-- Puts an item into a buffer that forgets its oldest one when it is full. -/
def slide (size : Nat) (buffer : List Item) (item : Item) : List Item :=
  (if buffer.length = size then buffer.tail else buffer) ++ [item]

theorem slide_rtake (hsize : 0 < size) (items : List Item) (item : Item) :
    slide size (items.rtake size) item = (items ++ [item]).rtake size := by
  rw [slide, length_rtake]
  by_cases hlt : items.length < size
  · rw [if_neg (by omega), rtake_eq_self hlt.le, rtake_eq_self]
    rw [List.length_append, List.length_singleton]
    omega
  · have hle : items.length + 1 - size ≤ items.length := by omega
    have hsucc : items.length - size + 1 = items.length + 1 - size := by omega
    rw [if_pos (by omega), List.rtake, List.rtake, List.length_append, List.length_singleton,
      List.drop_append_of_le_length hle, List.tail_drop, hsucc]

end BftKit.Foundation
