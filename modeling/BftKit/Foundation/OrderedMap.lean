import Mathlib.Data.List.Forall2
import Std.Data.ExtTreeMap

/-! # Ordered maps

What holds of all entries of a map after an update, and what a walk over two maps at once
tells about them. The walk compares their first entries, their second ones, and so on, and
ends with the shorter map.
-/

namespace BftKit.Foundation

universe u v w x

variable {Key : Type u} {Left : Type v} {Right : Type w} {Value : Type x}
  [Ord Key] [Std.TransOrd Key] [Std.LawfulEqOrd Key]

/-! ## Entries -/

section Entries

variable {map : Std.ExtTreeMap Key Value} {P : Key → Value → Prop}

theorem entries_insert (h : ∀ (key : Key) (value : Value), map[key]? = some value → P key value)
    {key : Key} {value : Value} (hentry : P key value) (other : Key) (stored : Value)
    (hstored : (map.insert key value)[other]? = some stored) : P other stored := by
  by_cases heq : key = other
  · subst heq
    obtain rfl : value = stored := by simpa using hstored
    exact hentry
  · exact h other stored (by simpa [Std.ExtTreeMap.getElem?_insert, heq] using hstored)

theorem entries_erase (h : ∀ (key : Key) (value : Value), map[key]? = some value → P key value)
    {key : Key} (other : Key) (stored : Value)
    (hstored : (map.erase key)[other]? = some stored) : P other stored := by
  by_cases heq : key = other
  · simp [heq] at hstored
  · exact h other stored (by simpa [Std.ExtTreeMap.getElem?_erase, heq] using hstored)

omit [Std.LawfulEqOrd Key] in
theorem size_eq_erase {key : Key} (hmem : key ∈ map) : map.size = (map.erase key).size + 1 := by
  have hne : map.size ≠ 0 := by
    intro hzero
    rw [Std.ExtTreeMap.eq_empty_iff_size_eq_zero.mpr hzero] at hmem
    exact Std.ExtTreeMap.not_mem_empty hmem
  simp only [Std.ExtTreeMap.size_erase, Std.ExtTreeMap.contains_iff_mem, hmem, if_true]
  omega

omit [Std.LawfulEqOrd Key] in
theorem entries_getD (h : ∀ (key : Key) (value : Value), map[key]? = some value → P key value)
    {key : Key} {fallback : Value} (hfallback : P key fallback) :
    P key (map.getD key fallback) := by
  rw [Std.ExtTreeMap.getD_eq_getD_getElem?]
  cases hvalue : map[key]? with
  | some value => exact h key value hvalue
  | none => exact hfallback

/-- Inserting entries leaves the other keys alone. -/
theorem getElem?_foldl_insert {entries : List (Key × Value)} {key : Key}
    (hkey : ∀ entry ∈ entries, entry.1 ≠ key) :
    (entries.foldl (fun map entry => map.insert entry.1 entry.2) map)[key]? = map[key]? := by
  induction entries generalizing map with
  | nil => rfl
  | cons entry rest ih =>
      rw [List.foldl_cons, ih fun other hmem => hkey other (List.mem_cons_of_mem _ hmem)]
      simp [Std.ExtTreeMap.getElem?_insert, hkey entry List.mem_cons_self]

end Entries

/-! ## Walks -/

/-- The walk meets the same keys, with values that look the same. -/
def Walks (f : Left → Value) (g : Right → Value) (left : Std.ExtTreeMap Key Left)
    (right : Std.ExtTreeMap Key Right) : Prop :=
  ∀ pair ∈ left.toList.zip right.toList, pair.1.1 = pair.2.1 ∧ f pair.1.2 = g pair.2.2

/-- The maps have the same keys, with values that look the same. -/
def SameEntries (f : Left → Value) (g : Right → Value) (left : Std.ExtTreeMap Key Left)
    (right : Std.ExtTreeMap Key Right) : Prop :=
  ∀ key : Key, left[key]?.map f = right[key]?.map g

variable {f : Left → Value} {g : Right → Value} {left : Std.ExtTreeMap Key Left}
  {right : Std.ExtTreeMap Key Right}

theorem sameEntries_iff_map :
    SameEntries f g left right ↔ left.map (fun _ => f) = right.map (fun _ => g) := by
  constructor
  · intro h
    refine Std.ExtTreeMap.ext_getElem? fun key => ?_
    simpa using h key
  · intro h key
    calc left[key]?.map f
      _ = (left.map fun _ => f)[key]? := by rw [Std.ExtTreeMap.getElem?_map]
      _ = (right.map fun _ => g)[key]? := by rw [h]
      _ = right[key]?.map g := by rw [Std.ExtTreeMap.getElem?_map]

theorem SameEntries.size_eq (h : SameEntries f g left right) : left.size = right.size := by
  simpa using congrArg Std.ExtTreeMap.size (sameEntries_iff_map.mp h)

/-- A walk over maps of one size has seen them whole. -/
theorem Walks.sameEntries (h : Walks f g left right) (hsize : left.size = right.size) :
    SameEntries f g left right := by
  rw [sameEntries_iff_map, ← Std.ExtTreeMap.toList_inj, Std.ExtTreeMap.toList_map,
    Std.ExtTreeMap.toList_map, ← List.forall₂_eq_eq_eq, List.forall₂_map_left_iff,
    List.forall₂_map_right_iff, List.forall₂_iff_zip]
  refine ⟨by simpa using hsize, ?_⟩
  intro entry other hmem
  obtain ⟨hkey, hvalue⟩ := h (entry, other) hmem
  exact Prod.ext hkey hvalue

theorem Walks.sameEntries_iff (h : Walks f g left right) :
    SameEntries f g left right ↔ left.size = right.size :=
  ⟨SameEntries.size_eq, h.sameEntries⟩

end BftKit.Foundation
