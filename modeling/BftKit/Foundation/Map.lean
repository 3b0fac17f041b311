import Mathlib.Data.Finmap

/-! # Finite maps without an order

Mathlib's `Finmap` at a constant family, with the few lookup and size facts that
hash maps need. Maps whose iteration order matters are `Std.ExtTreeMap` instead.
-/

namespace BftKit.Foundation

universe u v

/-- A finite map. -/
abbrev Map (Key : Type u) (Value : Type v) := Finmap fun _ : Key => Value

namespace Map

variable {Key : Type u} {Value : Type v}

/-- Number of entries. -/
def size (map : Map Key Value) : Nat := map.keys.card

@[simp] theorem size_empty : size (∅ : Map Key Value) = 0 := rfl

variable [DecidableEq Key]

theorem lookup_insert (map : Map Key Value) (key other : Key) (value : Value) :
    (map.insert key value).lookup other = if other = key then some value else map.lookup other := by
  split
  next heq => rw [heq, Finmap.lookup_insert]
  next hne => rw [Finmap.lookup_insert_of_ne _ hne]

theorem lookup_erase (map : Map Key Value) (key other : Key) :
    (map.erase key).lookup other = if other = key then none else map.lookup other := by
  split
  next heq => rw [heq, Finmap.lookup_erase]
  next hne => rw [Finmap.lookup_erase_ne hne]

theorem mem_keys_iff_lookup (map : Map Key Value) (key : Key) :
    key ∈ map.keys ↔ ∃ value, map.lookup key = some value := by
  rw [Finmap.mem_keys, ← Finmap.lookup_isSome, Option.isSome_iff_exists]

theorem mem_keys_insert {map : Map Key Value} {key other : Key} {value : Value} :
    other ∈ (map.insert key value).keys ↔ other = key ∨ other ∈ map.keys := by
  rw [Finmap.mem_keys, Finmap.mem_keys, Finmap.mem_insert]

theorem keys_insert (map : Map Key Value) (key : Key) (value : Value) :
    (map.insert key value).keys = insert key map.keys := by
  ext other
  rw [mem_keys_insert, Finset.mem_insert]

/-- Insert a list of entries, later ones over earlier ones. -/
def extend (map : Map Key Value) (entries : List (Key × Value)) : Map Key Value :=
  entries.foldl (fun map entry => map.insert entry.1 entry.2) map

theorem lookup_extend {map : Map Key Value} {entries : List (Key × Value)} {key : Key}
    {value : Value} (hlookup : (extend map entries).lookup key = some value) :
    (key, value) ∈ entries ∨ map.lookup key = some value := by
  induction entries generalizing map with
  | nil => exact .inr hlookup
  | cons entry rest ih =>
      have hrest : (extend (map.insert entry.1 entry.2) rest).lookup key = some value := hlookup
      rcases ih hrest with hmem | hmap
      · exact .inl (List.mem_cons_of_mem _ hmem)
      · rw [lookup_insert] at hmap
        split at hmap
        next heq =>
          obtain rfl := Option.some.inj hmap
          exact .inl (by rw [heq]; exact List.mem_cons_self)
        next => exact .inr hmap

theorem isSome_lookup_extend {map : Map Key Value} {entries : List (Key × Value)} {key : Key} :
    ((extend map entries).lookup key).isSome ↔
      key ∈ entries.map Prod.fst ∨ (map.lookup key).isSome := by
  induction entries generalizing map with
  | nil => simp [extend]
  | cons entry rest ih =>
      have hrest : extend map (entry :: rest) = extend (map.insert entry.1 entry.2) rest := rfl
      rw [hrest, ih, lookup_insert, List.map_cons, List.mem_cons]
      by_cases heq : key = entry.1
      · simp [heq]
      · simp [heq]

theorem mem_keys_extend_iff {map : Map Key Value} {entries : List (Key × Value)} {key : Key} :
    key ∈ (extend map entries).keys ↔ key ∈ entries.map Prod.fst ∨ key ∈ map.keys := by
  rw [Finmap.mem_keys, ← Finmap.lookup_isSome, isSome_lookup_extend, Finmap.mem_keys,
    ← Finmap.lookup_isSome]

theorem mem_keys_extend {map : Map Key Value} {entries : List (Key × Value)} {key : Key}
    (hmem : key ∈ (extend map entries).keys) :
    (∃ value, (key, value) ∈ entries) ∨ key ∈ map.keys := by
  obtain ⟨value, hlookup⟩ := (mem_keys_iff_lookup _ _).mp hmem
  rcases lookup_extend hlookup with hentry | hmap
  · exact .inl ⟨value, hentry⟩
  · exact .inr ((mem_keys_iff_lookup _ _).mpr ⟨value, hmap⟩)

end Map

end BftKit.Foundation
