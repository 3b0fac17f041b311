import Mathlib.Data.List.Nodup

/-! # Buckets

Entries are spread over buckets without repeating a key, neither in one bucket nor in two.
-/

namespace BftKit.Foundation

variable {Spot Entry Key : Type*} {key : Entry → Key} {buckets buckets' : Spot → List Entry}
  {spot₀ spot₁ : Spot} {entry : Entry}

/-- No key comes twice. -/
structure Spread (key : Entry → Key) (buckets : Spot → List Entry) : Prop where
  once : ∀ spot, ((buckets spot).map key).Nodup
  apart : ∀ spot spot', ∀ entry ∈ buckets spot, ∀ entry' ∈ buckets spot',
    key entry = key entry' → spot = spot'

namespace Spread

theorem sublist (h : Spread key buckets) (hsub : ∀ spot, (buckets' spot).Sublist (buckets spot)) :
    Spread key buckets' where
  once spot := (h.once spot).sublist ((hsub spot).map key)
  apart spot spot' entry hmem entry' hmem' :=
    h.apart spot spot' entry ((hsub spot).mem hmem) entry' ((hsub spot').mem hmem')

/-- The key of the first entry of a bucket is that of no other entry. -/
theorem ne_head (h : Spread key buckets) {rest : List Entry}
    (hbucket : buckets spot₀ = entry :: rest) :
    (∀ other ∈ rest, key other ≠ key entry) ∧
      ∀ spot ≠ spot₀, ∀ other ∈ buckets spot, key other ≠ key entry := by
  constructor
  · intro other hmem heq
    have honce := h.once spot₀
    rw [hbucket, List.map_cons, List.nodup_cons] at honce
    exact honce.1 (heq ▸ List.mem_map_of_mem hmem)
  · intro spot hne other hmem heq
    apply hne
    refine h.apart spot spot₀ other hmem entry ?_ heq
    rw [hbucket]
    exact List.mem_cons_self

variable [DecidableEq Spot]

theorem mem_of_push (hbuckets : ∀ spot, buckets' spot =
      if spot = spot₀ then buckets spot ++ [entry] else buckets spot)
    {spot : Spot} {other : Entry} (hmem : other ∈ buckets' spot) :
    other ∈ buckets spot ∨ spot = spot₀ ∧ other = entry := by
  rw [hbuckets] at hmem
  split at hmem
  next heq =>
    rcases List.mem_append.mp hmem with hold | hlast
    · exact .inl hold
    · exact .inr ⟨heq, List.mem_singleton.mp hlast⟩
  next => exact .inl hmem

/-- An entry with a new key goes into one bucket. -/
theorem push (h : Spread key buckets) (hbuckets : ∀ spot, buckets' spot =
      if spot = spot₀ then buckets spot ++ [entry] else buckets spot)
    (hnew : ∀ spot, ∀ other ∈ buckets spot, key other ≠ key entry) : Spread key buckets' := by
  constructor
  · intro spot
    rw [hbuckets]
    split
    · rw [List.map_append, List.nodup_append]
      refine ⟨h.once spot, List.nodup_singleton _, ?_⟩
      rintro value hmem _ hlast rfl
      obtain ⟨other, hother, heq⟩ := List.mem_map.mp hmem
      exact hnew spot other hother (heq.trans (List.mem_singleton.mp hlast))
    · exact h.once spot
  · intro spot spot' other hmem other' hmem' heq
    rcases mem_of_push hbuckets hmem with hold | ⟨rfl, rfl⟩
    · rcases mem_of_push hbuckets hmem' with hold' | ⟨rfl, rfl⟩
      · exact h.apart spot spot' other hold other' hold' heq
      · exact absurd heq (hnew spot other hold)
    · rcases mem_of_push hbuckets hmem' with hold' | ⟨rfl, -⟩
      · exact absurd heq.symm (hnew spot' other' hold')
      · rfl

theorem mem_of_pour (hbuckets : ∀ spot, buckets' spot =
      if spot = spot₀ then (buckets spot₁).reverse ++ buckets spot₀
      else if spot = spot₁ then [] else buckets spot)
    (hne : spot₀ ≠ spot₁) {spot : Spot} (hmem : entry ∈ buckets' spot) :
    spot ≠ spot₁ ∧ (entry ∈ buckets spot ∨ spot = spot₀ ∧ entry ∈ buckets spot₁) := by
  rw [hbuckets] at hmem
  split at hmem
  next heq =>
    subst heq
    refine ⟨hne, ?_⟩
    rcases List.mem_append.mp hmem with hpoured | hold
    · exact .inr ⟨rfl, List.mem_reverse.mp hpoured⟩
    · exact .inl hold
  next =>
    split at hmem
    next => cases hmem
    next hother => exact ⟨hother, .inl hmem⟩

/-- One bucket is poured into another one. -/
theorem pour (h : Spread key buckets) (hbuckets : ∀ spot, buckets' spot =
      if spot = spot₀ then (buckets spot₁).reverse ++ buckets spot₀
      else if spot = spot₁ then [] else buckets spot)
    (hne : spot₀ ≠ spot₁) : Spread key buckets' := by
  constructor
  · intro spot
    rw [hbuckets]
    split
    · rw [List.map_append, List.map_reverse, List.nodup_append, List.nodup_reverse]
      refine ⟨h.once spot₁, h.once spot₀, ?_⟩
      rintro value hmem _ hmem' rfl
      obtain ⟨poured, hpoured, hkey⟩ := List.mem_map.mp (List.mem_reverse.mp hmem)
      obtain ⟨old, hold, hkey'⟩ := List.mem_map.mp hmem'
      exact hne (h.apart spot₀ spot₁ old hold poured hpoured (hkey'.trans hkey.symm))
    · split
      · exact List.nodup_nil
      · exact h.once spot
  · intro spot spot' other hmem other' hmem' heq
    obtain ⟨hspot, hfrom⟩ := mem_of_pour hbuckets hne hmem
    obtain ⟨hspot', hfrom'⟩ := mem_of_pour hbuckets hne hmem'
    -- entries with the same key come from the same bucket, and that one is kept or poured
    rcases hfrom with hold | ⟨rfl, hpoured⟩
    · rcases hfrom' with hold' | ⟨-, hpoured'⟩
      · exact h.apart spot spot' other hold other' hold' heq
      · exact absurd (h.apart spot spot₁ other hold other' hpoured' heq) hspot
    · rcases hfrom' with hold' | ⟨rfl, -⟩
      · exact absurd (h.apart spot₁ spot' other hpoured other' hold' heq).symm hspot'
      · rfl

end Spread

end BftKit.Foundation
