import Mathlib.Data.List.Basic

/-! # Logs -/

namespace BftKit.Foundation

universe u

variable {Entry : Type u}

/-- Logs that agree wherever both have an entry extend one another. -/
theorem prefix_total_of_agree {left right : List Entry}
    (hagree : ∀ (index : Nat) entry entry', left[index]? = some entry →
      right[index]? = some entry' → entry = entry') :
    left <+: right ∨ right <+: left := by
  induction left generalizing right with
  | nil => exact .inl List.nil_prefix
  | cons entry left ih =>
      cases right with
      | nil => exact .inr List.nil_prefix
      | cons entry' right =>
          obtain rfl : entry = entry' := hagree 0 entry entry' rfl rfl
          rcases ih fun index => hagree (index + 1) with hpre | hpre
          · exact .inl (List.cons_prefix_cons.mpr ⟨rfl, hpre⟩)
          · exact .inr (List.cons_prefix_cons.mpr ⟨rfl, hpre⟩)

/-- Logs that extend one another agree wherever both have an entry. -/
theorem agree_of_prefix_total {left right : List Entry} (h : left <+: right ∨ right <+: left)
    {index : Nat} {entry entry' : Entry} (hleft : left[index]? = some entry)
    (hright : right[index]? = some entry') : entry = entry' := by
  obtain ⟨hlt, rfl⟩ := List.getElem?_eq_some_iff.mp hleft
  obtain ⟨hlt', rfl⟩ := List.getElem?_eq_some_iff.mp hright
  rcases h with hpre | hpre
  · exact hpre.getElem hlt
  · exact (hpre.getElem hlt').symm

/-- In a sublog of a log without repetitions the entries keep their order. -/
theorem pair_sublist_of_nodup {sub log : List Entry} (hsub : sub.Sublist log) (hnodup : log.Nodup)
    {first second : Entry} (hpair : [first, second].Sublist log) (hfirst : first ∈ sub)
    (hsecond : second ∈ sub) : [first, second].Sublist sub := by
  induction hsub with
  | slnil => cases hfirst
  | @cons sub log entry hsub ih =>
      obtain ⟨hnot, hnodup⟩ := List.nodup_cons.mp hnodup
      cases hpair with
      | cons _ hpair => exact ih hnodup hpair hfirst hsecond
      | cons_cons => exact absurd (hsub.subset hfirst) hnot
  | @cons_cons sub log entry hsub ih =>
      obtain ⟨hnot, hnodup⟩ := List.nodup_cons.mp hnodup
      have hrest : ∀ {other}, other ∈ log → other ∈ entry :: sub → other ∈ sub := by
        intro other hlog hmem
        rcases List.mem_cons.mp hmem with rfl | hmem
        · exact absurd hlog hnot
        · exact hmem
      cases hpair with
      | cons _ hpair =>
          exact .cons _ (ih hnodup hpair (hrest (hpair.subset List.mem_cons_self) hfirst)
            (hrest (hpair.subset (by simp)) hsecond))
      | cons_cons _ hpair =>
          exact .cons_cons _ (List.singleton_sublist.mpr
            (hrest (hpair.subset List.mem_cons_self) hsecond))

end BftKit.Foundation
