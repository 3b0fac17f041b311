import Mathlib.Data.List.Chain
import BftKit.Foundation.Ancestry

/-! # Lines of descent

A line lists nodes from the root down, each of them a child of the one before. The line to a
node begins with the line to any of its ancestors.
-/

namespace BftKit.Foundation

universe u v

variable {Node : Type u} {Other : Type v}

/-- Each node is a child of the one before it, the first one of the root, which does not
come again. -/
structure Descends (parent : Node → Node) (root : Node) (line : List Node) : Prop where
  chain : List.IsChain (fun earlier later => parent later = earlier) (root :: line)
  root : root ∉ line

namespace Descends

variable {parent : Node → Node} {root last : Node} {line left right : List Node}

theorem concat (h : Descends parent root (line ++ [last])) :
    Descends parent root line ∧ last ≠ root ∧ (root :: line).getLast? = some (parent last) := by
  have hchain := h.chain
  rw [← List.cons_append, List.isChain_append] at hchain
  obtain ⟨hline, -, hlast⟩ := hchain
  have hroot := h.root
  rw [List.mem_append, List.mem_singleton, not_or] at hroot
  refine ⟨⟨hline, hroot.1⟩, Ne.symm hroot.2, ?_⟩
  have hsome := List.getLast?_eq_some_getLast (List.cons_ne_nil root line)
  rw [hsome, hlast _ hsome last rfl]

theorem getLast?_concat (root last : Node) (line : List Node) :
    (root :: (line ++ [last])).getLast? = some last := by
  rw [← List.cons_append, List.getLast?_append]
  rfl

/-- There is one line to a node. -/
theorem unique (hleft : Descends parent root left) (hright : Descends parent root right)
    (hlast : (root :: left).getLast? = (root :: right).getLast?) : left = right := by
  induction right using List.reverseRecOn generalizing left with
  | nil =>
      cases left using List.reverseRecOn with
      | nil => rfl
      | append_singleton left last =>
          rw [getLast?_concat] at hlast
          exact absurd (Option.some.inj hlast) hleft.concat.2.1
  | append_singleton right last ih =>
      obtain ⟨hright', hne, hparent⟩ := hright.concat
      cases left using List.reverseRecOn with
      | nil =>
          rw [getLast?_concat] at hlast
          exact absurd (Option.some.inj hlast).symm hne
      | append_singleton left last' =>
          rw [getLast?_concat, getLast?_concat] at hlast
          obtain rfl := Option.some.inj hlast
          obtain ⟨hleft', -, hparent'⟩ := hleft.concat
          rw [ih hleft' hright' (hparent'.trans hparent.symm)]

/-- The line to an ancestor is the beginning of the line. -/
theorem isPrefix (hfixed : parent root = root) (hleft : Descends parent root left)
    (hright : Descends parent root right) {node ancestor : Node}
    (hancestor : Ancestor parent ancestor node) (hat : (root :: left).getLast? = some ancestor)
    (hat' : (root :: right).getLast? = some node) : left <+: right := by
  induction right using List.reverseRecOn generalizing node with
  | nil =>
      obtain rfl : root = node := Option.some.inj hat'
      have hroot : ancestor = root := by
        refine Ancestor.inherit (P := (· = root)) ?_ hancestor rfl
        rintro node rfl
        exact hfixed
      rw [hroot] at hat
      exact (unique hleft hright hat) ▸ List.prefix_rfl
  | append_singleton right last ih =>
      rw [getLast?_concat] at hat'
      obtain rfl := Option.some.inj hat'
      obtain ⟨hright', -, hparent⟩ := hright.concat
      obtain ⟨count, hcount⟩ := hancestor
      cases count with
      | zero =>
          obtain rfl : last = ancestor := hcount
          have heq := unique hleft hright (hat.trans (getLast?_concat root last right).symm)
          exact heq ▸ List.prefix_rfl
      | succ count =>
          exact (ih hright' ⟨count, hcount⟩ hparent).trans (List.prefix_append _ _)

/-- Maps that commute with parents along a line keep it one. -/
theorem map {parent' : Other → Other} {f : Node → Other} (h : Descends parent root line)
    (hcommutes : ∀ node ∈ line, parent' (f node) = f (parent node))
    (hroot : ∀ node ∈ line, f node ≠ f root) : Descends parent' (f root) (line.map f) where
  chain := by
    rw [← List.map_cons, List.isChain_map]
    refine List.IsChain.imp_of_mem_tail_imp ?_ h.chain
    intro earlier later _ hlater hparent
    rw [hcommutes later hlater, hparent]
  root := by
    intro hmem
    obtain ⟨node, hnode, heq⟩ := List.mem_map.mp hmem
    exact hroot node hnode heq

end Descends

end BftKit.Foundation
