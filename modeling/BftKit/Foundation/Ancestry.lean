import Mathlib.Data.List.Chain
import Mathlib.Logic.Function.Iterate
import Mathlib.Order.Basic

/-! # Ancestry

Trees given by a parent function, with a height that need not have anything to do
with the depth. A walk towards the root collects the nodes above a floor; it is a
chain of children when it stops at a node that it was looking for.
-/

namespace BftKit.Foundation

universe u v

variable {Node : Type u} {Other : Type v}

/-- Reached by following parents any number of times. -/
def Ancestor (parent : Node → Node) (ancestor node : Node) : Prop :=
  ∃ count, parent^[count] node = ancestor

namespace Ancestor

variable {parent : Node → Node} {first second third node : Node}

theorem refl (node : Node) : Ancestor parent node node := ⟨0, rfl⟩

theorem of_parent (h : Ancestor parent first (parent node)) : Ancestor parent first node := by
  obtain ⟨count, hcount⟩ := h
  exact ⟨count + 1, hcount⟩

theorem trans (h : Ancestor parent first second) (h' : Ancestor parent second third) :
    Ancestor parent first third := by
  obtain ⟨count, rfl⟩ := h
  obtain ⟨count', rfl⟩ := h'
  exact ⟨count + count', Function.iterate_add_apply parent count count' third⟩

/-- Ancestors of one node are comparable. -/
theorem total (h : Ancestor parent first node) (h' : Ancestor parent second node) :
    Ancestor parent first second ∨ Ancestor parent second first := by
  obtain ⟨count, rfl⟩ := h
  obtain ⟨count', rfl⟩ := h'
  rcases Nat.le_total count count' with hle | hle
  · refine .inr ⟨count' - count, ?_⟩
    rw [← Function.iterate_add_apply, Nat.sub_add_cancel hle]
  · refine .inl ⟨count - count', ?_⟩
    rw [← Function.iterate_add_apply, Nat.sub_add_cancel hle]

/-- What a node's parent inherits, an ancestor inherits. -/
theorem inherit {P : Node → Prop} (hparent : ∀ node, P node → P (parent node))
    (h : Ancestor parent first node) (hnode : P node) : P first := by
  obtain ⟨count, rfl⟩ := h
  induction count generalizing node with
  | zero => exact hnode
  | succ count ih => exact ih (hparent node hnode)

/-- Maps that commute with parents, on a set that is closed under them, keep ancestry. -/
theorem map {parent' : Other → Other} {f : Node → Other} {P : Node → Prop}
    (hclosed : ∀ node, P node → P (parent node))
    (hcommutes : ∀ node, P node → parent' (f node) = f (parent node))
    (h : Ancestor parent first node) (hnode : P node) : Ancestor parent' (f first) (f node) := by
  obtain ⟨count, rfl⟩ := h
  induction count generalizing node with
  | zero => exact refl _
  | succ count ih =>
      refine of_parent ?_
      rw [hcommutes node hnode]
      exact ih (hclosed node hnode)

/-- An ancestor of an image is an image of an ancestor. -/
theorem exists_of_map {parent' : Other → Other} {f : Node → Other} {P : Node → Prop}
    (hclosed : ∀ node, P node → P (parent node))
    (hcommutes : ∀ node, P node → parent' (f node) = f (parent node)) {other : Other}
    (h : Ancestor parent' other (f node)) (hnode : P node) :
    ∃ first, Ancestor parent first node ∧ f first = other := by
  obtain ⟨count, rfl⟩ := h
  induction count generalizing node with
  | zero => exact ⟨node, refl node, rfl⟩
  | succ count ih =>
      rw [Function.iterate_succ_apply, hcommutes node hnode]
      obtain ⟨first, hfirst, heq⟩ := ih (hclosed node hnode)
      exact ⟨first, hfirst.of_parent, heq⟩

end Ancestor

section Walk

variable (parent : Node → Node) (height : Node → Nat)

/-- A walk from a node to another one, above whose height it stays until it is there. -/
inductive Reaches : Node → Node → Prop
  | refl (node) : Reaches node node
  | step {node target} (habove : height target < height node)
      (hrest : Reaches (parent node) target) : Reaches node target

/-- The nodes above a floor that a walk from a node passes, the lowest first. -/
inductive Lineage (floor : Nat) : Node → List Node → Prop
  | stop {node} (hbelow : height node ≤ floor) : Lineage floor node []
  | step {node path} (habove : floor < height node) (hrest : Lineage floor (parent node) path) :
      Lineage floor node (path ++ [node])

variable {parent height} {floor : Nat} {node target : Node} {path : List Node}

theorem Reaches.ancestor (h : Reaches parent height node target) :
    Ancestor parent target node := by
  induction h with
  | refl node => exact .refl node
  | step _ _ ih => exact ih.of_parent

theorem Reaches.height_lt (h : Reaches parent height node target) (hne : node ≠ target) :
    height target < height node := by
  cases h with
  | refl => exact absurd rfl hne
  | step habove => exact habove

/-- A walk to another node passes the parent. -/
theorem Reaches.parent_of_ne (h : Reaches parent height node target) (hne : node ≠ target) :
    Reaches parent height (parent node) target := by
  cases h with
  | refl => exact absurd rfl hne
  | step _ hrest => exact hrest

/-- Where a node is its own parent or above it, no ancestor is above it. -/
theorem Ancestor.height_le {P : Node → Prop} (hclosed : ∀ node, P node → P (parent node))
    (hrising : ∀ node, P node → parent node = node ∨ height (parent node) < height node)
    (h : Ancestor parent target node) (hnode : P node) : height target ≤ height node := by
  obtain ⟨count, rfl⟩ := h
  induction count generalizing node with
  | zero => exact le_rfl
  | succ count ih =>
      apply (ih (hclosed node hnode)).trans
      rcases hrising node hnode with hself | hlt
      · rw [hself]
      · exact hlt.le

/-- Where a node is its own parent or above it, a walk finds every ancestor. -/
theorem Reaches.of_ancestor {P : Node → Prop} (hclosed : ∀ node, P node → P (parent node))
    (hrising : ∀ node, P node → parent node = node ∨ height (parent node) < height node)
    (h : Ancestor parent target node) (hnode : P node) : Reaches parent height node target := by
  obtain ⟨count, rfl⟩ := h
  induction count generalizing node with
  | zero => exact .refl node
  | succ count ih =>
      rw [Function.iterate_succ_apply]
      rcases hrising node hnode with hself | hlt
      · rw [hself]
        exact ih hnode
      · have hbelow := Ancestor.height_le hclosed hrising ⟨count, rfl⟩ (hclosed node hnode)
        exact .step (hbelow.trans_lt hlt) (ih (hclosed node hnode))

/-- A walk stays the same where parents and heights do. -/
theorem Reaches.congr {parent' : Node → Node} {height' : Node → Nat} {P : Node → Prop}
    (hclosed : ∀ node, P node → P (parent node))
    (hparent : ∀ node, P node → parent' node = parent node)
    (hheight : ∀ node, P node → height' node = height node)
    (h : Reaches parent height node target) (hnode : P node) (htarget : P target) :
    Reaches parent' height' node target := by
  induction h with
  | refl => exact .refl _
  | step habove _ ih =>
      refine .step (by rwa [hheight _ hnode, hheight _ htarget]) ?_
      rw [hparent _ hnode]
      exact ih (hclosed _ hnode) htarget

theorem Lineage.congr {parent' : Node → Node} {height' : Node → Nat} {P : Node → Prop}
    (hclosed : ∀ node, P node → P (parent node))
    (hparent : ∀ node, P node → parent' node = parent node)
    (hheight : ∀ node, P node → height' node = height node)
    (h : Lineage parent height floor node path) (hnode : P node) :
    Lineage parent' height' floor node path := by
  induction h with
  | stop hbelow => exact .stop (by rwa [hheight _ hnode])
  | step habove _ ih =>
      refine .step (by rwa [hheight _ hnode]) ?_
      rw [hparent _ hnode]
      exact ih (hclosed _ hnode)

theorem Lineage.ancestor (h : Lineage parent height floor node path) {member : Node}
    (hmem : member ∈ path) : Ancestor parent member node ∧ floor < height member := by
  induction h with
  | stop => simp at hmem
  | @step node path habove _ ih =>
      rcases List.mem_append.mp hmem with hmem | hmem
      · exact ⟨(ih hmem).1.of_parent, (ih hmem).2⟩
      · obtain rfl := List.mem_singleton.mp hmem
        exact ⟨.refl _, habove⟩

/-- A walk that reaches a node on the floor passes the children of that node, each
the parent of the next. -/
theorem Lineage.chain (h : Lineage parent height (height target) node path)
    (hreaches : Reaches parent height node target) :
    List.IsChain (fun earlier later => parent later = earlier) (target :: path) ∧
      (target :: path).getLast? = some node := by
  induction h with
  | @stop node hbelow =>
      cases hreaches with
      | refl => exact ⟨.singleton _, rfl⟩
      | step habove => exact absurd habove (not_lt.mpr hbelow)
  | @step node path habove hrest ih =>
      cases hreaches with
      | refl => exact absurd habove (lt_irrefl _)
      | step _ hreaches =>
          obtain ⟨hchain, hlast⟩ := ih hreaches
          rw [← List.cons_append]
          refine ⟨?_, List.getLast?_concat⟩
          refine List.isChain_append.mpr ⟨hchain, .singleton _, ?_⟩
          intro last hlast' first hfirst
          obtain rfl : node = first := by simpa using hfirst
          exact Option.some.inj (hlast.symm.trans hlast')

end Walk

end BftKit.Foundation
