import BftKit.Foundation.Ancestry
import Mathlib.Data.List.Pairwise

/-! # Commits by three-chains

Voters vote for nodes of a tree; a node with enough votes is certified, and a node
justifies a certified one. A node is committed by a certified grandchild when both
links are justifications as well. If voters vote for rising heights, keep to a lock
that their earlier votes raise, and vote for children that extend what they
justify, then committed nodes are comparable.
-/

namespace BftKit.Foundation

universe u v

variable {Node : Type u} {Voter : Type v}

/-- A tree of nodes with justifications, and the nodes that are certified. -/
structure JustifiedTree (Node : Type u) where
  parent : Node → Node
  justify : Node → Node
  height : Node → Nat
  Certified : Node → Prop

namespace JustifiedTree

variable (tree : JustifiedTree Node)

/-- A voter may cast the second vote after the first one: it is for a higher node, and
a lock at least as high as the one that the first vote implies is extended, or is
lower than what the second node justifies. -/
def Follows (earlier later : Node) : Prop :=
  tree.height earlier < tree.height later ∧
    ∃ lock, tree.Certified lock ∧
      tree.height (tree.justify (tree.justify earlier)) ≤ tree.height lock ∧
      (Ancestor tree.parent lock later ∧ tree.height lock < tree.height later ∨
        tree.height lock < tree.height (tree.justify later))

/-- A node that voters may vote for at all. -/
structure Valid (node : Node) : Prop where
  height : tree.height node = tree.height (tree.parent node) + 1
  certified : tree.Certified (tree.justify node)
  extended : Ancestor tree.parent (tree.justify node) node
  lower : tree.height (tree.justify node) < tree.height node

/-- Voters keep to the rules, and any two certified nodes share a voter. -/
structure Disciplined (votes : Voter → List Node) : Prop where
  follows : ∀ voter, (votes voter).Pairwise tree.Follows
  valid : ∀ voter, ∀ node ∈ votes voter, tree.Valid node
  shared : ∀ node node', tree.Certified node → tree.Certified node' →
    0 < tree.height node → 0 < tree.height node' →
    ∃ voter, node ∈ votes voter ∧ node' ∈ votes voter
  ground : ∀ node, tree.Certified node → tree.height node = 0 → tree.justify node = node

/-- A certified node that commits the node two links below it. -/
structure Commits (node committed : Node) : Prop where
  certified : tree.Certified node
  parent1 : tree.parent node = tree.justify node
  parent2 : tree.parent (tree.justify node) = tree.justify (tree.justify node)
  committed : committed = tree.justify (tree.justify node)

variable {tree} {votes : Voter → List Node}

/-- Of two members of a pairwise ordered list, one precedes the other. -/
theorem rel_or_eq_of_pairwise {R : Node → Node → Prop} {nodes : List Node}
    (hpairwise : nodes.Pairwise R) {node node' : Node} (hmem : node ∈ nodes)
    (hmem' : node' ∈ nodes) : node = node' ∨ R node node' ∨ R node' node := by
  induction hpairwise with
  | nil => cases hmem
  | cons hhead _ ih =>
      rcases List.mem_cons.mp hmem with rfl | htail
      · rcases List.mem_cons.mp hmem' with rfl | htail'
        · exact .inl rfl
        · exact .inr (.inl (hhead _ htail'))
      · rcases List.mem_cons.mp hmem' with rfl | htail'
        · exact .inr (.inr (hhead _ htail))
        · exact ih htail htail'

namespace Disciplined

variable (h : tree.Disciplined votes)

include h

/-- Nobody votes twice at one height, so one node is certified there. -/
theorem certified_unique {node node' : Node} (hnode : tree.Certified node)
    (hnode' : tree.Certified node') (hpos : 0 < tree.height node)
    (hheight : tree.height node = tree.height node') : node = node' := by
  obtain ⟨voter, hmem, hmem'⟩ := h.shared node node' hnode hnode' hpos (hheight ▸ hpos)
  rcases rel_or_eq_of_pairwise (h.follows voter) hmem hmem' with heq | hrel | hrel
  · exact heq
  · exact absurd hrel.1 (by omega)
  · exact absurd hrel.1 (by omega)

theorem valid_of_certified {node : Node} (hnode : tree.Certified node)
    (hpos : 0 < tree.height node) : tree.Valid node := by
  obtain ⟨voter, hmem, -⟩ := h.shared node node hnode hnode hpos hpos
  exact h.valid voter node hmem

/-- Certified nodes that are not lower than a committed node extend it. -/
theorem extends_committed {top committed : Node} (hcommits : tree.Commits top committed)
    (hpos : 0 < tree.height committed) {node : Node} (hnode : tree.Certified node)
    (hheight : tree.height committed ≤ tree.height node) :
    Ancestor tree.parent committed node := by
  obtain ⟨htop, hparent1, hparent2, rfl⟩ := hcommits
  have htop_pos : 0 < tree.height top := by
    refine Nat.pos_of_ne_zero fun hzero => ?_
    rw [h.ground top htop hzero, h.ground top htop hzero, hzero] at hpos
    exact absurd hpos (lt_irrefl 0)
  have htop_valid := h.valid_of_certified htop htop_pos
  have hmiddle_pos : 0 < tree.height (tree.justify top) := by
    refine Nat.pos_of_ne_zero fun hzero => ?_
    rw [h.ground _ htop_valid.certified hzero, hzero] at hpos
    exact absurd hpos (lt_irrefl 0)
  have hmiddle_valid := h.valid_of_certified htop_valid.certified hmiddle_pos
  have htop_height := htop_valid.height
  have hmiddle_height := hmiddle_valid.height
  rw [hparent1] at htop_height
  rw [hparent2] at hmiddle_height
  -- induction on the height of the certified node
  induction hn : tree.height node using Nat.strong_induction_on generalizing node with
  | _ height ih =>
      subst hn
      have hnode_pos : 0 < tree.height node := hpos.trans_le hheight
      have hstep : ∀ below, tree.Certified below → tree.height below < tree.height node →
          tree.height (tree.justify (tree.justify top)) ≤ tree.height below →
          Ancestor tree.parent below node →
          Ancestor tree.parent (tree.justify (tree.justify top)) node := by
        intro below hbelow hlt hle hancestor
        exact (ih _ hlt hbelow hle rfl).trans hancestor
      rcases Nat.lt_or_ge (tree.height top) (tree.height node) with habove | hbelow
      · -- somebody has voted for the top and then for the node
        obtain ⟨voter, hmem, hmem'⟩ := h.shared top node htop hnode htop_pos hnode_pos
        have hfollows : tree.Follows top node := by
          rcases rel_or_eq_of_pairwise (h.follows voter) hmem hmem' with rfl | hrel | hrel
          · exact absurd habove (lt_irrefl _)
          · exact hrel
          · exact absurd hrel.1 (by omega)
        obtain ⟨-, lock, hlock, hlock_height, hextends | hjustify⟩ := hfollows
        · exact hstep lock hlock hextends.2 hlock_height hextends.1
        · have hvalid := h.valid voter node hmem'
          exact hstep _ hvalid.certified hvalid.lower (hlock_height.trans hjustify.le) hvalid.extended
      · -- the node is one of the three
        have hcases : tree.height node = tree.height top ∨
            tree.height node = tree.height (tree.justify top) ∨
            tree.height node = tree.height (tree.justify (tree.justify top)) := by omega
        rcases hcases with heq | heq | heq
        · obtain rfl := h.certified_unique hnode htop hnode_pos heq
          refine .of_parent (.of_parent ?_)
          rw [hparent1, hparent2]
          exact .refl _
        · rw [h.certified_unique hnode htop_valid.certified hnode_pos heq]
          refine .of_parent ?_
          rw [hparent2]
          exact .refl _
        · rw [h.certified_unique hnode hmiddle_valid.certified hnode_pos heq]
          exact .refl _

/-- What a commit commits is certified itself. -/
theorem certified_committed {top committed : Node} (hcommits : tree.Commits top committed)
    (hpos : 0 < tree.height committed) : tree.Certified committed := by
  obtain ⟨htop, -, -, rfl⟩ := hcommits
  have htop_pos : 0 < tree.height top := by
    refine Nat.pos_of_ne_zero fun hzero => ?_
    rw [h.ground top htop hzero, h.ground top htop hzero, hzero] at hpos
    exact absurd hpos (lt_irrefl 0)
  have hmiddle := (h.valid_of_certified htop htop_pos).certified
  refine (h.valid_of_certified hmiddle ?_).certified
  refine Nat.pos_of_ne_zero fun hzero => ?_
  rw [h.ground _ hmiddle hzero, hzero] at hpos
  exact absurd hpos (lt_irrefl 0)

/-- Ancestors of committed nodes are comparable. -/
theorem comparable {top top' committed committed' first second : Node}
    (hcommits : tree.Commits top committed) (hcommits' : tree.Commits top' committed')
    (hpos : 0 < tree.height committed) (hpos' : 0 < tree.height committed')
    (hfirst : Ancestor tree.parent first committed)
    (hsecond : Ancestor tree.parent second committed') :
    Ancestor tree.parent first second ∨ Ancestor tree.parent second first := by
  rcases Nat.le_total (tree.height committed) (tree.height committed') with hle | hle
  · have hextends := h.extends_committed hcommits hpos (h.certified_committed hcommits' hpos') hle
    exact (hfirst.trans hextends).total hsecond
  · have hextends := h.extends_committed hcommits' hpos' (h.certified_committed hcommits hpos) hle
    exact hfirst.total (hsecond.trans hextends)

end Disciplined

end JustifiedTree

end BftKit.Foundation
