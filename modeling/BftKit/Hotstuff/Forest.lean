import BftKit.Crypto.Transparent
import BftKit.Foundation.Run
import BftKit.Hotstuff.Reaction

/-! # The forest of stored blocks

The heights of blocks are the sender's choice. What orders the store is insertion: a
parent is there before its children, so both recursions along parents end, with or
without heights that rise, and genesis is cut off by its height.
-/

namespace BftKit.Hotstuff

open Foundation Threshold

variable {scheme : ThresholdScheme}

namespace ReplicaCore

variable {core next : ReplicaCore scheme} {config : ReplicaCoreConfig}
  {events : List (ReplicaCoreEvent scheme)} {key other block fuel : Nat}

/-- Events given to a new core, one after another. A panic has no successor. -/
abbrev CoreRun (scheme : ThresholdScheme) (config : ReplicaCoreConfig) :
    List (ReplicaCoreEvent scheme) → ReplicaCore scheme → Prop :=
  Run (· = new scheme config) fun _ core event next =>
    ∃ actions, core.handle event = .ok (next, actions)

/-- The core after a list of events. -/
def handleAll (core : ReplicaCore scheme) (events : List (ReplicaCoreEvent scheme)) :
    Except Panic (ReplicaCore scheme) :=
  events.foldlM (fun core event => do return (← core.handle event).1) core

theorem CoreRun.handleAll (hrun : CoreRun scheme config events core)
    {more : List (ReplicaCoreEvent scheme)} (hmore : core.handleAll more = .ok next) :
    CoreRun scheme config (events ++ more) next := by
  induction more generalizing core events with
  | nil =>
      obtain rfl := Except.ok.inj hmore
      rwa [List.append_nil]
  | cons event rest ih =>
      rw [ReplicaCore.handleAll, List.foldlM_cons, bind_eq_ok] at hmore
      obtain ⟨middle, hmiddle, hrest⟩ := hmore
      rw [bind_eq_ok] at hmiddle
      obtain ⟨result, hhandle, heq⟩ := hmiddle
      obtain rfl : result.1 = middle := Except.ok.inj heq
      rw [← List.singleton_append, ← List.append_assoc]
      exact ih (.step hrun ⟨result.2, hhandle⟩) hrest

theorem CoreRun.stored (hrun : CoreRun scheme config events core) : Stored core := by
  induction hrun with
  | start hinit =>
      rw [hinit]
      exact new_stored config
  | step _ hhandle ih =>
      obtain ⟨actions, hhandle⟩ := hhandle
      exact (ih.handle hhandle).1

/-! ## Fuel -/

/-- A walk that ends goes on to end the same way with more fuel. -/
theorem extendsWithin_more (h : core.extendsWithin fuel key other ≠ .error .recursion) :
    core.extendsWithin (fuel + 1) key other = core.extendsWithin fuel key other := by
  induction fuel generalizing key with
  | zero => exact absurd rfl h
  | succ fuel ih =>
      rw [extendsWithin, extendsWithin] at *
      by_cases heq : key = other
      · rw [if_pos heq, if_pos heq]
      · rw [if_neg heq] at h
        rw [if_neg heq, if_neg heq]
        cases hnode : core.node key with
        | error panic => rfl
        | ok node =>
            cases hother : core.node other with
            | error panic => rfl
            | ok otherNode =>
                simp only [hnode, hother, ok_bind] at h ⊢
                by_cases hheight : node.height ≤ otherNode.height
                · rw [if_pos hheight, if_pos hheight]
                · rw [if_neg hheight] at h
                  rw [if_neg hheight, if_neg hheight, ih h]

/-- A commit that ends goes on to end the same way with more fuel. -/
theorem onCommitWithin_more (h : onCommitWithin fuel core block ≠ .error .recursion) :
    onCommitWithin (fuel + 1) core block = onCommitWithin fuel core block := by
  induction fuel generalizing block with
  | zero => exact absurd rfl h
  | succ fuel ih =>
      rw [onCommitWithin, onCommitWithin] at *
      cases hexecuted : core.node core.blockExecute with
      | error panic => rfl
      | ok executed =>
          cases hnode : core.node block with
          | error panic => rfl
          | ok node =>
              simp only [hexecuted, hnode, ok_bind] at h ⊢
              by_cases hheight : executed.height < node.height
              · rw [if_pos hheight] at h
                rw [if_pos hheight, if_pos hheight, ih]
                intro hparent
                rw [hparent, error_bind] at h
                exact h rfl
              · rw [if_neg hheight, if_neg hheight]

/-- A walk that says yes has come by the other node. -/
theorem extendsWithin_ancestor (h : core.extendsWithin fuel key other = .ok true) :
    Ancestor core.parentOf other key := by
  induction fuel generalizing key with
  | zero => cases h
  | succ fuel ih =>
      rw [extendsWithin] at h
      by_cases heq : key = other
      · rw [heq]
        exact .refl other
      · rw [if_neg heq, bind_eq_ok] at h
        obtain ⟨node, hnode, h⟩ := h
        rw [bind_eq_ok] at h
        obtain ⟨otherNode, -, h⟩ := h
        have hparent : node.parent = core.parentOf key := by
          unfold ReplicaCore.node at hnode
          split at hnode
          next => cases hnode
          next stored hstored =>
            rw [parentOf, nodeAt_eq hstored, Except.ok.inj hnode]
        split at h
        · cases h
        · rw [hparent] at h
          exact (ih h).of_parent

theorem node_missing (hkey : core.nodes.length ≤ key) : core.node key = .error .index := by
  rw [node, List.getElem?_eq_none hkey]

namespace Stored

/-- Walks end whatever the two keys are. -/
theorem extends_ends (h : Stored core) (key other : Nat) :
    Ends .recursion core.nodes.length fun fuel => core.extendsWithin fuel key other := by
  refine Ends.of_continues (fun _ => extendsWithin_more) ?_
  obtain ⟨fuel, hfuel⟩ := Nat.exists_eq_succ_of_ne_zero h.nodes_pos.ne'
  by_cases hkey : key < core.nodes.length
  · by_cases hother : other < core.nodes.length
    · obtain ⟨verdict, hverdict, -⟩ := h.extendsWithin_ok hkey hother hkey
      rw [hverdict]
      exact fun heq => by cases heq
    · rw [hfuel, extendsWithin, if_neg (by omega), node_ok hkey, ok_bind,
        node_missing (not_lt.mp hother), error_bind]
      exact fun heq => by cases heq
  · rw [hfuel, extendsWithin, node_missing (not_lt.mp hkey), error_bind]
    split <;> exact fun heq => by cases heq

/-- Commits end whatever the key is. -/
theorem onCommit_ends (h : Stored core) (block : Nat) :
    Ends .recursion core.nodes.length fun fuel => onCommitWithin fuel core block := by
  refine Ends.of_continues (fun _ => onCommitWithin_more) ?_
  by_cases hblock : block < core.nodes.length
  · obtain ⟨pool, path, hcommit, -⟩ := h.onCommitWithin_ok hblock hblock
    rw [hcommit]
    exact fun heq => by cases heq
  · obtain ⟨fuel, hfuel⟩ := Nat.exists_eq_succ_of_ne_zero h.nodes_pos.ne'
    rw [hfuel, onCommitWithin, node_ok h.execute, ok_bind, node_missing (not_lt.mp hblock),
      error_bind]
    exact fun heq => by cases heq

/-- No event gets stuck in a recursion, also not in between. -/
theorem handle_ends (h : Stored core) (event : ReplicaCoreEvent scheme) :
    core.handle event ≠ .error .recursion := by
  intro hhandle
  rcases h.handle_error hhandle with hrefused | ⟨middle, reactions, hreacted, hrefused⟩
  · cases hrefused with
    | proposal hrefused => cases hrefused
    | proposed hrefused => cases hrefused
  · cases hrefused with
    | batchSize _ hclose =>
        obtain ⟨log, hlog⟩ := (hreacted.stored h).pool
        cases (hlog.closeBatch_error hclose).1

/-- Where heights rise along the links to the parents, the walk decides ancestry. -/
theorem extendsNode_iff (h : Stored core) (hkey : key < core.nodes.length)
    (hother : other < core.nodes.length)
    (hrising : ∀ key, 0 < key → key < core.nodes.length →
      core.heightOf (core.parentOf key) < core.heightOf key) :
    core.extendsNode key other = .ok true ↔ Ancestor core.parentOf other key := by
  obtain ⟨verdict, hverdict, hiff⟩ := h.extendsNode_ok hkey hother
  rw [hverdict, Except.ok.injEq, hiff]
  refine ⟨Reaches.ancestor, fun hancestor => ?_⟩
  refine Reaches.of_ancestor (P := (· < core.nodes.length)) ?_ ?_ hancestor hkey
  · exact fun key hkey => (h.parentOf_le key).trans_lt hkey
  · intro key hkey
    rcases Nat.eq_zero_or_pos key with rfl | hpos
    · exact .inl h.parentOf_zero
    · exact .inr (hrising key hpos hkey)

end Stored

/-! ## The store of a run -/

/-- Keys and digests of nodes correspond, and links point to what was stored before. -/
structure WellFormed (core : ReplicaCore scheme) : Prop where
  genesis : core.nodes[0]? = some genesis
  index : ∀ digest key, core.nodeIndex.lookup digest = some key ↔
    ∃ node, core.nodes[key]? = some node ∧ node.digest = digest
  parent : ∀ (key : Nat) (node : Node), core.nodes[key]? = some node → 0 < key → node.parent < key
  justify : ∀ (key : Nat) (node : Node), core.nodes[key]? = some node →
    ∃ (cert : QuorumCert scheme) (certified : Node),
      core.quorumCerts[node.justify]? = some cert ∧ core.nodes[cert.node]? = some certified

theorem Stored.wellFormed (h : Stored core) : WellFormed core where
  genesis := by rw [getElem?_nodes h.nodes_pos, h.genesis]
  index := by
    intro digest key
    rw [h.index]
    constructor
    · rintro ⟨hkey, hdigest⟩
      exact ⟨core.nodeAt key, getElem?_nodes hkey, hdigest⟩
    · rintro ⟨node, hnode, hdigest⟩
      refine ⟨(List.getElem?_eq_some_iff.mp hnode).1, ?_⟩
      rwa [digestOf, nodeAt_eq hnode]
  parent := by
    intro key node hnode hpos
    have hparent := h.parent key hpos
    rwa [parentOf, nodeAt_eq hnode] at hparent
  justify := by
    intro key node hnode
    have hjustify := h.justify key
    rw [nodeAt_eq hnode] at hjustify
    exact ⟨_, _, getElem?_quorumCerts hjustify, getElem?_nodes (h.cert _)⟩

/-- What the store of a core promises its recursions, and what they give for it. -/
structure Forest (core : ReplicaCore scheme) : Prop where
  wellFormed : WellFormed core
  extendsEnds : ∀ key other,
    Ends .recursion core.nodes.length fun fuel => core.extendsWithin fuel key other
  commitEnds : ∀ block,
    Ends .recursion core.nodes.length fun fuel => onCommitWithin fuel core block
  /-- Also in the middle of an event. -/
  handleEnds : ∀ event, core.handle event ≠ .error .recursion
  /-- Stored keys do not lead to missing ones. -/
  extendsReturns : ∀ key other, key < core.nodes.length → other < core.nodes.length →
    ∃ verdict, core.extendsNode key other = .ok verdict
  commitReturns : ∀ block, block < core.nodes.length → ∃ result, core.onCommit block = .ok result
  sound : ∀ key other, core.extendsNode key other = .ok true → Ancestor core.parentOf other key
  complete : (∀ key, 0 < key → key < core.nodes.length →
      core.heightOf (core.parentOf key) < core.heightOf key) →
    ∀ key other, key < core.nodes.length → other < core.nodes.length →
      (core.extendsNode key other = .ok true ↔ Ancestor core.parentOf other key)

theorem block_forest (hrun : CoreRun scheme config events core) : Forest core where
  wellFormed := hrun.stored.wellFormed
  extendsEnds := hrun.stored.extends_ends
  commitEnds := hrun.stored.onCommit_ends
  handleEnds := hrun.stored.handle_ends
  extendsReturns := by
    intro key other hkey hother
    obtain ⟨verdict, hverdict, -⟩ := hrun.stored.extendsNode_ok hkey hother
    exact ⟨verdict, hverdict⟩
  commitReturns := by
    intro block hblock
    obtain ⟨pool, path, hcommit, -⟩ := hrun.stored.onCommit_ok hblock
    exact ⟨_, hcommit⟩
  sound := fun key other hextends => extendsWithin_ancestor hextends
  complete := fun hrising key other hkey hother => hrun.stored.extendsNode_iff hkey hother hrising

/-- Two blocks on genesis, one of them far up, and a child of that one which is lower. -/
def forked : List (ReplicaCoreEvent .transparent) :=
  [.proposal (polynomialHash [1]) ⟨.zero, [], ⟨.zero, .vec []⟩, 7, by decide⟩,
    .proposal (polynomialHash [2]) ⟨.zero, [], ⟨.zero, .vec []⟩, 1, by decide⟩,
    .proposal (polynomialHash [3])
      ⟨polynomialHash [1], [], ⟨polynomialHash [1], .vec []⟩, 4, by decide⟩]

theorem block_forest_forked : ∃ core : ReplicaCore .transparent,
    CoreRun .transparent ⟨⟨1, 4⟩, 1, false, 1⟩ forked core ∧ Forest core ∧
      core.extendsNode 1 0 = .ok true ∧ core.extendsNode 3 1 = .ok false ∧
      core.extendsNode 1 2 = .ok false := by
  have hhandle : ∃ core, (new .transparent ⟨⟨1, 4⟩, 1, false, 1⟩).handleAll forked = .ok core ∧
      core.extendsNode 1 0 = .ok true ∧ core.extendsNode 3 1 = .ok false ∧
      core.extendsNode 1 2 = .ok false := by
    refine ⟨_, rfl, ?_⟩
    decide +kernel
  obtain ⟨core, hcore, hextends⟩ := hhandle
  have hrun : CoreRun .transparent ⟨⟨1, 4⟩, 1, false, 1⟩ forked core :=
    CoreRun.handleAll (.start rfl) hcore
  exact ⟨core, hrun, block_forest hrun, hextends⟩

end ReplicaCore

end BftKit.Hotstuff
