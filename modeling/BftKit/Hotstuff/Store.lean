import Mathlib.Data.List.GetD
import BftKit.Foundation.Ancestry
import BftKit.Hotstuff.Core

/-! # The block store

What is stored under a key never changes, parents and justified nodes come before
their children, and the index is exact. So the recursions along parents end, and
what they compute can be said without keys running out.
-/

namespace BftKit

open Foundation

namespace CommandPool

/-- What a pool has issued and which variant it is stay the same, and not too many more
commands wait. -/
structure Keeps (pool pool' : CommandPool) (added : Nat) : Prop where
  issued : ∀ log, pool.Issued log → pool'.Issued log
  variant : pool'.IsCloseLoop ↔ pool.IsCloseLoop
  length_le : pool'.pending.length ≤ pool.pending.length + added

namespace Keeps

variable {pool pool' pool'' : CommandPool} {log : List Command}

theorem refl (pool : CommandPool) : Keeps pool pool 0 := ⟨fun _ h => h, .rfl, le_rfl⟩

theorem trans (h : Keeps pool pool' 0) (h' : Keeps pool' pool'' 0) : Keeps pool pool'' 0 :=
  ⟨fun log hlog => h'.issued log (h.issued log hlog), h'.variant.trans h.variant,
    h'.length_le.trans h.length_le⟩

theorem push (hpool : pool.Issued log) (command : Command) :
    ∃ next accepted, pool.push command = .ok (next, accepted) ∧ Keeps pool next 1 := by
  obtain ⟨next, accepted, hpush, -, hvariant⟩ := hpool.push command
  refine ⟨next, accepted, hpush, fun log' hlog' => ?_, hvariant, hpool.push_length hpush⟩
  obtain ⟨next', accepted', hpush', hissued, -⟩ := hlog'.push command
  obtain ⟨rfl, rfl⟩ := Prod.mk.inj (Except.ok.inj (hpush.symm.trans hpush'))
  exact hissued

theorem commit_all (hpool : pool.Issued log) (commands : List Command) :
    ∃ next, commands.foldlM CommandPool.commit pool = .ok next ∧ Keeps pool next 0 := by
  obtain ⟨next, hcommit, -, hvariant⟩ := hpool.commit_all commands
  refine ⟨next, hcommit, fun log' hlog' => ?_, hvariant, hpool.commit_all_length hcommit⟩
  obtain ⟨next', hcommit', hissued, -⟩ := hlog'.commit_all commands
  obtain rfl := Except.ok.inj (hcommit.symm.trans hcommit')
  exact hissued

end Keeps

end CommandPool

namespace Hotstuff

open Threshold

variable {scheme : ThresholdScheme}

namespace ReplicaCore

section Lookup

variable (core : ReplicaCore scheme)

/-- The node under a key, genesis if there is none. -/
def nodeAt (key : Nat) : Node := core.nodes.getD key genesis

/-- The quorum certificate under a key, that of genesis if there is none. -/
def certAt (key : Nat) : QuorumCert scheme := core.quorumCerts.getD key ⟨0, .vec []⟩

def digestOf (key : Nat) : Digest := (core.nodeAt key).digest

def heightOf (key : Nat) : Nat := (core.nodeAt key).height

def parentOf (key : Nat) : Nat := (core.nodeAt key).parent

/-- The node that a node's justification is about. -/
def justifiedOf (key : Nat) : Nat := (core.certAt (core.nodeAt key).justify).node

/-- The node of the highest quorum certificate. -/
def highNode : Nat := (core.certAt core.quorumCertHigh).node

end Lookup

/-- The rule for voting. -/
def MayVote (core : ReplicaCore scheme) (key : Nat) : Prop :=
  core.voteHeight < core.heightOf key ∧
    (Reaches core.parentOf core.heightOf key core.blockLock ∨
      core.heightOf core.blockLock < core.heightOf (core.justifiedOf key))

/-- The block store and the keys into it are well formed, and so is the pool. -/
structure Stored (core : ReplicaCore scheme) : Prop where
  nodes_pos : 0 < core.nodes.length
  certs_pos : 0 < core.quorumCerts.length
  genesis : core.nodeAt 0 = genesis
  genesisCert : core.certAt 0 = ⟨0, .vec []⟩
  index : ∀ digest key, core.nodeIndex.lookup digest = some key ↔
    key < core.nodes.length ∧ core.digestOf key = digest
  parent : ∀ key, 0 < key → core.parentOf key < key
  justified : ∀ key, 0 < key → core.justifiedOf key < key
  justify : ∀ key, (core.nodeAt key).justify < core.quorumCerts.length
  cert : ∀ key, (core.certAt key).node < core.nodes.length
  certIndex : ∀ digest key, core.quorumCertIndex.lookup digest = some key →
    key < core.quorumCerts.length ∧ core.digestOf (core.certAt key).node = digest
  certIndex_zero : core.quorumCertIndex.lookup .zero = some 0
  lock : core.blockLock < core.nodes.length
  execute : core.blockExecute < core.nodes.length
  leaf : core.blockLeaf < core.nodes.length
  high : core.quorumCertHigh < core.quorumCerts.length
  pool : ∃ log, core.pool.Issued log

/-- One store extends another one. -/
structure Grows (core core' : ReplicaCore scheme) : Prop where
  config : core'.config = core.config
  nodes : core.nodes <+: core'.nodes
  certs : core.quorumCerts <+: core'.quorumCerts

variable {core core' core'' : ReplicaCore scheme} {key : Nat}

section Lookup

theorem nodeAt_eq {node : Node} (hnode : core.nodes[key]? = some node) :
    core.nodeAt key = node := by
  rw [nodeAt, List.getD_eq_getElem?_getD, hnode, Option.getD_some]

theorem certAt_eq {cert : QuorumCert scheme} (hcert : core.quorumCerts[key]? = some cert) :
    core.certAt key = cert := by
  rw [certAt, List.getD_eq_getElem?_getD, hcert, Option.getD_some]

theorem getElem?_nodes (hkey : key < core.nodes.length) :
    core.nodes[key]? = some (core.nodeAt key) := by
  rw [nodeAt, List.getElem?_eq_getElem hkey, List.getD_eq_getElem _ _ hkey]

theorem getElem?_quorumCerts (hkey : key < core.quorumCerts.length) :
    core.quorumCerts[key]? = some (core.certAt key) := by
  rw [certAt, List.getElem?_eq_getElem hkey, List.getD_eq_getElem _ _ hkey]

/-- A node that is pushed is stored under the next key. -/
theorem nodeAt_pushed {node : Node} (hnodes : core'.nodes = core.nodes ++ [node]) :
    core'.nodeAt core.nodes.length = node := by
  apply nodeAt_eq
  rw [hnodes, List.getElem?_concat_length]

/-- A quorum certificate that is pushed is stored under the next key. -/
theorem certAt_pushed {cert : QuorumCert scheme}
    (hcerts : core'.quorumCerts = core.quorumCerts ++ [cert]) :
    core'.certAt core.quorumCerts.length = cert := by
  apply certAt_eq
  rw [hcerts, List.getElem?_concat_length]

end Lookup

namespace Grows

theorem refl (core : ReplicaCore scheme) : Grows core core :=
  ⟨rfl, List.prefix_rfl, List.prefix_rfl⟩

theorem trans (h : Grows core core') (h' : Grows core' core'') : Grows core core'' :=
  ⟨h'.config.trans h.config, h.nodes.trans h'.nodes, h.certs.trans h'.certs⟩

theorem nodeAt (h : Grows core core') (hkey : key < core.nodes.length) :
    core'.nodeAt key = core.nodeAt key := by
  obtain ⟨added, hadded⟩ := h.nodes
  rw [ReplicaCore.nodeAt, ← hadded, List.getD_append _ _ _ _ hkey, ReplicaCore.nodeAt]

theorem certAt (h : Grows core core') (hkey : key < core.quorumCerts.length) :
    core'.certAt key = core.certAt key := by
  obtain ⟨added, hadded⟩ := h.certs
  rw [ReplicaCore.certAt, ← hadded, List.getD_append _ _ _ _ hkey, ReplicaCore.certAt]

theorem digestOf (h : Grows core core') (hkey : key < core.nodes.length) :
    core'.digestOf key = core.digestOf key := by
  rw [ReplicaCore.digestOf, h.nodeAt hkey, ReplicaCore.digestOf]

theorem heightOf (h : Grows core core') (hkey : key < core.nodes.length) :
    core'.heightOf key = core.heightOf key := by
  rw [ReplicaCore.heightOf, h.nodeAt hkey, ReplicaCore.heightOf]

theorem parentOf (h : Grows core core') (hkey : key < core.nodes.length) :
    core'.parentOf key = core.parentOf key := by
  rw [ReplicaCore.parentOf, h.nodeAt hkey, ReplicaCore.parentOf]

theorem justifiedOf (h : Grows core core') (hstored : Stored core)
    (hkey : key < core.nodes.length) : core'.justifiedOf key = core.justifiedOf key := by
  rw [ReplicaCore.justifiedOf, h.nodeAt hkey, h.certAt (hstored.justify key),
    ReplicaCore.justifiedOf]

theorem lt_length (h : Grows core core') (hkey : key < core.nodes.length) :
    key < core'.nodes.length := hkey.trans_le h.nodes.length_le

end Grows

namespace Stored

theorem node_ok (hkey : key < core.nodes.length) : core.node key = .ok (core.nodeAt key) := by
  rw [node, getElem?_nodes hkey]

theorem quorumCert_ok (hkey : key < core.quorumCerts.length) :
    core.quorumCert key = .ok (core.certAt key) := by
  rw [quorumCert, getElem?_quorumCerts hkey]

theorem parentOf_zero (h : Stored core) : core.parentOf 0 = 0 := by
  rw [parentOf, h.genesis, ReplicaCore.genesis]

theorem heightOf_zero (h : Stored core) : core.heightOf 0 = 0 := by
  rw [heightOf, h.genesis, ReplicaCore.genesis]

theorem digestOf_zero (h : Stored core) : core.digestOf 0 = .zero := by
  rw [digestOf, h.genesis, ReplicaCore.genesis]

theorem justifiedOf_zero (h : Stored core) : core.justifiedOf 0 = 0 := by
  have hjustify : (core.nodeAt 0).justify = 0 := by rw [h.genesis, ReplicaCore.genesis]
  rw [justifiedOf, hjustify, h.genesisCert]

theorem parentOf_le (h : Stored core) (key : Nat) : core.parentOf key ≤ key := by
  rcases Nat.eq_zero_or_pos key with rfl | hpos
  · exact h.parentOf_zero.le
  · exact (h.parent key hpos).le

theorem justifiedOf_lt (h : Stored core) (key : Nat) : core.justifiedOf key < core.nodes.length :=
  h.cert _

theorem pos_of_heightOf (h : Stored core) (hheight : 0 < core.heightOf key) : 0 < key := by
  rcases Nat.eq_zero_or_pos key with rfl | hpos
  · rw [h.heightOf_zero] at hheight
    exact absurd hheight (lt_irrefl 0)
  · exact hpos

/-- Ancestors come before their descendants. -/
theorem ancestor_le (h : Stored core) {ancestor : Nat}
    (hancestor : Ancestor core.parentOf ancestor key) : ancestor ≤ key :=
  Ancestor.inherit (P := (· ≤ key)) (fun node hnode => (h.parentOf_le node).trans hnode)
    hancestor le_rfl

/-- A digest is stored under one key. -/
theorem key_unique (h : Stored core) {key' : Nat} (hkey : key < core.nodes.length)
    (hkey' : key' < core.nodes.length) (hdigest : core.digestOf key = core.digestOf key') :
    key = key' := by
  have hlookup := (h.index (core.digestOf key) key).mpr ⟨hkey, rfl⟩
  have hlookup' := (h.index (core.digestOf key) key').mpr ⟨hkey', hdigest.symm⟩
  exact Option.some.inj (hlookup.symm.trans hlookup')

theorem lookup_digestOf (h : Stored core) (hkey : key < core.nodes.length) :
    core.nodeIndex.lookup (core.digestOf key) = some key :=
  (h.index _ _).mpr ⟨hkey, rfl⟩

/-- The fuel suffices: a walk to the parent goes down in the order of the keys. -/
theorem extendsWithin_ok (h : Stored core) {other fuel : Nat} (hkey : key < core.nodes.length)
    (hother : other < core.nodes.length) (hfuel : key < fuel) :
    ∃ verdict, core.extendsWithin fuel key other = .ok verdict ∧
      (verdict = true ↔ Reaches core.parentOf core.heightOf key other) := by
  induction fuel generalizing key with
  | zero => exact absurd hfuel (Nat.not_lt_zero key)
  | succ fuel ih =>
      unfold extendsWithin
      by_cases heq : key = other
      · subst heq
        rw [if_pos rfl]
        exact ⟨true, rfl, by simp [Reaches.refl]⟩
      · rw [if_neg heq, node_ok hkey, ok_bind, node_ok hother, ok_bind]
        by_cases hheight : (core.nodeAt key).height ≤ (core.nodeAt other).height
        · rw [if_pos hheight]
          refine ⟨false, rfl, ?_⟩
          simp only [Bool.false_eq_true, false_iff]
          exact fun hreaches => absurd (hreaches.height_lt heq) (not_lt.mpr hheight)
        · rw [if_neg hheight]
          have hpos : 0 < key := h.pos_of_heightOf ((Nat.zero_le _).trans_lt (not_le.mp hheight))
          have hlt := h.parent key hpos
          obtain ⟨verdict, hverdict, hiff⟩ := ih (hlt.trans hkey) (by omega)
          refine ⟨verdict, hverdict, hiff.trans ⟨.step (not_le.mp hheight), ?_⟩⟩
          intro hreaches
          cases hreaches with
          | refl => exact absurd rfl heq
          | step _ hrest => exact hrest

theorem extendsNode_ok (h : Stored core) {other : Nat} (hkey : key < core.nodes.length)
    (hother : other < core.nodes.length) :
    ∃ verdict, core.extendsNode key other = .ok verdict ∧
      (verdict = true ↔ Reaches core.parentOf core.heightOf key other) :=
  h.extendsWithin_ok hkey hother hkey

theorem shouldVote_ok (h : Stored core) (hkey : key < core.nodes.length) :
    ∃ voting, core.shouldVote key = .ok voting ∧ (voting = true ↔ MayVote core key) := by
  obtain ⟨verdict, hverdict, hiff⟩ := h.extendsNode_ok hkey h.lock
  unfold shouldVote
  rw [node_ok hkey, ok_bind]
  by_cases hheight : (core.nodeAt key).height ≤ core.voteHeight
  · rw [if_pos hheight]
    refine ⟨false, rfl, ?_⟩
    simp only [Bool.false_eq_true, false_iff]
    exact fun hvote => absurd hvote.1 (not_lt.mpr hheight)
  · rw [if_neg hheight, hverdict, ok_bind]
    cases verdict with
    | true => exact ⟨true, rfl, by simp [MayVote, heightOf, not_le.mp hheight, ← hiff]⟩
    | false =>
        simp only [Bool.false_eq_true, if_false]
        rw [quorumCert_ok (h.justify key), ok_bind, node_ok (h.cert _), ok_bind, node_ok h.lock,
          ok_bind]
        refine ⟨_, rfl, ?_⟩
        simp [MayVote, heightOf, justifiedOf, not_le.mp hheight, ← hiff]

/-- A commit executes the nodes above the executed one, in order. -/
theorem onCommitWithin_ok (h : Stored core) {fuel : Nat} (hkey : key < core.nodes.length)
    (hfuel : key < fuel) :
    ∃ pool path, onCommitWithin fuel core key = .ok ({ core with pool }, path.map .finalize) ∧
      CommandPool.Keeps core.pool pool 0 ∧
      Lineage core.parentOf core.heightOf (core.heightOf core.blockExecute) key path := by
  induction fuel generalizing key with
  | zero => exact absurd hfuel (Nat.not_lt_zero key)
  | succ fuel ih =>
      unfold onCommitWithin
      rw [node_ok h.execute, ok_bind, node_ok hkey, ok_bind]
      by_cases hheight : (core.nodeAt core.blockExecute).height < (core.nodeAt key).height
      · rw [if_pos hheight]
        have hpos : 0 < key := h.pos_of_heightOf ((Nat.zero_le _).trans_lt hheight)
        have hlt := h.parent key hpos
        obtain ⟨pool, path, hcommit, hkeeps, hlineage⟩ := ih (hlt.trans hkey) (by omega)
        obtain ⟨log, hlog⟩ := h.pool
        obtain ⟨pool', hpool', hkeeps'⟩ :=
          CommandPool.Keeps.commit_all (hkeeps.issued log hlog) (core.nodeAt key).commands
        refine ⟨pool', path ++ [key], ?_, hkeeps.trans hkeeps', .step hheight hlineage⟩
        have hcommit' : onCommitWithin fuel core (core.nodeAt key).parent =
            .ok ({ core with pool }, path.map .finalize) := hcommit
        rw [hcommit', ok_bind]
        simp only [hpool', ok_bind, List.map_append, List.map_cons, List.map_nil]
      · rw [if_neg hheight]
        exact ⟨core.pool, [], rfl, .refl _, .stop (not_lt.mp hheight)⟩

theorem onCommit_ok (h : Stored core) (hkey : key < core.nodes.length) :
    ∃ pool path, core.onCommit key = .ok ({ core with pool }, path.map .finalize) ∧
      CommandPool.Keeps core.pool pool 0 ∧
      Lineage core.parentOf core.heightOf (core.heightOf core.blockExecute) key path :=
  h.onCommitWithin_ok hkey hkey

end Stored

end ReplicaCore

end Hotstuff

end BftKit
