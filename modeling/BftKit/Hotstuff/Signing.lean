import BftKit.Hotstuff.Discipline
import BftKit.Hotstuff.Group

/-! # What replicas sign

A replica signs the nodes it has voted for, in the order of the votes. The votes
that the code is careless about are those for a node that is not one higher than its
parent, or does not extend the node it justifies.
-/

namespace BftKit.Hotstuff

open Foundation Threshold

variable {scheme : ThresholdScheme}

namespace ReplicaCore

/-- A node is one higher than its parent and extends the node it justifies. -/
def WellJustified (core : ReplicaCore scheme) (key : Nat) : Prop :=
  core.heightOf key = core.heightOf (core.parentOf key) + 1 ∧
    core.extendsNode key (core.justifiedOf key) = .ok true

instance (core : ReplicaCore scheme) (key : Nat) : Decidable (core.WellJustified key) :=
  inferInstanceAs (Decidable (_ ∧ _))

/-- A node that has been signed under its digest, and is well justified. -/
structure Signs (core : ReplicaCore scheme) (digest : Digest) (key : Nat) : Prop where
  lt : key < core.nodes.length
  digest : core.digestOf key = digest
  height : core.heightOf key = core.heightOf (core.parentOf key) + 1
  extended : Ancestor core.parentOf (core.justifiedOf key) key
  lower : core.heightOf (core.justifiedOf key) < core.heightOf key

variable {core core' : ReplicaCore scheme} {digest : Digest} {key : Nat}

theorem Signs.grows (h : core.Signs digest key) (hgrows : Grows core core')
    (hstored : Stored core) : core'.Signs digest key where
  lt := hgrows.lt_length h.lt
  digest := (hgrows.digestOf h.lt).trans h.digest
  height := by
    rw [hgrows.heightOf h.lt, hgrows.parentOf h.lt,
      hgrows.heightOf ((hstored.parentOf_le key).trans_lt h.lt)]
    exact h.height
  extended := by
    rw [hgrows.justifiedOf hstored h.lt]
    exact hgrows.ancestor hstored h.extended h.lt
  lower := by
    rw [hgrows.justifiedOf hstored h.lt, hgrows.heightOf h.lt,
      hgrows.heightOf (hstored.justifiedOf_lt key)]
    exact h.lower

theorem Stored.signs (h : Stored core) (hkey : key < core.nodes.length) (hpos : 0 < key)
    (hjustified : core.WellJustified key) : core.Signs (core.digestOf key) key := by
  obtain ⟨hheight, hextends⟩ := hjustified
  obtain ⟨verdict, hverdict, hiff⟩ := h.extendsNode_ok hkey (h.justifiedOf_lt key)
  obtain rfl := Except.ok.inj (hverdict.symm.trans hextends)
  have hreaches := hiff.mp rfl
  exact ⟨hkey, rfl, hheight, hreaches.ancestor, hreaches.height_lt (h.justified key hpos).ne'⟩

end ReplicaCore

namespace Replica

variable {replica next : Replica scheme} {event : Event scheme}

/-- A node that a step signs is well justified. -/
def WellJustified (replica : Replica scheme) : Event scheme → Prop
  | .perform (.vote key) (some _) _ => replica.core.WellJustified key
  | .perform (.vote _) none _ | .perform (.propose _) _ _ | .perform (.finalize _) _ _
  | .call _ _ | .release _ _ => True

instance (replica : Replica scheme) (event : Event scheme) :
    Decidable (replica.WellJustified event) :=
  match event with
  | .perform (.vote key) (some _) _ => inferInstanceAs (Decidable (replica.core.WellJustified key))
  | .perform (.vote _) none _ | .perform (.propose _) _ _ | .perform (.finalize _) _ _
  | .call _ _ | .release _ _ => .isTrue trivial

theorem signed_concat (history : List (Event scheme)) (event : Event scheme) :
    signed (history ++ [event]) = signed history ++ event.signed?.toList := by
  unfold signed
  rw [List.filterMap_append]
  cases hsigned : event.signed? <;> simp [hsigned]

/-- Core actions are performed from the queue. -/
theorem Step.queued (h : Step replica event next) {action : ReplicaCoreAction}
    (hperformed : event.performed? = some action) : action ∈ replica.coreActions := by
  cases h with
  | call | release => cases hperformed
  | perform _ hqueue =>
      obtain rfl := Option.some.inj hperformed
      rw [hqueue]
      exact List.mem_cons_self

/-- Signed digests are those of nodes voted for by the same step. -/
theorem Effect.signed (h : Effect replica event next) :
    event.signed? = none ∨ ∃ key signed actions, event = .perform (.vote key) (some signed) actions ∧
      key < replica.core.nodes.length ∧ event.signed? = some (replica.core.digestOf key) := by
  cases h with
  | @perform key rest node signers next actions _ _ hnode =>
      obtain ⟨hlt, -⟩ := List.getElem?_eq_some_iff.mp hnode
      have hdigest : replica.core.digestOf key = node.digest := by
        rw [ReplicaCore.digestOf, ReplicaCore.nodeAt_eq hnode]
      cases hlisted : replica.listed signers with
      | none => exact .inl rfl
      | some publicCommitments => exact .inr ⟨key, _, actions, rfl, hlt, by rw [hdigest]; rfl⟩
  | init | tick | request | ignore | accept | park | vote | supply | defer | release | propose
  | finalize => exact .inl rfl

end Replica

variable {coreConfig : ReplicaCoreConfig} {cryptoConfig : CryptoConfig scheme}
  {history : List (Replica.Event scheme)} {replica : Replica scheme}

/-- What is signed is a part of what is voted for, in the same order. -/
theorem LocalRun.signed_sublist (hrun : LocalRun coreConfig cryptoConfig history replica) :
    (Replica.signed history).Sublist
      ((votes (Replica.performedIn history)).map replica.core.digestOf) := by
  induction hrun with
  | start => exact List.nil_sublist _
  | @step history replica event next hprev hstep ih =>
      have hdisciplined := LocalRun.disciplined hprev
      have hgrows := hstep.effect.grows hdisciplined.stored
      have hold : (votes (Replica.performedIn history)).map next.core.digestOf =
          (votes (Replica.performedIn history)).map replica.core.digestOf := by
        refine List.map_congr_left fun key hkey => hgrows.digestOf ?_
        exact (hdisciplined.voted key (by rw [votes_append]; exact List.mem_append_left _ hkey)).lt
      rw [Replica.signed_concat, Replica.performedIn_concat, votes_append, List.map_append, hold]
      refine ih.append ?_
      rcases hstep.effect.signed with hnone | ⟨key, signed, actions, rfl, hlt, hsome⟩
      · rw [hnone]
        exact List.nil_sublist _
      · rw [hsome, ← hgrows.digestOf hlt]
        exact List.Sublist.refl _

/-- With care, all signed nodes are well justified. -/
theorem GuardedRun.signs
    (hrun : GuardedRun Replica.WellJustified coreConfig cryptoConfig history replica) :
    ∀ digest ∈ Replica.signed history, ∃ key, replica.core.Signs digest key := by
  induction hrun with
  | start =>
      intro digest hdigest
      cases hdigest
  | @step history replica event next hprev hstep ih =>
      have hdisciplined := (GuardedRun.localRun hprev).disciplined
      have hgrows := hstep.1.effect.grows hdisciplined.stored
      intro digest hdigest
      rw [Replica.signed_concat] at hdigest
      rcases List.mem_append.mp hdigest with hold | hnew
      · obtain ⟨key, hsigns⟩ := ih digest hold
        exact ⟨key, hsigns.grows hgrows hdisciplined.stored⟩
      · rcases hstep.1.effect.signed with hnone | ⟨key, signed, actions, rfl, hlt, hsome⟩
        · rw [hnone] at hnew
          cases hnew
        · rw [hsome] at hnew
          obtain rfl := List.mem_singleton.mp hnew
          -- the vote is at the head of the queue
          have hqueued : key ∈ votes (Replica.performedIn history ++ replica.coreActions) := by
            rw [votes_append]
            refine List.mem_append_right _ ?_
            exact List.mem_filterMap.mpr ⟨_, hstep.1.queued rfl, rfl⟩
          have hpos := hdisciplined.stored.pos_of_heightOf
            (hdisciplined.voted key hqueued).height_pos
          exact ⟨key, (hdisciplined.stored.signs hlt hpos hstep.2).grows hgrows
            hdisciplined.stored⟩

end BftKit.Hotstuff
