import BftKit.Foundation.Quorum
import BftKit.Foundation.ThreeChain
import BftKit.Hotstuff.Replay
import BftKit.Hotstuff.Signing
import BftKit.Hotstuff.Vetting

/-! # Safety

The digests of the nodes that honest replicas store form one tree. With care about
the nodes that are signed, the signers keep to the three-chain rules there, and what
is finalized anywhere is comparable. Without it two forks are finalized.
-/

namespace BftKit.Hotstuff

open Foundation Threshold

variable {scheme : ThresholdScheme}

namespace Group

/-- A quorum has voted for a node: those members that are honest have signed it. -/
def Certified (group : Group scheme) (history : History scheme) (digest : Digest) : Prop :=
  ∃ voters ⊆ Finset.range group.spec.numReplica,
    group.spec.numReplica - group.spec.numFaulty ≤ voters.card ∧
      ∀ id ∈ voters, group.Honest id → digest ∈ Replica.signed (view id history)

/-- A certificate of an honest replica verifies only if a quorum has voted. -/
def Ideal (group : Group scheme) (history : History scheme) (states : Nat → Replica scheme) :
    Prop :=
  ∀ who, group.Honest who → ∀ cert < (states who).core.quorumCerts.length,
    (group.cryptoConfig who).Verifies
      ⟨(states who).core.digestOf ((states who).core.certAt cert).node,
        ((states who).core.certAt cert).sig⟩ →
    group.Certified history ((states who).core.digestOf ((states who).core.certAt cert).node)

/-- Blocks that honest replicas receive or send differ in digest if they differ. -/
def CollisionFree (group : Group scheme) (history : History scheme) : Prop :=
  ∀ who, group.Honest who → ∀ who', group.Honest who' →
    ∀ block ∈ Replica.shown (view who history), ∀ block' ∈ Replica.shown (view who' history),
      scheme.digest block = scheme.digest block' → block.SameHashed block'

/-- A node of one store has an ancestor that another store has under a key. -/
def Extends (core core' : ReplicaCore scheme) (key key' : Nat) : Prop :=
  ∃ ancestor, Ancestor core'.parentOf ancestor key' ∧ core'.digestOf ancestor = core.digestOf key

/-- Of two nodes that honest replicas finalize, one is an ancestor of the other. -/
def Safe (group : Group scheme) (history : History scheme) (states : Nat → Replica scheme) : Prop :=
  ∀ who, group.Honest who → ∀ who', group.Honest who' →
    ∀ key ∈ finalizations (Replica.performedIn (view who history)),
    ∀ key' ∈ finalizations (Replica.performedIn (view who' history)),
      Extends (states who).core (states who').core key key' ∨
        Extends (states who').core (states who).core key' key

/-- A node in the store of an honest replica. -/
structure Place (group : Group scheme) (states : Nat → Replica scheme) where
  who : Nat
  key : Nat
  honest : group.Honest who
  lt : key < (states who).core.nodes.length

variable {group : Group scheme} {history : History scheme} {states : Nat → Replica scheme}

namespace Place

variable (place : Place group states)

def core : ReplicaCore scheme := (states place.who).core

def digest : Digest := place.core.digestOf place.key

def parent : Digest := place.core.digestOf (place.core.parentOf place.key)

def justified : Digest := place.core.digestOf (place.core.justifiedOf place.key)

def height : Nat := place.core.heightOf place.key

end Place

/-- The tree of the digests that honest replicas store. -/
noncomputable def tree (group : Group scheme) (history : History scheme)
    (states : Nat → Replica scheme) : JustifiedTree Digest where
  parent := Function.extend (@Place.digest _ group states) Place.parent id
  justify := Function.extend (@Place.digest _ group states) Place.justified id
  height := Function.extend (@Place.digest _ group states) Place.height 0
  Certified digest := digest = .zero ∨ group.Certified history digest

/-- The stores of honest replicas are well formed, and nodes of one digest agree on
their links and heights. -/
structure Coherent (group : Group scheme) (states : Nat → Replica scheme) : Prop where
  stored : ∀ who, group.Honest who → (states who).core.Stored
  congr : ∀ place place' : Place group states, place.digest = place'.digest →
    place.parent = place'.parent ∧ place.justified = place'.justified ∧
      place.height = place'.height

theorem GroupRun.coherent (hrun : GroupRun group history states) (hsound : AggregateSound scheme)
    (hcollision : group.CollisionFree history) : group.Coherent states := by
  have hstored := fun who (hhonest : group.Honest who) => (hrun.localRun hhonest).stored
  have hvetted := fun who (hhonest : group.Honest who) => (hrun.localRun hhonest).vetted hsound
  refine ⟨hstored, ?_⟩
  rintro ⟨who, key, hhonest, hlt⟩ ⟨who', key', hhonest', hlt'⟩ heq
  have h := hstored who hhonest
  have h' := hstored who' hhonest'
  simp only [Place.digest, Place.parent, Place.justified, Place.height, Place.core] at heq ⊢
  rcases Nat.eq_zero_or_pos key with rfl | hpos
  · obtain rfl : key' = 0 := by
      rw [h.digestOf_zero, ← h'.digestOf_zero] at heq
      exact h'.key_unique hlt' h'.nodes_pos heq.symm
    simp only [h.parentOf_zero, h'.parentOf_zero, h.justifiedOf_zero, h'.justifiedOf_zero,
      h.digestOf_zero, h'.digestOf_zero, h.heightOf_zero, h'.heightOf_zero, and_self]
  · have hpos' : 0 < key' := by
      refine Nat.pos_of_ne_zero ?_
      rintro rfl
      rw [h'.digestOf_zero, ← h.digestOf_zero] at heq
      exact hpos.ne' (h.key_unique hlt h.nodes_pos heq)
    obtain ⟨block, hblock, hrepresents⟩ := (hvetted who hhonest).core.nodes key hpos hlt
    obtain ⟨block', hblock', hrepresents'⟩ := (hvetted who' hhonest').core.nodes key' hpos' hlt'
    rw [hrepresents.digest, hrepresents'.digest] at heq
    obtain ⟨hparent, -, hjustify, hheight⟩ :=
      hcollision who hhonest who' hhonest' block hblock block' hblock' heq
    rw [hrepresents.parent, hrepresents'.parent, hrepresents.justified, hrepresents'.justified,
      hrepresents.height, hrepresents'.height]
    exact ⟨hparent.symm, hjustify.symm, hheight.symm⟩

/-- What a certificate of an honest replica is about has the votes of a quorum. -/
theorem GroupRun.certified (hrun : GroupRun group history states) (hsound : AggregateSound scheme)
    (hideal : group.Ideal history states) {who key : Nat} (hhonest : group.Honest who)
    (hheld : (states who).core.Held key) :
    (group.tree history states).Certified ((states who).core.digestOf key) := by
  obtain ⟨cert, hlt, rfl⟩ := hheld
  have hlocal := hrun.localRun hhonest
  rcases (hlocal.vetted hsound).core.certs cert hlt with hzero | hverifies
  · rw [hzero, hlocal.stored.digestOf_zero]
    exact .inl rfl
  · rw [hlocal.cryptoConfig_eq] at hverifies
    exact .inr (hideal who hhonest cert hlt hverifies)

namespace Coherent

variable (h : group.Coherent states) {who key : Nat} (hhonest : group.Honest who)
  (hkey : key < (states who).core.nodes.length)

include h hhonest

section

include hkey

theorem parent : (group.tree history states).parent ((states who).core.digestOf key) =
    (states who).core.digestOf ((states who).core.parentOf key) :=
  Function.FactorsThrough.extend_apply (fun _ _ heq => (h.congr _ _ heq).1) id
    (⟨who, key, hhonest, hkey⟩ : Place group states)

theorem justify : (group.tree history states).justify ((states who).core.digestOf key) =
    (states who).core.digestOf ((states who).core.justifiedOf key) :=
  Function.FactorsThrough.extend_apply (fun _ _ heq => (h.congr _ _ heq).2.1) id
    (⟨who, key, hhonest, hkey⟩ : Place group states)

theorem height : (group.tree history states).height ((states who).core.digestOf key) =
    (states who).core.heightOf key :=
  Function.FactorsThrough.extend_apply (fun _ _ heq => (h.congr _ _ heq).2.2) 0
    (⟨who, key, hhonest, hkey⟩ : Place group states)

theorem block2 :
    (group.tree history states).justify
        ((group.tree history states).justify ((states who).core.digestOf key)) =
      (states who).core.digestOf ((states who).core.block2 key) := by
  rw [h.justify hhonest hkey, h.justify hhonest ((h.stored who hhonest).justifiedOf_lt key)]
  rfl

theorem ancestor {ancestor : Nat} (hancestor : Ancestor (states who).core.parentOf ancestor key) :
    Ancestor (group.tree history states).parent ((states who).core.digestOf ancestor)
      ((states who).core.digestOf key) := by
  refine Ancestor.map (P := (· < (states who).core.nodes.length)) ?_ ?_ hancestor hkey
  · exact fun node hnode => ((h.stored who hhonest).parentOf_le node).trans_lt hnode
  · exact fun node hnode => h.parent hhonest hnode

end

theorem zero : (group.tree history states).height .zero = 0 ∧
    (group.tree history states).justify .zero = .zero := by
  have hstored := h.stored who hhonest
  have hheight : (group.tree history states).height _ = _ := h.height hhonest hstored.nodes_pos
  have hjustify : (group.tree history states).justify _ = _ := h.justify hhonest hstored.nodes_pos
  rw [hstored.digestOf_zero] at hheight hjustify
  rw [hheight, hjustify, hstored.justifiedOf_zero, hstored.digestOf_zero, hstored.heightOf_zero]
  exact ⟨rfl, rfl⟩

/-- A replica that finalizes a node finds a commit above it. -/
theorem commits {top : Nat} (hcommitted : (states who).core.Committed top key)
    (hcertified : (group.tree history states).Certified ((states who).core.digestOf top)) :
    (group.tree history states).Commits ((states who).core.digestOf top)
        ((states who).core.digestOf ((states who).core.block2 top)) ∧
      0 < (group.tree history states).height
        ((states who).core.digestOf ((states who).core.block2 top)) ∧
      Ancestor (group.tree history states).parent ((states who).core.digestOf key)
        ((states who).core.digestOf ((states who).core.block2 top)) := by
  have hstored := h.stored who hhonest
  have htop := hstored.held_lt hcommitted.held
  have hblock2 := hstored.block2_lt top
  refine ⟨⟨hcertified, ?_, ?_, ?_⟩, ?_, ?_⟩
  · rw [h.justify hhonest htop, h.parent hhonest htop, hcommitted.parent1]
  · rw [h.block2 hhonest htop, h.justify hhonest htop,
      h.parent hhonest (hstored.justifiedOf_lt top), hcommitted.parent2]
  · exact (h.block2 hhonest htop).symm
  · rw [h.height hhonest hblock2]
    exact hcommitted.height
  · exact h.ancestor hhonest hblock2 hcommitted.ancestor

end Coherent

section

variable (hrun : GuardedGroupRun Replica.WellJustified group history states)
  (hsound : AggregateSound scheme) (hcoherent : group.Coherent states)
  (hideal : group.Ideal history states)

include hrun hsound hcoherent hideal

/-- Signers keep to the lock that their earlier votes imply. -/
theorem tree_follows {who : Nat} (hhonest : group.Honest who) :
    (Replica.signed (view who history)).Pairwise (group.tree history states).Follows := by
  have hlocal := hrun.groupRun.localRun hhonest
  have hdisciplined := hlocal.disciplined
  have hstored := hdisciplined.stored
  refine List.Pairwise.sublist hlocal.signed_sublist (List.pairwise_map.mpr ?_)
  have hfollows := hdisciplined.follows
  rw [votes_append] at hfollows
  refine (List.pairwise_append.mp hfollows).1.imp_of_mem ?_
  have hvoted : ∀ key ∈ votes (Replica.performedIn (view who history)),
      key < (states who).core.nodes.length := by
    intro key hkey
    refine (hdisciplined.voted key ?_).lt
    rw [votes_append]
    exact List.mem_append_left _ hkey
  intro earlier later hearlier hlater hfollow
  obtain ⟨hheight, lock, hheld, hlock_le, hlock⟩ := hfollow
  have hearlier_lt := hvoted earlier hearlier
  have hlater_lt := hvoted later hlater
  have hlock_lt := hstored.held_lt hheld
  refine ⟨?_, (states who).core.digestOf lock,
    hrun.groupRun.certified hsound hideal hhonest hheld, ?_, ?_⟩
  · rwa [hcoherent.height hhonest hearlier_lt, hcoherent.height hhonest hlater_lt]
  · rwa [hcoherent.block2 hhonest hearlier_lt,
      hcoherent.height hhonest (hstored.block2_lt earlier), hcoherent.height hhonest hlock_lt]
  · rw [hcoherent.height hhonest hlock_lt, hcoherent.height hhonest hlater_lt,
      hcoherent.justify hhonest hlater_lt,
      hcoherent.height hhonest (hstored.justifiedOf_lt later)]
    exact hlock.imp_left fun hextends =>
      ⟨hcoherent.ancestor hhonest hlater_lt hextends.1, hextends.2⟩

/-- Signers sign children of their parents that extend what they justify. -/
theorem tree_valid {who : Nat} (hhonest : group.Honest who) {digest : Digest}
    (hsigned : digest ∈ Replica.signed (view who history)) :
    (group.tree history states).Valid digest := by
  have hstored := hcoherent.stored who hhonest
  obtain ⟨key, hkey, rfl, hheight, hextended, hlower⟩ := (hrun.localRun hhonest).signs digest hsigned
  have hjustify : (group.tree history states).justify _ = _ := hcoherent.justify hhonest hkey
  have hparent_lt := (hstored.parentOf_le key).trans_lt hkey
  constructor
  · rw [hcoherent.parent hhonest hkey, hcoherent.height hhonest hkey,
      hcoherent.height hhonest hparent_lt, hheight]
  · rw [hjustify]
    exact hrun.groupRun.certified hsound hideal hhonest (hstored.held_justified key)
  · rw [hjustify]
    exact hcoherent.ancestor hhonest hkey hextended
  · rw [hjustify, hcoherent.height hhonest hkey,
      hcoherent.height hhonest (hstored.justifiedOf_lt key)]
    exact hlower

theorem tree_disciplined (hreplicas : 3 * group.spec.numFaulty < group.spec.numReplica)
    (hfaulty : group.faulty.card ≤ group.spec.numFaulty) {who : Nat} (hhonest : group.Honest who) :
    (group.tree history states).Disciplined fun voter : { id // group.Honest id } =>
      Replica.signed (view voter.1 history) := by
  have hzero : (group.tree history states).height .zero = 0 ∧ _ := hcoherent.zero hhonest
  have hquorum : ∀ digest, (group.tree history states).Certified digest →
      0 < (group.tree history states).height digest → group.Certified history digest := by
    intro digest hcertified hpos
    rcases hcertified with rfl | hquorum
    · rw [hzero.1] at hpos
      exact absurd hpos (lt_irrefl 0)
    · exact hquorum
  have hshared : ∀ digest digest', group.Certified history digest →
      group.Certified history digest' → ∃ voter : { id // group.Honest id },
        digest ∈ Replica.signed (view voter.1 history) ∧
          digest' ∈ Replica.signed (view voter.1 history) := by
    rintro digest digest' ⟨left, hleft, hleft_card, hleft_signed⟩
      ⟨right, hright, hright_card, hright_signed⟩
    obtain ⟨voter, hmem, hmem', hvoter⟩ := exists_common_voter hleft hright
      (show (Finset.range group.spec.numReplica).card + group.faulty.card < _ by
        rw [Finset.card_range]; omega)
    have hvoter_honest : group.Honest voter := ⟨Finset.mem_range.mp (hleft hmem), hvoter⟩
    exact ⟨⟨voter, hvoter_honest⟩, hleft_signed voter hmem hvoter_honest,
      hright_signed voter hmem' hvoter_honest⟩
  constructor
  · exact fun voter => tree_follows hrun hsound hcoherent hideal voter.2
  · exact fun voter digest hsigned => tree_valid hrun hsound hcoherent hideal voter.2 hsigned
  · exact fun digest digest' hcertified hcertified' hpos hpos' =>
      hshared digest digest' (hquorum digest hcertified hpos) (hquorum digest' hcertified' hpos')
  · rintro digest (rfl | hcertified) hheight
    · exact hzero.2
    · -- nobody signs a node of height zero
      obtain ⟨voter, hsigned, -⟩ := hshared digest digest hcertified hcertified
      have hvalid := tree_valid hrun hsound hcoherent hideal voter.2 hsigned
      exact absurd (hheight ▸ hvalid.lower) (Nat.not_lt_zero _)

end

/-- In every run in which all signed nodes are well justified, finalized nodes are
comparable. Whether a node is can be told before it is signed, but the code does not ask.
Fewer than a third of the replicas are faulty, and delivery is arbitrary. The aggregate scheme
is sound and ideal, and no two nodes of the run have one digest. -/
theorem safety (hrun : GuardedGroupRun Replica.WellJustified group history states)
    (hreplicas : 3 * group.spec.numFaulty < group.spec.numReplica)
    (hfaulty : group.faulty.card ≤ group.spec.numFaulty) (hsound : AggregateSound scheme)
    (hcollision : group.CollisionFree history) (hideal : group.Ideal history states) :
    group.Safe history states := by
  intro who hhonest who' hhonest' key hkey key' hkey'
  have hgroup := hrun.groupRun
  have hcoherent := hgroup.coherent hsound hcollision
  have htree := tree_disciplined hrun hsound hcoherent hideal hreplicas hfaulty hhonest
  have hcommitted : ∀ {who key}, group.Honest who →
      key ∈ finalizations (Replica.performedIn (view who history)) →
      ∃ top, (states who).core.Committed top key := by
    intro who key hhonest hkey
    refine (hgroup.localRun hhonest).disciplined.committed key ?_
    rw [finalizations_append]
    exact List.mem_append_left _ hkey
  have hextends : ∀ {who who' key key' top}, group.Honest who' →
      (states who').core.Committed top key' →
      Ancestor (group.tree history states).parent ((states who).core.digestOf key)
        ((states who').core.digestOf key') →
      Extends (states who).core (states who').core key key' := by
    intro who who' key key' top hhonest' hcommitted hancestor
    have hstored := hcoherent.stored who' hhonest'
    have hlt := (hstored.ancestor_le hcommitted.ancestor).trans_lt (hstored.block2_lt top)
    refine Ancestor.exists_of_map (P := (· < (states who').core.nodes.length)) ?_ ?_ hancestor hlt
    · exact fun node hnode => (hstored.parentOf_le node).trans_lt hnode
    · exact fun node hnode => hcoherent.parent hhonest' hnode
  obtain ⟨top, htop⟩ := hcommitted hhonest hkey
  obtain ⟨top', htop'⟩ := hcommitted hhonest' hkey'
  obtain ⟨hcommits, hpos, hancestor⟩ :=
    hcoherent.commits hhonest htop (hgroup.certified hsound hideal hhonest htop.held)
  obtain ⟨hcommits', hpos', hancestor'⟩ :=
    hcoherent.commits hhonest' htop' (hgroup.certified hsound hideal hhonest' htop'.held)
  rcases htree.comparable hcommits hcommits' hpos hpos' hancestor hancestor' with hfirst | hsecond
  · exact .inl (hextends hhonest' htop' hfirst)
  · exact .inr (hextends hhonest htop hsecond)

/-! ## Two runs of four replicas -/

theorem transparent_aggregateSound : AggregateSound .transparent := by
  intro keyShare signers digest sig haggregate
  unfold ThresholdScheme.transparent at haggregate
  dsimp only at haggregate
  split at haggregate
  next hshares =>
    obtain rfl := Option.some.inj haggregate
    have hcount : keyShare.2 ≤ (signers.map Prod.fst).length := by
      rw [List.length_map]
      exact hshares.1.1
    unfold ThresholdScheme.transparent
    simp only [beq_self_eq_true, Bool.true_and, decide_eq_true_eq]
    exact ⟨hcount, hshares.1.2⟩
  next => cases haggregate

/-- The first two backups of the four have signed what is certified. -/
def Endorsed (history : History .transparent) (states : Nat → Replica .transparent) : Prop :=
  ∀ who < 4, ∀ cert < (states who).core.quorumCerts.length,
    ((four {0}).cryptoConfig who).Verifies
      ⟨(states who).core.digestOf ((states who).core.certAt cert).node,
        ((states who).core.certAt cert).sig⟩ →
    ∀ id ∈ [1, 2], (states who).core.digestOf ((states who).core.certAt cert).node ∈
      Replica.signed (view id history)

instance (history : History .transparent) (states : Nat → Replica .transparent) :
    Decidable (Endorsed history states) := by
  unfold Endorsed
  infer_instance

theorem Endorsed.ideal {history : History .transparent} {states : Nat → Replica .transparent}
    (h : Endorsed history states) : (four {0}).Ideal history states := by
  intro who hhonest cert hlt hverifies
  refine ⟨{0, 1, 2}, by decide, by decide, ?_⟩
  intro id hid hhonest'
  refine h who hhonest.1 cert hlt hverifies id ?_
  have hne : id ≠ 0 := fun hzero => hhonest'.2 (by simp [hzero, four])
  simp only [Finset.mem_insert, Finset.mem_singleton] at hid
  simp only [List.mem_cons, List.not_mem_nil, or_false]
  omega

/-- None of the four has seen a collision. -/
def Distinct (history : History .transparent) : Prop :=
  ∀ who < 4, ∀ who' < 4, ∀ block ∈ Replica.shown (view who history),
    ∀ block' ∈ Replica.shown (view who' history),
      fourDigest block = fourDigest block' → block.SameHashed block'

instance (history : History .transparent) : Decidable (Distinct history) := by
  unfold Distinct
  infer_instance

theorem Distinct.collisionFree {history : History .transparent} (h : Distinct history) :
    (four {0}).CollisionFree history :=
  fun who hhonest who' hhonest' block hblock block' hblock' heq =>
    h who hhonest.1 who' hhonest'.1 block hblock block' hblock' heq

/-- Four blocks in a row, which two backups sign and whose first one they finalize. -/
theorem safety_row :
    ∃ (history : History .transparent) (states : Nat → Replica .transparent),
      GroupRun (four {0}) history states ∧
      finalizations (Replica.performedIn (view 1 history)) = [1] ∧
      finalizations (Replica.performedIn (view 2 history)) = [1] ∧
      (four {0}).Safe history states := by
  have hreplay : ∃ run ∈ replay Replica.WellJustified (four {0}) (fourPair (fourChain 3 fourFirst)),
      (finalizations (Replica.performedIn (view 1 run.1)) = [1] ∧
        finalizations (Replica.performedIn (view 2 run.1)) = [1]) ∧
      Endorsed run.1 run.2 ∧ Distinct run.1 := by
    decide +kernel
  obtain ⟨⟨history, states⟩, hrun, hfinalized, hendorsed, hdistinct⟩ := hreplay
  have hguarded := replay_run hrun
  exact ⟨history, states, hguarded.groupRun, hfinalized.1, hfinalized.2,
    safety hguarded (by decide) (by decide) transparent_aggregateSound hdistinct.collisionFree
      hendorsed.ideal⟩

/-- A block on top of genesis that justifies the third block, and claims to be higher. -/
def fourFork : Message.Block .transparent :=
  { fourChild (fourChild (fourChild fourFirst []) []) [ping 1] with parent := .zero }

/-- Its justification is higher than the locks of the backups, so they vote for it
and for what is built on it, and finalize the first block and the fork. -/
theorem safety_fails :
    ∃ (history : History .transparent) (states : Nat → Replica .transparent),
      GroupRun (four {0}) history states ∧ 3 * (four {0}).spec.numFaulty < (four {0}).spec.numReplica ∧
      (four {0}).faulty.card ≤ (four {0}).spec.numFaulty ∧ AggregateSound .transparent ∧
      (four {0}).CollisionFree history ∧ (four {0}).Ideal history states ∧
      ¬(four {0}).Safe history states := by
  have hreplay : ∃ run ∈ replay (fun _ _ => True) (four {0})
      (fourPair (fourChain 2 fourFirst ++ fourChain 3 fourFork)),
      (finalizations (Replica.performedIn (view 1 run.1)) = [1, 4] ∧
        (run.2 1).core.parentOf 1 = 0 ∧ (run.2 1).core.parentOf 4 = 0 ∧
        (run.2 1).core.parentOf 0 = 0 ∧
        [0, 1, 4].Pairwise fun key key' =>
          (run.2 1).core.digestOf key ≠ (run.2 1).core.digestOf key') ∧
      Endorsed run.1 run.2 ∧ Distinct run.1 := by
    decide +kernel
  obtain ⟨⟨history, states⟩, hrun, ⟨hfinalized, hone, hfour, hzero, hdigests⟩, hendorsed,
    hdistinct⟩ := hreplay
  dsimp only at hfinalized hone hfour hzero hdigests
  have hroot : ∀ {ancestor key}, (states 1).core.parentOf key = 0 →
      Ancestor (states 1).core.parentOf ancestor key → ancestor = key ∨ ancestor = 0 := by
    intro ancestor key hparent hancestor
    refine Ancestor.inherit (P := fun node => node = key ∨ node = 0) ?_ hancestor (.inl rfl)
    rintro node (rfl | rfl)
    · exact .inr hparent
    · exact .inr hzero
  simp only [List.pairwise_cons, List.mem_cons, List.not_mem_nil, or_false, forall_eq_or_imp,
    forall_eq] at hdigests
  refine ⟨history, states, (replay_run hrun).groupRun, by decide, by decide,
    transparent_aggregateSound, hdistinct.collisionFree, hendorsed.ideal, fun hsafe => ?_⟩
  have hhonest : (four {0}).Honest 1 := by decide
  rcases hsafe 1 hhonest 1 hhonest 1 (by simp [hfinalized]) 4 (by simp [hfinalized]) with
    ⟨ancestor, hancestor, hdigest⟩ | ⟨ancestor, hancestor, hdigest⟩
  · rcases hroot hfour hancestor with rfl | rfl
    · exact hdigests.2.1 hdigest.symm
    · exact hdigests.1.1 hdigest
  · rcases hroot hone hancestor with rfl | rfl
    · exact hdigests.2.1 hdigest
    · exact hdigests.1.2 hdigest

end Group

end BftKit.Hotstuff
