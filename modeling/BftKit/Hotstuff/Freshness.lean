import BftKit.Hotstuff.Accounts
import BftKit.Hotstuff.Ballots

/-! # Fresh commitments

When all the commitments that are drawn differ, each is listed for one block at most,
and its nonce signs one digest at most.
-/

namespace BftKit.Hotstuff.Group

open Foundation Threshold

variable {scheme : ThresholdScheme}

/-- The commitments that the replicas have drawn are pairwise distinct. -/
def Fresh (group : Group scheme) (states : Nat → Replica scheme) : Prop :=
  ∀ who < group.spec.numReplica, ∀ who' < group.spec.numReplica,
    ∀ draw < (states who).numDraw, ∀ draw' < (states who').numDraw,
      (scheme.commit (group.keyShare who) draw).1 = (scheme.commit (group.keyShare who') draw').1 →
        who = who' ∧ draw = draw'

variable {group : Group scheme} {history : History scheme}
  {network next : Network Nat (Replica scheme) (ToReplica scheme)} {who : Nat}
  {publicCommitments : scheme.GivrePublicCommitments} {digest : Digest}

/-- What is fresh was fresh before. -/
theorem Fresh.prev (hfresh : group.Fresh next.states) (hrun : group.NetworkRun history network)
    {entry : Nat × Replica.Event scheme} (hstep : group.protocol.Step network entry next) :
    group.Fresh network.states := by
  have hle : ∀ who, (network.states who).numDraw ≤ (next.states who).numDraw := by
    intro who
    obtain ⟨hlocal, hothers⟩ := hstep.localStep
    by_cases heq : who = entry.1
    · subst heq
      have hstep : Replica.Step (network.states entry.1) entry.2 (next.states entry.1) := hlocal.2
      exact hstep.effect.numDraw_le (NetworkRun.localRun hrun entry.1).stored
    · rw [hothers who heq]
  intro who hwho who' hwho' draw hdraw draw' hdraw'
  exact hfresh who hwho who' hwho' draw (hdraw.trans_le (hle who)) draw' (hdraw'.trans_le (hle who'))

/-- Nobody but the replicas of a group takes steps. -/
theorem NetworkRun.outside (hrun : group.NetworkRun history network)
    (hwho : group.spec.numReplica ≤ who) : (network.states who).numDraw = 0 := by
  have hlocal := Protocol.NetworkRun.localRun hrun who
  have hview : view who history = [] := by
    rw [List.eq_nil_iff_forall_not_mem]
    intro event hevent
    obtain ⟨before, current, next, -, hstep, -⟩ := hlocal.of_mem hevent
    exact absurd hstep.1 (not_lt.mpr hwho)
  rw [hview] at hlocal
  generalize hnil : ([] : List (Replica.Event scheme)) = events at hlocal
  cases hlocal with
  | start hinit =>
      rw [hinit]
      rfl
  | step => simp at hnil

theorem NetworkRun.drawn_nodup (hrun : group.NetworkRun history network)
    (hfresh : group.Fresh network.states) (who : Nat) :
    (Replica.drawn (group.keyShare who) (network.states who).numDraw).Nodup := by
  rcases Nat.lt_or_ge who group.spec.numReplica with hlt | hge
  · refine List.nodup_range.map_on ?_
    intro draw hdraw draw' hdraw' heq
    exact (hfresh who hlt who hlt draw (List.mem_range.mp hdraw) draw' (List.mem_range.mp hdraw')
      heq).2
  · rw [NetworkRun.outside hrun hge]
    exact List.nodup_nil

theorem NetworkRun.listed_drawn (hrun : group.NetworkRun history network)
    (hlisted : (who, publicCommitments) ∈ Replica.listedIn (view 0 history)) :
    who < group.spec.numReplica ∧ publicCommitments ∈
      Replica.drawn (group.keyShare who) (network.states who).numDraw := by
  have hcount := NetworkRun.count_listed hrun who publicCommitments
  have hdrawn := List.count_pos_iff.mp ((List.count_pos_iff.mpr hlisted).trans_le hcount)
  refine ⟨?_, hdrawn⟩
  by_contra hge
  rw [NetworkRun.outside hrun (not_lt.mp hge)] at hdrawn
  cases hdrawn

/-- No commitment has two owners. -/
theorem Fresh.owner (hfresh : group.Fresh network.states) {who' : Nat}
    (hwho : who < group.spec.numReplica) (hwho' : who' < group.spec.numReplica)
    (hdrawn : publicCommitments ∈ Replica.drawn (group.keyShare who) (network.states who).numDraw)
    (hdrawn' : publicCommitments ∈
      Replica.drawn (group.keyShare who') (network.states who').numDraw) : who = who' := by
  obtain ⟨draw, hdraw, hcommit⟩ := Replica.mem_drawn.mp hdrawn
  obtain ⟨draw', hdraw', hcommit'⟩ := Replica.mem_drawn.mp hdrawn'
  exact (hfresh who hwho who' hwho' draw hdraw draw' hdraw' (hcommit.trans hcommit'.symm)).1

/-- Every commitment is listed once. -/
theorem NetworkRun.listed_nodup (hrun : group.NetworkRun history network)
    (hfresh : group.Fresh network.states) :
    ((Replica.listedIn (view 0 history)).map Prod.snd).Nodup := by
  refine List.Nodup.map_on ?_ ?_
  · rintro ⟨who, publicCommitments⟩ hlisted ⟨who', _⟩ hlisted' rfl
    obtain ⟨hwho, hdrawn⟩ := NetworkRun.listed_drawn hrun hlisted
    obtain ⟨hwho', hdrawn'⟩ := NetworkRun.listed_drawn hrun hlisted'
    rw [hfresh.owner hwho hwho' hdrawn hdrawn']
  · rw [List.nodup_iff_count_le_one]
    rintro ⟨who, publicCommitments⟩
    refine (NetworkRun.count_listed hrun who publicCommitments).trans ?_
    exact List.nodup_iff_count_le_one.mp (NetworkRun.drawn_nodup hrun hfresh who) _

/-- Blocks that list the same commitment are the same. -/
theorem NetworkRun.listed_unique (hrun : group.NetworkRun history network)
    (hfresh : group.Fresh network.states)
    {entry entry' : Message.Generic scheme × Message.Block scheme}
    (hentry : entry ∈ Replica.generics (view 0 history))
    (hentry' : entry' ∈ Replica.generics (view 0 history))
    (hsigner : (who, publicCommitments) ∈ entry.1.signers)
    (hsigner' : (who, publicCommitments) ∈ entry'.1.signers) : entry = entry' := by
  have hnodup := List.Nodup.of_map _ (NetworkRun.listed_nodup hrun hfresh)
  have hdisjoint := (List.nodup_flatMap.mp hnodup).2
  by_contra hne
  have hsymm : Std.Symm (fun entry entry' : Message.Generic scheme × Message.Block scheme =>
      List.Disjoint entry.1.signers entry'.1.signers) := ⟨fun _ _ h => h.symm⟩
  exact (hdisjoint.forall hentry hentry' hne) hsigner hsigner'

/-- What a replica knows of has been sent by the leader. -/
theorem NetworkRun.known_subset (hrun : group.NetworkRun history network) (who : Nat) :
    Replica.known (view who history) ⊆ Replica.generics (view 0 history) := by
  intro entry hentry
  rcases List.mem_append.mp hentry with hreceived | hsent
  · exact (NetworkRun.received hrun hreceived).2
  · by_cases hleader : who = 0
    · subst hleader
      exact hsent
    · rw [(NetworkRun.localRun hrun who).generics_nil hleader] at hsent
      cases hsent

/-- A spent nonce belongs to a block that lists its commitment. -/
theorem NetworkRun.spent_source (hrun : group.NetworkRun history network)
    (hspent : (publicCommitments, digest) ∈ Replica.spentIn (view who history)) :
    ∃ entry ∈ Replica.generics (view 0 history),
      entry.1.block = digest ∧ (who, publicCommitments) ∈ entry.1.signers := by
  obtain ⟨entry, hentry, hsource⟩ := (NetworkRun.localRun hrun who).spent_source hspent
  exact ⟨entry, NetworkRun.known_subset hrun who hentry, hsource⟩

/-- Every nonce is spent once. -/
theorem NetworkRun.spent_nodup (hrun : group.NetworkRun history network)
    (hfresh : group.Fresh network.states) :
    (history.filterMap fun entry => entry.2.spent?.map Prod.fst).Nodup := by
  refine @nodup_filterMap_view _ _ _ _ history
    (fun event : Replica.Event scheme => event.spent?.map Prod.fst) ?_ ?_
  · intro who
    have hspends := (NetworkRun.localRun hrun who).spends (NetworkRun.drawn_nodup hrun hfresh who)
    have honce := hspends.once
    rwa [Replica.spentIn, List.map_filterMap] at honce
  · intro who event who' event' found hevent hevent' hfound hfound'
    have hdrawn : ∀ {who : Nat} {event : Replica.Event scheme}, (who, event) ∈ history →
        event.spent?.map Prod.fst = some found → who < group.spec.numReplica ∧
          found ∈ Replica.drawn (group.keyShare who) (network.states who).numDraw := by
      intro who event hevent hfound
      obtain ⟨⟨_, digest⟩, hspent, rfl⟩ := Option.map_eq_some_iff.mp hfound
      have hmem := List.mem_filterMap.mpr ⟨event, mem_view.mpr hevent, hspent⟩
      obtain ⟨entry, hentry, -, hsigner⟩ := NetworkRun.spent_source hrun hmem
      exact NetworkRun.listed_drawn hrun (List.mem_flatMap.mpr ⟨entry, hentry, hsigner⟩)
    obtain ⟨hwho, howned⟩ := hdrawn hevent hfound
    obtain ⟨hwho', howned'⟩ := hdrawn hevent' hfound'
    exact hfresh.owner hwho hwho' howned howned'

end BftKit.Hotstuff.Group
