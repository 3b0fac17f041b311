import BftKit.Hotstuff.Replay
import BftKit.Hotstuff.Signing

/-! # Voting over a run

The digests a replica signs are those of nodes of rising heights, whichever way the blocks
have come to it, and neither its lock nor its highest certificate goes down again.
-/

namespace BftKit.Hotstuff

open Foundation Threshold

variable {scheme : ThresholdScheme}

namespace ReplicaCore

variable {core core' core'' : ReplicaCore scheme}

/-- The lock and the highest certificate have not gone down. -/
structure Risen (core core' : ReplicaCore scheme) : Prop where
  lock : core.heightOf core.blockLock ≤ core'.heightOf core'.blockLock
  high : core.heightOf core.highNode ≤ core'.heightOf core'.highNode

theorem Risen.refl (core : ReplicaCore scheme) : Risen core core := ⟨le_rfl, le_rfl⟩

theorem Risen.trans (h : Risen core core') (h' : Risen core' core'') : Risen core core'' :=
  ⟨h.lock.trans h'.lock, h.high.trans h'.high⟩

/-- A store that only grows keeps the registers where they are. -/
theorem Stored.risen_of_grows (h : Stored core) (hgrows : Grows core core')
    (hlock : core'.blockLock = core.blockLock)
    (hhigh : core'.quorumCertHigh = core.quorumCertHigh) : Risen core core' := by
  constructor
  · rw [hlock, hgrows.heightOf h.lock]
  · rw [highNode, highNode, hhigh, hgrows.certAt h.high, hgrows.heightOf (h.cert _)]

/-- The highest certificate is replaced by a higher one only. -/
theorem raised_risen (core : ReplicaCore scheme) (cert : Nat) : Risen core (core.raised cert) := by
  have hsame := raised_sameStore core cert
  constructor
  · rw [hsame.heightOf]
    unfold raised
    split <;> rfl
  · rw [hsame.heightOf]
    unfold raised
    split
    next hlt => exact hlt.le
    next => rfl

theorem Updated.risen {block0 : Nat} {path : List Nat} (h : Updated core block0 core' path) :
    Risen core core' := by
  constructor
  · rw [h.sameStore.heightOf]
    exact h.relocked.old
  · have hhigh : core'.highNode = (core.raised (core.nodeAt block0).justify).highNode := by
      rw [h.rest]
      change (core.advanced block0).highNode = _
      unfold advanced ReplicaCore.relocked
      split <;> rfl
    have hraised := (raised_risen core (core.nodeAt block0).justify).high
    rw [(raised_sameStore _ _).heightOf] at hraised
    rw [h.sameStore.heightOf, hhigh]
    exact hraised

/-- No event lowers the registers. -/
theorem Stored.handle_risen (h : Stored core) {event : ReplicaCoreEvent scheme}
    {actions : ReplicaCoreActions} (hhandle : core.handle event = .ok (core', actions)) :
    Risen core core' := by
  obtain ⟨middle, reactions, beats, hreacted, hbeat, -⟩ := h.handle_ok hhandle
  have hbeats : Risen middle core' := by
    apply (hreacted.stored h).risen_of_grows hbeat.sameStore.grows <;> cases hbeat <;> rfl
  refine Risen.trans ?_ hbeats
  cases hreacted with
  | request => exact h.risen_of_grows ⟨rfl, List.prefix_rfl, List.prefix_rfl⟩ rfl rfl
  | @proposal _ _ stored voting _ _ hingested _ hupdated =>
      have hrisen : Risen core stored := by
        apply h.risen_of_grows hingested.grows <;> rw [hingested.rest]
      exact hrisen.trans ⟨hupdated.risen.lock, hupdated.risen.high⟩
  | @proposed _ _ stored _ _ hingested _ hupdated =>
      have hrisen : Risen core stored := by
        apply h.risen_of_grows hingested.grows <;> rw [hingested.rest]
      exact hrisen.trans ⟨hupdated.risen.lock, hupdated.risen.high⟩
  | @quorumCert cert key =>
      refine Risen.trans ?_ (raised_risen _ _)
      exact h.risen_of_grows ⟨rfl, List.prefix_rfl, List.prefix_append _ _⟩ rfl rfl

end ReplicaCore

open ReplicaCore

variable {coreConfig : ReplicaCoreConfig} {cryptoConfig : CryptoConfig scheme}
  {history rest : List (Replica.Event scheme)} {replica next later : Replica scheme}
  {event : Replica.Event scheme}

theorem Replica.Step.risen (hstep : replica.Step event next) (hstored : replica.core.Stored) :
    Risen replica.core next.core := by
  cases hstep.effect.core with
  | keep hcore =>
      rw [hcore]
      exact .refl _
  | give _ hhandle => exact hstored.handle_risen hhandle

/-- The registers do not go down however a run goes on. -/
theorem LocalRun.risen (hrun : LocalRun coreConfig cryptoConfig history replica)
    (hrest : Run (· = replica) (fun _ => Replica.Step) rest later) :
    LocalRun coreConfig cryptoConfig (history ++ rest) later ∧ Risen replica.core later.core := by
  induction hrest with
  | start hinit =>
      subst hinit
      exact ⟨by rwa [List.append_nil], .refl _⟩
  | step _ hstep ih =>
      refine ⟨?_, ih.2.trans (hstep.risen (LocalRun.stored ih.1))⟩
      rw [← List.append_assoc]
      exact .step ih.1 hstep

/-- A replica signs nodes of strictly rising heights, and its lock and its highest
certificate never go down. Nothing is assumed of what it receives. -/
theorem voting_discipline (hrun : LocalRun coreConfig cryptoConfig history replica) :
    (∃ keys : List Nat, Replica.signed history = keys.map replica.core.digestOf ∧
      (∀ key ∈ keys, key < replica.core.nodes.length) ∧
      (keys.map replica.core.heightOf).Pairwise (· < ·)) ∧
    ∀ rest later, Run (· = replica) (fun _ => Replica.Step) rest later →
      Risen replica.core later.core := by
  refine ⟨?_, fun rest later hrest => (LocalRun.risen hrun hrest).2⟩
  have hdisciplined := LocalRun.disciplined hrun
  obtain ⟨keys, hsublist, hsigned⟩ := List.sublist_map_iff.mp (LocalRun.signed_sublist hrun)
  have hvotes : keys.Sublist
      (votes (Replica.performedIn history ++ replica.coreActions)) := by
    rw [votes_append]
    exact hsublist.trans (List.sublist_append_left _ _)
  refine ⟨keys, hsigned, fun key hkey => (hdisciplined.voted key (hvotes.subset hkey)).lt, ?_⟩
  rw [List.pairwise_map]
  exact (hdisciplined.follows.sublist hvotes).imp fun hfollows => hfollows.height

/-- A backup that receives four blocks of a chain signs them all, bottom up. -/
theorem voting_discipline_row :
    ∃ (history : List (Replica.Event .transparent)) (replica : Replica .transparent),
      (Replica.signed history).length = 4 ∧
      ∃ keys : List Nat, Replica.signed history = keys.map replica.core.digestOf ∧
        (keys.map replica.core.heightOf).Pairwise (· < ·) := by
  have hreplay : ∃ run ∈ Group.replay (fun _ _ => True) (Group.four {0}) (Group.fourRow 3),
      (Replica.signed (view 1 run.1)).length = 4 := by
    decide +kernel
  obtain ⟨⟨history, states⟩, hrun, hlength⟩ := hreplay
  have hhonest : (Group.four {0}).Honest 1 := by decide
  obtain ⟨⟨keys, hsigned, -, hrising⟩, -⟩ :=
    voting_discipline ((Group.replay_run hrun).groupRun.localRun hhonest)
  exact ⟨view 1 history, states 1, hlength, keys, hsigned, hrising⟩

end BftKit.Hotstuff
