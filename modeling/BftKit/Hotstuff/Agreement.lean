import BftKit.Foundation.Lines
import BftKit.Foundation.Log
import BftKit.Hotstuff.Execution
import BftKit.Hotstuff.Pipeline
import BftKit.Hotstuff.Safety

/-! # Agreement on logs

What an honest replica finalizes is a line of descent from genesis. Where the finalized nodes
are comparable such lines extend one another, and with them the lists of commands.
-/

namespace BftKit.Hotstuff

open Foundation

variable {scheme : ThresholdScheme}

/-- Signed nodes are well justified, and committed ones extend what is executed. -/
def Replica.Careful (replica : Replica scheme) (event : Replica.Event scheme) : Prop :=
  replica.WellJustified event ∧ replica.Resumes event

instance (replica : Replica scheme) (event : Replica.Event scheme) :
    Decidable (replica.Careful event) :=
  inferInstanceAs (Decidable (_ ∧ _))

namespace Group

variable {group : Group scheme} {history : History scheme} {states : Nat → Replica scheme}
  {who who' : Nat}

/-- The digests that a replica has finalized. -/
def line (history : History scheme) (states : Nat → Replica scheme) (who : Nat) : List Digest :=
  (finalizations (Replica.performedIn (view who history))).map (states who).core.digestOf

theorem GuardedGroupRun.mono {guard guard' : Replica scheme → Replica.Event scheme → Prop}
    (hguard : ∀ replica event, guard replica event → guard' replica event)
    (hrun : GuardedGroupRun guard group history states) :
    GuardedGroupRun guard' group history states :=
  Run.mono (fun _ h => h) (fun _ _ _ _ ⟨target, h, hnext⟩ =>
    ⟨target, ⟨h.1, hguard _ _ h.2⟩, hnext⟩) hrun

theorem Coherent.root (h : group.Coherent states) (hhonest : group.Honest who) :
    (group.tree history states).parent .zero = .zero := by
  have hstored := h.stored who hhonest
  have hparent : (group.tree history states).parent ((states who).core.digestOf 0) = _ :=
    h.parent hhonest hstored.nodes_pos
  rwa [hstored.parentOf_zero, hstored.digestOf_zero] at hparent

/-- What is finalized descends from genesis. -/
theorem line_descends (hrun : GuardedGroupRun Replica.Resumes group history states)
    (hcoherent : group.Coherent states) (hhonest : group.Honest who) :
    Descends (group.tree history states).parent .zero (line history states who) := by
  have hexecutes := executes_of_run (hrun.localRun hhonest)
  rw [finalizations_append] at hexecutes
  have hstored := hcoherent.stored who hhonest
  have hmem : ∀ key ∈ finalizations (Replica.performedIn (view who history)),
      0 < key ∧ key < (states who).core.nodes.length := by
    intro key hkey
    have happend := List.mem_append_left
      (finalizations (states who).coreActions) hkey
    exact ⟨hexecutes.pos key happend, hexecutes.lt key happend⟩
  have hkeys : Descends (states who).core.parentOf 0
      (finalizations (Replica.performedIn (view who history))) := by
    refine ⟨?_, ?_⟩
    · apply List.IsChain.prefix hexecutes.chain
      rw [← List.cons_append]
      exact List.prefix_append _ _
    · intro hzero
      exact lt_irrefl 0 (hmem 0 hzero).1
  rw [← hstored.digestOf_zero]
  apply hkeys.map
  · intro key hkey
    exact hcoherent.parent hhonest (hmem key hkey).2
  · intro key hkey heq
    exact (hmem key hkey).1.ne' (hstored.key_unique (hmem key hkey).2 hstored.nodes_pos heq)

/-- Nodes that honest replicas finalize are comparable in the tree. -/
theorem line_comparable (hrun : GuardedGroupRun Replica.WellJustified group history states)
    (hreplicas : 3 * group.spec.numFaulty < group.spec.numReplica)
    (hfaulty : group.faulty.card ≤ group.spec.numFaulty) (hsound : AggregateSound scheme)
    (hcollision : group.CollisionFree history) (hideal : group.Ideal history states)
    (hhonest : group.Honest who) (hhonest' : group.Honest who') {digest digest' : Digest}
    (hdigest : digest ∈ line history states who) (hdigest' : digest' ∈ line history states who') :
    Ancestor (group.tree history states).parent digest digest' ∨
      Ancestor (group.tree history states).parent digest' digest := by
  have hgroup := hrun.groupRun
  have hcoherent := hgroup.coherent hsound hcollision
  have hcommits : ∀ {who digest}, group.Honest who → digest ∈ line history states who →
      ∃ top committed, (group.tree history states).Commits top committed ∧
        0 < (group.tree history states).height committed ∧
        Ancestor (group.tree history states).parent digest committed := by
    intro who digest hhonest hdigest
    obtain ⟨key, hkey, rfl⟩ := List.mem_map.mp hdigest
    have hdisciplined := (hgroup.localRun hhonest).disciplined
    obtain ⟨top, htop⟩ := hdisciplined.committed key (by
      rw [finalizations_append]
      exact List.mem_append_left _ hkey)
    exact ⟨_, _, hcoherent.commits hhonest htop
      (hgroup.certified hsound hideal hhonest htop.held)⟩
  have htree := tree_disciplined hrun hsound hcoherent hideal hreplicas hfaulty hhonest
  obtain ⟨top, committed, hcommit, hpos, hancestor⟩ := hcommits hhonest hdigest
  obtain ⟨top', committed', hcommit', hpos', hancestor'⟩ := hcommits hhonest' hdigest'
  exact htree.comparable hcommit hcommit' hpos hpos' hancestor hancestor'

theorem lines_extend (hrun : GuardedGroupRun Replica.Careful group history states)
    (hreplicas : 3 * group.spec.numFaulty < group.spec.numReplica)
    (hfaulty : group.faulty.card ≤ group.spec.numFaulty) (hsound : AggregateSound scheme)
    (hcollision : group.CollisionFree history) (hideal : group.Ideal history states)
    (hhonest : group.Honest who) (hhonest' : group.Honest who') :
    line history states who <+: line history states who' ∨
      line history states who' <+: line history states who := by
  have hcoherent := hrun.groupRun.coherent hsound hcollision
  have hfixed : (group.tree history states).parent .zero = .zero := hcoherent.root hhonest
  have hresumes := hrun.mono fun _ _ hcareful => hcareful.2
  have hleft := line_descends hresumes hcoherent hhonest
  have hright := line_descends hresumes hcoherent hhonest'
  rcases List.eq_nil_or_concat (line history states who) with hnil | ⟨init, last, hline⟩
  · rw [hnil]
    exact .inl List.nil_prefix
  rcases List.eq_nil_or_concat (line history states who') with hnil | ⟨init', last', hline'⟩
  · rw [hnil]
    exact .inr List.nil_prefix
  rw [List.concat_eq_append] at hline hline'
  have hlast : (.zero :: line history states who).getLast? = some last := by
    rw [hline]
    exact Descends.getLast?_concat _ _ _
  have hlast' : (.zero :: line history states who').getLast? = some last' := by
    rw [hline']
    exact Descends.getLast?_concat _ _ _
  have hmem : last ∈ line history states who := by simp [hline]
  have hmem' : last' ∈ line history states who' := by simp [hline']
  rcases line_comparable (hrun.mono fun _ _ hcareful => hcareful.1) hreplicas hfaulty hsound
    hcollision hideal hhonest hhonest' hmem hmem' with hancestor | hancestor
  · exact .inl (hleft.isPrefix hfixed hright hancestor hlast hlast')
  · exact .inr (hright.isPrefix hfixed hleft hancestor hlast' hlast)

/-- Nodes of one digest have the same commands. -/
theorem commands_congr (hrun : GroupRun group history states) (hsound : AggregateSound scheme)
    (hcollision : group.CollisionFree history) (hhonest : group.Honest who)
    (hhonest' : group.Honest who') {key key' : Nat} (hpos : 0 < key)
    (hkey : key < (states who).core.nodes.length) (hpos' : 0 < key')
    (hkey' : key' < (states who').core.nodes.length)
    (heq : (states who).core.digestOf key = (states who').core.digestOf key') :
    ((states who).core.nodeAt key).commands = ((states who').core.nodeAt key').commands := by
  obtain ⟨block, hblock, hrepresents⟩ :=
    ((hrun.localRun hhonest).vetted hsound).core.nodes key hpos hkey
  obtain ⟨block', hblock', hrepresents'⟩ :=
    ((hrun.localRun hhonest').vetted hsound).core.nodes key' hpos' hkey'
  rw [hrepresents.digest, hrepresents'.digest] at heq
  obtain ⟨-, hcommands, -, -⟩ :=
    hcollision who hhonest who' hhonest' block hblock block' hblock' heq
  rw [hrepresents.commands, hrepresents'.commands, hcommands]

theorem lines_commands (hrun : GuardedGroupRun Replica.Careful group history states)
    (hreplicas : 3 * group.spec.numFaulty < group.spec.numReplica)
    (hfaulty : group.faulty.card ≤ group.spec.numFaulty) (hsound : AggregateSound scheme)
    (hcollision : group.CollisionFree history) (hideal : group.Ideal history states)
    (hhonest : group.Honest who) (hhonest' : group.Honest who') :
    Replica.finalizedIn (view who history) <+: Replica.finalizedIn (view who' history) ∨
      Replica.finalizedIn (view who' history) <+: Replica.finalizedIn (view who history) := by
  have hgroup := hrun.groupRun
  have hresumes := hrun.mono fun _ _ hcareful => hcareful.2
  have hlines := lines_extend hrun hreplicas hfaulty hsound hcollision hideal hhonest hhonest'
  have hkeys : ∀ {who key}, group.Honest who →
      key ∈ finalizations (Replica.performedIn (view who history)) →
      0 < key ∧ key < (states who).core.nodes.length := by
    intro who key hhonest hkey
    have hexecutes := executes_of_run (hresumes.localRun hhonest)
    rw [finalizations_append] at hexecutes
    have happend := List.mem_append_left (finalizations (states who).coreActions) hkey
    exact ⟨hexecutes.pos key happend, hexecutes.lt key happend⟩
  apply prefix_total_of_agree
  intro index commands commands' hat hat'
  rw [(hgroup.localRun hhonest).finalizedIn_eq, List.getElem?_map, Option.map_eq_some_iff] at hat
  rw [(hgroup.localRun hhonest').finalizedIn_eq, List.getElem?_map, Option.map_eq_some_iff] at hat'
  obtain ⟨key, hkey, rfl⟩ := hat
  obtain ⟨key', hkey', rfl⟩ := hat'
  obtain ⟨hpos, hlt⟩ := hkeys hhonest (List.mem_of_getElem? hkey)
  obtain ⟨hpos', hlt'⟩ := hkeys hhonest' (List.mem_of_getElem? hkey')
  apply commands_congr hgroup hsound hcollision hhonest hhonest' hpos hlt hpos' hlt'
  have hdigest : (line history states who)[index]? = some ((states who).core.digestOf key) := by
    rw [line, List.getElem?_map, hkey]
    rfl
  have hdigest' : (line history states who')[index]? = some ((states who').core.digestOf key') := by
    rw [line, List.getElem?_map, hkey']
    rfl
  exact agree_of_prefix_total hlines hdigest hdigest'

/-- Where signed nodes are well justified and committed ones extend what is executed, what an
honest replica finalizes is a line from genesis. Two such lines extend one another, and so do
the lists of commands. Fewer than a third of the replicas are faulty, the aggregate scheme is
sound and ideal, and no two nodes of the run have one digest. -/
theorem logs_extend (hrun : GuardedGroupRun Replica.Careful group history states)
    (hreplicas : 3 * group.spec.numFaulty < group.spec.numReplica)
    (hfaulty : group.faulty.card ≤ group.spec.numFaulty) (hsound : AggregateSound scheme)
    (hcollision : group.CollisionFree history) (hideal : group.Ideal history states)
    (hhonest : group.Honest who) (hhonest' : group.Honest who') :
    (Replica.finalizedIn (view who history) <+: Replica.finalizedIn (view who' history) ∨
      Replica.finalizedIn (view who' history) <+: Replica.finalizedIn (view who history)) ∧
    (line history states who <+: line history states who' ∨
      line history states who' <+: line history states who) ∧
    Descends (group.tree history states).parent .zero (line history states who) :=
  ⟨lines_commands hrun hreplicas hfaulty hsound hcollision hideal hhonest hhonest',
    lines_extend hrun hreplicas hfaulty hsound hcollision hideal hhonest hhonest',
    line_descends (hrun.mono fun _ _ hcareful => hcareful.2)
      (hrun.groupRun.coherent hsound hcollision) hhonest⟩

/-- Four blocks in a row, whose first one two backups finalize. -/
theorem exists_careful_row :
    ∃ (history : History .transparent) (states : Nat → Replica .transparent),
      GuardedGroupRun Replica.Careful (four {0}) history states ∧
      (four {0}).CollisionFree history ∧ (four {0}).Ideal history states ∧
      ∀ who ∈ [1, 2], Replica.finalizedIn (view who history) = [[ping 0]] := by
  have hreplay : ∃ run ∈ replay Replica.Careful (four {0}) (fourPair (fourChain 3 fourFirst)),
      (∀ who ∈ [1, 2], Replica.finalizedIn (view who run.1) = [[ping 0]]) ∧
      Endorsed run.1 run.2 ∧ Distinct run.1 := by
    decide +kernel
  obtain ⟨⟨history, states⟩, hrun, hfinalized, hendorsed, hdistinct⟩ := hreplay
  exact ⟨history, states, replay_run hrun, hdistinct.collisionFree, hendorsed.ideal, hfinalized⟩

theorem logs_extend_row :
    ∃ history : History .transparent,
      Replica.finalizedIn (view 1 history) = [[ping 0]] ∧
      Replica.finalizedIn (view 2 history) = [[ping 0]] ∧
      (Replica.finalizedIn (view 1 history) <+: Replica.finalizedIn (view 2 history) ∨
        Replica.finalizedIn (view 2 history) <+: Replica.finalizedIn (view 1 history)) := by
  obtain ⟨history, states, hrun, hcollision, hideal, hfinalized⟩ := exists_careful_row
  exact ⟨history, hfinalized 1 (by simp), hfinalized 2 (by simp),
    (logs_extend hrun (by decide) (by decide) transparent_aggregateSound hcollision hideal
      (show (four {0}).Honest 1 by decide) (show (four {0}).Honest 2 by decide)).1⟩

end Group

end BftKit.Hotstuff
