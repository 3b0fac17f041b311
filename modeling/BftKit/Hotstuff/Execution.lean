import BftKit.Hotstuff.Replay

/-! # The log of one replica

A commit executes the nodes between the executed one and the committed one, if
there is such a path. It moves the executed node to the committed one in any case:
a block on a fork can take it back, and nodes are then finalized again.
-/

namespace BftKit.Hotstuff

open Foundation Threshold

variable {scheme : ThresholdScheme}

namespace ReplicaCore

variable {core core' stored voted : ReplicaCore scheme} {blockDigest : Digest}
  {block : Message.Block scheme}

/-- A justification completes a three-chain with the node it is about. -/
structure Committable (core : ReplicaCore scheme) (justify : Digest) (block1 : Nat) : Prop where
  known : core.nodeIndex.lookup justify = some block1
  parent1 : core.parentOf block1 = core.justifiedOf block1
  parent2 : core.parentOf (core.justifiedOf block1) = core.justifiedOf (core.justifiedOf block1)

/-- The node that a justification commits, if any, extends the executed one. -/
def Resumes (core : ReplicaCore scheme) (justify : Digest) : Prop :=
  ∀ block1, core.Committable justify block1 →
    core.extendsNode (core.justifiedOf (core.justifiedOf block1)) core.blockExecute = .ok true

instance (core : ReplicaCore scheme) (justify : Digest) : Decidable (core.Resumes justify) :=
  decidable_of_iff (∀ block1 ∈ core.nodeIndex.lookup justify,
    core.parentOf block1 = core.justifiedOf block1 →
    core.parentOf (core.justifiedOf block1) = core.justifiedOf (core.justifiedOf block1) →
    core.extendsNode (core.justifiedOf (core.justifiedOf block1)) core.blockExecute = .ok true)
    ⟨fun h block1 hcommittable =>
        h block1 hcommittable.known hcommittable.parent1 hcommittable.parent2,
      fun h block1 hknown hparent1 hparent2 => h block1 ⟨hknown, hparent1, hparent2⟩⟩

/-- What an event does to the executed node: nothing, or it moves it to the node that
is committed and finalizes those above the executed one. -/
inductive Executed (core : ReplicaCore scheme) (event : ReplicaCoreEvent scheme)
    (core' : ReplicaCore scheme) (finalized : List Nat) : Prop
  | keep (hexecute : core'.blockExecute = core.blockExecute) (hnone : finalized = [])
  | move {blockDigest block block1}
      (hevent : event = .proposal blockDigest block ∨ event = .proposed blockDigest block)
      (hcommittable : core.Committable block.justify.node block1)
      (hexecute : core'.blockExecute = core.justifiedOf (core.justifiedOf block1))
      (hlineage : Lineage core.parentOf core.heightOf (core.heightOf core.blockExecute)
        (core.justifiedOf (core.justifiedOf block1)) finalized)

theorem Updated.executed {path : List Nat}
    (hupdated : Updated voted core.nodes.length core' path) (h : Stored core)
    (hingested : Ingested core blockDigest block stored) (hsame : SameStore stored voted)
    (hexecute : voted.blockExecute = stored.blockExecute) {event : ReplicaCoreEvent scheme}
    (hevent : event = .proposal blockDigest block ∨ event = .proposed blockDigest block) :
    Executed core event core' path := by
  have hgrows : Grows core voted := hingested.grows.trans hsame.grows
  have hcommitted : core'.blockExecute = if voted.Commits core.nodes.length then
      voted.block3 core.nodes.length else voted.blockExecute :=
    congrArg ReplicaCore.blockExecute hupdated.rest
  have hold : voted.blockExecute = core.blockExecute := by rw [hexecute, hingested.rest]
  have hpath := hupdated.path
  by_cases hcommits : voted.Commits core.nodes.length
  · rw [if_pos hcommits] at hcommitted hpath
    -- the nodes of the three-chain are old ones
    have hknown :
        core.nodeIndex.lookup block.justify.node = some (voted.block1 core.nodes.length) := by
      rw [block1, hsame.justifiedOf]
      exact hingested.justified
    have hlt := ((h.index _ _).mp hknown).1
    have hblock2 : voted.block2 core.nodes.length =
        core.justifiedOf (voted.block1 core.nodes.length) := hgrows.justifiedOf h hlt
    have hblock3 : voted.block3 core.nodes.length =
        core.justifiedOf (core.justifiedOf (voted.block1 core.nodes.length)) := by
      rw [block3, hblock2]
      exact hgrows.justifiedOf h (h.justifiedOf_lt _)
    refine .move hevent ⟨hknown, ?_, ?_⟩ (hcommitted.trans hblock3) ?_
    · rw [← hgrows.parentOf hlt, hcommits.1, hblock2]
    · rw [← hblock3, ← hcommits.2, hblock2]
      exact (hgrows.parentOf (h.justifiedOf_lt _)).symm
    · rw [hold, hgrows.heightOf h.execute, hblock3] at hpath
      have hclosed : ∀ key, key < core.nodes.length → core.parentOf key < core.nodes.length :=
        fun key hkey => (h.parentOf_le key).trans_lt hkey
      refine Lineage.congr (P := (· < core.nodes.length)) ?_ ?_ ?_ hpath (h.justifiedOf_lt _)
      · intro key hkey
        rw [hgrows.parentOf hkey]
        exact hclosed key hkey
      · exact fun key hkey => (hgrows.parentOf hkey).symm
      · exact fun key hkey => (hgrows.heightOf hkey).symm
  · rw [if_neg hcommits] at hcommitted hpath
    exact .keep (hcommitted.trans hold) hpath

theorem Stored.executed (h : Stored core) {event : ReplicaCoreEvent scheme}
    {pushed : ReplicaCoreActions} (hhandle : core.handle event = .ok (core', pushed)) :
    Executed core event core' (finalizations pushed) := by
  obtain ⟨middle, reactions, beats, hreacted, hbeat, rfl⟩ := h.handle_ok hhandle
  have hexecute : core'.blockExecute = middle.blockExecute := by cases hbeat <;> rfl
  rw [finalizations_append, hbeat.pushed.2, List.append_nil]
  suffices hmiddle : Executed core event middle (finalizations reactions) by
    cases hmiddle with
    | keep hmiddle hnone => exact .keep (hexecute.trans hmiddle) hnone
    | move hevent hcommittable hmiddle hlineage =>
        exact .move hevent hcommittable (hexecute.trans hmiddle) hlineage
  cases hreacted with
  | request => exact .keep rfl rfl
  | proposal hingested _ hupdated =>
      have hpath : ∀ voting : Bool, ∀ path : List Nat, finalizations
          ((if voting then [.vote core.nodes.length] else []) ++ path.map .finalize) = path := by
        intro voting path
        rw [finalizations_append, finalizations_finalize]
        cases voting <;> rfl
      rw [hpath]
      exact hupdated.executed h hingested ⟨rfl, rfl, rfl, rfl, rfl⟩ rfl (.inl rfl)
  | proposed hingested _ hupdated =>
      have hpath : ∀ path : List Nat,
          finalizations (.vote core.nodes.length :: path.map .finalize) = path :=
        finalizations_finalize
      rw [hpath]
      exact hupdated.executed h hingested ⟨rfl, rfl, rfl, rfl, rfl⟩ rfl (.inr rfl)
  | quorumCert =>
      refine .keep ?_ rfl
      unfold ReplicaCore.raised
      split <;> rfl

/-- The nodes executed so far are a chain from genesis to the executed node. -/
structure Executes (core : ReplicaCore scheme) (nodes : List Nat) : Prop where
  stored : Stored core
  chain : List.IsChain (fun earlier later => core.parentOf later = earlier) (0 :: nodes)
  last : (0 :: nodes).getLast? = some core.blockExecute
  pos : ∀ key ∈ nodes, 0 < key
  lt : ∀ key ∈ nodes, key < core.nodes.length

theorem Executes.sorted {nodes : List Nat} (h : Executes core nodes) :
    (0 :: nodes).Pairwise (· < ·) := by
  refine List.isChain_iff_pairwise.mp ?_
  refine List.IsChain.imp_of_mem_tail_imp ?_ h.chain
  intro earlier later _ hmem hparent
  rw [← hparent]
  exact h.stored.parent later (h.pos later hmem)

/-- A commit that resumes from the executed node adds to the chain. -/
theorem Executes.step {nodes finalized : List Nat} (h : Executes core nodes)
    {event : ReplicaCoreEvent scheme} (hstored : Stored core') (hgrows : Grows core core')
    (hexecuted : Executed core event core' finalized)
    (hresumes : ∀ blockDigest block,
      event = .proposal blockDigest block ∨ event = .proposed blockDigest block →
      core.Resumes block.justify.node) :
    Executes core' (nodes ++ finalized) ∧
      core'.heightOf core'.blockExecute ≥ core.heightOf core.blockExecute := by
  have hold : List.IsChain (fun earlier later => core'.parentOf later = earlier) (0 :: nodes) := by
    refine List.IsChain.imp_of_mem_tail_imp ?_ h.chain
    intro earlier later _ hmem hparent
    rw [hgrows.parentOf (h.lt later hmem), hparent]
  cases hexecuted with
  | keep hexecute hnone =>
      subst hnone
      rw [List.append_nil, hexecute, hgrows.heightOf h.stored.execute]
      refine ⟨⟨hstored, hold, hexecute ▸ h.last, h.pos, ?_⟩, le_rfl⟩
      exact fun key hkey => hgrows.lt_length (h.lt key hkey)
  | @move _ _ block1 hevent hcommittable hexecute hlineage =>
      have htarget : core.justifiedOf (core.justifiedOf block1) < core.nodes.length :=
        h.stored.justifiedOf_lt _
      -- the walk back from the new node comes to the executed one, so the chains join
      obtain ⟨verdict, hverdict, hiff⟩ := h.stored.extendsNode_ok htarget h.stored.execute
      have hresume := hresumes _ _ hevent block1 hcommittable
      obtain rfl := Except.ok.inj (hverdict.symm.trans hresume)
      have hreaches := hiff.mp rfl
      obtain ⟨hchain, hlast⟩ := hlineage.chain hreaches
      have hmember : ∀ key ∈ finalized, 0 < key ∧ key < core.nodes.length := by
        intro key hkey
        obtain ⟨hancestor, habove⟩ := hlineage.ancestor hkey
        exact ⟨h.stored.pos_of_heightOf ((Nat.zero_le _).trans_lt habove),
          (h.stored.ancestor_le hancestor).trans_lt htarget⟩
      have hnew : List.IsChain (fun earlier later => core'.parentOf later = earlier)
          (core.blockExecute :: finalized) := by
        refine List.IsChain.imp_of_mem_tail_imp ?_ hchain
        intro earlier later _ hmem hparent
        rw [hgrows.parentOf (hmember later hmem).2, hparent]
      refine ⟨⟨hstored, ?_, ?_, ?_, ?_⟩, ?_⟩
      · rw [← List.cons_append]
        refine hold.append hnew.tail ?_
        intro last hlast' first hfirst
        obtain rfl := Option.some.inj (h.last.symm.trans hlast')
        exact hnew.rel_head? hfirst
      · rw [← List.cons_append, List.getLast?_append, hexecute]
        rw [List.getLast?_cons] at hlast
        cases hfinal : finalized.getLast? with
        | none => simpa [hfinal, h.last] using hlast
        | some last => simpa [hfinal] using hlast
      · intro key hkey
        rcases List.mem_append.mp hkey with hkey | hkey
        · exact h.pos key hkey
        · exact (hmember key hkey).1
      · intro key hkey
        rcases List.mem_append.mp hkey with hkey | hkey
        · exact hgrows.lt_length (h.lt key hkey)
        · exact hgrows.lt_length (hmember key hkey).2
      · rw [hexecute, hgrows.heightOf htarget]
        by_cases heq : core.justifiedOf (core.justifiedOf block1) = core.blockExecute
        · rw [heq]
        · exact (hreaches.height_lt heq).le

end ReplicaCore

namespace Replica

/-- The block that a step gives to the core commits, if anything, a node that extends
the executed one. -/
def Resumes (replica : Replica scheme) : Event scheme → Prop
  | .release _ block => replica.core.Resumes block.justify.node
  | .perform (.propose data) _ _ =>
      ∀ block, replica.proposalBlock data = .ok block → replica.core.Resumes block.justify.node
  | .call _ _ | .perform (.vote _) _ _ | .perform (.finalize _) _ _ => True

instance (replica : Replica scheme) (event : Event scheme) : Decidable (replica.Resumes event) :=
  match event with
  | .release _ block => inferInstanceAs (Decidable (replica.core.Resumes block.justify.node))
  | .perform (.propose data) _ _ =>
      match hblock : replica.proposalBlock data with
      | .ok block =>
          decidable_of_iff (replica.core.Resumes block.justify.node)
            ⟨fun h other hother => Except.ok.inj (hblock.symm.trans hother) ▸ h,
              fun h => h block hblock⟩
      | .error _ => .isTrue fun other hother => by cases hblock.symm.trans hother
  | .call _ _ | .perform (.vote _) _ _ | .perform (.finalize _) _ _ => .isTrue trivial

theorem Gives.resumes {replica : Replica scheme} {event : Event scheme}
    {coreEvent : ReplicaCoreEvent scheme} (hgives : Gives replica event coreEvent)
    (hresumes : replica.Resumes event) (blockDigest : Digest) (block : Message.Block scheme)
    (hevent : coreEvent = .proposal blockDigest block ∨ coreEvent = .proposed blockDigest block) :
    replica.core.Resumes block.justify.node := by
  cases hgives with
  | request => rcases hevent with hevent | hevent <;> cases hevent
  | proposal =>
      rcases hevent with hevent | hevent <;> cases hevent
      exact hresumes
  | proposed _ hblock =>
      rcases hevent with hevent | hevent <;> cases hevent
      exact hresumes _ hblock
  | quorumCert => rcases hevent with hevent | hevent <;> cases hevent

end Replica

variable {coreConfig : ReplicaCoreConfig} {cryptoConfig : CryptoConfig scheme}
  {history : List (Replica.Event scheme)} {replica : Replica scheme}

theorem executes_of_run
    (hrun : GuardedRun Replica.Resumes coreConfig cryptoConfig history replica) :
    replica.core.Executes
      (finalizations (Replica.performedIn history ++ replica.coreActions)) := by
  refine hrun.core_invariant (fun core pushed => core.Executes (finalizations pushed)) ?_ ?_
  · exact ⟨ReplicaCore.new_stored _, .singleton _, rfl, by simp [finalizations],
      by simp [finalizations]⟩
  · intro replica event coreEvent core' pushed pushed' hguard hgives hexecutes hhandle
    rw [finalizations_append]
    obtain ⟨hstored, hgrows⟩ := hexecutes.stored.handle hhandle
    exact (hexecutes.step hstored hgrows (hexecutes.stored.executed hhandle)
      (hgives.resumes hguard)).1

/-- The law of the log of one replica, for one state of a run. -/
structure GrowingChain (history : List (Replica.Event scheme)) (replica : Replica scheme) :
    Prop where
  /-- Each finalized node is a child of the one before it, the first one of genesis. -/
  chain : List.IsChain (fun earlier later => replica.core.parentOf later = earlier)
    (0 :: finalizations (Replica.performedIn history))
  /-- No node is finalized twice. -/
  nodup : (finalizations (Replica.performedIn history)).Nodup
  /-- The executed node does not get lower in the next step. -/
  rising : ∀ event next, Replica.Step replica event next → replica.Resumes event →
    replica.core.heightOf replica.core.blockExecute ≤ next.core.heightOf next.core.blockExecute

/-- Where committed nodes extend the executed one, the log is a growing chain. Nothing is
assumed of the keys, or of the messages and their order. -/
theorem growingChain (hrun : GuardedRun Replica.Resumes coreConfig cryptoConfig history replica) :
    GrowingChain history replica := by
  have hexecutes := executes_of_run hrun
  rw [finalizations_append] at hexecutes
  constructor
  · refine List.IsChain.prefix hexecutes.chain ?_
    rw [← List.cons_append]
    exact List.prefix_append _ _
  · have hsorted := (List.pairwise_cons.mp hexecutes.sorted).2
    exact (List.pairwise_append.mp hsorted).1.imp fun hlt => hlt.ne
  · intro event next hstep hresumes
    cases hstep.effect.core with
    | keep hcore => rw [hcore]
    | give hgives hhandle =>
        obtain ⟨hstored, hgrows⟩ := hexecutes.stored.handle hhandle
        exact (hexecutes.step hstored hgrows (hexecutes.stored.executed hhandle)
          (hgives.resumes hresumes)).2

/-- Five blocks in a row finalize the first two, and the log is a growing chain. -/
theorem growingChain_row :
    ∃ (history : List (Replica.Event .transparent)) (replica : Replica .transparent),
      finalizations (Replica.performedIn history) = [1, 2] ∧ GrowingChain history replica := by
  have hreplay : ∃ run ∈ Group.replay Replica.Resumes (Group.four {0}) (Group.fourRow 4),
      finalizations (Replica.performedIn (view 1 run.1)) = [1, 2] := by
    decide +kernel
  obtain ⟨⟨history, states⟩, hrun, hfinalized⟩ := hreplay
  have hhonest : (Group.four {0}).Honest 1 := by decide
  exact ⟨view 1 history, states 1, hfinalized,
    growingChain ((Group.replay_run hrun).localRun hhonest)⟩

/-- A block on a fork from genesis takes the executed node back to genesis, and the
next block of the chain finalizes the first one again. -/
theorem growingChain_fails :
    ∃ (history : List (Replica.Event .transparent)) (replica : Replica .transparent),
      LocalRun ((Group.four {0}).coreConfig 1) ((Group.four {0}).cryptoConfig 1) history replica ∧
      (∀ entry ∈ Replica.received history, entry.2.justify.node = .zero ∨
        ((Group.four {0}).cryptoConfig 1).Verifies entry.2.justify) ∧
      ¬(finalizations (Replica.performedIn history)).Nodup ∧ ¬GrowingChain history replica := by
  let fork : Message.Block .transparent :=
    { parent := .zero, commands := [Group.ping 1], justify := Group.genesisCert, height := 1 }
  have hreplay : ∃ run ∈ Group.replay (fun _ _ => True) (Group.four {0})
      ((Group.fourRow 4).insertIdx 5 (Group.deliver 5 fork 1)),
      finalizations (Replica.performedIn (view 1 run.1)) = [1, 1, 2] ∧
      ∀ entry ∈ Replica.received (view 1 run.1), entry.2.justify.node = .zero ∨
        ((Group.four {0}).cryptoConfig 1).Verifies entry.2.justify := by
    decide +kernel
  obtain ⟨⟨history, states⟩, hrun, hfinalized, hverifies⟩ := hreplay
  have hhonest : (Group.four {0}).Honest 1 := by decide
  have htwice : ¬(finalizations (Replica.performedIn (view 1 history))).Nodup := by
    rw [hfinalized]
    decide
  exact ⟨view 1 history, states 1, (Group.replay_run hrun).groupRun.localRun hhonest, hverifies,
    htwice, fun hgrowing => htwice hgrowing.nodup⟩

end BftKit.Hotstuff
