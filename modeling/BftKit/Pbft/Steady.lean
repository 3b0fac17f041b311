import BftKit.Pbft.FreeRuns

/-! # What every replica keeps to

The invariant that the calls and the queued actions of a replica rely on, whatever it has been
shown. It is weaker than coherence: nothing says that a block of the primary is one that it has
proposed.
-/

namespace BftKit.Pbft

open Foundation

variable {crypto : Crypto}

namespace Replica

/-- What the calls and the queued actions of a replica rely on, whatever it is shown. -/
structure Steady (config : ReplicaCoreConfig) (replica : Replica crypto) : Prop
    extends Stored replica.core.finalizeNum replica.core.blocks, Sound config replica where
  issued : ∃ log, replica.core.pool.Issued log
  closeLoop : replica.core.pool.IsCloseLoop
  window : replica.core.isPrimary = true → replica.core.finalizeNum ≤ replica.core.proposeNum
  queue : ∃ done stored lists, Queue done stored replica lists ∧
    (replica.core.isPrimary = false → lists = []) ∧
    ∀ (blockNum : Nat) (block : Block crypto), replica.core.blocks[blockNum]? = some block →
      block.prepareQuorum.isSome → ¬(1 ≤ blockNum ∧ blockNum ≤ done) →
      blockNum ∈ replica.blockScratches

variable {config : ReplicaCoreConfig} {history : List (Event crypto)}
  {replica next : Replica crypto} {event : Event crypto} {message : ToReplica crypto}
  {action : ReplicaCoreAction crypto} {rest : ReplicaCoreActions crypto}
  {blockNum : Nat} {block : Block crypto} {scratch : BlockScratch crypto}

namespace Steady

theorem of_new (hnew : Replica.new crypto config = .ok replica) : Steady config replica := by
  have hsound := Sound.of_new hnew
  simp only [Replica.new, bind_eq_ok] at hnew
  obtain ⟨cryptoConfig, -, hreplica⟩ := hnew
  obtain rfl := Except.ok.inj hreplica
  refine {
    toSound := hsound
    digest := ?_, prepared := ?_, committed := ?_
    issued := ⟨[], CommandPool.closeLoop_new_issued⟩
    closeLoop := trivial
    window := fun _ => le_refl _
    queue := ?_ }
  · simp [ReplicaCore.new]
  · simp [ReplicaCore.new]
  · intro blockNum hge hle
    exact absurd (hge.trans hle) (by simp [ReplicaCore.new])
  · refine ⟨0, 0, [], @Queue.run _ _ _ _ 0 [] rfl rfl rfl, fun _ => rfl, ?_⟩
    simp [ReplicaCore.new]

theorem keys_length (h : Steady config replica) :
    replica.cryptoConfig.publicKeys.length = replica.core.config.spec.numReplica := by
  rw [h.publicKeys, h.configured]
  simp

/-- What an idle replica has finalized has left the scratches, and nothing else has. -/
theorem scratch_of_idle (h : Steady config replica) (hidle : replica.coreActions = [])
    (hblock : replica.core.blocks[blockNum]? = some block) (hsome : block.prepareQuorum.isSome)
    (hlate : ¬(1 ≤ blockNum ∧ blockNum ≤ replica.core.finalizeNum)) :
    blockNum ∈ replica.blockScratches := by
  obtain ⟨done, stored, lists, hqueue, -, hscratch⟩ := h.queue
  obtain ⟨-, rfl, -⟩ := hqueue.idle hidle
  exact hscratch _ block hblock hsome hlate

/-- The queue of an idle replica is filled with an action alone. -/
theorem solo (h : Steady config replica) (hidle : replica.coreActions = [])
    (hsolo : action.Solo) (henabled : { replica with coreActions := [action] }.Enabled action)
    (hbacked : Backed replica.core.blocks action) :
    Steady config { replica with coreActions := [action] } := by
  refine { h with
    backed := List.forall_mem_singleton.mpr hbacked
    queue := ⟨_, _, [], .solo rfl hsolo henabled rfl rfl, fun _ => rfl, ?_⟩ }
  intro other stored hstored hsome hlate
  exact h.scratch_of_idle hidle hstored hsome hlate

/-- Scratches that are added do no harm. -/
theorem put (h : Steady config replica) (blockNum : Nat) (scratch : BlockScratch crypto) :
    Steady config
      { replica with blockScratches := replica.blockScratches.insert blockNum scratch } := by
  obtain ⟨done, stored, lists, hqueue, hbackup, hscratch⟩ := h.queue
  refine { h with queue := ⟨done, stored, lists, ?_, hbackup, ?_⟩ }
  · cases hqueue with
    | run hqueue hfinalize hpropose => exact .run hqueue hfinalize hpropose
    | @solo action hqueue hsolo henabled hfinalize hpropose =>
        refine .solo hqueue hsolo ?_ hfinalize hpropose
        cases action with
        | commit other =>
            exact ⟨Std.ExtTreeMap.mem_insert.mpr (.inr henabled.1), henabled.2⟩
        | prepare _ _ => exact henabled
        | forward _ _ => trivial
        | propose _ _ | finalize _ | viewChange _ _ | newView _ _ _ | enterView =>
            exact False.elim hsolo
  · intro other stored hstored hsome hlate
    exact Std.ExtTreeMap.mem_insert.mpr (.inr (hscratch other stored hstored hsome hlate))

/-- A new block does not count as finalized. -/
theorem store (h : Steady config replica) (hnone : replica.core.blocks[blockNum]? = none)
    (hdigest : block.digest = blockDigest crypto block.commands)
    (hprepare : block.prepareQuorum = none) (hcommit : block.commitQuorum = none) :
    Steady config { replica with
      core := { replica.core with blocks := replica.core.blocks.insert blockNum block } } := by
  obtain ⟨done, stored, lists, hqueue, hbackup, hscratch⟩ := h.queue
  have hkeeps := Keeps.insert_new hnone block
  refine { h with
    toStored := h.toStored.insert hdigest (by simp [hcommit]) ?_
    backed := fun action hmem => (h.backed action hmem).mono hkeeps
    queue := ⟨done, stored, lists, ?_, hbackup, ?_⟩ }
  · intro hge hle
    obtain ⟨other, hother, -⟩ := h.committed blockNum hge hle
    simp [hnone] at hother
  · cases hqueue with
    | run hqueue hfinalize hpropose => exact .run hqueue hfinalize hpropose
    | @solo action hqueue hsolo henabled hfinalize hpropose =>
        refine .solo hqueue hsolo ?_ hfinalize hpropose
        have hother : ∀ (other : Nat) (entry : Block crypto),
            replica.core.blocks[other]? = some entry →
            (replica.core.blocks.insert blockNum block)[other]? = some entry := by
          intro other entry hentry
          have hne : blockNum ≠ other := by
            rintro rfl
            simp [hnone] at hentry
          exact (getElem?_insert_of_ne hne block).trans hentry
        cases action with
        | prepare _ _ =>
            obtain ⟨entry, hentry, hrest⟩ := henabled
            exact ⟨entry, hother _ _ hentry, hrest⟩
        | commit _ =>
            obtain ⟨hmem, entry, hentry, hrest⟩ := henabled
            exact ⟨hmem, entry, hother _ _ hentry, hrest⟩
        | forward _ _ => trivial
        | propose _ _ | finalize _ | viewChange _ _ | newView _ _ _ | enterView =>
            exact False.elim hsolo
  · intro other entry hentry hsome hlate
    by_cases heq : blockNum = other
    · subst heq
      obtain rfl := Option.some.inj ((getElem?_insert_self _ _).symm.trans hentry)
      simp [hprepare] at hsome
    · exact hscratch other entry ((getElem?_insert_of_ne heq _).symm.trans hentry) hsome hlate

/-! ## What the calls preserve -/

theorem accept (h : Steady config replica) (hidle : replica.coreActions = [])
    (hnone : replica.core.blocks[blockNum]? = none)
    (hdigest : block.digest = blockDigest crypto block.commands)
    (hprepare : block.prepareQuorum = none) (hcommit : block.commitQuorum = none) :
    Steady config { replica with
      core := { replica.core with blocks := replica.core.blocks.insert blockNum block }
      coreActions := replica.coreActions ++
        if replica.core.isPrimary then [] else [.prepare blockNum block.digest] } := by
  have hstore := h.store hnone hdigest hprepare hcommit
  have hblock := @getElem?_insert_self _ replica.core.blocks blockNum block
  split
  · rwa [List.append_nil]
  · rw [hidle, List.nil_append]
    exact hstore.solo hidle trivial ⟨block, hblock, rfl, hprepare⟩ ⟨block, hblock, rfl⟩

theorem request (h : Steady config replica) (hidle : replica.coreActions = [])
    {command : Command} {core : ReplicaCore crypto} {actions : ReplicaCoreActions crypto}
    (hhandle : replica.core.handle (.request command) = .ok (core, actions)) :
    Steady config { replica with core, coreActions := replica.coreActions ++ actions } ∧
      ∀ action ∈ actions, Flat action := by
  obtain ⟨log, hissued⟩ := h.issued
  obtain ⟨pool, lists, hlaw, hpool, hclose, hbackup⟩ :=
    ReplicaCore.handle_request hissued h.closeLoop h.window command
  obtain ⟨rfl, rfl⟩ := Prod.mk.inj (Except.ok.inj (hhandle.symm.trans hlaw))
  have hflat := (ReplicaCore.request_outcome hhandle).2
  refine ⟨{ h with
    backed := ?_
    issued := ⟨_, hpool⟩
    closeLoop := hclose
    window := fun hprimary => (h.window hprimary).trans (Nat.le_add_right _ _)
    queue := ?_ }, hflat⟩
  · rw [hidle, List.nil_append]
    exact fun action hmem => (hflat action hmem).backed
  · refine ⟨replica.core.finalizeNum, replica.core.proposeNum, lists, ?_, hbackup, ?_⟩
    · by_cases hprimary : replica.core.isPrimary = true
      · refine @Queue.run _ _ _ _ 0 _ ?_ rfl rfl
        simp [hidle, hprimary]
      · obtain rfl := hbackup (by simpa using hprimary)
        refine @Queue.solo _ _ _ _
          (.forward (replica.core.config.spec.primary replica.core.viewNum) command)
          ?_ trivial trivial rfl rfl
        simp [hidle, hprimary]
    · exact fun other stored => h.scratch_of_idle hidle

theorem tick (h : Steady config replica) (hidle : replica.coreActions = []) :
    Steady config { replica with tickedScratchNum := replica.core.proposeNum } := by
  refine { h with queue := ⟨_, _, [], @Queue.run _ _ _ _ 0 [] ?_ rfl rfl, fun _ => rfl, ?_⟩ }
  · exact hidle
  · exact fun other stored => h.scratch_of_idle hidle

/-- A block of an idle replica gets a quorum. -/
theorem fill (h : Steady config replica) (hidle : replica.coreActions = [])
    (hmem : blockNum ∈ replica.blockScratches) (block' : Block crypto)
    (hblock : replica.core.blocks[blockNum]? = some block)
    (hcommands : block'.commands = block.commands) (hdigest : block'.digest = block.digest)
    (hcommit : block.commitQuorum.isSome → block'.commitQuorum = block.commitQuorum)
    (hordered : block'.commitQuorum.isSome → block'.prepareQuorum.isSome) :
    Steady config { replica with
      core := { replica.core with blocks := replica.core.blocks.insert blockNum block' } } := by
  refine { h with
    toStored := h.toStored.insert ?_ hordered ?_
    backed := by simp [hidle]
    queue := ⟨_, _, [], @Queue.run _ _ _ _ 0 [] hidle rfl rfl, fun _ => rfl, ?_⟩ }
  · rw [hdigest, hcommands]
    exact h.digest _ _ hblock
  · intro hge hle
    obtain ⟨stored, hstored, hsome⟩ := h.committed blockNum hge hle
    obtain rfl := Option.some.inj (hblock.symm.trans hstored)
    rwa [hcommit hsome]
  · intro other stored hstored hsome hlate
    by_cases heq : blockNum = other
    · exact heq ▸ hmem
    · exact h.scratch_of_idle hidle ((getElem?_insert_of_ne heq _).symm.trans hstored) hsome hlate

/-- A prepare quorum queues the Commit. -/
theorem prepareOutcome (h : Steady config replica) (hidle : replica.coreActions = [])
    (hcheck : PrepareOutcome replica blockNum scratch next) : Steady config next := by
  cases hcheck with
  | waiting => exact h.put _ _
  | @prepared block hblock hnone =>
      have hcommit := h.uncommitted_of_unprepared hblock hnone
      have hput := h.put blockNum { scratch with prepareQuorum := ∅ }
      have hfill := hput.fill hidle (by simp)
        { block with prepareQuorum := some scratch.prepareQuorum } hblock rfl rfl
        (fun _ => rfl) (by simp)
      rw [hidle, List.nil_append]
      refine hfill.solo hidle trivial ?_ ⟨_, getElem?_insert_self _ _, rfl⟩
      exact ⟨by simp, _, getElem?_insert_self _ _, rfl, hcommit⟩

/-- A commit quorum queues what can be finalized, and what can be proposed then. -/
theorem commitOutcome (h : Steady config replica) (hidle : replica.coreActions = [])
    (hopen : replica.core.isPrepared blockNum = true →
      ∀ block, replica.core.blocks[blockNum]? = some block → block.prepareQuorum.isSome)
    (hcheck : CommitOutcome replica blockNum scratch next) :
    Steady config next ∧ ∀ action ∈ next.coreActions, Flat action := by
  cases hcheck with
  | waiting => exact ⟨h.put _ _, by simp [hidle]⟩
  | @committed block core actions hblock hnone _ _ hlooped hhandle hprepared =>
      have hsome := hopen hprepared block hblock
      obtain ⟨log, hissued⟩ := h.issued
      have hput := h.put blockNum { scratch with commitQuorum := ∅ }
      have hfill := hput.fill hidle (by simp)
        { block with commitQuorum := some scratch.commitQuorum } hblock rfl rfl
        (by simp [hnone]) (fun _ => hsome)
      rcases ReplicaCore.handle_commitQuorum_or hblock hsome hnone scratch.commitQuorum hissued
          h.closeLoop with
        ⟨pool, count, lists, hlaw, hpool, hclose, hbackup, hrun, hwindow, -⟩ | ⟨hlaw, -⟩
      · obtain ⟨rfl, rfl⟩ := Prod.mk.inj (Except.ok.inj (hhandle.symm.trans hlaw))
        rw [hidle, List.nil_append]
        refine ⟨{ hfill with
          toStored := hfill.toStored.advance hrun
          backed := fun action hmem => (hlooped action hmem).flat.backed
          issued := ⟨_, hpool⟩
          closeLoop := hclose
          window := fun hprimary => (hwindow hprimary).trans (Nat.le_add_right _ _)
          queue := ⟨_, _, lists, @Queue.run _ _ _ _ count lists rfl rfl rfl, hbackup, ?_⟩ },
          fun action hmem => (hlooped action hmem).flat⟩
        exact fun other stored => hfill.scratch_of_idle hidle
      · rw [hlaw] at hhandle
        cases hhandle

/-! ## What the actions preserve -/

/-- Taking an action off that is alone leaves nothing. -/
theorem pop (h : Steady config replica) (hqueue : replica.coreActions = action :: rest)
    (hsolo : action.Solo) :
    rest = [] ∧ replica.Enabled action ∧ Steady config { replica with coreActions := [] } := by
  obtain ⟨done, stored, lists, hshape, -, hscratch⟩ := h.queue
  obtain ⟨rfl, rfl, henabled, rfl, rfl⟩ := hshape.solo_head hqueue hsolo
  refine ⟨rfl, henabled, { h with
    backed := by simp
    queue := ⟨_, _, [], @Queue.run _ _ _ _ 0 [] rfl rfl rfl, fun _ => rfl, hscratch⟩ }⟩

/-- A queued finalization is of a stored block and has a scratch, which it takes away. -/
theorem popFinalize (h : Steady config replica)
    (hqueue : replica.coreActions = .finalize blockNum :: rest) :
    blockNum ∈ replica.blockScratches ∧
      (∃ block : Block crypto, replica.core.blocks[blockNum]? = some block) ∧
      Steady config { replica with
        coreActions := rest
        blockScratches := replica.blockScratches.erase blockNum } := by
  obtain ⟨done, stored, lists, hshape, hbackup, hscratch⟩ := h.queue
  have hrest := (h.toSound.rest hqueue).backed
  cases hshape.head hqueue with
  | solo hsolo => exact False.elim hsolo
  | @finalize count _ hfinalize hpropose =>
      obtain ⟨block, hblock, hcommitted⟩ := h.committed (done + 1) (by omega) (by omega)
      have hmem := hscratch _ block hblock (h.prepared _ block hblock hcommitted) (by omega)
      refine ⟨hmem, ⟨block, hblock⟩, { h with
        backed := hrest
        queue := ⟨done + 1, stored, lists, .run rfl hfinalize hpropose, hbackup, ?_⟩ }⟩
      intro other entry hentry hsome hlate
      rw [Std.ExtTreeMap.mem_erase]
      refine ⟨?_, hscratch other entry hentry hsome (by omega)⟩
      simp only [compare_eq_iff_eq, ne_eq]
      omega

theorem popPropose (h : Steady config replica) {commands : List Command}
    (hqueue : replica.coreActions = .propose blockNum commands :: rest) :
    replica.core.isPrimary = true ∧ Steady config { replica with coreActions := rest } := by
  obtain ⟨done, stored, lists, hshape, hbackup, hscratch⟩ := h.queue
  have hrest := (h.toSound.rest hqueue).backed
  cases hshape.head hqueue with
  | solo hsolo => exact False.elim hsolo
  | @propose _ lists hfinalize hpropose =>
      have hprimary : replica.core.isPrimary = true := by
        by_contra hnot
        cases hbackup (by simpa using hnot)
      refine ⟨hprimary, { h with
        backed := hrest
        queue := ⟨done, stored + 1, lists, @Queue.run _ _ _ _ 0 lists rfl hfinalize hpropose,
          fun hnot => ?_, hscratch⟩ }⟩
      exact absurd (hnot.symm.trans hprimary) (by decide)

/-! ## Runs -/

theorem step (h : Steady config replica) (hstep : Step replica event next) :
    Steady config next := by
  have houtcome := hstep.outcome
  cases hstep with
  | call hidle =>
      cases houtcome with
      | drop | resend => exact h
      | request _ _ hhandle => exact (h.request hidle hhandle).1
      | accept hnone => exact h.accept hidle hnone rfl rfl rfl
      | keepPrepare | keepCommit => exact h.put _ _
      | countPrepare _ _ _ hcheck => exact h.prepareOutcome hidle hcheck
      | countCommit _ hblock _ hcheck hopen =>
          refine (h.commitOutcome hidle (fun hprepared block hblock => ?_) hcheck).1
          exact (isCommitted_eq_false hopen hblock hprepared).1
      | tick => exact h.tick hidle
  | perform =>
      cases houtcome with
      | propose hqueue hstored =>
          obtain ⟨hprimary, hpop⟩ := h.popPropose hqueue
          rcases hstored with ⟨-, rfl, rfl⟩ | ⟨block, hdigest, hprepare, hcommit, hnone, rfl, rfl⟩
          · rwa [List.append_nil]
          · rw [hprimary, if_pos rfl, List.append_nil]
            exact hpop.store hnone hdigest hprepare hcommit
      | prepare hqueue hcheck =>
          obtain ⟨rfl, -, hpop⟩ := h.pop hqueue trivial
          exact hpop.prepareOutcome rfl hcheck
      | commit hqueue _ hcheck =>
          obtain ⟨rfl, ⟨-, block, hblock, hsome, -⟩, hpop⟩ := h.pop hqueue trivial
          refine (hpop.commitOutcome rfl (fun _ other hother => ?_) hcheck).1
          exact Option.some.inj (hblock.symm.trans hother) ▸ hsome
      | finalize hqueue => exact (h.popFinalize hqueue).2.2
      | forward hqueue =>
          obtain ⟨rfl, -, hpop⟩ := h.pop hqueue trivial
          exact hpop
      | enterView hqueue => exact absurd (h.head hqueue) id

theorem of_run (hrun : FreeRun config history replica) : Steady config replica :=
  hrun.invariant (P := fun _ => Steady config) (fun _ => of_new) fun _ _ _ _ _ h hstep =>
    h.step hstep

end Steady

end Replica

end BftKit.Pbft
