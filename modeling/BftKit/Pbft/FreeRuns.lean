import BftKit.Pbft.Outcome
import BftKit.Pbft.Trace

/-! # Runs with any messages

A primary may be shown PrePrepares under its own key that it has not signed, and little of
what the effects rest on is left. What is left holds of every replica: its view and its keys
are the first ones, blocks stay under their numbers, and every queued Prepare or Commit is
for the block that is stored there.
-/

namespace BftKit.Pbft

open Foundation

variable {crypto : Crypto}

namespace Replica

/-- The runs of one replica in which anything at all may be delivered. -/
abbrev FreeRun (config : ReplicaCoreConfig) :
    List (Event crypto) → Replica crypto → Prop :=
  Run (fun replica => Replica.new crypto config = .ok replica) fun _ => Step

/-- What a queued action is queued for. -/
def Backed (blocks : Blocks crypto) : ReplicaCoreAction crypto → Prop
  | .prepare blockNum digest => ∃ block : Block crypto, blocks[blockNum]? = some block ∧
      block.digest = digest
  | .commit blockNum => ∃ block : Block crypto, blocks[blockNum]? = some block ∧
      block.prepareQuorum.isSome
  | .propose _ _ | .finalize _ | .forward _ _ => True
  | .viewChange _ _ | .newView _ _ _ | .enterView => False

/-- What every replica keeps to, whatever it is shown. -/
structure Sound (config : ReplicaCoreConfig) (replica : Replica crypto) : Prop where
  configured : replica.core.config = config
  view : replica.core.viewNum = 0
  member : config.id < config.spec.numReplica
  secretKey : replica.cryptoConfig.secretKey = crypto.replicaSecretKey config.id
  publicKeys : replica.cryptoConfig.publicKeys =
    (List.range config.spec.numReplica).map fun id =>
      crypto.publicKey (crypto.replicaSecretKey id)
  backed : ∀ action ∈ replica.coreActions, Backed replica.core.blocks action

variable {config : ReplicaCoreConfig} {replica next : Replica crypto} {event : Event crypto}
  {history : List (Event crypto)} {blocks blocks' : Blocks crypto}
  {action : ReplicaCoreAction crypto} {blockNum : Nat} {scratch : BlockScratch crypto}

/-! ## Queued actions -/

theorem Flat.backed (hflat : Flat action) : Backed blocks action := by
  cases action with
  | propose | finalize | forward => trivial
  | prepare | commit | viewChange | newView | enterView => exact absurd hflat id

theorem Backed.mono (h : Backed blocks action) (hkeeps : Keeps blocks blocks') :
    Backed blocks' action := by
  cases action with
  | prepare blockNum digest =>
      obtain ⟨block, hblock, hdigest⟩ := h
      obtain ⟨block', hblock', -, hdigest', -⟩ := hkeeps blockNum block hblock
      exact ⟨block', hblock', hdigest'.trans hdigest⟩
  | commit blockNum =>
      obtain ⟨block, hblock, hprepared⟩ := h
      obtain ⟨block', hblock', -, -, hprepare, -⟩ := hkeeps blockNum block hblock
      exact ⟨block', hblock', hprepare hprepared ▸ hprepared⟩
  | propose | finalize | forward => trivial
  | viewChange | newView | enterView => exact absurd h id

/-! ## Blocks stay -/

theorem PrepareOutcome.keeps (hcheck : PrepareOutcome replica blockNum scratch next) :
    Keeps replica.core.blocks next.core.blocks := by
  cases hcheck with
  | waiting => exact .refl _
  | prepared hblock hnone => exact .insert_over hblock rfl rfl (by simp [hnone]) fun _ => rfl

theorem CommitOutcome.keeps (hcheck : CommitOutcome replica blockNum scratch next) :
    Keeps replica.core.blocks next.core.blocks := by
  cases hcheck with
  | waiting => exact .refl _
  | committed hblock hnone _ hcore =>
      rw [hcore]
      exact .insert_over hblock rfl rfl (fun _ => rfl) (by simp [hnone])

/-- Whatever happens, blocks are never replaced, and neither are the quorums they hold. -/
theorem Outcome.keeps (h : Outcome replica event next) :
    Keeps replica.core.blocks next.core.blocks := by
  cases h with
  | drop | resend | keepPrepare | keepCommit | tick | finalize | forward | enterView =>
      exact .refl _
  | request hcore =>
      rw [hcore]
      exact .refl _
  | accept hnone => exact .insert_new hnone _
  | countPrepare _ _ _ hcheck => exact hcheck.keeps
  | countCommit _ _ _ hcheck => exact hcheck.keeps
  | prepare _ hcheck =>
      have hkeeps := hcheck.keeps
      exact hkeeps
  | commit _ _ hcheck =>
      have hkeeps := hcheck.keeps
      exact hkeeps
  | propose _ hstored =>
      rcases hstored with ⟨-, rfl, -⟩ | ⟨block, -, -, -, hnone, rfl, -⟩
      · exact .refl _
      · exact .insert_new hnone block

/-! ## The rest that stays -/

/-- What is queued stays backed, and so does what is added. -/
theorem Sound.append {added : ReplicaCoreActions crypto} (h : Sound config replica)
    (hkeeps : Keeps replica.core.blocks blocks) (hadded : ∀ action ∈ added, Backed blocks action) :
    ∀ action ∈ replica.coreActions ++ added, Backed blocks action := by
  refine List.forall_mem_append.mpr ⟨?_, hadded⟩
  exact fun action hmem => (h.backed action hmem).mono hkeeps

theorem PrepareOutcome.sound (h : Sound config replica)
    (hcheck : PrepareOutcome replica blockNum scratch next) : Sound config next := by
  have hkeeps := hcheck.keeps
  cases hcheck with
  | waiting => exact { h with }
  | prepared hblock hnone =>
      refine { h with backed := h.append hkeeps ?_ }
      rw [List.forall_mem_singleton]
      exact ⟨_, getElem?_insert_self _ _, rfl⟩

theorem CommitOutcome.sound (h : Sound config replica)
    (hcheck : CommitOutcome replica blockNum scratch next) : Sound config next := by
  have hkeeps := hcheck.keeps
  cases hcheck with
  | waiting => exact { h with }
  | committed hblock hnone _ hcore hlooped =>
      refine { h with configured := ?_, view := ?_, backed := h.append hkeeps ?_ }
      · rw [hcore]
        exact h.configured
      · rw [hcore]
        exact h.view
      · exact fun action hmem => (hlooped action hmem).flat.backed

theorem Sound.rest {rest : ReplicaCoreActions crypto} (h : Sound config replica)
    (hqueue : replica.coreActions = action :: rest) :
    Sound config { replica with coreActions := rest } := by
  refine { h with backed := ?_ }
  intro other hmem
  exact h.backed other (hqueue ▸ List.mem_cons_of_mem _ hmem)

theorem Sound.head {rest : ReplicaCoreActions crypto} (h : Sound config replica)
    (hqueue : replica.coreActions = action :: rest) : Backed replica.core.blocks action :=
  h.backed action (hqueue ▸ List.mem_cons_self)

/-- A new block leaves what is queued as it is, and may add a Prepare for itself. -/
theorem Sound.store {block : Block crypto} (h : Sound config replica)
    (hnone : replica.core.blocks[blockNum]? = none) :
    Sound config { replica with
      core := { replica.core with blocks := replica.core.blocks.insert blockNum block }
      coreActions := replica.coreActions ++
        if replica.core.isPrimary then [] else [.prepare blockNum block.digest] } := by
  refine { h with backed := h.append (.insert_new hnone block) ?_ }
  split
  · simp
  · rw [List.forall_mem_singleton]
    exact ⟨block, getElem?_insert_self _ _, rfl⟩

theorem Sound.outcome (h : Sound config replica) (houtcome : Outcome replica event next) :
    Sound config next := by
  cases houtcome with
  | drop | resend => exact h
  | keepPrepare | keepCommit | tick => exact { h with }
  | request hcore hflat =>
      rw [hcore]
      refine { h with backed := h.append (.refl _) ?_ }
      exact fun action hmem => (hflat action hmem).backed
  | accept hnone => exact h.store hnone
  | countPrepare _ _ _ hcheck => exact hcheck.sound h
  | countCommit _ _ _ hcheck => exact hcheck.sound h
  | prepare hqueue hcheck => exact PrepareOutcome.sound (h.rest hqueue) hcheck
  | commit hqueue _ hcheck => exact CommitOutcome.sound (h.rest hqueue) hcheck
  | propose hqueue hstored =>
      rcases hstored with ⟨-, rfl, rfl⟩ | ⟨block, -, -, -, hnone, rfl, rfl⟩
      · rw [List.append_nil]
        exact h.rest hqueue
      · exact Sound.store (h.rest hqueue) hnone
  | finalize hqueue => exact { h.rest hqueue with }
  | forward hqueue => exact h.rest hqueue
  | enterView hqueue => exact { h.rest hqueue with }

theorem Sound.of_new (hnew : Replica.new crypto config = .ok replica) : Sound config replica := by
  simp only [Replica.new, bind_eq_ok] at hnew
  obtain ⟨cryptoConfig, hconfig, hreplica⟩ := hnew
  obtain rfl := Except.ok.inj hreplica
  obtain ⟨hmember, hsecret, hpublic⟩ := ReplicaConfig.new_eq_ok hconfig
  exact ⟨rfl, rfl, hmember, hsecret, hpublic, by simp⟩

theorem FreeRun.sound (hrun : FreeRun config history replica) : Sound config replica := by
  refine hrun.invariant (P := fun _ => Sound config) (fun _ => Sound.of_new) ?_
  intro _ state event next _ hinv hstep
  exact hinv.outcome hstep.outcome

theorem freeRun_of_localRun (hrun : LocalRun config history replica) :
    FreeRun config history replica :=
  hrun.mono (fun _ hnew => hnew) fun _ _ _ _ hstep => hstep.1

theorem Drained.freeRun {events : List (Event crypto)} (h : Drained replica events next)
    (hrun : FreeRun config history replica) : FreeRun config (history ++ events) next := by
  induction h generalizing history with
  | nil => rwa [List.append_nil]
  | cons hqueue hperform _ ih =>
      have hnext := ih (.step hrun (.perform hqueue hperform))
      rwa [List.append_assoc] at hnext

/-! ## Replaying -/

/-- One call, with its loop. -/
def replayCall (run : List (Event crypto) × Replica crypto) (call : Call crypto) :
    Except Panic (List (Event crypto) × Replica crypto) := do
  if run.2.coreActions.isEmpty then
    let called ← run.2.call call
    let drained ← called.1.drain 64
    .ok (run.1 ++ .call call called.2 :: drained.2, drained.1)
  else .error .assert

/-- Calls one after another. -/
def replay (replica : Replica crypto) (calls : List (Call crypto)) :
    Except Panic (List (Event crypto) × Replica crypto) :=
  calls.foldlM replayCall ([], replica)

theorem replay_run {calls : List (Call crypto)}
    (hnew : Replica.new crypto config = .ok replica)
    (hreplay : replica.replay calls = .ok (history, next)) : FreeRun config history next := by
  suffices hfold : ∀ (calls : List (Call crypto)) start, FreeRun config start.1 start.2 →
      calls.foldlM replayCall start = .ok (history, next) → FreeRun config history next from
    hfold calls ([], replica) (.start hnew) hreplay
  intro calls
  induction calls with
  | nil =>
      intro start hstart hfold
      obtain rfl := Except.ok.inj hfold
      exact hstart
  | cons call rest ih =>
      intro start hstart hfold
      rw [List.foldlM_cons, bind_eq_ok] at hfold
      obtain ⟨middle, hmiddle, hrest⟩ := hfold
      refine ih middle ?_ hrest
      unfold replayCall at hmiddle
      split at hmiddle
      next hidle =>
        rw [bind_eq_ok] at hmiddle
        obtain ⟨called, hcall, hmiddle⟩ := hmiddle
        rw [bind_eq_ok] at hmiddle
        obtain ⟨drained, hdrain, heq⟩ := hmiddle
        obtain rfl := Except.ok.inj heq
        have hstep := Run.step hstart (.call (List.isEmpty_iff.mp hidle) hcall)
        have hdrained := (drain_drained hdrain).freeRun hstep
        rwa [List.append_assoc] at hdrained
      next => cases hmiddle

end Replica

end BftKit.Pbft
