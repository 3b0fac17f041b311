import BftKit.Hotstuff.Forest
import BftKit.Options

/-! # Rounds and batch sizes

The arithmetic of proposing relies on batches that are not empty and on a batch size
that the open-loop pool asserts. Neither the options nor the core sees to that.
-/

namespace BftKit.Hotstuff

open Foundation Threshold

variable {scheme : ThresholdScheme}

/-! ## Configurations from options -/

def Spec.tryFrom (options : Options) : Except OptionsError Spec := do
  let numFaulty ← options.get (parseUnsigned 16) "num_faulty"
  let numReplica ← options.get (parseUnsigned 16) "num_replica"
  .ok { numFaulty, numReplica }

def ReplicaCoreConfig.tryFrom (options : Options) : Except OptionsError ReplicaCoreConfig := do
  let spec ← Spec.tryFrom options
  let id ← options.get (parseUnsigned 16) "replica_id"
  let openLoop ← options.tryGet parseBool "open_loop"
  let config := { spec, id, openLoop := openLoop == some true, maxBatchSize := 1 }
  match ← options.tryGet (parseUnsigned 64) "max_batch_size" with
  | some maxBatchSize => .ok { config with maxBatchSize }
  | none => .ok config

namespace ReplicaCore

variable {core core' : ReplicaCore scheme} {config : ReplicaCoreConfig}
  {event : ReplicaCoreEvent scheme} {events : List (ReplicaCoreEvent scheme)}
  {actions : ReplicaCoreActions}

/-- Whatever happens to the core, the count of extra rounds stays in its range, and neither
its subtraction nor the assertion on the batch size fails. -/
def ArithmeticSafe (scheme : ThresholdScheme) (config : ReplicaCoreConfig) : Prop :=
  ∀ events core, CoreRun scheme config events core →
    core.numExtraRound ≤ 3 ∧
    ∀ event, core.handle event ≠ .error .underflow ∧ core.handle event ≠ .error .batchSize

/-! ## Batch sizes that work -/

/-- A batch size that the pool of a core can close batches with. -/
def Workable (config : ReplicaCoreConfig) : Prop :=
  0 < config.maxBatchSize ∧
    (config.openLoop = true → config.maxBatchSize ≤ OpenLoop.CommandPool.maxLen)

theorem Beat.numExtraRound (h : Beat core core' actions) (hextra : core.numExtraRound ≤ 3) :
    core'.numExtraRound ≤ 3 := by
  cases h with
  | wait | backup | rest => exact hextra
  | extra _ _ _ _ hround =>
      rw [hround] at hextra
      exact (Nat.le_succ _).trans hextra
  | propose => exact le_rfl

theorem Beat.variant (h : Beat core core' actions) (hstored : Stored core) :
    core'.pool.IsCloseLoop ↔ core.pool.IsCloseLoop := by
  obtain ⟨log, hlog⟩ := hstored.pool
  cases h with
  | wait => exact .rfl
  | backup _ _ hclose | rest _ _ hclose | extra _ _ hclose | propose _ _ hclose =>
      exact (hlog.closeBatch hclose).2

/-- What a run keeps of the configuration and of the count of rounds. -/
structure Counting (config : ReplicaCoreConfig) (core : ReplicaCore scheme) : Prop where
  stored : Stored core
  same : core.config = config
  variant : core.pool.IsCloseLoop ↔ config.openLoop = false
  extra : core.numExtraRound ≤ 3

theorem CoreRun.counting (hrun : CoreRun scheme config events core) : Counting config core := by
  induction hrun with
  | start hinit =>
      rw [hinit]
      refine ⟨new_stored config, rfl, ?_, Nat.zero_le 3⟩
      cases hopen : config.openLoop <;> simp [new, hopen, CommandPool.IsCloseLoop]
  | step _ hhandle ih =>
      obtain ⟨actions, hhandle⟩ := hhandle
      obtain ⟨hstored, hgrows⟩ := ih.stored.handle hhandle
      obtain ⟨middle, reactions, beats, hreacted, hbeat, -⟩ := ih.stored.handle_ok hhandle
      refine ⟨hstored, hgrows.config.trans ih.same, ?_, ?_⟩
      · rw [hbeat.variant (hreacted.stored ih.stored), hreacted.variant, ih.variant]
      · apply hbeat.numExtraRound
        rw [hreacted.numExtraRound]
        exact ih.extra

/-- A core that counts fails by neither its subtraction nor the assertion on batches. -/
theorem Counting.handle_safe (h : Counting config core) (hsize : Workable config)
    (event : ReplicaCoreEvent scheme) {panic : Panic}
    (hhandle : core.handle event = .error panic) : panic ≠ .underflow ∧ panic ≠ .batchSize := by
  rcases h.stored.handle_error hhandle with hrefused | ⟨middle, reactions, hreacted, hrefused⟩
  · cases hrefused with
    | proposal hrefused | proposed hrefused => cases hrefused <;> exact ⟨by decide, by decide⟩
    | unvotable | quorumCert => exact ⟨by decide, by decide⟩
  · have hconfig : middle.config = config := hreacted.grows.config.trans h.same
    cases hrefused with
    | batchSize _ hclose =>
        obtain ⟨log, hlog⟩ := (hreacted.stored h.stored).pool
        obtain ⟨-, hopen, hlt⟩ := hlog.closeBatch_error hclose
        rw [hreacted.variant, h.variant, Bool.not_eq_false] at hopen
        rw [hconfig] at hlt
        exact absurd (hsize.2 hopen) (not_le.mpr hlt)
    | underflow _ hclose =>
        rw [hconfig] at hclose
        exact absurd rfl (CommandPool.closeBatch_ne_nil hclose hsize.1)
    | overflow => exact ⟨by decide, by decide⟩

/-! ## Batch sizes that do not -/

/-- The first request that a core is given. -/
def firstRequest : Command := ⟨0, 1, []⟩

/-- A new core closes a batch right after its first request. -/
theorem handle_first {pool : CommandPool}
    (hpush : (new scheme config).pool.push firstRequest = .ok (pool, true)) :
    (new scheme config).handle (.request firstRequest) =
      pool.closeBatch config.maxBatchSize >>= fun closed =>
        onBeat { new scheme config with pool := closed.1 } closed.2 := by
  have hbeat : beat { new scheme config with pool } =
      pool.closeBatch config.maxBatchSize >>= fun closed =>
        onBeat { new scheme config with pool := closed.1 } closed.2 := by
    simp only [beat, quorumCert, new, List.getElem?_cons_zero, ok_bind, if_true]
  simp only [handle, react, hpush, ok_bind, hbeat]
  cases pool.closeBatch config.maxBatchSize with
  | error panic => rfl
  | ok closed =>
      rw [ok_bind]
      cases onBeat { new scheme config with pool := closed.1 } closed.2 with
      | error panic => rfl
      | ok result => simp only [ok_bind, List.nil_append]

/-- A leader whose batches are empty fails on its first request. -/
theorem handle_empty (hid : config.id = 0) (hsize : config.maxBatchSize = 0) :
    (new scheme config).handle (.request firstRequest) = .error .underflow := by
  -- the pool returns a batch, so the leader proposes, but there is nothing in the batch
  have hclosed : ∃ pool closed, (new scheme config).pool.push firstRequest = .ok (pool, true) ∧
      pool.closeBatch 0 = .ok (closed, some []) := by
    cases hopen : config.openLoop
    · simp only [new, hopen]
      exact ⟨_, _, rfl, rfl⟩
    · simp only [new, hopen]
      exact ⟨_, _, rfl, rfl⟩
  obtain ⟨pool, closed, hpush, hclose⟩ := hclosed
  rw [handle_first hpush, hsize, hclose, ok_bind, onBeat, if_pos ⟨hid, .inl rfl⟩]
  rfl

/-- A core whose batches are too large to be asked for fails on its first request. -/
theorem handle_large (hopen : config.openLoop = true)
    (hsize : OpenLoop.CommandPool.maxLen < config.maxBatchSize) :
    (new scheme config).handle (.request firstRequest) = .error .batchSize := by
  have hpush : ∃ pool, (new scheme config).pool.push firstRequest =
      .ok (.openLoop pool, true) := by
    simp only [new, hopen]
    exact ⟨_, rfl⟩
  obtain ⟨pool, hpush⟩ := hpush
  rw [handle_first hpush, CommandPool.closeBatch, OpenLoop.CommandPool.closeBatch, if_pos hsize]
  rfl

/-- Of a leader's configurations exactly those with a workable batch size are safe. -/
theorem proposal_arithmetic (scheme : ThresholdScheme) (config : ReplicaCoreConfig)
    (hleader : config.id = (new scheme config).getLeader) :
    ArithmeticSafe scheme config ↔
      0 < config.maxBatchSize ∧ (config.openLoop = true → config.maxBatchSize ≤ 5000) := by
  constructor
  · intro hsafe
    obtain ⟨-, hfirst⟩ := hsafe [] _ (.start rfl)
    obtain ⟨hunderflow, hbatch⟩ := hfirst (.request firstRequest)
    refine ⟨Nat.pos_of_ne_zero fun hzero => hunderflow (handle_empty hleader hzero), ?_⟩
    intro hopen
    exact not_lt.mp fun hlt => hbatch (handle_large hopen hlt)
  · intro hsize events core hrun
    have hcounting := hrun.counting
    refine ⟨hcounting.extra, fun event => ⟨fun hhandle => ?_, fun hhandle => ?_⟩⟩
    · exact (hcounting.handle_safe hsize event hhandle).1 rfl
    · exact (hcounting.handle_safe hsize event hhandle).2 rfl

/-- What a leader may be told on the command line. -/
def leaderOptions (maxBatchSize : String) : Options :=
  (((Options.new.push "num_faulty" "1").push "num_replica" "4").push "replica_id" "0").push
    "max_batch_size" maxBatchSize

/-- The options are not checked. -/
theorem proposal_arithmetic_fails : ¬ ∀ (options : Options) (config : ReplicaCoreConfig),
    ReplicaCoreConfig.tryFrom options = .ok config →
    config.id = (new .transparent config).getLeader → ArithmeticSafe .transparent config := by
  intro hall
  have hsafe := hall (leaderOptions "0") ⟨⟨1, 4⟩, 0, false, 0⟩ rfl rfl
  obtain ⟨-, hfirst⟩ := hsafe [] _ (.start rfl)
  exact (hfirst (.request firstRequest)).1 (handle_empty rfl rfl)

theorem proposal_arithmetic_largest :
    ArithmeticSafe .transparent ⟨⟨1, 4⟩, 0, true, 5000⟩ ∧
      ¬ArithmeticSafe .transparent ⟨⟨1, 4⟩, 0, true, 5001⟩ := by
  constructor
  · exact (proposal_arithmetic _ ⟨⟨1, 4⟩, 0, true, 5000⟩ rfl).mpr ⟨by decide, fun _ => le_rfl⟩
  · intro hsafe
    have hsize := (proposal_arithmetic _ ⟨⟨1, 4⟩, 0, true, 5001⟩ rfl).mp hsafe
    exact absurd (hsize.2 rfl) (by decide)

end ReplicaCore

end BftKit.Hotstuff
