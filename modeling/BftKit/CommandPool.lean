import BftKit.CommandPool.CloseLoop
import BftKit.CommandPool.OpenLoop

/-! # Command pools

The two variants behind one interface. What the protocols need of either is
`Issued`: the commands a pool has handed out have increasing sequence numbers for
each client, whatever is pushed and committed in between.
-/

namespace BftKit

open Foundation

inductive CommandPool where
  | closeLoop (pool : CloseLoop.CommandPool)
  | openLoop (pool : OpenLoop.CommandPool)

namespace CommandPool

def push : CommandPool → Command → Except Panic (CommandPool × Bool)
  | closeLoop pool, command => do
      let (pool, accepted) ← pool.push command
      .ok (closeLoop pool, accepted)
  | openLoop pool, command =>
      let (pool, accepted) := pool.push command
      .ok (openLoop pool, accepted)

def closeBatch : CommandPool → Nat → Except Panic (CommandPool × Option (List Command))
  | closeLoop pool, maxBatchSize => do
      let (pool, batch) ← pool.closeBatch maxBatchSize
      .ok (closeLoop pool, batch)
  | openLoop pool, maxBatchSize => do
      let (pool, batch) ← pool.closeBatch maxBatchSize
      .ok (openLoop pool, batch)

def commit : CommandPool → Command → Except Panic CommandPool
  | closeLoop pool, command => do
      let pool ← pool.commit command
      .ok (closeLoop pool)
  | openLoop pool, command => .ok (openLoop (pool.commit command))

/-- The commands that wait for a batch. -/
def pending : CommandPool → List Command
  | closeLoop pool => pool.pendingQueue
  | openLoop pool => pool.pendingBuf

def IsCloseLoop : CommandPool → Prop
  | closeLoop _ => True
  | openLoop _ => False

def Issued (log : List Command) : CommandPool → Prop
  | closeLoop pool => pool.Issued log
  | openLoop pool => pool.Issued log

theorem closeLoop_new_issued : Issued [] (closeLoop .new) := CloseLoop.CommandPool.new_issued

theorem openLoop_new_issued : Issued [] (openLoop .new) := OpenLoop.CommandPool.new_issued

/-- There is no batch only if nothing waits. -/
theorem closeBatch_none {pool next : CommandPool} {maxBatchSize : Nat}
    (hclose : pool.closeBatch maxBatchSize = .ok (next, none)) : next.pending = [] := by
  cases pool with
  | closeLoop pool =>
      simp only [CommandPool.closeBatch, bind_eq_ok] at hclose
      obtain ⟨⟨next', batch'⟩, hclose', heq⟩ := hclose
      obtain ⟨rfl, rfl⟩ := Prod.mk.inj (Except.ok.inj heq)
      unfold CloseLoop.CommandPool.closeBatch at hclose'
      split at hclose'
      next hempty =>
        obtain ⟨rfl, -⟩ := Prod.mk.inj (Except.ok.inj hclose')
        exact hempty
      next =>
        rw [bind_eq_ok] at hclose'
        obtain ⟨_, _, heq'⟩ := hclose'
        cases heq'
  | openLoop pool =>
      simp only [CommandPool.closeBatch, bind_eq_ok] at hclose
      obtain ⟨⟨next', batch'⟩, hclose', heq⟩ := hclose
      obtain ⟨rfl, rfl⟩ := Prod.mk.inj (Except.ok.inj heq)
      unfold OpenLoop.CommandPool.closeBatch at hclose'
      split at hclose'
      · cases hclose'
      · split at hclose'
        next hempty =>
          obtain ⟨rfl, -⟩ := Prod.mk.inj (Except.ok.inj hclose')
          exact hempty
        next => cases hclose'

namespace Issued

variable {pool : CommandPool} {log : List Command}

theorem increasing (hpool : pool.Issued log) : SeqIncreasing log := by
  cases pool with
  | closeLoop pool => exact CloseLoop.CommandPool.Issued.increasing hpool
  | openLoop pool =>
      exact (SeqIncreasing.append_iff.mp (OpenLoop.CommandPool.Issued.increasing hpool)).1

/-- A push never panics and keeps the issued log. -/
theorem push (hpool : pool.Issued log) (command : Command) :
    ∃ next accepted, pool.push command = .ok (next, accepted) ∧ next.Issued log ∧
      (next.IsCloseLoop ↔ pool.IsCloseLoop) := by
  cases pool with
  | closeLoop pool =>
      obtain ⟨next, accepted, hpush, hnext⟩ := CloseLoop.CommandPool.Issued.push hpool command
      exact ⟨.closeLoop next, accepted, by simp [CommandPool.push, hpush], hnext, .rfl⟩
  | openLoop pool => exact ⟨_, _, rfl, OpenLoop.CommandPool.Issued.push hpool command, .rfl⟩

/-- A commit never panics and keeps the issued log. -/
theorem commit (hpool : pool.Issued log) (command : Command) :
    ∃ next, pool.commit command = .ok next ∧ next.Issued log ∧
      (next.IsCloseLoop ↔ pool.IsCloseLoop) := by
  cases pool with
  | closeLoop pool =>
      obtain ⟨next, hcommit, hnext⟩ := CloseLoop.CommandPool.Issued.commit hpool command
      exact ⟨.closeLoop next, by simp [CommandPool.commit, hcommit], hnext, .rfl⟩
  | openLoop pool => exact ⟨_, rfl, OpenLoop.CommandPool.Issued.commit hpool command, .rfl⟩

/-- Committing a block never panics and keeps the issued log. -/
theorem commit_all (hpool : pool.Issued log) (commands : List Command) :
    ∃ next, commands.foldlM CommandPool.commit pool = .ok next ∧ next.Issued log ∧
      (next.IsCloseLoop ↔ pool.IsCloseLoop) := by
  refine foldlM_ok
    (fun next : CommandPool => next.Issued log ∧ (next.IsCloseLoop ↔ pool.IsCloseLoop))
    ?_ ⟨hpool, .rfl⟩
  rintro value command - ⟨hvalue, hvariant⟩
  obtain ⟨next, hcommit, hnext, hsame⟩ := hvalue.commit command
  exact ⟨next, hcommit, hnext, hsame.trans hvariant⟩

/-- A push lets one more command wait at most. -/
theorem push_length (hpool : pool.Issued log) {command : Command} {next : CommandPool}
    {accepted : Bool} (hpush : pool.push command = .ok (next, accepted)) :
    next.pending.length ≤ pool.pending.length + 1 := by
  cases pool with
  | closeLoop pool =>
      have hwf := CloseLoop.CommandPool.Issued.wf hpool
      simp only [CommandPool.push, bind_eq_ok] at hpush
      obtain ⟨⟨next', accepted'⟩, hpush, heq⟩ := hpush
      obtain ⟨rfl, rfl⟩ := Prod.mk.inj (Except.ok.inj heq)
      rcases hwf.push_cases command with ⟨-, hcase⟩ | ⟨-, _, _, -, -, -, hcase⟩ | ⟨-, -, hcase⟩ <;>
        obtain ⟨rfl, -⟩ := Prod.mk.inj (Except.ok.inj (hpush.symm.trans hcase)) <;>
        simp [pending]
  | openLoop pool =>
      obtain ⟨rfl, -⟩ := Prod.mk.inj (Except.ok.inj hpush)
      change (pool.push command).1.pendingBuf.length ≤ pool.pendingBuf.length + 1
      unfold OpenLoop.CommandPool.push
      split
      · exact Nat.le_succ _
      · rw [List.length_append]
        apply Nat.succ_le_succ
        split
        · exact (List.tail_sublist _).length_le
        · exact le_rfl

/-- A commit lets no command wait. -/
theorem commit_length (hpool : pool.Issued log) {command : Command} {next : CommandPool}
    (hcommit : pool.commit command = .ok next) : next.pending.length ≤ pool.pending.length := by
  cases pool with
  | closeLoop pool =>
      simp only [CommandPool.commit, bind_eq_ok] at hcommit
      obtain ⟨next', hcommit, heq⟩ := hcommit
      obtain rfl := Except.ok.inj heq
      obtain ⟨next'', hcase, -, -, hqueue⟩ :=
        (CloseLoop.CommandPool.Issued.wf hpool).commit_cases command
      obtain rfl := Except.ok.inj (hcommit.symm.trans hcase)
      rcases hqueue with ⟨hsame, -⟩ | ⟨index, old, -, -, -, hremoved⟩
      · exact (congrArg List.length hsame).le
      · simp only [pending, hremoved, CloseLoop.swapRemove]
        split
        · exact le_rfl
        · rw [List.length_dropLast, List.length_set]
          exact Nat.sub_le _ _
  | openLoop pool =>
      obtain rfl := Except.ok.inj hcommit
      exact le_rfl

theorem commit_all_length (hpool : pool.Issued log) {commands : List Command} {next : CommandPool}
    (hcommit : commands.foldlM CommandPool.commit pool = .ok next) :
    next.pending.length ≤ pool.pending.length := by
  induction commands generalizing pool with
  | nil =>
      obtain rfl := Except.ok.inj hcommit
      exact le_rfl
  | cons command rest ih =>
      obtain ⟨middle, hmiddle, hissued, -⟩ := hpool.commit command
      rw [List.foldlM_cons, hmiddle, ok_bind] at hcommit
      exact (ih hissued hcommit).trans (hpool.commit_length hmiddle)

/-- What a batch takes no longer waits. -/
theorem closeBatch_length (hpool : pool.Issued log) {maxBatchSize : Nat} {next : CommandPool}
    {batch : Option (List Command)} (hclose : pool.closeBatch maxBatchSize = .ok (next, batch)) :
    next.pending.length + (batch.getD []).length ≤ pool.pending.length := by
  cases pool with
  | closeLoop pool =>
      simp only [CommandPool.closeBatch, bind_eq_ok] at hclose
      obtain ⟨⟨next', batch'⟩, hclose, heq⟩ := hclose
      obtain ⟨rfl, rfl⟩ := Prod.mk.inj (Except.ok.inj heq)
      rcases (CloseLoop.CommandPool.Issued.wf hpool).closeBatch_cases maxBatchSize with
        ⟨-, hcase⟩ | ⟨next'', -, hcase, -, hqueue, -⟩ <;>
        obtain ⟨rfl, rfl⟩ := Prod.mk.inj (Except.ok.inj (hclose.symm.trans hcase))
      · exact le_rfl
      · simp only [pending, hqueue, Option.getD_some, List.length_drop, List.length_take]
        omega
  | openLoop pool =>
      simp only [CommandPool.closeBatch, bind_eq_ok] at hclose
      obtain ⟨⟨next', batch'⟩, hclose, heq⟩ := hclose
      obtain ⟨rfl, rfl⟩ := Prod.mk.inj (Except.ok.inj heq)
      unfold OpenLoop.CommandPool.closeBatch at hclose
      split at hclose
      · cases hclose
      · split at hclose <;> obtain ⟨rfl, rfl⟩ := Prod.mk.inj (Except.ok.inj hclose)
        · exact le_rfl
        · simp only [pending, Option.getD_some, List.length_nil, List.length_drop]
          omega

/-- A batch extends the issued log. -/
theorem closeBatch (hpool : pool.Issued log) {maxBatchSize : Nat} {next : CommandPool}
    {batch : Option (List Command)} (hclose : pool.closeBatch maxBatchSize = .ok (next, batch)) :
    next.Issued (log ++ batch.getD []) ∧ (next.IsCloseLoop ↔ pool.IsCloseLoop) := by
  cases pool with
  | closeLoop pool =>
      obtain ⟨next', batch', hclose', hnext⟩ :=
        CloseLoop.CommandPool.Issued.closeBatch hpool maxBatchSize
      obtain ⟨rfl, rfl⟩ : CommandPool.closeLoop next' = next ∧ batch' = batch := by
        simpa [CommandPool.closeBatch, hclose'] using hclose
      exact ⟨hnext, .rfl⟩
  | openLoop pool =>
      simp only [CommandPool.closeBatch, bind_eq_ok] at hclose
      obtain ⟨⟨next', batch'⟩, hclose', heq⟩ := hclose
      obtain ⟨rfl, rfl⟩ : CommandPool.openLoop next' = next ∧ batch' = batch := by
        simpa using heq
      exact ⟨OpenLoop.CommandPool.Issued.closeBatch hpool hclose', .rfl⟩

/-- Closing a batch of a close-loop pool never panics. -/
theorem closeBatch_ok (hpool : pool.Issued log) (hvariant : pool.IsCloseLoop)
    (maxBatchSize : Nat) : ∃ next batch, pool.closeBatch maxBatchSize = .ok (next, batch) := by
  cases pool with
  | closeLoop pool =>
      obtain ⟨next, batch, hclose, -⟩ :=
        CloseLoop.CommandPool.Issued.closeBatch hpool maxBatchSize
      exact ⟨.closeLoop next, batch, by simp [CommandPool.closeBatch, hclose]⟩
  | openLoop pool => exact absurd hvariant id

/-- Closing a batch fails on the bound that the open-loop pool asserts only. -/
theorem closeBatch_error (hpool : pool.Issued log) {maxBatchSize : Nat} {panic : Panic}
    (hclose : pool.closeBatch maxBatchSize = .error panic) :
    panic = .batchSize ∧ ¬pool.IsCloseLoop ∧ OpenLoop.CommandPool.maxLen < maxBatchSize := by
  cases pool with
  | closeLoop pool =>
      obtain ⟨next, batch, hok⟩ := hpool.closeBatch_ok trivial maxBatchSize
      cases hclose.symm.trans hok
  | openLoop pool =>
      rw [CommandPool.closeBatch, bind_eq_error] at hclose
      rcases hclose with hclose | ⟨value, -, hrest⟩
      · unfold OpenLoop.CommandPool.closeBatch at hclose
        split at hclose
        next hlt => exact ⟨(Except.error.inj hclose).symm, id, hlt⟩
        next => split at hclose <;> cases hclose
      · cases hrest

end Issued

/-- A batch of a size that is not zero is not empty. -/
theorem closeBatch_ne_nil {pool next : CommandPool} {maxBatchSize : Nat} {batch : List Command}
    (hclose : pool.closeBatch maxBatchSize = .ok (next, some batch)) (hsize : 0 < maxBatchSize) :
    batch ≠ [] := by
  cases pool with
  | closeLoop pool =>
      simp only [CommandPool.closeBatch, bind_eq_ok] at hclose
      obtain ⟨result, hclose, heq⟩ := hclose
      have hbatch : result.2 = some batch := congrArg Prod.snd (Except.ok.inj heq)
      unfold CloseLoop.CommandPool.closeBatch at hclose
      split at hclose
      next =>
        rw [← Except.ok.inj hclose] at hbatch
        cases hbatch
      next hpending =>
        rw [bind_eq_ok] at hclose
        obtain ⟨closed, -, heq⟩ := hclose
        rw [← Except.ok.inj heq] at hbatch
        rw [← Option.some.inj hbatch]
        have hlength := List.length_pos_of_ne_nil hpending
        intro hnil
        have := congrArg List.length hnil
        rw [List.length_take, List.length_nil] at this
        omega
  | openLoop pool =>
      simp only [CommandPool.closeBatch, bind_eq_ok] at hclose
      obtain ⟨result, hclose, heq⟩ := hclose
      have hbatch : result.2 = some batch := congrArg Prod.snd (Except.ok.inj heq)
      unfold OpenLoop.CommandPool.closeBatch at hclose
      split at hclose
      next => cases hclose
      next =>
        split at hclose
        next =>
          rw [← Except.ok.inj hclose] at hbatch
          cases hbatch
        next hpending =>
          rw [← Except.ok.inj hclose] at hbatch
          rw [← Option.some.inj hbatch]
          have hlength := List.length_pos_of_ne_nil hpending
          intro hnil
          have := congrArg List.length hnil
          rw [List.length_drop, List.length_nil] at this
          omega

end CommandPool

end BftKit
