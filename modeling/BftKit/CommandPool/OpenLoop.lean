import BftKit.Basic
import BftKit.Foundation.Map
import BftKit.Foundation.Result

/-! # The open-loop command pool

Many pending commands per client, in a bounded buffer that forgets its oldest
command when full and is emptied by every batch. The push and commit counters of
the source only feed a log line and are left out.
-/

namespace BftKit.OpenLoop

open Foundation

structure CommandPool where
  pendingBuf : List Command
  clientSeqs : Map ClientId ClientSeq

namespace CommandPool

def maxLen : Nat := 5000

def new : CommandPool := ⟨[], ∅⟩

/-- `matches!(client_seqs.get(..), Some(&seq) if seq >= command.seq)`. -/
def seenAtLeast (pool : CommandPool) (command : Command) : Bool :=
  (pool.clientSeqs.lookup command.clientId).any (command.seq ≤ ·)

def push (pool : CommandPool) (command : Command) : CommandPool × Bool :=
  if pool.seenAtLeast command then (pool, false)
  else
    let pendingBuf :=
      if pool.pendingBuf.length = maxLen then pool.pendingBuf.tail else pool.pendingBuf
    ({ pendingBuf := pendingBuf ++ [command]
       clientSeqs := pool.clientSeqs.insert command.clientId command.seq }, true)

def closeBatch (pool : CommandPool) (maxBatchSize : Nat) :
    Except Panic (CommandPool × Option (List Command)) :=
  if maxLen < maxBatchSize then .error .batchSize
  else if pool.pendingBuf = [] then .ok (pool, none)
  else
    let numSkipped := max pool.pendingBuf.length maxBatchSize - maxBatchSize
    .ok ({ pool with pendingBuf := [] }, some (pool.pendingBuf.drop numSkipped))

def commit (pool : CommandPool) (command : Command) : CommandPool :=
  { pool with
    clientSeqs := pool.clientSeqs.insert command.clientId
      (max ((pool.clientSeqs.lookup command.clientId).getD 0) command.seq) }

theorem seenAtLeast_iff {pool : CommandPool} {command : Command} :
    pool.seenAtLeast command = true ↔
      ∃ seq, pool.clientSeqs.lookup command.clientId = some seq ∧ command.seq ≤ seq := by
  cases hlookup : pool.clientSeqs.lookup command.clientId <;>
    simp [seenAtLeast, hlookup]

/-- The log lists commands that left the pool. Together with the buffer it has
increasing sequence numbers for each client, all of them seen. -/
structure Issued (pool : CommandPool) (log : List Command) : Prop where
  increasing : SeqIncreasing (log ++ pool.pendingBuf)
  seen : ∀ command ∈ log ++ pool.pendingBuf, pool.seenAtLeast command = true

theorem new_issued : new.Issued [] := ⟨.nil, by simp [new]⟩

namespace Issued

variable {pool : CommandPool} {log : List Command}

theorem of_sublist (hpool : pool.Issued log) {log' pendingBuf : List Command}
    (hsub : (log' ++ pendingBuf).Sublist (log ++ pool.pendingBuf)) :
    Issued { pool with pendingBuf } log' where
  increasing := hpool.increasing.sublist hsub
  seen := fun command hmem => hpool.seen command (hsub.subset hmem)

theorem push (hpool : pool.Issued log) (command : Command) :
    (pool.push command).1.Issued log := by
  unfold CommandPool.push
  split
  next => exact hpool
  next hnot =>
    have hkept : (log ++ if pool.pendingBuf.length = maxLen then pool.pendingBuf.tail
        else pool.pendingBuf).Sublist (log ++ pool.pendingBuf) := by
      apply List.Sublist.append_left
      split
      · exact List.tail_sublist _
      · exact List.Sublist.refl _
    have hbefore := hpool.of_sublist hkept
    refine ⟨?_, ?_⟩
    · rw [← List.append_assoc]
      refine SeqIncreasing.append_iff.mpr ⟨hbefore.increasing, List.pairwise_singleton _ _, ?_⟩
      intro earlier hearlier later hlater heq
      obtain rfl := List.mem_singleton.mp hlater
      obtain ⟨seq, hlookup, hle⟩ := seenAtLeast_iff.mp (hbefore.seen earlier hearlier)
      by_contra hlt
      exact hnot (seenAtLeast_iff.mpr ⟨seq, heq ▸ hlookup, (not_lt.mp hlt).trans hle⟩)
    · intro entry hmem
      rw [← List.append_assoc, List.mem_append, List.mem_singleton] at hmem
      rw [seenAtLeast_iff, Map.lookup_insert]
      rcases hmem with hold | rfl
      · obtain ⟨seq, hlookup, hle⟩ := seenAtLeast_iff.mp (hbefore.seen entry hold)
        split
        next heq =>
          refine ⟨_, rfl, ?_⟩
          by_contra hlt
          exact hnot (seenAtLeast_iff.mpr ⟨seq, heq ▸ hlookup, (not_le.mp hlt).le.trans hle⟩)
        next => exact ⟨seq, hlookup, hle⟩
      · exact ⟨_, if_pos rfl, le_rfl⟩

theorem commit (hpool : pool.Issued log) (command : Command) :
    (pool.commit command).Issued log where
  increasing := hpool.increasing
  seen := by
    intro entry hmem
    obtain ⟨seq, hlookup, hle⟩ := seenAtLeast_iff.mp (hpool.seen entry hmem)
    rw [seenAtLeast_iff, CommandPool.commit, Map.lookup_insert]
    split
    next heq =>
      refine ⟨_, rfl, hle.trans ?_⟩
      rw [← heq, hlookup]
      exact le_max_left _ _
    next => exact ⟨seq, hlookup, hle⟩

theorem closeBatch (hpool : pool.Issued log) {maxBatchSize : Nat} {next : CommandPool}
    {batch : Option (List Command)} (hclose : pool.closeBatch maxBatchSize = .ok (next, batch)) :
    next.Issued (log ++ batch.getD []) := by
  unfold CommandPool.closeBatch at hclose
  split at hclose
  · cases hclose
  · split at hclose
    · obtain ⟨rfl, rfl⟩ := by simpa using hclose
      simpa using hpool
    · obtain ⟨rfl, rfl⟩ := by simpa using hclose
      apply hpool.of_sublist
      simp only [Option.getD_some, List.append_nil]
      exact (List.drop_sublist _ _).append_left _

end Issued

end CommandPool

end BftKit.OpenLoop
