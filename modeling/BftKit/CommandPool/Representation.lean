import BftKit.CommandPool.History

/-! # The books of the close-loop pool

Over every run the offset map stays the inverse of the queue, so each lookup of a
call lands on the command it is meant for and no call panics.
-/

namespace BftKit.CommandPool

open Foundation

/-- The client whose command an event pushes. -/
def Event.pusher? : Event → Option ClientId
  | push command _ => some command.clientId
  | closeBatch _ _ | commit _ => none

/-- The distinct clients that have pushed. -/
def pushers (history : List Event) : Finset ClientId :=
  (history.filterMap Event.pusher?).toFinset

variable {start pool next : CommandPool} {history before after : List Event} {event : Event}
  {clientId : ClientId}

theorem mem_pushers : clientId ∈ pushers history ↔
    ∃ event ∈ history, event.pusher? = some clientId := by
  rw [pushers, List.mem_toFinset, List.mem_filterMap]

theorem pushers_append :
    pushers (before ++ after) = pushers before ∪ pushers after := by
  rw [pushers, List.filterMap_append, List.toFinset_append]
  rfl

/-- Only a push brings a client into the queue. -/
theorem QueueStep.pusher {queue rest : List Command} (hstep : QueueStep queue event rest)
    {entry : Command} (hentry : entry ∈ rest) :
    entry ∈ queue ∨ event.pusher? = some entry.clientId := by
  cases hstep with
  | reject => exact .inl hentry
  | replace =>
      rcases List.mem_or_eq_of_mem_set hentry with hold | rfl
      · exact .inl hold
      · exact .inr rfl
  | append =>
      rcases List.mem_append.mp hentry with hold | hlast
      · exact .inl hold
      · rw [List.mem_singleton.mp hlast]
        exact .inr rfl
  | close hsplit => exact .inl (hsplit ▸ List.mem_append_right _ hentry)
  | keep => exact .inl hentry
  | drop hget =>
      have hindex := (List.getElem?_eq_some_iff.mp hget).1
      exact .inl (CloseLoop.mem_of_mem_swapRemove hindex hentry)

theorem PoolRun.pending_pushers (hnew : start.IsNew) (hvariant : start.IsCloseLoop)
    (hrun : PoolRun start history pool) :
    ∀ entry ∈ pool.pending, entry.clientId ∈ pushers history := by
  refine hrun.invariant (P := fun history pool =>
    ∀ entry ∈ pool.pending, entry.clientId ∈ pushers history) ?_ ?_
  · rintro pool rfl entry hentry
    rcases hnew with rfl | rfl <;> cases hentry
  · intro history pool event next hprev ih hstep entry hentry
    obtain ⟨hissued, hsame⟩ := PoolRun.issued hnew hprev
    rw [pushers_append, Finset.mem_union]
    rcases (hstep.queueStep hissued (hsame.mpr hvariant)).pusher hentry with hold | hlast
    · exact .inl (ih entry hold)
    · exact .inr (mem_pushers.mpr ⟨event, List.mem_cons_self, hlast⟩)

/-- One pending command for each client bounds the queue by the clients. -/
theorem PoolRun.pending_length (hnew : start.IsNew) (hvariant : start.IsCloseLoop)
    (hrun : PoolRun start history pool) : pool.pending.length ≤ (pushers history).card := by
  obtain ⟨hissued, hsame⟩ := PoolRun.issued hnew hrun
  have hdistinct : (pool.pending.map Command.clientId).Nodup :=
    hissued.distinct (hsame.mpr hvariant)
  have hsubset : (pool.pending.map Command.clientId).toFinset ⊆ pushers history := by
    intro clientId hmem
    obtain ⟨entry, hentry, rfl⟩ := List.mem_map.mp (List.mem_toFinset.mp hmem)
    exact hrun.pending_pushers hnew hvariant entry hentry
  calc pool.pending.length = (pool.pending.map Command.clientId).length := by
        rw [List.length_map]
    _ = (pool.pending.map Command.clientId).toFinset.card :=
        (List.toFinset_card_of_nodup hdistinct).symm
    _ ≤ (pushers history).card := Finset.card_le_card hsubset

/-- Every call of a close-loop pool that keeps its invariant returns. -/
theorem performCall_ok {inner : CloseLoop.CommandPool} (hpool : inner.Wf) (call : Call) :
    ∃ next event, performCall (closeLoop inner) call = .ok (next, event) := by
  cases call with
  | push command =>
      obtain ⟨next, accepted, hpush, -⟩ := hpool.push_wf command
      exact ⟨closeLoop next, .push command accepted, by simp [performCall, push, hpush]⟩
  | closeBatch maxBatchSize =>
      rcases hpool.closeBatch_cases maxBatchSize with ⟨-, hclose⟩ | ⟨next, -, hclose, -⟩
      · exact ⟨_, _, by simp only [performCall, closeBatch, hclose, ok_bind]; rfl⟩
      · exact ⟨_, _, by simp only [performCall, closeBatch, hclose, ok_bind]; rfl⟩
  | commit command =>
      obtain ⟨next, hcommit, -⟩ := hpool.commit_cases command
      exact ⟨closeLoop next, .commit command, by simp [performCall, commit, hcommit]⟩

/-- What a close-loop pool keeps true of its fields, and the calls rely on. -/
structure Books (pool : CloseLoop.CommandPool) (history : List Event) : Prop where
  offsets : ∀ clientId offset, pool.clientPendingOffsets.lookup clientId = some offset ↔
    ∃ index command, pool.pendingQueue[index]? = some command ∧ command.clientId = clientId ∧
      offset = pool.pendingQueueOffset + index
  single : (pool.pendingQueue.map Command.clientId).Nodup
  bounded : pool.pendingQueue.length ≤ (pushers history).card
  fresh : ∀ command ∈ pool.pendingQueue, ∀ seq,
    pool.submittedSeqs.lookup command.clientId = some seq → seq < command.seq
  /-- The subtraction does not underflow, and its result is an index of the
  client's own command. -/
  found : ∀ clientId, ∃ place, pool.clientPendingIndex clientId = .ok place ∧
    ∀ index, place = some index →
      ∃ command, pool.pendingQueue[index]? = some command ∧ command.clientId = clientId
  total : ∀ call, ∃ next event, performCall (closeLoop pool) call = .ok (next, event)

theorem close_loop_books (hrun : PoolRun (closeLoop .new) history pool) :
    ∃ inner, pool = closeLoop inner ∧ Books inner history := by
  obtain ⟨hissued, hsame⟩ := PoolRun.issued (.inl rfl) hrun
  have hlength := hrun.pending_length (.inl rfl) trivial
  cases pool with
  | openLoop pool => exact absurd (hsame.mpr trivial) id
  | closeLoop inner =>
      have hwf := CloseLoop.CommandPool.Issued.wf hissued
      refine ⟨inner, rfl, hwf.offsets, hwf.clientId_nodup, hlength, ?_, ?_, performCall_ok hwf⟩
      · intro command hmem
        exact CloseLoop.CommandPool.submittedAtLeast_eq_false.mp (hwf.fresh command hmem)
      · intro clientId
        rcases hwf.clientPendingIndex_cases clientId with
          ⟨hindex, -⟩ | ⟨index, command, hindex, hget, hclient⟩
        · exact ⟨none, hindex, fun index heq => absurd heq (Option.some_ne_none index).symm⟩
        · refine ⟨some index, hindex, ?_⟩
          intro other heq
          obtain rfl := Option.some.inj heq
          exact ⟨command, hget, hclient⟩

/-- Three clients push, an empty batch is closed, and the last command of the queue
moves into the hole of a committed one. -/
theorem close_loop_books_swap : ∃ history inner,
    PoolRun (closeLoop .new) history (closeLoop inner) ∧ Books inner history ∧
      inner.pendingQueue = [⟨2, 1, []⟩, ⟨1, 4, []⟩] := by
  have hreplay : ∃ result ∈ replay (closeLoop .new)
      [.push ⟨0, 1, []⟩, .push ⟨1, 1, []⟩, .push ⟨2, 1, []⟩, .closeBatch 0, .push ⟨1, 4, []⟩,
        .commit ⟨0, 2, []⟩],
      result.1.pending = [⟨2, 1, []⟩, ⟨1, 4, []⟩] := by
    decide +kernel
  obtain ⟨⟨pool, trace⟩, hresult, hpending⟩ := hreplay
  have hrun : PoolRun (closeLoop .new) (trace.map Prod.snd) pool :=
    replay_poolRun (.start rfl) hresult
  obtain ⟨inner, rfl, hbooks⟩ := close_loop_books hrun
  exact ⟨_, inner, hrun, hbooks, hpending⟩

end BftKit.CommandPool
