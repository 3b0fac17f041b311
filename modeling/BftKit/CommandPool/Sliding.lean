import BftKit.CommandPool.Waiting
import BftKit.Foundation.Window

/-! # What an open-loop pool loses

The buffer of an open-loop pool holds the last commands accepted since the last batch,
and a batch is the last of the buffer. So a command is lost to those that are accepted
after it, and to nothing else.
-/

namespace BftKit.CommandPool

open Foundation OpenLoop.CommandPool

variable {start pool next : CommandPool} {before after history : List Event} {event : Event}

def Event.closes : Event → Bool
  | .closeBatch _ _ => true
  | .push _ _ | .commit _ => false

/-- The bound of a batch. -/
def Event.size? : Event → Option Nat
  | .closeBatch maxBatchSize _ => some maxBatchSize
  | .push _ _ | .commit _ => none

/-- What was accepted since the last batch. -/
def sinceBatch (history : List Event) : List Command :=
  accepted (history.rtakeWhile fun event => !event.closes)

/-- What is accepted before the next batch. -/
def untilBatch (history : List Event) : List Command :=
  accepted (history.takeWhile fun event => !event.closes)

/-- The bound of the next batch. -/
def nextBatchSize (history : List Event) : Option Nat := history.findSome? Event.size?

/-! ## The buffer -/

/-- What an event does to the buffer of an open-loop pool. -/
inductive BufferStep (buffer : List Command) : Event → List Command → Prop
  | reject {command} : BufferStep buffer (.push command false) buffer
  | accept {command} : BufferStep buffer (.push command true) (slide maxLen buffer command)
  | close {maxBatchSize} (hsize : maxBatchSize ≤ maxLen) :
      BufferStep buffer (.closeBatch maxBatchSize
        (if buffer = [] then none else some (buffer.rtake maxBatchSize))) []
  | commit {command} : BufferStep buffer (.commit command) buffer

theorem closeBatch_openLoop (pool : OpenLoop.CommandPool) {maxBatchSize : Nat}
    (hsize : maxBatchSize ≤ maxLen) :
    (openLoop pool).closeBatch maxBatchSize = .ok (openLoop { pool with pendingBuf := [] },
      if pool.pendingBuf = [] then none else some (pool.pendingBuf.rtake maxBatchSize)) := by
  rw [closeBatch, OpenLoop.CommandPool.closeBatch, if_neg (Nat.not_lt.mpr hsize)]
  by_cases hempty : pool.pendingBuf = []
  · rw [if_pos hempty, if_pos hempty, ← hempty]
    rfl
  · have hskip : max pool.pendingBuf.length maxBatchSize - maxBatchSize =
        pool.pendingBuf.length - maxBatchSize := by omega
    rw [if_neg hempty, if_neg hempty, hskip]
    rfl

theorem Step.bufferStep (hvariant : ¬pool.IsCloseLoop) (hstep : Step pool event next) :
    BufferStep pool.pending event next.pending ∧ ¬next.IsCloseLoop := by
  cases pool with
  | closeLoop pool => exact absurd trivial hvariant
  | openLoop pool =>
      cases hstep with
      | push hpush =>
          simp only [CommandPool.push, Except.ok.injEq, Prod.mk.injEq] at hpush
          obtain ⟨rfl, rfl⟩ := hpush
          refine ⟨?_, id⟩
          unfold OpenLoop.CommandPool.push
          split
          · exact .reject
          · exact .accept
      | @closeBatch maxBatchSize batch next hclose =>
          by_cases hsize : maxBatchSize ≤ maxLen
          · rw [closeBatch_openLoop pool hsize] at hclose
            obtain ⟨rfl, rfl⟩ := Prod.mk.inj (Except.ok.inj hclose)
            exact ⟨.close hsize, id⟩
          · rw [CommandPool.closeBatch, OpenLoop.CommandPool.closeBatch,
              if_pos (Nat.lt_of_not_le hsize)] at hclose
            cases hclose
      | commit hcommit =>
          obtain rfl := Except.ok.inj hcommit
          exact ⟨.commit, id⟩

/-! ## Runs -/

theorem PoolRun.split (hrun : PoolRun start (before ++ event :: after) pool) :
    ∃ middle next, PoolRun start before middle ∧ Step middle event next ∧
      PoolRun next after pool := by
  induction after using List.reverseRecOn generalizing pool with
  | nil =>
      generalize hhistory : before ++ [event] = history at hrun
      cases hrun with
      | start hinit => simp at hhistory
      | step hprev hstep =>
          obtain ⟨rfl, hlast⟩ := List.append_inj' hhistory rfl
          obtain rfl := List.singleton_inj.mp hlast
          exact ⟨_, _, hprev, hstep, .start rfl⟩
  | append_singleton after last ih =>
      rw [← List.cons_append, ← List.append_assoc] at hrun
      generalize hhistory : before ++ event :: after ++ [last] = history at hrun
      cases hrun with
      | start hinit => simp at hhistory
      | step hprev hstep =>
          obtain ⟨rfl, hlast⟩ := List.append_inj' hhistory rfl
          obtain rfl := List.singleton_inj.mp hlast
          obtain ⟨middle, next, hfirst, hevent, hsecond⟩ := ih hprev
          exact ⟨middle, next, hfirst, hevent, .step hsecond hstep⟩

theorem PoolRun.stays_open (hvariant : ¬start.IsCloseLoop) (hrun : PoolRun start history pool) :
    ¬pool.IsCloseLoop := by
  refine @Run.invariant _ _ _ _ (fun _ pool => ¬pool.IsCloseLoop) ?_ ?_ _ _ hrun
  · rintro _ rfl
    exact hvariant
  · intro _ _ _ _ _ hpool hstep
    exact (hstep.bufferStep hpool).2

/-- Batches and buffer are made of what was in the buffer and what was accepted, in
order. -/
theorem PoolRun.batches_sublist (hvariant : ¬start.IsCloseLoop)
    (hrun : PoolRun start history pool) :
    (returned history ++ pool.pending).Sublist (start.pending ++ accepted history) := by
  induction hrun with
  | start hinit =>
      obtain rfl := hinit
      simp [accepted]
  | @step history pool event next hprev hstep ih =>
      have hbuffer := (hstep.bufferStep (PoolRun.stays_open hvariant hprev)).1
      rw [returned_append, returned_singleton, accepted_append, accepted_singleton,
        List.append_assoc, ← List.append_assoc]
      generalize next.pending = buffer at hbuffer ⊢
      cases hbuffer with
      | reject => simpa [Event.accepted?, Event.returned] using ih
      | @accept command =>
          have hslide : (slide maxLen pool.pending command).Sublist
              (pool.pending ++ [command]) := by
            apply List.Sublist.append_right
            split
            · exact List.tail_sublist _
            · exact List.Sublist.refl _
          have hkept := (hslide.append_left (returned history)).trans
            (List.append_assoc _ _ _ ▸ ih.append_right [command])
          simpa [Event.accepted?, Event.returned] using hkept
      | @close maxBatchSize hsize =>
          simp only [Event.accepted?, Option.toList_none, List.append_nil]
          refine List.Sublist.trans (List.Sublist.append_left ?_ _) ih
          by_cases hempty : pool.pending = []
          · simp [hempty, Event.returned]
          · simpa [hempty, Event.returned] using rtake_sublist pool.pending maxBatchSize
      | commit => simpa [Event.accepted?, Event.returned] using ih

/-! ## The last accepted commands -/

theorem sinceBatch_concat (history : List Event) (event : Event) :
    sinceBatch (history ++ [event]) =
      if event.closes then [] else sinceBatch history ++ event.accepted?.toList := by
  rw [sinceBatch, List.rtakeWhile_concat]
  cases event.closes with
  | true => rfl
  | false =>
      simp only [Bool.not_false, if_true, Bool.false_eq_true, if_false]
      rw [accepted_append, accepted_singleton, sinceBatch]

theorem sinceBatch_append (before : List Event) (hnone : ∀ event ∈ after, event.closes = false) :
    sinceBatch (before ++ after) = sinceBatch before ++ accepted after := by
  induction after using List.reverseRecOn with
  | nil => simp [accepted]
  | append_singleton after event ih =>
      have hlast := hnone event (List.mem_append_right _ List.mem_cons_self)
      have hrest := ih fun other hother => hnone other (List.mem_append_left _ hother)
      rw [← List.append_assoc, sinceBatch_concat, hlast, if_neg Bool.false_ne_true, hrest,
        accepted_append, accepted_singleton, List.append_assoc]

theorem sinceBatch_sublist (history : List Event) :
    (sinceBatch history).Sublist (accepted history) :=
  (List.rtakeWhile_suffix _ _).sublist.filterMap _

theorem returned_eq_nil (hnone : ∀ event ∈ history, event.closes = false) :
    returned history = [] := by
  rw [returned, List.flatMap_eq_nil_iff]
  intro event hmem
  have hclose := hnone event hmem
  cases event with
  | push | commit => rfl
  | closeBatch => cases hclose

theorem maxLen_pos : 0 < maxLen := by decide

theorem PoolRun.pending_eq (hrun : PoolRun (openLoop .new) history pool) :
    pool.pending = (sinceBatch history).rtake maxLen := by
  induction hrun with
  | start hinit =>
      obtain rfl := hinit
      rfl
  | @step history pool event next hprev hstep ih =>
      have hbuffer := (hstep.bufferStep (PoolRun.stays_open id hprev)).1
      rw [sinceBatch_concat]
      generalize next.pending = buffer at hbuffer ⊢
      cases hbuffer with
      | reject => simpa [Event.closes, Event.accepted?] using ih
      | accept =>
          rw [ih, slide_rtake maxLen_pos]
          rfl
      | close => simp [Event.closes]
      | commit => simpa [Event.closes, Event.accepted?] using ih

/-! ## What is lost -/

theorem accepted_cons (event : Event) (history : List Event) :
    accepted (event :: history) = event.accepted?.toList ++ accepted history :=
  (accepted_append [event] history).trans (by rw [accepted_singleton])

theorem untilBatch_cons (hnot : event.closes = false) (history : List Event) :
    untilBatch (event :: history) = event.accepted?.toList ++ untilBatch history := by
  rw [untilBatch, List.takeWhile_cons, hnot]
  exact accepted_cons _ _

/-- The history splits at the next batch. -/
theorem untilBatch_cases (after : List Event) :
    (∀ event ∈ after, event.closes = false) ∧ untilBatch after = accepted after ∧
        nextBatchSize after = none ∨
      ∃ middle maxBatchSize batch rest, after = middle ++ .closeBatch maxBatchSize batch :: rest ∧
        (∀ event ∈ middle, event.closes = false) ∧ untilBatch after = accepted middle ∧
        nextBatchSize after = some maxBatchSize := by
  induction after with
  | nil => exact .inl ⟨by simp, rfl, rfl⟩
  | cons event rest ih =>
      by_cases hclose : event.closes
      · cases event with
        | push | commit => cases hclose
        | closeBatch maxBatchSize batch =>
            exact .inr ⟨[], maxBatchSize, batch, rest, rfl, by simp, rfl, rfl⟩
      · rw [Bool.not_eq_true] at hclose
        have hsize : nextBatchSize (event :: rest) = nextBatchSize rest := by
          cases event with
          | push | commit => rfl
          | closeBatch => cases hclose
        rw [untilBatch_cons hclose, hsize]
        rcases ih with
          ⟨hnone, huntil, hnext⟩ | ⟨middle, size, batch, last, rfl, hnone, huntil, hnext⟩
        · refine .inl ⟨List.forall_mem_cons.mpr ⟨hclose, hnone⟩, ?_, hnext⟩
          rw [huntil, accepted_cons]
        · refine .inr ⟨event :: middle, size, batch, last, rfl,
            List.forall_mem_cons.mpr ⟨hclose, hnone⟩, ?_, hnext⟩
          rw [huntil, accepted_cons]

/-- An accepted command comes out, or waits, unless so many are accepted after it that
they fill the buffer or the next batch. -/
theorem PoolRun.kept_iff {command : Command}
    (hrun : PoolRun (openLoop .new) (before ++ .push command true :: after) pool) :
    command ∈ returned (before ++ .push command true :: after) ++ pool.pending ↔
      (untilBatch after).length < maxLen ∧
        ∀ size ∈ nextBatchSize after, (untilBatch after).length < size := by
  have hnodup : (accepted (before ++ .push command true :: after)).Nodup :=
    (hrun.accepted_increasing (.inr rfl)).nodup.of_map _
  rw [accepted_append, accepted_cons] at hnodup
  obtain ⟨-, hafter, hdisjoint⟩ := List.nodup_append.mp hnodup
  -- accepted commands are distinct, so the command occurs nowhere else
  have hbefore : command ∉ accepted before := fun hmem =>
    hdisjoint command hmem command (List.mem_append_left _ List.mem_cons_self) rfl
  have hsince : command ∉ sinceBatch before := fun hmem =>
    hbefore ((sinceBatch_sublist before).mem hmem)
  have hlater : command ∉ accepted after := (List.nodup_cons.mp hafter).1
  have hreturned : command ∉ returned before := by
    obtain ⟨middle, -, hfirst, -⟩ := hrun.split
    have hsublist := PoolRun.batches_sublist id hfirst
    intro hmem
    exact hbefore (hsublist.mem (List.mem_append_left _ hmem))
  rcases untilBatch_cases after with
    ⟨hnone, huntil, hnext⟩ | ⟨middle, maxBatchSize, batch, rest, rfl, hnone, huntil, hnext⟩
  · -- no batch follows, so the command waits or has been pushed out
    have hopen : ∀ event ∈ Event.push command true :: after, event.closes = false :=
      List.forall_mem_cons.mpr ⟨rfl, hnone⟩
    rw [returned_append, returned_eq_nil hopen, List.append_nil, List.mem_append,
      or_iff_right hreturned, hrun.pending_eq, sinceBatch_append before hopen, accepted_cons,
      huntil, hnext]
    simp only [Option.not_mem_none, false_implies, implies_true, and_true]
    exact mem_rtake_append_cons hsince hlater
  · -- the next batch empties the buffer, so that the command is in that batch or nowhere
    have hopen : ∀ event ∈ Event.push command true :: middle, event.closes = false :=
      List.forall_mem_cons.mpr ⟨rfl, hnone⟩
    rw [accepted_append, List.mem_append, not_or] at hlater
    rw [huntil, hnext]
    rw [← List.cons_append, ← List.append_assoc] at hrun ⊢
    obtain ⟨pool₁, pool₂, hrun₁, hclose, hrun₂⟩ := hrun.split
    obtain ⟨hbuffer, hvariant⟩ := hclose.bufferStep (PoolRun.stays_open id hrun₁)
    have hlast := PoolRun.batches_sublist hvariant hrun₂
    have hpending := hrun₁.pending_eq
    rw [sinceBatch_append before hopen, accepted_cons] at hpending
    have hne : pool₁.pending ≠ [] := by
      rw [hpending, ← List.length_pos_iff, length_rtake]
      have hpos := maxLen_pos
      simp only [Event.accepted?, Option.toList_some, List.length_append, List.length_singleton]
      omega
    generalize pool₂.pending = emptied at hbuffer hlast
    cases hbuffer with
    | close hsize =>
        have hgone : command ∉ returned rest ++ pool.pending :=
          fun hmem => hlater.2 (hlast.mem hmem)
        rw [returned_append, returned_append, returned_eq_nil hopen, List.append_nil,
          ← List.singleton_append, returned_append, returned_singleton, Event.returned,
          if_neg hne, Option.getD_some, List.append_assoc, List.append_assoc, List.mem_append,
          or_iff_right hreturned, List.mem_append, or_iff_left hgone, hpending, rtake_rtake,
          min_eq_left hsize]
        simp only [Option.mem_some_iff, forall_eq']
        refine (mem_rtake_append_cons hsince hlater.1).trans ⟨?_, And.right⟩
        intro hlt
        exact ⟨hlt.trans_le hsize, hlt⟩

/-- The order, the bound and the losses of an open-loop pool. -/
structure Sliding (history : List Event) (pool : CommandPool) : Prop where
  bounded : pool.pending.length ≤ maxLen
  recent : pool.pending = (sinceBatch history).rtake maxLen
  batch : ∀ maxBatchSize ≤ maxLen, ∃ next, pool.closeBatch maxBatchSize =
    .ok (next, if pool.pending = [] then none
      else some (pool.pending.rtake (min maxBatchSize pool.pending.length))) ∧ next.pending = []
  ordered : (returned history ++ pool.pending).Sublist (accepted history)
  once : (accepted history).Nodup
  lost_iff : ∀ before command after, history = before ++ .push command true :: after →
    (command ∉ returned history ++ pool.pending ↔
      maxLen ≤ (untilBatch after).length ∨
        ∃ size ∈ nextBatchSize after, size ≤ (untilBatch after).length)

theorem open_loop_slides (hrun : PoolRun (openLoop .new) history pool) : Sliding history pool where
  bounded := by
    rw [hrun.pending_eq, length_rtake]
    exact Nat.min_le_left _ _
  recent := hrun.pending_eq
  batch := by
    intro maxBatchSize hsize
    have hvariant := PoolRun.stays_open id hrun
    cases pool with
    | closeLoop pool => exact absurd trivial hvariant
    | openLoop pool =>
        have hmin : pool.pendingBuf.rtake (min maxBatchSize pool.pendingBuf.length) =
            pool.pendingBuf.rtake maxBatchSize := by
          rw [← rtake_rtake, rtake_eq_self le_rfl]
        refine ⟨openLoop { pool with pendingBuf := [] }, ?_, rfl⟩
        rw [closeBatch_openLoop pool hsize, pending, hmin]
  ordered := PoolRun.batches_sublist id hrun
  once := (hrun.accepted_increasing (.inr rfl)).nodup.of_map _
  lost_iff := by
    rintro before command after rfl
    rw [hrun.kept_iff, not_and_or, not_lt]
    simp

/-- Of three commands, a batch of two leaves out the first. -/
theorem open_loop_slides_three : ∃ history pool, PoolRun (openLoop .new) history pool ∧
    (accepted history).length = 3 ∧ returned history = [⟨1, 1, []⟩, ⟨2, 1, []⟩] ∧
    Sliding history pool := by
  have hreplay : ∃ result ∈ replay (openLoop .new) (pushes ++ [.closeBatch 2]),
      (accepted (result.2.map Prod.snd)).length = 3 ∧
      returned (result.2.map Prod.snd) = [⟨1, 1, []⟩, ⟨2, 1, []⟩] := by
    decide +kernel
  obtain ⟨⟨pool, trace⟩, hresult, haccepted, hreturned⟩ := hreplay
  have hrun : PoolRun (openLoop .new) ([] ++ trace.map Prod.snd) pool :=
    replay_poolRun (.start rfl) hresult
  exact ⟨_, pool, hrun, haccepted, hreturned, open_loop_slides hrun⟩

end BftKit.CommandPool
