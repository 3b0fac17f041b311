import BftKit.CommandPool.Waiting

/-! # What covers a command

A close-loop pool turns a command down only for another one of the client that is as new.
As long as nothing is committed that has not left the pool, whatever has been pushed is
covered by what has left or waits.
-/

namespace BftKit.CommandPool

open Foundation

/-- Among the commands is one of the client that is as new. -/
def Covered (commands : List Command) (command : Command) : Prop :=
  ∃ entry ∈ commands, entry.clientId = command.clientId ∧ command.seq ≤ entry.seq

/-- The command that an event pushes. -/
def Event.pushed? : Event → Option Command
  | push command _ => some command
  | closeBatch _ _ | commit _ => none

variable {pool next : CommandPool} {event : Event} {log pushed : List Command} {command : Command}

theorem Covered.of_mem {commands : List Command} (hmem : command ∈ commands) :
    Covered commands command :=
  ⟨command, hmem, rfl, le_rfl⟩

theorem Covered.trans {commands : List Command} {newer : Command} (h : Covered commands newer)
    (hclient : newer.clientId = command.clientId) (hseq : command.seq ≤ newer.seq) :
    Covered commands command := by
  obtain ⟨entry, hentry, hsame, hle⟩ := h
  exact ⟨entry, hentry, hsame.trans hclient, hseq.trans hle⟩

/-- What is covered stays so, unless a commit comes out of nowhere. -/
theorem QueueStep.covered {queue rest : List Command} (hstep : QueueStep queue event rest)
    (hcommit : ∀ committed, event = .commit committed → committed ∈ log)
    (h : Covered (log ++ queue) command) : Covered (log ++ event.returned ++ rest) command := by
  have hkept : ∀ entry ∈ queue, Covered (log ++ event.returned ++ rest) entry := by
    intro entry hentry
    cases hstep with
    | reject | keep => exact .of_mem (by simp [hentry])
    | append => exact .of_mem (by simp [hentry])
    | close hsplit =>
        apply Covered.of_mem
        rw [hsplit, List.mem_append] at hentry
        simpa [Event.returned] using Or.inr hentry
    | @replace index old newer hget hclient hlt =>
        have hindex := (List.getElem?_eq_some_iff.mp hget).1
        obtain ⟨place, hplace⟩ := List.getElem?_of_mem hentry
        by_cases heq : index = place
        · subst heq
          obtain rfl := Option.some.inj (hget.symm.trans hplace)
          have hnewer : newer ∈ queue.set index newer := List.mem_set hindex newer
          exact (Covered.of_mem (List.mem_append_right _ hnewer)).trans hclient.symm hlt.le
        · refine .of_mem (List.mem_append_right _ (List.mem_of_getElem? (i := place) ?_))
          rw [List.getElem?_set_ne heq, hplace]
    | @drop index old committed hget hclient hle =>
        obtain ⟨place, hplace⟩ := List.getElem?_of_mem hentry
        by_cases heq : place = index
        · -- the dropped command is covered by the committed one
          subst heq
          obtain rfl := Option.some.inj (hget.symm.trans hplace)
          have hlog : committed ∈ log := hcommit committed rfl
          exact (Covered.of_mem (by simp [hlog])).trans hclient.symm hle
        · have hindex := (List.getElem?_eq_some_iff.mp hget).1
          exact .of_mem (List.mem_append_right _ (CloseLoop.mem_swapRemove hplace heq hindex))
  obtain ⟨entry, hentry, hclient, hseq⟩ := h
  rcases List.mem_append.mp hentry with hlog | hqueue
  · exact (Covered.of_mem (by simp [hlog])).trans hclient hseq
  · exact (hkept entry hqueue).trans hclient hseq

/-- Only pushes bring commands in. -/
theorem QueueStep.length_le {queue rest : List Command} (hstep : QueueStep queue event rest) :
    event.returned.length + rest.length ≤ queue.length + event.pushed?.toList.length := by
  cases hstep with
  | reject | keep => simp [Event.returned, Event.pushed?]
  | replace | append => simp [Event.returned, Event.pushed?]
  | close hsplit => simp [hsplit, Event.returned, Event.pushed?]
  | @drop index old command hget =>
      have hindex := (List.getElem?_eq_some_iff.mp hget).1
      have hlast : queue.getLast? ≠ none := by
        rw [Ne, List.getLast?_eq_none_iff]
        exact List.ne_nil_of_length_pos (Nat.zero_lt_of_lt hindex)
      obtain ⟨last, hlast⟩ := Option.ne_none_iff_exists'.mp hlast
      simp only [CloseLoop.swapRemove, hlast, List.length_dropLast, List.length_set,
        Event.returned, Event.pushed?, List.length_nil, Option.toList_none]
      omega

/-- What leaves the queue or stays in it has been there, or is pushed. -/
theorem QueueStep.subset {queue rest : List Command} (hstep : QueueStep queue event rest) :
    event.returned ++ rest ⊆ queue ++ event.pushed?.toList := by
  intro entry hentry
  cases hstep with
  | reject | keep => exact List.mem_append_left _ hentry
  | append => exact hentry
  | close hsplit =>
      rw [hsplit]
      exact List.mem_append_left _ hentry
  | replace =>
      rcases List.mem_or_eq_of_mem_set hentry with hold | rfl
      · exact List.mem_append_left _ hold
      · exact List.mem_append_right _ List.mem_cons_self
  | drop hget =>
      have hindex := (List.getElem?_eq_some_iff.mp hget).1
      exact List.mem_append_left _ (CloseLoop.mem_of_mem_swapRemove hindex hentry)

/-- A close-loop pool that has handed out the log, and accounts for what was pushed. -/
structure Accounts (log pushed : List Command) (pool : CommandPool) : Prop where
  issued : pool.Issued log
  closeLoop : pool.IsCloseLoop
  refused : ∀ command, ¬ pool.Admits command → Covered (log ++ pool.pending) command
  covered : ∀ command ∈ pushed, Covered (log ++ pool.pending) command
  length_le : log.length + pool.pending.length ≤ pushed.length
  sound : log ++ pool.pending ⊆ pushed

theorem Accounts.new : Accounts [] [] (.closeLoop .new) where
  issued := closeLoop_new_issued
  closeLoop := trivial
  refused := fun command hnot => absurd (isNew_admits (.inl rfl) command) hnot
  covered := by simp
  length_le := le_rfl
  sound := List.nil_subset _

theorem Accounts.step (h : Accounts log pushed pool) (hstep : Step pool event next)
    (hcommit : ∀ committed, event = .commit committed → committed ∈ log) :
    Accounts (log ++ event.returned) (pushed ++ event.pushed?.toList) next := by
  obtain ⟨hissued, hsame⟩ := hstep.issued h.issued
  have hqueue := hstep.queueStep h.issued h.closeLoop
  have hcovered : ∀ {command}, Covered (log ++ pool.pending) command →
      Covered (log ++ event.returned ++ next.pending) command :=
    fun hcommand => hqueue.covered hcommit hcommand
  -- what raises the bar for a client is itself covered
  have hraised : ∀ raising ∈ event.raising?,
      Covered (log ++ event.returned ++ next.pending) raising := by
    intro raising hraising
    cases hstep with
    | @push command accepted next hpush =>
        cases accepted with
        | false => cases hraising
        | true =>
            obtain rfl := Option.some.inj hraising
            obtain ⟨bound, index, entry, hget, hclient, hseq, -⟩ := hqueue.accepted_waits
            exact ⟨entry, List.mem_append_right _ (List.mem_of_getElem? hget), hclient, hseq⟩
    | closeBatch => cases hraising
    | commit =>
        obtain rfl := Option.some.inj hraising
        exact .of_mem (by simp [hcommit _ rfl])
  have hrefused : ∀ command, ¬ next.Admits command →
      Covered (log ++ event.returned ++ next.pending) command := by
    intro command hnot
    rw [hstep.admits h.issued, not_and_or] at hnot
    rcases hnot with hnot | hnot
    · exact hcovered (h.refused command hnot)
    · simp only [Beyond, not_forall, not_lt] at hnot
      obtain ⟨raising, hraising, hclient, hseq⟩ := hnot
      exact (hraised raising hraising).trans hclient hseq
  refine ⟨hissued, hsame.mpr h.closeLoop, hrefused, ?_, ?_, ?_⟩
  · intro command hcommand
    rcases List.mem_append.mp hcommand with hold | hnew
    · exact hcovered (h.covered command hold)
    · cases hstep with
      | @push other accepted next hpush =>
          obtain rfl : other = command := by simpa [Event.pushed?, eq_comm] using hnew
          cases accepted with
          | true => exact hraised other rfl
          | false =>
              obtain ⟨next', accepted', hpush', hlaw, -⟩ := push_admits h.issued other
              obtain ⟨rfl, rfl⟩ := Prod.mk.inj (Except.ok.inj (hpush'.symm.trans hpush))
              exact hcovered (h.refused other fun hadmits => Bool.noConfusion (hlaw.mpr hadmits))
      | closeBatch | commit => simp [Event.pushed?] at hnew
  · have hle := h.length_le
    have hstep := hqueue.length_le
    rw [List.length_append, List.length_append]
    omega
  · rw [List.append_assoc]
    intro command hcommand
    rcases List.mem_append.mp hcommand with hlog | hmoved
    · exact List.mem_append_left _ (h.sound (List.mem_append_left _ hlog))
    · rcases List.mem_append.mp (hqueue.subset hmoved) with hold | hpushed
      · exact List.mem_append_left _ (h.sound (List.mem_append_right _ hold))
      · exact List.mem_append_right _ hpushed

/-- Committing what has left the pool adds nothing to the account. -/
theorem Accounts.commitAll {commands : List Command} (h : Accounts log pushed pool)
    (hlog : ∀ command ∈ commands, command ∈ log) (hcommit : commands.foldlM commit pool = .ok next) :
    Accounts log pushed next := by
  induction commands generalizing pool with
  | nil =>
      obtain rfl := Except.ok.inj hcommit
      exact h
  | cons command rest ih =>
      rw [List.foldlM_cons, bind_eq_ok] at hcommit
      obtain ⟨middle, hfirst, hrest⟩ := hcommit
      have hmiddle := h.step (.commit hfirst) (by
        rintro committed heq
        obtain rfl := Event.commit.inj heq
        exact hlog _ List.mem_cons_self)
      simp only [Event.returned, Event.pushed?, Option.toList_none, List.append_nil] at hmiddle
      exact ih hmiddle (fun other hother => hlog other (List.mem_cons_of_mem _ hother)) hrest

end BftKit.CommandPool
