import BftKit.CommandPool.History
import BftKit.Foundation.Log

/-! # Waiting in a close-loop pool

A waiting command never falls back: a push leaves the queue's places alone, a
batch moves everyone forward, and the hole of a commit is filled from the end.
The last of these costs the order of the queue.
-/

namespace BftKit.CommandPool

open Foundation

variable {pool middle next start : CommandPool} {history before after : List Event} {event : Event}
  {command : Command}

/-- A client's command as new as the given one has left the pool, or a commit has
overtaken it. -/
def Served (command : Command) (history : List Event) : Prop :=
  (∃ event ∈ history, ∃ entry ∈ event.returned,
    entry.clientId = command.clientId ∧ command.seq ≤ entry.seq) ∨
  ∃ committed, .commit committed ∈ history ∧ committed.clientId = command.clientId ∧
    command.seq ≤ committed.seq

/-- A command of the client, as new as the given one, waits within the bound. -/
def Waits (command : Command) (bound : Nat) (queue : List Command) : Prop :=
  ∃ index entry, queue[index]? = some entry ∧ entry.clientId = command.clientId ∧
    command.seq ≤ entry.seq ∧ index ≤ bound

theorem Served.mono (hserved : Served command before) : Served command (before ++ after) := by
  rcases hserved with ⟨event, hmem, hentry⟩ | ⟨committed, hmem, hentry⟩
  · exact .inl ⟨event, List.mem_append_left _ hmem, hentry⟩
  · exact .inr ⟨committed, List.mem_append_left _ hmem, hentry⟩

/-- One event moves a waiting command forward by what it returns, or serves it. -/
theorem QueueStep.waits {queue rest : List Command} (hstep : QueueStep queue event rest)
    {bound : Nat} (hwaits : Waits command bound queue) :
    Served command [event] ∨
      event.returned.length ≤ bound ∧ Waits command (bound - event.returned.length) rest := by
  obtain ⟨place, entry, hplace, hclient, hseq, hle⟩ := hwaits
  have hlt := (List.getElem?_eq_some_iff.mp hplace).1
  cases hstep with
  | reject => exact .inr ⟨Nat.zero_le _, place, entry, hplace, hclient, hseq, hle⟩
  | @replace index old other hget hsame hnewer =>
      refine .inr ⟨Nat.zero_le _, ?_⟩
      by_cases heq : index = place
      · subst heq
        obtain rfl := Option.some.inj (hget.symm.trans hplace)
        exact ⟨index, other, by simp [hlt], hsame.symm.trans hclient, hseq.trans hnewer.le, hle⟩
      · exact ⟨place, entry, by rw [List.getElem?_set_ne heq, hplace], hclient, hseq, hle⟩
  | append hnone =>
      exact .inr ⟨Nat.zero_le _, place, entry, by rw [List.getElem?_append_left hlt, hplace],
        hclient, hseq, hle⟩
  | @close maxBatchSize batch _ hsplit =>
      simp only [Event.returned]
      by_cases htaken : place < (batch.getD []).length
      · rw [hsplit, List.getElem?_append_left htaken] at hplace
        exact .inl (.inl ⟨_, List.mem_singleton_self _, entry, List.mem_of_getElem? hplace,
          hclient, hseq⟩)
      · rw [hsplit, List.getElem?_append_right (not_lt.mp htaken)] at hplace
        exact .inr ⟨(not_lt.mp htaken).trans hle, _, entry, hplace, hclient, hseq, by omega⟩
  | keep => exact .inr ⟨Nat.zero_le _, place, entry, hplace, hclient, hseq, hle⟩
  | @drop index old committed hget hsame hreached =>
      have hindex := (List.getElem?_eq_some_iff.mp hget).1
      by_cases heq : place = index
      · subst heq
        obtain rfl := Option.some.inj (hget.symm.trans hplace)
        exact .inl (.inr ⟨committed, List.mem_singleton_self _, hsame.symm.trans hclient,
          hseq.trans hreached⟩)
      · refine .inr ⟨Nat.zero_le _, ?_⟩
        by_cases hlast : place + 1 = queue.length
        · -- the last command moves forward into the hole
          have hforward : index ≤ bound := by omega
          refine ⟨index, entry, ?_, hclient, hseq, hforward⟩
          rw [CloseLoop.getElem?_swapRemove hindex, if_pos (by omega), if_pos rfl, ← hplace]
          congr 1
          omega
        · refine ⟨place, entry, ?_, hclient, hseq, hle⟩
          rw [CloseLoop.getElem?_swapRemove hindex, if_pos (by omega), if_neg heq, hplace]

theorem PoolRun.waits {log : List Command} (hstart : start.Issued log)
    (hvariant : start.IsCloseLoop) (hrun : PoolRun start history pool) {bound : Nat}
    (hwaits : Waits command bound start.pending) :
    Served command history ∨
      (returned history).length ≤ bound ∧
        Waits command (bound - (returned history).length) pool.pending := by
  refine hrun.invariant (P := fun history pool => Served command history ∨
    (returned history).length ≤ bound ∧
      Waits command (bound - (returned history).length) pool.pending) ?_ ?_
  · rintro pool rfl
    exact .inr ⟨Nat.zero_le _, hwaits⟩
  · intro history pool event next hprev ih hstep
    obtain ⟨hissued, hsame⟩ := PoolRun.issued_from hstart hprev
    rcases ih with hserved | ⟨hle, hwaits⟩
    · exact .inl hserved.mono
    · rcases (hstep.queueStep hissued (hsame.mpr hvariant)).waits hwaits with
        hserved | ⟨hle', hwaits'⟩
      · refine .inl ?_
        rcases hserved with ⟨event, hmem, hentry⟩ | ⟨committed, hmem, hentry⟩
        · exact .inl ⟨event, List.mem_append_right _ hmem, hentry⟩
        · exact .inr ⟨committed, List.mem_append_right _ hmem, hentry⟩
      · right
        rw [returned_append, returned_singleton, List.length_append, ← Nat.sub_sub]
        exact ⟨by omega, hwaits'⟩

/-- An accepted command waits right away. -/
theorem QueueStep.accepted_waits {queue rest : List Command}
    (hstep : QueueStep queue (.push command true) rest) : ∃ bound, Waits command bound rest := by
  cases hstep with
  | @replace index old _ hget _ _ =>
      exact ⟨index, index, command, by
        simp [(List.getElem?_eq_some_iff.mp hget).1], rfl, le_rfl, le_rfl⟩
  | append _ => exact ⟨queue.length, queue.length, command, by simp, rfl, le_rfl, le_rfl⟩

/-- Nothing accepted is lost, and a command is served once batches have taken as
many commands as there were up to its place. -/
theorem fair_service (hrun : PoolRun (closeLoop .new) before middle) :
    (∀ command next after pool, middle.push command = .ok (next, true) → PoolRun next after pool →
      (∃ entry ∈ pool.pending, entry.clientId = command.clientId ∧ command.seq ≤ entry.seq) ∨
        Served command after) ∧
    ∀ index command after pool, middle.pending[index]? = some command →
      PoolRun middle after pool → index < (returned after).length → Served command after := by
  obtain ⟨hissued, hsame⟩ := hrun.issued (.inl rfl)
  have hclose : middle.IsCloseLoop := hsame.mpr trivial
  refine ⟨?_, ?_⟩
  · intro command next after pool hpush hafter
    have hstep : Step middle (.push command true) next := .push hpush
    obtain ⟨hnext, hsame'⟩ := hstep.issued hissued
    obtain ⟨bound, hwaits⟩ := (hstep.queueStep hissued hclose).accepted_waits
    rcases hafter.waits hnext (hsame'.mpr hclose) hwaits with
      hserved | ⟨-, index, entry, hget, hclient, hseq, -⟩
    · exact .inr hserved
    · exact .inl ⟨entry, List.mem_of_getElem? hget, hclient, hseq⟩
  · intro index command after pool hget hafter htaken
    rcases hafter.waits hissued hclose ⟨index, command, hget, rfl, le_rfl, le_rfl⟩ with
      hserved | ⟨hle, -⟩
    · exact hserved
    · omega

/-- Three clients push one command each. -/
def pushes : List Call := [.push ⟨0, 1, []⟩, .push ⟨1, 1, []⟩, .push ⟨2, 1, []⟩]

/-- The first command is committed elsewhere, then a batch takes two. -/
def serving : List Call := [.commit ⟨0, 1, []⟩, .closeBatch 2]

theorem fair_service_pushes : ∃ before middle after pool,
    PoolRun (closeLoop .new) before middle ∧ middle.pending[1]? = some ⟨1, 1, []⟩ ∧
      PoolRun middle after pool ∧ Served ⟨1, 1, []⟩ after := by
  have hreplay : ∃ result ∈ replay (closeLoop .new) pushes,
      result.1.pending[1]? = some ⟨1, 1, []⟩ ∧
      ∃ result' ∈ result.1.replay serving, 1 < (returned (result'.2.map Prod.snd)).length := by
    decide +kernel
  obtain ⟨⟨middle, trace⟩, hresult, hget, ⟨pool, trace'⟩, hresult', htaken⟩ := hreplay
  have hbefore : PoolRun (closeLoop .new) (trace.map Prod.snd) middle :=
    replay_poolRun (.start rfl) hresult
  have hafter : PoolRun middle (trace'.map Prod.snd) pool := replay_poolRun (.start rfl) hresult'
  exact ⟨_, middle, _, pool, hbefore, hget, hafter,
    (fair_service hbefore).2 1 ⟨1, 1, []⟩ _ pool hget hafter htaken⟩

/-! ## Order -/

/-- Every command that a push had accepted, in order. -/
def accepted (history : List Event) : List Command := history.filterMap Event.accepted?

/-- A push takes the place of a pending command of the same client. -/
def Replaces (pool : CommandPool) : Event → Prop
  | .push command true => ∃ old ∈ pool.pending, old.clientId = command.clientId
  | .push _ false | .closeBatch _ _ | .commit _ => False

/-- A commit drops no command that two others wait behind, so the hole is filled
from the place next to it, if at all. -/
def KeepsPlaces (pool : CommandPool) : Event → Prop
  | .commit command => ∀ old ∈ pool.pending.take (pool.pending.length - 2), Beyond command old
  | .push _ _ | .closeBatch _ _ => True

instance : Decidable (Replaces pool event) := by
  unfold Replaces
  split <;> infer_instance

instance : Decidable (KeepsPlaces pool event) := by
  unfold KeepsPlaces Beyond
  split <;> infer_instance

/-- Runs in which pushes replace nothing and the guard holds of every step. -/
abbrev GuardedRun (guard : CommandPool → Event → Prop) (start : CommandPool) :
    List Event → CommandPool → Prop :=
  Run (· = start) fun _ pool event next =>
    Step pool event next ∧ ¬ Replaces pool event ∧ guard pool event

/-- Commands come out in the order they went in. -/
def Ordered (history : List Event) : Prop :=
  ∀ first second, [first, second].Sublist (accepted history) → first ∈ returned history →
    second ∈ returned history → [first, second].Sublist (returned history)

@[simp] theorem accepted_append (before after : List Event) :
    accepted (before ++ after) = accepted before ++ accepted after :=
  List.filterMap_append

@[simp] theorem accepted_singleton (event : Event) :
    accepted [event] = event.accepted?.toList := by
  cases hevent : event.accepted? <;> simp [accepted, hevent]

theorem swapRemove_sublist {Item : Type} {items : List Item} {index : Nat}
    (hnear : items.length ≤ index + 2) (hindex : index < items.length) :
    (CloseLoop.swapRemove items index).Sublist items := by
  have herase : CloseLoop.swapRemove items index = items.eraseIdx index := by
    apply List.ext_getElem?
    intro other
    rw [CloseLoop.getElem?_swapRemove hindex, List.getElem?_eraseIdx]
    split
    next hlt =>
      by_cases heq : other = index
      · rw [if_pos heq, if_neg (by omega), show items.length - 1 = other + 1 by omega]
      · rw [if_neg heq, if_pos (by omega)]
    next hge =>
      by_cases hlt : other < index
      · omega
      · rw [if_neg hlt, List.getElem?_eq_none (by omega)]
  rw [herase]
  exact List.eraseIdx_sublist items index

/-- Without replacements and jumps, what has left and what waits is in the order
of arrival. -/
theorem GuardedRun.sublist (hrun : GuardedRun KeepsPlaces start history pool) (hnew : start.IsNew)
    (hvariant : start.IsCloseLoop) :
    PoolRun start history pool ∧
      (returned history ++ pool.pending).Sublist (accepted history) := by
  refine hrun.invariant (P := fun history pool => PoolRun start history pool ∧
    (returned history ++ pool.pending).Sublist (accepted history)) ?_ ?_
  · rintro pool rfl
    refine ⟨.start rfl, ?_⟩
    rcases hnew with rfl | rfl <;> exact List.Sublist.refl []
  · rintro history pool event next - ⟨hprev, hsub⟩ ⟨hstep, hreplaces, hkeeps⟩
    refine ⟨.step hprev hstep, ?_⟩
    obtain ⟨hissued, hsame⟩ := hprev.issued hnew
    have hqueue := hstep.queueStep hissued (hsame.mpr hvariant)
    rw [returned_append, returned_singleton, accepted_append, accepted_singleton]
    generalize next.pending = queue at hqueue ⊢
    cases hqueue with
    | reject => simpa [Event.accepted?, Event.returned] using hsub
    | replace hget hclient _ =>
        exact absurd ⟨_, List.mem_of_getElem? hget, hclient⟩ hreplaces
    | append _ =>
        simpa [Event.accepted?, Event.returned] using hsub.append_right [_]
    | close hsplit =>
        rw [hsplit, ← List.append_assoc] at hsub
        simpa [Event.accepted?, Event.returned] using hsub
    | keep _ => simpa [Event.accepted?, Event.returned] using hsub
    | @drop index old command hget hclient hle =>
        have hindex := (List.getElem?_eq_some_iff.mp hget).1
        have hnear : pool.pending.length ≤ index + 2 := by
          by_contra hfar
          refine (hkeeps old (List.mem_of_getElem? (i := index) ?_) hclient.symm).not_ge hle
          rw [List.getElem?_take_of_lt (by omega), hget]
        have hremoved := swapRemove_sublist hnear hindex
        simpa [Event.accepted?, Event.returned] using
          (hremoved.append_left (returned history)).trans hsub

/-- No command is accepted twice. -/
theorem PoolRun.accepted_increasing (hnew : start.IsNew) (hrun : PoolRun start history pool) :
    SeqIncreasing (accepted history) := by
  refine hrun.invariant (P := fun history _ => SeqIncreasing (accepted history))
    (by simp [accepted, SeqIncreasing.nil]) ?_
  intro history pool event next hprev ih hstep
  rw [accepted_append, accepted_singleton]
  cases hstep with
  | @push command flag next hpush =>
      obtain ⟨_, _, heq, hlaw⟩ := PoolRun.push hnew hprev command
      obtain ⟨-, hflag⟩ := Prod.mk.inj (Except.ok.inj (heq.symm.trans hpush))
      rw [hflag] at hlaw
      cases flag with
      | false => simpa [Event.accepted?] using ih
      | true =>
        refine SeqIncreasing.append_iff.mpr ⟨ih, by simp [Event.accepted?, SeqIncreasing], ?_⟩
        intro earlier hearlier later hlater hclient
        obtain rfl : later = command := by simpa [Event.accepted?] using hlater
        obtain ⟨event, hmem, hevent⟩ := List.mem_filterMap.mp hearlier
        refine high_lt_iff.mp (hlaw.mp rfl) earlier (List.mem_filterMap.mpr ⟨event, hmem, ?_⟩) hclient
        -- what was accepted raised its client
        rcases event with ⟨_, _ | _⟩ | _ | _ <;> simp_all [Event.accepted?, Event.raising?]
  | closeBatch _ => simpa [Event.accepted?] using ih
  | commit _ => simpa [Event.accepted?] using ih

/-- As long as no commit makes a command jump, the pool preserves the order. -/
theorem order_kept (hrun : GuardedRun KeepsPlaces (closeLoop .new) history pool) :
    Ordered history := by
  obtain ⟨hpool, hsub⟩ := hrun.sublist (.inl rfl) trivial
  have hnodup : (accepted history).Nodup :=
    ((hpool.accepted_increasing (.inl rfl)).nodup).of_map _
  intro first second hpair hfirst hsecond
  exact pair_sublist_of_nodup ((List.sublist_append_left _ _).trans hsub) hnodup hpair hfirst hsecond

/-- With two clients there is nothing to jump over. -/
theorem order_kept_pair : ∃ history pool,
    GuardedRun KeepsPlaces (closeLoop .new) history pool ∧
      (returned history).length = 2 ∧ Ordered history := by
  have hreplay : ∃ result ∈ replay (closeLoop .new)
      [.push ⟨0, 1, []⟩, .push ⟨1, 1, []⟩, .commit ⟨0, 1, []⟩, .push ⟨0, 2, []⟩, .closeBatch 2],
      (∀ entry ∈ result.2, ¬ Replaces entry.1 entry.2 ∧ KeepsPlaces entry.1 entry.2) ∧
      (returned (result.2.map Prod.snd)).length = 2 := by
    decide +kernel
  obtain ⟨⟨pool, trace⟩, hresult, hguard, hreturned⟩ := hreplay
  have hrun : GuardedRun KeepsPlaces (closeLoop .new) ([] ++ trace.map Prod.snd) pool :=
    replay_run (.start rfl) hresult hguard
  exact ⟨_, pool, hrun, hreturned, order_kept hrun⟩

/-- With three, the last one jumps into the hole of the first. -/
theorem order_lost : ¬ ∀ history pool, GuardedRun (fun _ _ => True) (closeLoop .new) history pool →
    Ordered history := by
  intro hclaim
  have hreplay : ∃ result ∈ replay (closeLoop .new) (pushes ++ serving),
      (∀ entry ∈ result.2, ¬ Replaces entry.1 entry.2 ∧ True) ∧
      [⟨1, 1, []⟩, ⟨2, 1, []⟩].Sublist (accepted (result.2.map Prod.snd)) ∧
      returned (result.2.map Prod.snd) = [⟨2, 1, []⟩, ⟨1, 1, []⟩] := by
    decide +kernel
  obtain ⟨⟨pool, trace⟩, hresult, hguard, haccepted, hreturned⟩ := hreplay
  have hrun : GuardedRun (fun _ _ => True) (closeLoop .new) ([] ++ trace.map Prod.snd) pool :=
    replay_run (.start rfl) hresult hguard
  have hordered := hclaim _ _ hrun ⟨1, 1, []⟩ ⟨2, 1, []⟩ haccepted
  simp only [List.nil_append, hreturned] at hordered
  exact absurd (hordered (by simp) (by simp)) (by decide)

end BftKit.CommandPool
