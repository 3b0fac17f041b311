import BftKit.CommandPool
import BftKit.Foundation.Run

/-! # Histories of a command pool

The calls of a pool with what they returned. One law decides every push, for
both variants: a command is new if its sequence number exceeds everything its
client has had accepted or committed.
-/

namespace BftKit

open Foundation

/-- The second command is still new once the first one has been seen. -/
def Beyond (command other : Command) : Prop :=
  command.clientId = other.clientId → command.seq < other.seq

/-- What a commit writes is beyond a command's reach exactly if the old entry
and the committed command are. -/
theorem lookup_commit_lt {seqs : Map ClientId ClientSeq} {command other : Command} :
    (∀ seq, (seqs.insert command.clientId
        (max ((seqs.lookup command.clientId).getD 0) command.seq)).lookup other.clientId = some seq →
      seq < other.seq) ↔
      (∀ seq, seqs.lookup other.clientId = some seq → seq < other.seq) ∧ Beyond command other := by
  by_cases heq : other.clientId = command.clientId
  · have hsame : seqs.lookup other.clientId = seqs.lookup command.clientId := by rw [heq]
    simp only [Map.lookup_insert, hsame, heq, if_true, Option.some.injEq, forall_eq', max_lt_iff,
      Beyond, true_implies]
    refine and_congr_left fun hlt => ?_
    cases seqs.lookup command.clientId with
    | none => simpa using (Fin.zero_le _).trans_lt hlt
    | some seq => simp
  · simp [heq, Beyond, Ne.symm heq]

/-! ## What a close-loop pool admits -/

namespace CloseLoop

section SwapRemove

variable {Item : Type} {items : List Item} {index : Nat} {item : Item}

theorem mem_of_mem_swapRemove (hindex : index < items.length)
    (hmem : item ∈ swapRemove items index) : item ∈ items := by
  obtain ⟨other, hother⟩ := List.getElem?_of_mem hmem
  rw [getElem?_swapRemove hindex] at hother
  split at hother
  · split at hother <;> exact List.mem_of_getElem? hother
  · cases hother

theorem mem_swapRemove {other : Nat} (hother : items[other]? = some item) (hne : other ≠ index)
    (hindex : index < items.length) : item ∈ swapRemove items index := by
  have hlt := (List.getElem?_eq_some_iff.mp hother).1
  by_cases hlast : other + 1 = items.length
  · -- the last item moved into the hole
    apply List.mem_of_getElem? (i := index)
    rw [getElem?_swapRemove hindex, if_pos (by omega), if_pos rfl,
      show items.length - 1 = other by omega, hother]
  · apply List.mem_of_getElem? (i := other)
    rw [getElem?_swapRemove hindex, if_pos (by omega), if_neg hne, hother]

end SwapRemove

namespace CommandPool

/-- A push of the command would be accepted. -/
def Admits (pool : CommandPool) (command : Command) : Prop :=
  pool.submittedAtLeast command = false ∧ ∀ old ∈ pool.pendingQueue, Beyond old command

variable {pool : CommandPool}

theorem push_admits (hpool : pool.Wf) (command : Command) :
    ∃ next accepted, pool.push command = .ok (next, accepted) ∧
      (accepted = true ↔ pool.Admits command) ∧
      ∀ other, next.Admits other ↔ pool.Admits other ∧ (accepted = true → Beyond command other) := by
  rcases hpool.push_cases command with
    ⟨hrejected, hpush⟩ | ⟨hfresh, index, old, hget, hclient, hlt, hpush⟩ | ⟨hfresh, hnone, hpush⟩
  · refine ⟨_, _, hpush, ?_, by simp⟩
    simp only [Bool.false_eq_true, false_iff, Admits, not_and]
    intro hfresh hbeyond
    rcases hrejected with hsubmitted | ⟨old, hmem, hclient, hle⟩
    · rw [hsubmitted] at hfresh
      cases hfresh
    · exact (hbeyond old hmem hclient).not_ge hle
  · have hmem : old ∈ pool.pendingQueue := List.mem_of_getElem? hget
    have hindex : index < pool.pendingQueue.length := (List.getElem?_eq_some_iff.mp hget).1
    refine ⟨_, _, hpush, ?_, ?_⟩
    · simp only [true_iff]
      refine ⟨hfresh, ?_⟩
      intro other hother heq
      -- a client has one pending command, the one that is replaced
      obtain ⟨place, hplace⟩ := List.getElem?_of_mem hother
      obtain rfl := hpool.index_unique hplace hget (heq.trans hclient.symm)
      obtain rfl := Option.some.inj (hplace.symm.trans hget)
      exact hlt
    · intro other
      constructor
      · rintro ⟨hother, hbeyond⟩
        have hcommand : Beyond command other :=
          hbeyond command (List.mem_set hindex command)
        refine ⟨⟨hother, ?_⟩, fun _ => hcommand⟩
        intro entry hentry heq
        obtain ⟨place, hplace⟩ := List.getElem?_of_mem hentry
        by_cases hne : index = place
        · subst hne
          obtain rfl := Option.some.inj (hplace.symm.trans hget)
          exact hlt.trans (hcommand (hclient.symm.trans heq))
        · exact hbeyond entry (List.mem_of_getElem? ((List.getElem?_set_ne hne).trans hplace)) heq
      · rintro ⟨⟨hother, hbeyond⟩, hcommand⟩
        refine ⟨hother, ?_⟩
        intro entry hentry
        rcases List.mem_or_eq_of_mem_set hentry with hold | rfl
        · exact hbeyond entry hold
        · exact hcommand rfl
  · refine ⟨_, _, hpush, ?_, ?_⟩
    · simp only [true_iff]
      exact ⟨hfresh, fun old hold heq => absurd heq (hnone old hold)⟩
    · intro other
      simp only [Admits, List.forall_mem_append, List.forall_mem_singleton, forall_const,
        submittedAtLeast, and_assoc]

theorem closeBatch_admits (hpool : pool.Wf) (maxBatchSize : Nat) :
    ∃ next batch, pool.closeBatch maxBatchSize = .ok (next, batch) ∧
      ∀ other, next.Admits other ↔ pool.Admits other := by
  rcases hpool.closeBatch_cases maxBatchSize with
    ⟨-, hclose⟩ | ⟨next, -, hclose, -, hqueue, hnew, hold⟩
  · exact ⟨_, _, hclose, fun _ => .rfl⟩
  · refine ⟨_, _, hclose, fun other => ?_⟩
    have hsplit : ∀ entry, entry ∈ pool.pendingQueue ↔
        entry ∈ pool.pendingQueue.take maxBatchSize ∨ entry ∈ next.pendingQueue := by
      intro entry
      rw [hqueue, ← List.mem_append, List.take_append_drop]
    simp only [Admits, submittedAtLeast_eq_false]
    by_cases htaken : other.clientId ∈
        (pool.pendingQueue.take maxBatchSize).map Command.clientId
    · -- the client's pending command became its submitted one
      obtain ⟨entry, hentry, hclient⟩ := List.mem_map.mp htaken
      have hpending : entry ∈ pool.pendingQueue := (hsplit entry).mpr (.inl hentry)
      rw [← hclient, hnew entry hentry]
      simp only [Option.some.injEq, forall_eq']
      constructor
      · rintro ⟨hlt, hbeyond⟩
        refine ⟨?_, ?_⟩
        · intro seq hlookup
          exact (submittedAtLeast_eq_false.mp (hpool.fresh entry hpending) seq hlookup).trans hlt
        · intro old hmem heq
          obtain ⟨place, hplace⟩ := List.getElem?_of_mem hmem
          obtain ⟨place', hplace'⟩ := List.getElem?_of_mem hpending
          obtain rfl := hpool.index_unique hplace hplace' (heq.trans hclient.symm)
          obtain rfl := Option.some.inj (hplace.symm.trans hplace')
          exact hlt
      · rintro ⟨-, hbeyond⟩
        exact ⟨hbeyond entry hpending hclient,
          fun old hmem => hbeyond old ((hsplit old).mpr (.inr hmem))⟩
    · rw [hold _ htaken]
      refine and_congr_right fun _ => ?_
      constructor
      · intro hbeyond old hmem heq
        rcases (hsplit old).mp hmem with hfirst | hrest
        · exact absurd (heq ▸ List.mem_map_of_mem hfirst) htaken
        · exact hbeyond old hrest heq
      · exact fun hbeyond old hmem => hbeyond old ((hsplit old).mpr (.inr hmem))

theorem commit_admits (hpool : pool.Wf) (command : Command) :
    ∃ next, pool.commit command = .ok next ∧
      ∀ other, next.Admits other ↔ pool.Admits other ∧ Beyond command other := by
  obtain ⟨next, hcommit, -, hseqs, hqueue⟩ := hpool.commit_cases command
  refine ⟨next, hcommit, fun other => ?_⟩
  have hsubmitted : next.submittedAtLeast other = false ↔
      pool.submittedAtLeast other = false ∧ Beyond command other := by
    rw [submittedAtLeast_eq_false, submittedAtLeast_eq_false, hseqs]
    exact lookup_commit_lt
  simp only [Admits, hsubmitted, and_assoc, and_congr_right_iff]
  intro _
  rw [and_comm, and_congr_left_iff]
  intro hbeyond
  rcases hqueue with ⟨hsame, -⟩ | ⟨index, old, hget, hclient, hle, hremoved⟩
  · rw [hsame]
  · have hindex := (List.getElem?_eq_some_iff.mp hget).1
    rw [hremoved]
    constructor
    · intro hall entry hmem heq
      obtain ⟨place, hplace⟩ := List.getElem?_of_mem hmem
      by_cases hne : place = index
      · subst hne
        obtain rfl := Option.some.inj (hplace.symm.trans hget)
        exact hle.trans_lt (hbeyond (hclient.symm.trans heq))
      · exact hall entry (mem_swapRemove hplace hne hindex) heq
    · exact fun hall entry hmem => hall entry (mem_of_mem_swapRemove hindex hmem)

end CommandPool

end CloseLoop

/-! ## What an open-loop pool admits -/

namespace OpenLoop.CommandPool

def Admits (pool : CommandPool) (command : Command) : Prop := pool.seenAtLeast command = false

variable {pool : CommandPool}

theorem admits_iff {command : Command} :
    pool.Admits command ↔
      ∀ seq, pool.clientSeqs.lookup command.clientId = some seq → seq < command.seq := by
  cases hlookup : pool.clientSeqs.lookup command.clientId <;>
    simp [Admits, seenAtLeast, hlookup]

theorem push_admits (command : Command) :
    ((pool.push command).2 = true ↔ pool.Admits command) ∧
      ∀ other, (pool.push command).1.Admits other ↔
        pool.Admits other ∧ ((pool.push command).2 = true → Beyond command other) := by
  unfold push
  split
  next hseen => simp [Admits, hseen]
  next hnot =>
    have hadmits : pool.Admits command := by simpa [Admits] using hnot
    simp only [hadmits, true_implies, true_and]
    intro other
    simp only [admits_iff, Map.lookup_insert]
    by_cases heq : other.clientId = command.clientId
    · have hsame : pool.clientSeqs.lookup other.clientId =
          pool.clientSeqs.lookup command.clientId := by rw [heq]
      simp only [hsame, heq, if_true, Option.some.injEq, forall_eq', Beyond, true_implies]
      exact ⟨fun hlt => ⟨fun seq hlookup => (admits_iff.mp hadmits seq hlookup).trans hlt, hlt⟩,
        fun h => h.2⟩
    · simp [if_neg heq, Beyond, Ne.symm heq]

theorem closeBatch_admits {maxBatchSize : Nat} {next : CommandPool}
    {batch : Option (List Command)} (hclose : pool.closeBatch maxBatchSize = .ok (next, batch))
    (other : Command) : next.Admits other ↔ pool.Admits other := by
  unfold closeBatch at hclose
  split at hclose
  · cases hclose
  · split at hclose <;> obtain ⟨rfl, rfl⟩ := Prod.mk.inj (Except.ok.inj hclose) <;> rfl

theorem commit_admits (command other : Command) :
    (pool.commit command).Admits other ↔ pool.Admits other ∧ Beyond command other := by
  simp only [admits_iff, commit]
  exact lookup_commit_lt

end OpenLoop.CommandPool

/-! ## Histories -/

namespace CommandPool

inductive Call where
  | push (command : Command)
  | closeBatch (maxBatchSize : Nat)
  | commit (command : Command)

/-- A call with what it returned. -/
inductive Event where
  | push (command : Command) (accepted : Bool)
  | closeBatch (maxBatchSize : Nat) (batch : Option (List Command))
  | commit (command : Command)

namespace Event

def call : Event → Call
  | push command _ => .push command
  | closeBatch maxBatchSize _ => .closeBatch maxBatchSize
  | commit command => .commit command

/-- The answer of a push. -/
def answer? : Event → Option Bool
  | push _ accepted => some accepted
  | closeBatch _ _ | commit _ => none

/-- The command that a push had accepted. -/
def accepted? : Event → Option Command
  | push command true => some command
  | push _ false | closeBatch _ _ | commit _ => none

/-- The command that raises what its client is asked for. -/
def raising? : Event → Option Command
  | push command true | commit command => some command
  | push _ false | closeBatch _ _ => none

/-- The commands that an event returns. -/
def returned : Event → List Command
  | closeBatch _ batch => batch.getD []
  | push _ _ | commit _ => []

end Event

/-- A panic has no successor. -/
inductive Step (pool : CommandPool) : Event → CommandPool → Prop
  | push {command accepted next} (hpush : pool.push command = .ok (next, accepted)) :
      Step pool (.push command accepted) next
  | closeBatch {maxBatchSize batch next}
      (hclose : pool.closeBatch maxBatchSize = .ok (next, batch)) :
      Step pool (.closeBatch maxBatchSize batch) next
  | commit {command next} (hcommit : pool.commit command = .ok next) :
      Step pool (.commit command) next

abbrev PoolRun (start : CommandPool) : List Event → CommandPool → Prop :=
  Run (· = start) fun _ => Step

def performCall (pool : CommandPool) : Call → Except Panic (CommandPool × Event)
  | .push command => do
      let (pool, accepted) ← pool.push command
      .ok (pool, .push command accepted)
  | .closeBatch maxBatchSize => do
      let (pool, batch) ← pool.closeBatch maxBatchSize
      .ok (pool, .closeBatch maxBatchSize batch)
  | .commit command => do
      let pool ← pool.commit command
      .ok (pool, .commit command)

/-- The run that a list of calls makes, each event with the pool it happens to. -/
def replay (pool : CommandPool) : List Call → Option (CommandPool × List (CommandPool × Event))
  | [] => some (pool, [])
  | call :: rest =>
      match pool.performCall call with
      | .error _ => none
      | .ok (next, event) =>
          match replay next rest with
          | none => none
          | some (last, trace) => some (last, (pool, event) :: trace)

/-- A new pool of either variant. -/
def IsNew (pool : CommandPool) : Prop := pool = closeLoop .new ∨ pool = openLoop .new

/-- The largest sequence number of a client among its accepted pushes and its
commits. -/
def high (clientId : ClientId) (history : List Event) : Option ClientSeq :=
  (((history.filterMap Event.raising?).filter (·.clientId = clientId)).map Command.seq).max?

/-- Every command that a batch returned, in order. -/
def returned (history : List Event) : List Command := history.flatMap Event.returned

@[simp] theorem returned_nil : returned [] = [] := rfl

@[simp] theorem returned_append (before after : List Event) :
    returned (before ++ after) = returned before ++ returned after :=
  List.flatMap_append

@[simp] theorem returned_singleton (event : Event) : returned [event] = event.returned := by
  simp [returned]

theorem high_lt_iff {command : Command} {history : List Event} :
    (∀ top ∈ high command.clientId history, top < command.seq) ↔
      ∀ other ∈ history.filterMap Event.raising?, Beyond other command := by
  have hall : (∀ other ∈ history.filterMap Event.raising?, Beyond other command) ↔
      ∀ seq ∈ ((history.filterMap Event.raising?).filter
        (·.clientId = command.clientId)).map Command.seq, seq < command.seq := by
    simp only [List.forall_mem_map, List.mem_filter, decide_eq_true_eq, and_imp]
    rfl
  rw [hall, high]
  cases hmax : (((history.filterMap Event.raising?).filter
      (·.clientId = command.clientId)).map Command.seq).max? with
  | none => simp [List.max?_eq_none_iff.mp hmax]
  | some top =>
      obtain ⟨hmem, hle⟩ := List.max?_eq_some_iff.mp hmax
      simp only [Option.mem_some_iff, forall_eq']
      exact ⟨fun hlt seq hseq => (hle seq hseq).trans_lt hlt, fun hseq => hseq top hmem⟩

/-! ## The law of pushes -/

def Admits : CommandPool → Command → Prop
  | closeLoop pool, command => pool.Admits command
  | openLoop pool, command => pool.Admits command

variable {pool next start : CommandPool} {history : List Event} {event : Event}

theorem isNew_issued (hnew : pool.IsNew) : pool.Issued [] := by
  rcases hnew with rfl | rfl
  · exact closeLoop_new_issued
  · exact openLoop_new_issued

theorem isNew_admits (hnew : pool.IsNew) (command : Command) : pool.Admits command := by
  rcases hnew with rfl | rfl
  · exact ⟨rfl, by simp [CloseLoop.CommandPool.new]⟩
  · rfl

theorem push_admits {log : List Command} (hpool : pool.Issued log) (command : Command) :
    ∃ next accepted, pool.push command = .ok (next, accepted) ∧
      (accepted = true ↔ pool.Admits command) ∧
      ∀ other, next.Admits other ↔ pool.Admits other ∧ (accepted = true → Beyond command other) := by
  cases pool with
  | closeLoop pool =>
      obtain ⟨next, accepted, hpush, hlaw⟩ :=
        CloseLoop.CommandPool.push_admits (CloseLoop.CommandPool.Issued.wf hpool) command
      exact ⟨.closeLoop next, accepted, by simp [push, hpush], hlaw⟩
  | openLoop pool => exact ⟨_, _, rfl, OpenLoop.CommandPool.push_admits command⟩

/-- A pool asks for more after an accepted push or a commit, and only then. -/
theorem Step.admits {log : List Command} (hpool : pool.Issued log) (hstep : Step pool event next)
    (other : Command) :
    next.Admits other ↔ pool.Admits other ∧ ∀ command ∈ event.raising?, Beyond command other := by
  cases hstep with
  | @push command accepted next hpush =>
      obtain ⟨next', accepted', hpush', -, hlaw⟩ := push_admits hpool command
      obtain ⟨rfl, rfl⟩ := Prod.mk.inj (Except.ok.inj (hpush'.symm.trans hpush))
      rw [hlaw]
      cases accepted' <;> simp [Event.raising?]
  | @closeBatch maxBatchSize batch next hclose =>
      simp only [Event.raising?, Option.not_mem_none, false_implies, implies_true, and_true]
      cases pool with
      | closeLoop pool =>
          obtain ⟨next', batch', hclose', hlaw⟩ :=
            CloseLoop.CommandPool.closeBatch_admits (CloseLoop.CommandPool.Issued.wf hpool)
              maxBatchSize
          obtain ⟨rfl, rfl⟩ : CommandPool.closeLoop next' = next ∧ batch' = batch := by
            simpa [CommandPool.closeBatch, hclose'] using hclose
          exact hlaw other
      | openLoop pool =>
          simp only [CommandPool.closeBatch, bind_eq_ok] at hclose
          obtain ⟨⟨next', batch'⟩, hclose', heq⟩ := hclose
          obtain ⟨rfl, rfl⟩ : CommandPool.openLoop next' = next ∧ batch' = batch := by
            simpa using heq
          exact OpenLoop.CommandPool.closeBatch_admits hclose' other
  | @commit command next hcommit =>
      simp only [Event.raising?, Option.mem_some_iff, forall_eq']
      cases pool with
      | closeLoop pool =>
          obtain ⟨next', hcommit', hlaw⟩ :=
            CloseLoop.CommandPool.commit_admits (CloseLoop.CommandPool.Issued.wf hpool) command
          obtain rfl : CommandPool.closeLoop next' = next := by
            simpa [CommandPool.commit, hcommit'] using hcommit
          exact hlaw other
      | openLoop pool =>
          obtain rfl := Except.ok.inj hcommit
          exact OpenLoop.CommandPool.commit_admits command other

theorem Step.issued {log : List Command} (hpool : pool.Issued log) (hstep : Step pool event next) :
    next.Issued (log ++ event.returned) ∧ (next.IsCloseLoop ↔ pool.IsCloseLoop) := by
  cases hstep with
  | @push command accepted next hpush =>
      obtain ⟨next', accepted', hpush', hnext, hsame⟩ := hpool.push command
      obtain ⟨rfl, -⟩ := Prod.mk.inj (Except.ok.inj (hpush'.symm.trans hpush))
      simpa [Event.returned] using ⟨hnext, hsame⟩
  | closeBatch hclose => exact hpool.closeBatch hclose
  | @commit command next hcommit =>
      obtain ⟨next', hcommit', hnext, hsame⟩ := hpool.commit command
      obtain rfl := Except.ok.inj (hcommit'.symm.trans hcommit)
      simpa [Event.returned] using ⟨hnext, hsame⟩

theorem performCall_step {call : Call} (hcall : pool.performCall call = .ok (next, event)) :
    Step pool event next := by
  cases call <;> simp only [performCall, bind_eq_ok] at hcall <;>
    obtain ⟨_, hcall, heq⟩ := hcall <;> obtain ⟨rfl, rfl⟩ := Prod.mk.inj (Except.ok.inj heq)
  · exact .push hcall
  · exact .closeBatch hcall
  · exact .commit hcall

theorem replay_run {guard : CommandPool → Event → Prop}
    (hrun : Run (· = start) (fun _ pool event next => Step pool event next ∧ guard pool event)
      history pool)
    {calls : List Call} {trace : List (CommandPool × Event)}
    (hreplay : pool.replay calls = some (next, trace))
    (hguard : ∀ entry ∈ trace, guard entry.1 entry.2) :
    Run (· = start) (fun _ pool event next => Step pool event next ∧ guard pool event)
      (history ++ trace.map Prod.snd) next := by
  induction calls generalizing pool history trace with
  | nil =>
      obtain ⟨rfl, rfl⟩ := Prod.mk.inj (Option.some.inj hreplay)
      simpa using hrun
  | cons call rest ih =>
      simp only [replay] at hreplay
      split at hreplay
      next => cases hreplay
      next middle event hcall =>
      split at hreplay
      next => cases hreplay
      next last later hrest =>
      obtain ⟨rfl, rfl⟩ := Prod.mk.inj (Option.some.inj hreplay)
      rw [List.map_cons, ← List.singleton_append, ← List.append_assoc]
      exact ih (.step hrun ⟨performCall_step hcall, hguard _ List.mem_cons_self⟩) hrest
        fun entry hmem => hguard entry (List.mem_cons_of_mem _ hmem)

theorem replay_poolRun (hrun : PoolRun start history pool) {calls : List Call}
    {trace : List (CommandPool × Event)} (hreplay : pool.replay calls = some (next, trace)) :
    PoolRun start (history ++ trace.map Prod.snd) next := by
  refine (@replay_run pool next start history (fun _ _ => True) ?_ calls trace hreplay
    (by simp)).mono (fun _ h => h)
    fun _ _ _ _ h => h.1
  exact hrun.mono (fun _ h => h) fun _ _ _ _ h => ⟨h, trivial⟩

/-! ## The queue of a close-loop pool -/

/-- What an event does to the queue of a close-loop pool. -/
inductive QueueStep (queue : List Command) : Event → List Command → Prop
  | reject {command} : QueueStep queue (.push command false) queue
  | replace {index old command} (hget : queue[index]? = some old)
      (hclient : old.clientId = command.clientId) (hlt : old.seq < command.seq) :
      QueueStep queue (.push command true) (queue.set index command)
  | append {command} (hnone : ∀ old ∈ queue, old.clientId ≠ command.clientId) :
      QueueStep queue (.push command true) (queue ++ [command])
  | close {maxBatchSize batch rest} (hsplit : queue = batch.getD [] ++ rest) :
      QueueStep queue (.closeBatch maxBatchSize batch) rest
  | keep {command} (hbeyond : ∀ entry ∈ queue, Beyond command entry) :
      QueueStep queue (.commit command) queue
  | drop {index old command} (hget : queue[index]? = some old)
      (hclient : old.clientId = command.clientId) (hle : old.seq ≤ command.seq) :
      QueueStep queue (.commit command) (CloseLoop.swapRemove queue index)

theorem Step.queueStep {log : List Command} (hpool : pool.Issued log) (hvariant : pool.IsCloseLoop)
    (hstep : Step pool event next) : QueueStep pool.pending event next.pending := by
  cases pool with
  | openLoop pool => exact absurd hvariant id
  | closeLoop pool =>
      have hwf := CloseLoop.CommandPool.Issued.wf hpool
      cases hstep with
      | @push command accepted next hpush =>
          simp only [CommandPool.push, bind_eq_ok] at hpush
          obtain ⟨⟨next', accepted'⟩, hpush, heq⟩ := hpush
          obtain ⟨rfl, rfl⟩ := Prod.mk.inj (Except.ok.inj heq)
          rcases hwf.push_cases command with
            ⟨-, hcase⟩ | ⟨-, index, old, hget, hclient, hlt, hcase⟩ | ⟨-, hnone, hcase⟩ <;>
            obtain ⟨rfl, rfl⟩ := Prod.mk.inj (Except.ok.inj (hpush.symm.trans hcase))
          · exact .reject
          · exact .replace hget hclient hlt
          · exact .append hnone
      | @closeBatch maxBatchSize batch next hclose =>
          simp only [CommandPool.closeBatch, bind_eq_ok] at hclose
          obtain ⟨⟨next', batch'⟩, hclose, heq⟩ := hclose
          obtain ⟨rfl, rfl⟩ := Prod.mk.inj (Except.ok.inj heq)
          rcases hwf.closeBatch_cases maxBatchSize with
            ⟨-, hcase⟩ | ⟨next'', -, hcase, -, hqueue, -⟩ <;>
            obtain ⟨rfl, rfl⟩ := Prod.mk.inj (Except.ok.inj (hclose.symm.trans hcase))
          · exact .close rfl
          · refine .close ?_
            simp [pending, hqueue]
      | @commit command next hcommit =>
          simp only [CommandPool.commit, bind_eq_ok] at hcommit
          obtain ⟨next', hcommit, heq⟩ := hcommit
          obtain rfl := Except.ok.inj heq
          obtain ⟨next'', hcase, -, -, hqueue⟩ := hwf.commit_cases command
          obtain rfl := Except.ok.inj (hcommit.symm.trans hcase)
          rcases hqueue with ⟨hsame, hbeyond⟩ | ⟨index, old, hget, hclient, hle, hremoved⟩
          · simp only [pending, hsame]
            exact .keep fun entry hmem heq => hbeyond entry hmem heq.symm
          · simp only [pending, hremoved]
            exact .drop hget hclient hle

/-- No client waits twice. -/
def Distinct (queue : List Command) : Prop := (queue.map Command.clientId).Nodup

theorem Distinct.index_unique {queue : List Command} (hqueue : Distinct queue)
    {index index' : Nat} {command command' : Command} (hget : queue[index]? = some command)
    (hget' : queue[index']? = some command') (hclient : command.clientId = command'.clientId) :
    index = index' := by
  obtain ⟨hlt, rfl⟩ := List.getElem?_eq_some_iff.mp hget
  obtain ⟨hlt', rfl⟩ := List.getElem?_eq_some_iff.mp hget'
  have hlength : (queue.map Command.clientId).length = queue.length := List.length_map _
  apply (@List.Nodup.getElem_inj_iff _ _ hqueue index (hlength ▸ hlt) index' (hlength ▸ hlt')).mp
  simpa using hclient

theorem Issued.distinct {log : List Command} (hpool : pool.Issued log)
    (hvariant : pool.IsCloseLoop) : Distinct pool.pending := by
  cases pool with
  | openLoop pool => exact absurd hvariant id
  | closeLoop pool => exact (CloseLoop.CommandPool.Issued.wf hpool).clientId_nodup

/-! ## Runs -/

theorem PoolRun.issued_from {log : List Command} (hstart : start.Issued log)
    (hrun : PoolRun start history pool) :
    pool.Issued (log ++ returned history) ∧ (pool.IsCloseLoop ↔ start.IsCloseLoop) := by
  refine hrun.invariant (P := fun history pool =>
    pool.Issued (log ++ returned history) ∧ (pool.IsCloseLoop ↔ start.IsCloseLoop)) ?_ ?_
  · rintro pool rfl
    exact ⟨by simpa using hstart, .rfl⟩
  · rintro history pool event next - ⟨hpool, hsame⟩ hstep
    obtain ⟨hnext, hsame'⟩ := hstep.issued hpool
    rw [returned_append, returned_singleton, ← List.append_assoc]
    exact ⟨hnext, hsame'.trans hsame⟩

theorem PoolRun.issued (hnew : start.IsNew) (hrun : PoolRun start history pool) :
    pool.Issued (returned history) ∧ (pool.IsCloseLoop ↔ start.IsCloseLoop) :=
  hrun.issued_from (isNew_issued hnew)

/-- The abstract law: what is admitted is what lies beyond everything seen. -/
theorem PoolRun.admits (hnew : start.IsNew) (hrun : PoolRun start history pool)
    (command : Command) :
    pool.Admits command ↔ ∀ other ∈ history.filterMap Event.raising?, Beyond other command := by
  refine hrun.invariant (P := fun history pool => pool.Admits command ↔
    ∀ other ∈ history.filterMap Event.raising?, Beyond other command) ?_ ?_
  · rintro pool rfl
    simpa using isNew_admits hnew command
  · intro history pool event next hprev ih hstep
    rw [hstep.admits (PoolRun.issued hnew hprev).1, ih, List.filterMap_append, List.forall_mem_append]
    cases hraising : event.raising? <;> simp [List.filterMap, hraising]

theorem PoolRun.push (hnew : start.IsNew) (hrun : PoolRun start history pool) (command : Command) :
    ∃ next accepted, pool.push command = .ok (next, accepted) ∧
      (accepted = true ↔ ∀ top ∈ high command.clientId history, top < command.seq) := by
  obtain ⟨next, accepted, hpush, hlaw, -⟩ := push_admits (hrun.issued hnew).1 command
  exact ⟨next, accepted, hpush, by rw [hlaw, hrun.admits hnew, high_lt_iff]⟩

/-- Two pools that get the same calls answer the same. -/
theorem PoolRun.answers (hnew : start.IsNew) (hrun : PoolRun start history pool)
    {start' pool' : CommandPool} {history' : List Event} (hnew' : start'.IsNew)
    (hrun' : PoolRun start' history' pool')
    (hcalls : history.map Event.call = history'.map Event.call) :
    history.map Event.answer? = history'.map Event.answer? ∧
      history.filterMap Event.raising? = history'.filterMap Event.raising? := by
  induction hrun generalizing history' pool' with
  | start h =>
      obtain rfl : history' = [] := by simpa using hcalls.symm
      exact ⟨rfl, rfl⟩
  | @step history pool event next hprev hstep ih =>
      cases hrun' with
      | start h => simp at hcalls
      | @step history' pool' event' next' hprev' hstep' =>
          simp only [List.map_append, List.map_cons, List.map_nil] at hcalls
          obtain ⟨hbefore, hlast⟩ := List.append_inj' hcalls rfl
          have hcall : event.call = event'.call := by simpa using hlast
          obtain ⟨hanswers, hraised⟩ := ih hprev' hbefore
          -- both pools decide a push by the same law
          have hevent : event.answer? = event'.answer? ∧ event.raising? = event'.raising? := by
            cases hstep <;> cases hstep' <;> simp only [Event.call, reduceCtorEq] at hcall
            case push.push command accepted hpush command' accepted' hpush' =>
              obtain rfl := Call.push.inj hcall
              obtain ⟨_, _, heq, hlaw⟩ := PoolRun.push hnew hprev command
              obtain ⟨_, _, heq', hlaw'⟩ := PoolRun.push hnew' hprev' command
              obtain ⟨-, rfl⟩ := Prod.mk.inj (Except.ok.inj (heq.symm.trans hpush))
              obtain ⟨-, rfl⟩ := Prod.mk.inj (Except.ok.inj (heq'.symm.trans hpush'))
              rw [high_lt_iff, hraised, ← high_lt_iff, ← hlaw', Bool.coe_iff_coe] at hlaw
              rw [hlaw]
              exact ⟨rfl, rfl⟩
            case closeBatch.closeBatch => exact ⟨rfl, rfl⟩
            case commit.commit =>
              obtain rfl := Call.commit.inj hcall
              exact ⟨rfl, rfl⟩
          simp only [List.map_append, List.filterMap_append, List.map_cons, List.map_nil,
            List.filterMap, hanswers, hraised, hevent.1, hevent.2, and_self]

/-- What waits in a close-loop pool outruns every commit. -/
theorem PoolRun.outruns (hnew : start.IsNew) (hvariant : start.IsCloseLoop)
    (hrun : PoolRun start history pool) :
    ∀ committed, .commit committed ∈ history → ∀ entry ∈ pool.pending, Beyond committed entry := by
  refine hrun.invariant (P := fun history pool => ∀ committed, .commit committed ∈ history →
    ∀ entry ∈ pool.pending, Beyond committed entry) (by simp) ?_
  intro history pool event next hprev ih hstep committed hcommitted entry hentry
  obtain ⟨hissued, hsame⟩ := PoolRun.issued hnew hprev
  have hpending := hstep.queueStep hissued (hsame.mpr hvariant)
  have hdistinct := hissued.distinct (hsame.mpr hvariant)
  -- an accepted command is beyond all commits before it
  have haccepted : ∀ command, event = .push command true → .commit committed ∈ history →
      Beyond committed command := by
    rintro command rfl hmem
    cases hstep with
    | push hpush =>
        obtain ⟨_, _, heq, hlaw⟩ := PoolRun.push hnew hprev command
        obtain ⟨-, rfl⟩ := Prod.mk.inj (Except.ok.inj (heq.symm.trans hpush))
        exact high_lt_iff.mp (hlaw.mp rfl) committed
          (List.mem_filterMap.mpr ⟨_, hmem, rfl⟩)
  generalize next.pending = queue at hpending hentry
  rcases List.mem_append.mp hcommitted with hbefore | hlast
  · cases hpending with
    | reject => exact ih committed hbefore entry hentry
    | replace hget hclient hlt =>
        rcases List.mem_or_eq_of_mem_set hentry with hold | rfl
        · exact ih committed hbefore entry hold
        · exact haccepted _ rfl hbefore
    | append hnone =>
        rcases List.mem_append.mp hentry with hold | hlast
        · exact ih committed hbefore entry hold
        · rw [List.mem_singleton.mp hlast]
          exact haccepted _ rfl hbefore
    | close hsplit =>
        exact ih committed hbefore entry (hsplit ▸ List.mem_append_right _ hentry)
    | keep => exact ih committed hbefore entry hentry
    | drop hget hclient hle =>
        exact ih committed hbefore entry (CloseLoop.mem_of_mem_swapRemove
          (List.getElem?_eq_some_iff.mp hget).1 hentry)
  · obtain rfl := List.mem_singleton.mp hlast
    cases hpending with
    | keep hbeyond => exact hbeyond entry hentry
    | @drop index old _ hget hclient hle =>
        -- the client's only pending command was the dropped one
        intro heq
        have hindex := (List.getElem?_eq_some_iff.mp hget).1
        obtain ⟨place, hplace⟩ := List.getElem?_of_mem hentry
        rw [CloseLoop.getElem?_swapRemove hindex] at hplace
        split at hplace
        · split at hplace
          · have := hdistinct.index_unique hplace hget (heq.symm.trans hclient.symm)
            omega
          · exact absurd (hdistinct.index_unique hplace hget (heq.symm.trans hclient.symm)) ‹_›
        · cases hplace

/-- Both variants admit by one law, hand out each client's commands in order, and
the close-loop pool never hands out what is already committed. -/
theorem admission (hnew : start.IsNew) (hrun : PoolRun start history pool) :
    (∀ command, ∃ next accepted, pool.push command = .ok (next, accepted) ∧
      (accepted = true ↔ ∀ top ∈ high command.clientId history, top < command.seq)) ∧
    (∀ {start' pool' : CommandPool} {history' : List Event}, start'.IsNew →
      PoolRun start' history' pool' → history.map Event.call = history'.map Event.call →
      history.map Event.answer? = history'.map Event.answer?) ∧
    SeqIncreasing (returned history) ∧
    (start.IsCloseLoop → ∀ maxBatchSize next batch,
      pool.closeBatch maxBatchSize = .ok (next, some batch) →
      ∀ committed, .commit committed ∈ history → ∀ command ∈ batch,
        command.clientId = committed.clientId → committed.seq < command.seq) := by
  obtain ⟨hissued, hsame⟩ := hrun.issued hnew
  refine ⟨hrun.push hnew, ?_, hissued.increasing, ?_⟩
  · intro start' pool' history' hnew' hrun' hcalls
    exact (hrun.answers hnew hnew' hrun' hcalls).1
  · intro hvariant maxBatchSize next batch hclose committed hcommitted command hmem heq
    have hqueue := (Step.closeBatch hclose).queueStep hissued (hsame.mpr hvariant)
    cases hqueue with
    | close hsplit =>
        exact hrun.outruns hnew hvariant committed hcommitted command
          (hsplit ▸ List.mem_append_left _ hmem) heq.symm

theorem admission_pushes : ∃ history pool, PoolRun (closeLoop .new) history pool ∧
    returned history = [⟨0, 1, []⟩, ⟨1, 3, []⟩] ∧
      ∃ next accepted, pool.push ⟨1, 3, []⟩ = .ok (next, accepted) ∧
        (accepted = true ↔ ∀ top ∈ high 1 history, top < 3) := by
  have hreplay : ∃ result ∈ replay (closeLoop .new)
      [.push ⟨0, 1, []⟩, .push ⟨1, 1, []⟩, .push ⟨1, 3, []⟩, .closeBatch 4, .commit ⟨1, 2, []⟩],
      returned (result.2.map Prod.snd) = [⟨0, 1, []⟩, ⟨1, 3, []⟩] := by
    decide +kernel
  obtain ⟨⟨pool, trace⟩, hresult, hreturned⟩ := hreplay
  have hrun : PoolRun (closeLoop .new) (trace.map Prod.snd) pool :=
    replay_poolRun (.start rfl) hresult
  exact ⟨_, pool, hrun, hreturned, (admission (.inl rfl) hrun).1 ⟨1, 3, []⟩⟩

end CommandPool

end BftKit
