import BftKit.Basic
import BftKit.Foundation.Map
import BftKit.Foundation.Result

/-! # The close-loop command pool

At most one pending command per client. Offsets of pending commands are absolute,
indices into the queue are relative to `pendingQueueOffset`; a commit moves the
last pending command into the hole it leaves.
-/

namespace BftKit.CloseLoop

open Foundation

structure CommandPool where
  pendingQueue : List Command
  pendingQueueOffset : Nat
  clientPendingOffsets : Map ClientId Nat
  submittedSeqs : Map ClientId ClientSeq

/-- `Vec::swap_remove`: the last item takes the place of the removed one. -/
def swapRemove {Item : Type} (items : List Item) (index : Nat) : List Item :=
  match items.getLast? with
  | none => items
  | some last => (items.set index last).dropLast

theorem getElem?_swapRemove {Item : Type} {items : List Item} {index : Nat}
    (hindex : index < items.length) (other : Nat) :
    (swapRemove items index)[other]? =
      if other + 1 < items.length then
        if other = index then items[items.length - 1]? else items[other]?
      else none := by
  have hne : items ≠ [] := by
    rintro rfl
    simp at hindex
  have hlast : items[items.length - 1]? = some (items.getLast hne) := by
    rw [List.getLast_eq_getElem, List.getElem?_eq_getElem]
  simp only [swapRemove, List.getLast?_eq_some_getLast hne, List.getElem?_dropLast,
    List.length_set, List.getElem?_set, hlast]
  split <;> grind

namespace CommandPool

def new : CommandPool := ⟨[], 0, ∅, ∅⟩

def clientPendingIndex (pool : CommandPool) (clientId : ClientId) : Except Panic (Option Nat) :=
  match pool.clientPendingOffsets.lookup clientId with
  | none => .ok none
  | some offset =>
      if pool.pendingQueueOffset ≤ offset then .ok (some (offset - pool.pendingQueueOffset))
      else .error .underflow

/-- `submitted_seqs.get(..) >= Some(&seq)`. -/
def submittedAtLeast (pool : CommandPool) (command : Command) : Bool :=
  (pool.submittedSeqs.lookup command.clientId).any (command.seq ≤ ·)

def push (pool : CommandPool) (command : Command) : Except Panic (CommandPool × Bool) :=
  if pool.submittedAtLeast command then .ok (pool, false)
  else do
    match ← pool.clientPendingIndex command.clientId with
    | some pendingIndex =>
        match pool.pendingQueue[pendingIndex]? with
        | none => .error .index
        | some pendingCommand =>
            if pendingCommand.clientId ≠ command.clientId then .error .assert
            else if pendingCommand.seq < command.seq then
              .ok ({ pool with pendingQueue := pool.pendingQueue.set pendingIndex command }, true)
            else .ok (pool, false)
    | none =>
        .ok ({ pool with
          clientPendingOffsets := pool.clientPendingOffsets.insert command.clientId
            (pool.pendingQueueOffset + pool.pendingQueue.length)
          pendingQueue := pool.pendingQueue ++ [command] }, true)

/-- One iteration of the loop of `close_batch`. -/
def submit (pool : CommandPool) (command : Command) : Except Panic CommandPool :=
  if pool.submittedAtLeast command then .error .assert
  else .ok { pool with
    clientPendingOffsets := pool.clientPendingOffsets.erase command.clientId
    submittedSeqs := pool.submittedSeqs.insert command.clientId command.seq }

def closeBatch (pool : CommandPool) (maxBatchSize : Nat) :
    Except Panic (CommandPool × Option (List Command)) :=
  if pool.pendingQueue = [] then .ok (pool, none)
  else do
    let batchSize := min maxBatchSize pool.pendingQueue.length
    let commands := pool.pendingQueue.take batchSize
    let pool ← commands.foldlM submit { pool with
      pendingQueue := pool.pendingQueue.drop batchSize
      pendingQueueOffset := pool.pendingQueueOffset + batchSize }
    .ok (pool, some commands)

def commit (pool : CommandPool) (command : Command) : Except Panic CommandPool := do
  let seq := (pool.submittedSeqs.lookup command.clientId).getD 0
  let pool := { pool with
    submittedSeqs := pool.submittedSeqs.insert command.clientId (max seq command.seq) }
  match ← pool.clientPendingIndex command.clientId with
  | none => .ok pool
  | some pendingIndex =>
      match pool.pendingQueue[pendingIndex]? with
      | none => .error .index
      | some pendingCommand =>
          if pendingCommand.seq ≤ command.seq then
            let pendingQueue := swapRemove pool.pendingQueue pendingIndex
            let offsets := pool.clientPendingOffsets.erase command.clientId
            .ok { pool with
              pendingQueue
              clientPendingOffsets := match pendingQueue[pendingIndex]? with
                | some swapped =>
                    offsets.insert swapped.clientId (pool.pendingQueueOffset + pendingIndex)
                | none => offsets }
          else .ok pool

/-! ## Representation invariant -/

/-- The offset map is exactly the inverse of the queue, and what is pending is
newer than what was submitted. -/
structure Wf (pool : CommandPool) : Prop where
  offsets : ∀ clientId offset, pool.clientPendingOffsets.lookup clientId = some offset ↔
    ∃ index command, pool.pendingQueue[index]? = some command ∧ command.clientId = clientId ∧
      offset = pool.pendingQueueOffset + index
  fresh : ∀ command ∈ pool.pendingQueue, pool.submittedAtLeast command = false

theorem new_wf : new.Wf where
  offsets := by simp [new]
  fresh := by simp [new]

theorem submittedAtLeast_eq_false {pool : CommandPool} {command : Command} :
    pool.submittedAtLeast command = false ↔
      ∀ seq, pool.submittedSeqs.lookup command.clientId = some seq → seq < command.seq := by
  cases hlookup : pool.submittedSeqs.lookup command.clientId <;>
    simp [submittedAtLeast, hlookup]

namespace Wf

variable {pool : CommandPool}

/-- No client has two pending commands. -/
theorem index_unique (hpool : pool.Wf) {index index' : Nat} {command command' : Command}
    (hget : pool.pendingQueue[index]? = some command)
    (hget' : pool.pendingQueue[index']? = some command')
    (hclient : command.clientId = command'.clientId) : index = index' := by
  have hlookup := (hpool.offsets command.clientId _).mpr ⟨index, command, hget, rfl, rfl⟩
  have hlookup' := (hpool.offsets command.clientId _).mpr
    ⟨index', command', hget', hclient.symm, rfl⟩
  have heq := Option.some.inj (hlookup.symm.trans hlookup')
  omega

/-- The subtraction never underflows, and the index it gives is the one of the
client's pending command. -/
theorem clientPendingIndex_cases (hpool : pool.Wf) (clientId : ClientId) :
    (pool.clientPendingIndex clientId = .ok none ∧
      ∀ command ∈ pool.pendingQueue, command.clientId ≠ clientId) ∨
    ∃ index command, pool.clientPendingIndex clientId = .ok (some index) ∧
      pool.pendingQueue[index]? = some command ∧ command.clientId = clientId := by
  cases hlookup : pool.clientPendingOffsets.lookup clientId with
  | none =>
      refine .inl ⟨by simp [clientPendingIndex, hlookup], ?_⟩
      intro command hmem hclient
      obtain ⟨index, hget⟩ := List.getElem?_of_mem hmem
      have := (hpool.offsets clientId _).mpr ⟨index, command, hget, hclient, rfl⟩
      simp [hlookup] at this
  | some offset =>
      obtain ⟨index, command, hget, hclient, rfl⟩ := (hpool.offsets clientId offset).mp hlookup
      refine .inr ⟨index, command, ?_, hget, hclient⟩
      simp [clientPendingIndex, hlookup]

/-- What `push` does: reject, replace the client's pending command, or append. -/
theorem push_cases (hpool : pool.Wf) (command : Command) :
    ((pool.submittedAtLeast command = true ∨ ∃ old ∈ pool.pendingQueue,
        old.clientId = command.clientId ∧ command.seq ≤ old.seq) ∧
      pool.push command = .ok (pool, false)) ∨
    (pool.submittedAtLeast command = false ∧ ∃ index old,
      pool.pendingQueue[index]? = some old ∧ old.clientId = command.clientId ∧
      old.seq < command.seq ∧
      pool.push command =
        .ok ({ pool with pendingQueue := pool.pendingQueue.set index command }, true)) ∨
    (pool.submittedAtLeast command = false ∧
      (∀ old ∈ pool.pendingQueue, old.clientId ≠ command.clientId) ∧
      pool.push command = .ok ({ pool with
        clientPendingOffsets := pool.clientPendingOffsets.insert command.clientId
          (pool.pendingQueueOffset + pool.pendingQueue.length)
        pendingQueue := pool.pendingQueue ++ [command] }, true)) := by
  unfold push
  cases hsubmitted : pool.submittedAtLeast command with
  | true => exact .inl ⟨.inl rfl, by simp⟩
  | false =>
      rcases hpool.clientPendingIndex_cases command.clientId with
        ⟨hindex, hnone⟩ | ⟨index, old, hindex, hget, hclient⟩
      · exact .inr (.inr ⟨rfl, hnone, by simp [hindex]⟩)
      · by_cases hlt : old.seq < command.seq
        · exact .inr (.inl ⟨rfl, index, old, hget, hclient, hlt, by
            simp [hindex, hget, hclient, hlt]⟩)
        · exact .inl ⟨.inr ⟨old, List.mem_of_getElem? hget, hclient, not_lt.mp hlt⟩, by
            simp [hindex, hget, hclient, hlt]⟩

theorem set_wf (hpool : pool.Wf) {index : Nat} {old command : Command}
    (hget : pool.pendingQueue[index]? = some old) (hclient : old.clientId = command.clientId)
    (hfresh : pool.submittedAtLeast command = false) :
    Wf { pool with pendingQueue := pool.pendingQueue.set index command } where
  offsets := by
    intro clientId offset
    rw [hpool.offsets]
    have hlt : index < pool.pendingQueue.length := (List.getElem?_eq_some_iff.mp hget).1
    -- the replaced entry keeps its client, so the same indices name the same clients
    constructor
    · rintro ⟨other, entry, hentry, rfl, rfl⟩
      by_cases heq : index = other
      · subst heq
        obtain rfl := Option.some.inj (hget.symm.trans hentry)
        exact ⟨index, command, by simp [hlt], hclient.symm, rfl⟩
      · exact ⟨other, entry, by simp [heq, hentry], rfl, rfl⟩
    · rintro ⟨other, entry, hentry, rfl, rfl⟩
      by_cases heq : index = other
      · subst heq
        obtain rfl : command = entry := by simpa [hlt] using hentry
        exact ⟨index, old, hget, hclient, rfl⟩
      · exact ⟨other, entry, by simpa [heq] using hentry, rfl, rfl⟩
  fresh := by
    intro entry hmem
    rcases List.mem_or_eq_of_mem_set hmem with hold | rfl
    · exact hpool.fresh entry hold
    · exact hfresh

theorem append_wf (hpool : pool.Wf) {command : Command}
    (hnone : ∀ old ∈ pool.pendingQueue, old.clientId ≠ command.clientId)
    (hfresh : pool.submittedAtLeast command = false) :
    Wf { pool with
      clientPendingOffsets := pool.clientPendingOffsets.insert command.clientId
        (pool.pendingQueueOffset + pool.pendingQueue.length)
      pendingQueue := pool.pendingQueue ++ [command] } where
  offsets := by
    intro clientId offset
    simp only [Map.lookup_insert]
    split
    next heq =>
      subst heq
      constructor
      · intro hoffset
        exact ⟨pool.pendingQueue.length, command, by simp, rfl, (Option.some.inj hoffset).symm⟩
      · rintro ⟨index, entry, hentry, hclient, rfl⟩
        rw [List.getElem?_append] at hentry
        split at hentry
        · exact absurd hclient (hnone entry (List.mem_of_getElem? hentry))
        · grind
    next hne =>
      rw [hpool.offsets]
      constructor
      · rintro ⟨index, entry, hentry, rfl, rfl⟩
        have hlt := (List.getElem?_eq_some_iff.mp hentry).1
        exact ⟨index, entry, by rw [List.getElem?_append_left hlt, hentry], rfl, rfl⟩
      · rintro ⟨index, entry, hentry, rfl, rfl⟩
        rw [List.getElem?_append] at hentry
        split at hentry
        · exact ⟨index, entry, hentry, rfl, rfl⟩
        · grind
  fresh := by
    intro entry hmem
    rcases List.mem_append.mp hmem with hold | hnew
    · exact hpool.fresh entry hold
    · rw [List.mem_singleton.mp hnew]
      exact hfresh

theorem push_wf (hpool : pool.Wf) (command : Command) :
    ∃ next accepted, pool.push command = .ok (next, accepted) ∧ next.Wf ∧
      next.submittedSeqs = pool.submittedSeqs := by
  rcases hpool.push_cases command with
    ⟨-, hpush⟩ | ⟨hfresh, index, old, hget, hclient, -, hpush⟩ | ⟨hfresh, hnone, hpush⟩
  · exact ⟨_, _, hpush, hpool, rfl⟩
  · exact ⟨_, _, hpush, hpool.set_wf hget hclient hfresh, rfl⟩
  · exact ⟨_, _, hpush, hpool.append_wf hnone hfresh, rfl⟩

end Wf

/-- The loop of `close_batch` forgets the offsets of the batch and records its
sequence numbers; no assertion fails on distinct, unsubmitted commands. -/
theorem submit_all {commands : List Command} {pool : CommandPool}
    (hdistinct : (commands.map Command.clientId).Nodup)
    (hfresh : ∀ command ∈ commands, pool.submittedAtLeast command = false) :
    ∃ next, commands.foldlM submit pool = .ok next ∧
      next.pendingQueue = pool.pendingQueue ∧
      next.pendingQueueOffset = pool.pendingQueueOffset ∧
      (∀ clientId, next.clientPendingOffsets.lookup clientId =
        if clientId ∈ commands.map Command.clientId then none
        else pool.clientPendingOffsets.lookup clientId) ∧
      (∀ command ∈ commands, next.submittedSeqs.lookup command.clientId = some command.seq) ∧
      ∀ clientId ∉ commands.map Command.clientId,
        next.submittedSeqs.lookup clientId = pool.submittedSeqs.lookup clientId := by
  induction commands generalizing pool with
  | nil => exact ⟨pool, rfl, rfl, rfl, by simp, by simp, by simp⟩
  | cons command rest ih =>
      simp only [List.map_cons, List.nodup_cons] at hdistinct
      obtain ⟨hnot, hdistinct⟩ := hdistinct
      have hhead : submit pool command = .ok { pool with
          clientPendingOffsets := pool.clientPendingOffsets.erase command.clientId
          submittedSeqs := pool.submittedSeqs.insert command.clientId command.seq } := by
        simp [submit, hfresh command List.mem_cons_self]
      have hrest : ∀ other ∈ rest, submittedAtLeast { pool with
          clientPendingOffsets := pool.clientPendingOffsets.erase command.clientId
          submittedSeqs := pool.submittedSeqs.insert command.clientId command.seq }
          other = false := by
        intro other hmem
        have hne : other.clientId ≠ command.clientId :=
          fun heq => hnot (heq ▸ List.mem_map_of_mem hmem)
        have hother := hfresh other (List.mem_cons_of_mem _ hmem)
        simpa [submittedAtLeast, Map.lookup_insert, hne] using hother
      obtain ⟨next, hfold, hqueue, hoffset, hoffsets, hnew, hold⟩ := ih hdistinct hrest
      refine ⟨next, by rw [List.foldlM_cons, hhead, ok_bind, hfold], hqueue, hoffset, ?_, ?_, ?_⟩
      · intro clientId
        rw [hoffsets, Map.lookup_erase]
        by_cases heq : clientId = command.clientId <;> simp [heq]
      · intro other hmem
        rcases List.mem_cons.mp hmem with rfl | hmem
        · rw [hold _ hnot, Map.lookup_insert, if_pos rfl]
        · exact hnew other hmem
      · intro clientId hmem
        simp only [List.map_cons, List.mem_cons, not_or] at hmem
        rw [hold clientId hmem.2, Map.lookup_insert, if_neg hmem.1]

namespace Wf

variable {pool : CommandPool}

theorem clientId_nodup (hpool : pool.Wf) : (pool.pendingQueue.map Command.clientId).Nodup := by
  rw [List.nodup_iff_injective_getElem]
  rintro ⟨index, hindex⟩ ⟨index', hindex'⟩ heq
  simp only [List.length_map] at hindex hindex'
  simp only [List.getElem_map] at heq
  exact Fin.ext (hpool.index_unique (List.getElem?_eq_getElem hindex)
    (List.getElem?_eq_getElem hindex') heq)

/-- What `close_batch` does: nothing on an empty queue, else it takes a prefix of
the queue and remembers it as submitted. -/
theorem closeBatch_cases (hpool : pool.Wf) (maxBatchSize : Nat) :
    (pool.pendingQueue = [] ∧ pool.closeBatch maxBatchSize = .ok (pool, none)) ∨
    ∃ next, pool.pendingQueue ≠ [] ∧
      pool.closeBatch maxBatchSize = .ok (next, some (pool.pendingQueue.take maxBatchSize)) ∧
      next.Wf ∧ next.pendingQueue = pool.pendingQueue.drop maxBatchSize ∧
      (∀ command ∈ pool.pendingQueue.take maxBatchSize,
        next.submittedSeqs.lookup command.clientId = some command.seq) ∧
      ∀ clientId ∉ (pool.pendingQueue.take maxBatchSize).map Command.clientId,
        next.submittedSeqs.lookup clientId = pool.submittedSeqs.lookup clientId := by
  by_cases hempty : pool.pendingQueue = []
  · exact .inl ⟨hempty, by simp [closeBatch, hempty]⟩
  · right
    let size := min maxBatchSize pool.pendingQueue.length
    have htake : pool.pendingQueue.take size = pool.pendingQueue.take maxBatchSize := by
      simp [size, List.take_eq_take_iff]
    have hdrop : pool.pendingQueue.drop size = pool.pendingQueue.drop maxBatchSize := by
      rcases le_total maxBatchSize pool.pendingQueue.length with hle | hle
      · simp [size, hle]
      · simp [size, hle]
    have hsplit : pool.pendingQueue.take size ++ pool.pendingQueue.drop size =
        pool.pendingQueue := List.take_append_drop _ _
    have hnodup := hpool.clientId_nodup
    -- no client has commands on both sides of the split
    rw [← hsplit, List.map_append, List.nodup_append] at hnodup
    obtain ⟨hfirst, -, hdisjoint⟩ := hnodup
    let start : CommandPool := { pool with
      pendingQueue := pool.pendingQueue.drop size
      pendingQueueOffset := pool.pendingQueueOffset + size }
    obtain ⟨next, hfold, hqueue, hoffset, hoffsets, hnew, hold⟩ :=
      @submit_all (pool.pendingQueue.take size) start hfirst
        (fun command hmem => hpool.fresh command (List.mem_of_mem_take hmem))
    refine ⟨next, hempty, ?_, ?_, ?_, ?_, ?_⟩
    · simp only [closeBatch, hempty, if_false]
      rw [← htake]
      simp only [size] at hfold ⊢
      rw [hfold, ok_bind]
    · refine ⟨?_, ?_⟩
      · intro clientId offset
        rw [hoffsets, hoffset, hqueue]
        split
        next hmem =>
          simp only [false_iff, reduceCtorEq]
          rintro ⟨index, command, hget, rfl, -⟩
          exact hdisjoint _ hmem _ (List.mem_map_of_mem (List.mem_of_getElem? hget)) rfl
        next hmem =>
          rw [hpool.offsets]
          constructor
          · rintro ⟨index, command, hget, rfl, rfl⟩
            have hle : size ≤ index := by
              by_contra hlt
              apply hmem
              refine List.mem_map_of_mem (List.mem_of_getElem? (i := index) ?_)
              rw [List.getElem?_take_of_lt (by omega), hget]
            refine ⟨index - size, command, ?_, rfl, ?_⟩
            · rw [List.getElem?_drop, Nat.add_sub_cancel' hle, hget]
            · simp only [start]
              omega
          · rintro ⟨index, command, hget, rfl, rfl⟩
            refine ⟨size + index, command, ?_, rfl, ?_⟩
            · rw [← hget, List.getElem?_drop]
            · simp only [start]
              omega
      · intro command hmem
        rw [hqueue] at hmem
        have hnot : command.clientId ∉
            (pool.pendingQueue.take size).map Command.clientId := fun htaken =>
          hdisjoint _ htaken _ (List.mem_map_of_mem hmem) rfl
        have hcommand := hpool.fresh command (List.mem_of_mem_drop hmem)
        rw [submittedAtLeast, hold _ hnot]
        exact hcommand
    · exact hqueue.trans hdrop
    · rw [← htake]
      exact hnew
    · rw [← htake]
      exact hold

/-- Recording a committed sequence number keeps every pending command fresh,
except the client's own when the commit reaches it. -/
theorem submittedAtLeast_commit {command entry : Command}
    (hentry : pool.submittedAtLeast entry = false)
    (hseq : entry.clientId = command.clientId → command.seq < entry.seq) :
    submittedAtLeast { pool with
      submittedSeqs := pool.submittedSeqs.insert command.clientId
        (max ((pool.submittedSeqs.lookup command.clientId).getD 0) command.seq) }
      entry = false := by
  rw [submittedAtLeast_eq_false] at hentry ⊢
  intro seq hlookup
  rw [Map.lookup_insert] at hlookup
  split at hlookup
  next heq =>
    obtain rfl := Option.some.inj hlookup
    rw [heq] at hentry
    refine max_lt ?_ (hseq heq)
    cases hold : pool.submittedSeqs.lookup command.clientId with
    | none => exact lt_of_le_of_lt (Fin.zero_le _) (hseq heq)
    | some old => exact hentry old hold
  next => exact hentry seq hlookup

/-- Every entry of the shortened queue is an old one of another client, and in its old
place unless it fills the hole. -/
theorem of_swapRemove (hpool : pool.Wf) {index other : Nat} {old entry : Command}
    (hget : pool.pendingQueue[index]? = some old)
    (hother : (swapRemove pool.pendingQueue index)[other]? = some entry) :
    entry.clientId ≠ old.clientId ∧ entry ∈ pool.pendingQueue ∧
      (other ≠ index → pool.pendingQueue[other]? = some entry) := by
  have hlt : index < pool.pendingQueue.length := (List.getElem?_eq_some_iff.mp hget).1
  rw [getElem?_swapRemove hlt] at hother
  split at hother
  next hlast =>
    split at hother
    next heq =>
      refine ⟨fun hclient => ?_, List.mem_of_getElem? hother, fun hne => absurd heq hne⟩
      have := hpool.index_unique hother hget hclient
      omega
    next hne =>
      refine ⟨fun hclient => ?_, List.mem_of_getElem? hother, fun _ => hother⟩
      exact hne (hpool.index_unique hother hget hclient)
  next => cases hother

/-- The command of another client stays where it is unless it fills the hole. -/
theorem swapRemove_stays (hpool : pool.Wf) {index other : Nat} {old entry : Command}
    (hget : pool.pendingQueue[index]? = some old) (hclient : entry.clientId ≠ old.clientId)
    (hfills : ∀ filling, (swapRemove pool.pendingQueue index)[index]? = some filling →
      entry.clientId ≠ filling.clientId) :
    (swapRemove pool.pendingQueue index)[other]? = some entry ↔
      pool.pendingQueue[other]? = some entry := by
  constructor
  · intro hother
    apply (of_swapRemove hpool hget hother).2.2
    rintro rfl
    exact hfills entry hother rfl
  · intro hother
    have hlt : index < pool.pendingQueue.length := (List.getElem?_eq_some_iff.mp hget).1
    have hbound : other < pool.pendingQueue.length := (List.getElem?_eq_some_iff.mp hother).1
    have hhole : other ≠ index := by
      rintro rfl
      exact hclient (congrArg Command.clientId (Option.some.inj (hother.symm.trans hget)))
    have hlast : other + 1 ≠ pool.pendingQueue.length := by
      intro hlast
      apply hfills entry _ rfl
      rw [getElem?_swapRemove hlt, if_pos (by omega), if_pos rfl, ← hlast, Nat.add_sub_cancel,
        hother]
    rw [getElem?_swapRemove hlt, if_pos (by omega), if_neg hhole, hother]

/-- The command that fills the hole is the only one of its client. -/
theorem swapRemove_fills (hpool : pool.Wf) {index other : Nat} {old filling entry : Command}
    (hget : pool.pendingQueue[index]? = some old)
    (hhole : (swapRemove pool.pendingQueue index)[index]? = some filling)
    (hother : (swapRemove pool.pendingQueue index)[other]? = some entry)
    (hclient : entry.clientId = filling.clientId) : other = index := by
  by_contra hne
  have hlt : index < pool.pendingQueue.length := (List.getElem?_eq_some_iff.mp hget).1
  have hold := (of_swapRemove hpool hget hother).2.2 hne
  rw [getElem?_swapRemove hlt] at hhole hother
  split at hhole
  next hlast =>
    -- it has been the last command, and the queue has become shorter
    rw [if_pos rfl] at hhole
    have heq := hpool.index_unique hold hhole hclient
    rw [heq, if_neg (by omega)] at hother
    cases hother
  next => cases hhole

/-- Removing the pending command of a client by `swap_remove` repairs exactly
the offset of the command that takes its place. -/
theorem swapRemove_wf (hpool : pool.Wf) {index : Nat} {old : Command}
    (hget : pool.pendingQueue[index]? = some old) {submittedSeqs : Map ClientId ClientSeq}
    (hfresh : ∀ entry ∈ pool.pendingQueue, entry.clientId ≠ old.clientId →
      submittedAtLeast { pool with submittedSeqs } entry = false) :
    Wf { pool with
      submittedSeqs
      pendingQueue := swapRemove pool.pendingQueue index
      clientPendingOffsets := match (swapRemove pool.pendingQueue index)[index]? with
        | some swapped => (pool.clientPendingOffsets.erase old.clientId).insert swapped.clientId
            (pool.pendingQueueOffset + index)
        | none => pool.clientPendingOffsets.erase old.clientId } := by
  -- the offsets of clients whose commands neither leave nor move
  have hstays : ∀ clientId offset, clientId ≠ old.clientId →
      (∀ filling, (swapRemove pool.pendingQueue index)[index]? = some filling →
        clientId ≠ filling.clientId) →
      (pool.clientPendingOffsets.lookup clientId = some offset ↔
        ∃ other entry, (swapRemove pool.pendingQueue index)[other]? = some entry ∧
          entry.clientId = clientId ∧ offset = pool.pendingQueueOffset + other) := by
    intro clientId offset hclient hfills
    rw [hpool.offsets]
    constructor
    · rintro ⟨other, entry, hother, rfl, rfl⟩
      exact ⟨other, entry, (swapRemove_stays hpool hget hclient hfills).mpr hother, rfl, rfl⟩
    · rintro ⟨other, entry, hother, rfl, rfl⟩
      exact ⟨other, entry, (swapRemove_stays hpool hget hclient hfills).mp hother, rfl, rfl⟩
  have hgone : ∀ clientId offset, clientId = old.clientId →
      ¬∃ other entry, (swapRemove pool.pendingQueue index)[other]? = some entry ∧
        entry.clientId = clientId ∧ offset = pool.pendingQueueOffset + other := by
    rintro clientId offset rfl ⟨other, entry, hother, hclient, -⟩
    exact (of_swapRemove hpool hget hother).1 hclient
  refine ⟨?_, ?_⟩
  · intro clientId offset
    cases hhole : (swapRemove pool.pendingQueue index)[index]? with
    | some filling =>
        simp only [Map.lookup_insert, Map.lookup_erase]
        split
        next heq =>
          subst heq
          constructor
          · intro hoffset
            exact ⟨index, filling, hhole, rfl, (Option.some.inj hoffset).symm⟩
          · rintro ⟨other, entry, hother, hclient, rfl⟩
            rw [swapRemove_fills hpool hget hhole hother hclient]
        next hne =>
          split
          next heq => simpa only [false_iff, reduceCtorEq] using hgone clientId offset heq
          next hclient =>
            apply hstays clientId offset hclient
            intro other hother
            rw [hhole] at hother
            rwa [← Option.some.inj hother]
    | none =>
        simp only [Map.lookup_erase]
        split
        next heq => simpa only [false_iff, reduceCtorEq] using hgone clientId offset heq
        next hclient =>
          apply hstays clientId offset hclient
          intro other hother
          rw [hhole] at hother
          cases hother
  · intro entry hmem
    obtain ⟨other, hother⟩ := List.getElem?_of_mem hmem
    obtain ⟨hne, hold, -⟩ := of_swapRemove hpool hget hother
    exact hfresh entry hold hne

/-- What `commit` does: it remembers the sequence number and drops the client's
pending command if the commit reaches it. -/
theorem commit_cases (hpool : pool.Wf) (command : Command) :
    ∃ next, pool.commit command = .ok next ∧ next.Wf ∧
      next.submittedSeqs = pool.submittedSeqs.insert command.clientId
        (max ((pool.submittedSeqs.lookup command.clientId).getD 0) command.seq) ∧
      ((next.pendingQueue = pool.pendingQueue ∧
          ∀ entry ∈ pool.pendingQueue, entry.clientId = command.clientId →
            command.seq < entry.seq) ∨
        ∃ index old, pool.pendingQueue[index]? = some old ∧ old.clientId = command.clientId ∧
          old.seq ≤ command.seq ∧ next.pendingQueue = swapRemove pool.pendingQueue index) := by
  let seqs := pool.submittedSeqs.insert command.clientId
    (max ((pool.submittedSeqs.lookup command.clientId).getD 0) command.seq)
  have hindexEq : ∀ clientId, clientPendingIndex { pool with submittedSeqs := seqs } clientId =
      pool.clientPendingIndex clientId := fun _ => rfl
  -- unless the commit reaches the client's pending command, the queue stays as it is
  have hkeep : (∀ entry ∈ pool.pendingQueue, entry.clientId = command.clientId →
      command.seq < entry.seq) → Wf { pool with submittedSeqs := seqs } := by
    intro hseq
    refine ⟨hpool.offsets, ?_⟩
    intro entry hmem
    exact submittedAtLeast_commit (hpool.fresh entry hmem) (hseq entry hmem)
  unfold commit
  simp only [hindexEq, show pool.submittedSeqs.insert command.clientId
    (max ((pool.submittedSeqs.lookup command.clientId).getD 0) command.seq) = seqs from rfl]
  rcases hpool.clientPendingIndex_cases command.clientId with
    ⟨hindex, hnone⟩ | ⟨index, old, hindex, hget, hclient⟩
  · have hseq : ∀ entry ∈ pool.pendingQueue, entry.clientId = command.clientId →
        command.seq < entry.seq := fun entry hmem heq => absurd heq (hnone entry hmem)
    exact ⟨_, by rw [hindex, ok_bind], hkeep hseq, rfl, .inl ⟨rfl, hseq⟩⟩
  · by_cases hle : old.seq ≤ command.seq
    · have hwf := @swapRemove_wf pool hpool index old hget seqs (by
        intro entry hmem hne
        exact submittedAtLeast_commit (hpool.fresh entry hmem)
          (fun heq => absurd (heq.trans hclient.symm) hne))
      rw [hclient] at hwf
      refine ⟨_, ?_, hwf, rfl, .inr ⟨index, old, hget, hclient, hle, rfl⟩⟩
      rw [hindex, ok_bind]
      simp only [hget, if_pos hle]
    · have hseq : ∀ entry ∈ pool.pendingQueue, entry.clientId = command.clientId →
          command.seq < entry.seq := by
        intro entry hmem heq
        obtain ⟨other, hother⟩ := List.getElem?_of_mem hmem
        obtain rfl := hpool.index_unique hother hget (heq.trans hclient.symm)
        obtain rfl := Option.some.inj (hother.symm.trans hget)
        exact not_le.mp hle
      exact ⟨_, by rw [hindex, ok_bind]; simp only [hget, if_neg hle], hkeep hseq, rfl,
        .inl ⟨rfl, hseq⟩⟩

end Wf

/-! ## Issued commands -/

/-- The log lists commands that left the pool: each client's sequence numbers
increase in it, and the pool remembers them as submitted. -/
structure Issued (pool : CommandPool) (log : List Command) : Prop where
  wf : pool.Wf
  increasing : SeqIncreasing log
  submitted : ∀ command ∈ log, pool.submittedAtLeast command = true

theorem new_issued : new.Issued [] := ⟨new_wf, .nil, by simp⟩

theorem submittedAtLeast_eq_true {pool : CommandPool} {command : Command} :
    pool.submittedAtLeast command = true ↔
      ∃ seq, pool.submittedSeqs.lookup command.clientId = some seq ∧ command.seq ≤ seq := by
  cases hlookup : pool.submittedSeqs.lookup command.clientId <;>
    simp [submittedAtLeast, hlookup]

namespace Issued

variable {pool : CommandPool} {log : List Command}

theorem push (hpool : pool.Issued log) (command : Command) :
    ∃ next accepted, pool.push command = .ok (next, accepted) ∧ next.Issued log := by
  obtain ⟨next, accepted, hpush, hwf, hseqs⟩ := hpool.wf.push_wf command
  refine ⟨next, accepted, hpush, hwf, hpool.increasing, ?_⟩
  intro entry hmem
  have hentry := hpool.submitted entry hmem
  rwa [submittedAtLeast, ← hseqs] at hentry

theorem commit (hpool : pool.Issued log) (command : Command) :
    ∃ next, pool.commit command = .ok next ∧ next.Issued log := by
  obtain ⟨next, hcommit, hwf, hseqs, -⟩ := hpool.wf.commit_cases command
  refine ⟨next, hcommit, hwf, hpool.increasing, ?_⟩
  intro entry hmem
  obtain ⟨seq, hlookup, hle⟩ := submittedAtLeast_eq_true.mp (hpool.submitted entry hmem)
  rw [submittedAtLeast_eq_true, hseqs, Map.lookup_insert]
  split
  next heq =>
    refine ⟨_, rfl, hle.trans ?_⟩
    rw [← heq, hlookup]
    exact le_max_left _ _
  next => exact ⟨seq, hlookup, hle⟩

theorem closeBatch (hpool : pool.Issued log) (maxBatchSize : Nat) :
    ∃ next batch, pool.closeBatch maxBatchSize = .ok (next, batch) ∧
      next.Issued (log ++ batch.getD []) := by
  rcases hpool.wf.closeBatch_cases maxBatchSize with
    ⟨-, hclose⟩ | ⟨next, -, hclose, hwf, -, hnew, hold⟩
  · exact ⟨pool, none, hclose, by simpa using hpool⟩
  · have hfresh : ∀ entry ∈ pool.pendingQueue.take maxBatchSize,
        pool.submittedAtLeast entry = false :=
      fun entry hmem => hpool.wf.fresh entry (List.mem_of_mem_take hmem)
    refine ⟨next, _, hclose, hwf, ?_, ?_⟩
    · simp only [Option.getD_some]
      refine SeqIncreasing.append_iff.mpr ⟨hpool.increasing, ?_, ?_⟩
      · -- a batch holds one command of a client at most
        have hnodup := hpool.wf.clientId_nodup.sublist
          ((List.take_sublist maxBatchSize pool.pendingQueue).map Command.clientId)
        exact (List.pairwise_map.mp hnodup).imp fun hne heq => absurd heq hne
      · intro earlier hearlier later hlater heq
        obtain ⟨seq, hlookup, hle⟩ :=
          submittedAtLeast_eq_true.mp (hpool.submitted earlier hearlier)
        rw [heq] at hlookup
        exact hle.trans_lt (submittedAtLeast_eq_false.mp (hfresh later hlater) seq hlookup)
    · intro entry hmem
      rw [submittedAtLeast_eq_true]
      simp only [Option.getD_some] at hmem
      rcases List.mem_append.mp hmem with hlog | hbatch
      · obtain ⟨seq, hlookup, hle⟩ := submittedAtLeast_eq_true.mp (hpool.submitted entry hlog)
        by_cases hclient : entry.clientId ∈
            (pool.pendingQueue.take maxBatchSize).map Command.clientId
        · obtain ⟨later, hlater, heq⟩ := List.mem_map.mp hclient
          refine ⟨later.seq, by rw [← heq, hnew later hlater], hle.trans ?_⟩
          rw [← heq] at hlookup
          exact (submittedAtLeast_eq_false.mp (hfresh later hlater) seq hlookup).le
        · exact ⟨seq, by rw [hold _ hclient, hlookup], hle⟩
      · exact ⟨entry.seq, hnew entry hbatch, le_rfl⟩

end Issued

end CommandPool

end BftKit.CloseLoop
