import BftKit.Pbft.Replay
import BftKit.Pbft.Voters

/-! # The main path of one replica

What a single replica does in the normal case, whatever is sent to it: the order
of its actions, the log it finalizes, the bookkeeping it drops, and the panics it
cannot run into.
-/

namespace BftKit.Pbft

open Foundation

variable {crypto : Crypto}

namespace Replica

variable {config : ReplicaCoreConfig} {history : List (Event crypto)} {replica : Replica crypto}

/-- The law of the main path, for one state of a run. -/
structure MainPath (config : ReplicaCoreConfig) (history : List (Event crypto))
    (replica : Replica crypto) : Prop where
  /-- Finalize is performed for 1, 2, 3, … once each. -/
  numbers : finalizeNums (performedIn history) = List.range' 1 (finalizedLog history).length
  /-- Every finalized list is the one stored under its number. -/
  log : ∀ index commands, (finalizedLog history)[index]? = some commands →
    replica.commandsAt (index + 1) = some commands
  /-- Each block number is prepared, then committed, then finalized, at most once each. -/
  order : ∀ blockNum, phases blockNum (performedIn history) <+: [.prepare, .commit, .finalize]
  /-- Nothing but the actions of that name broadcasts Prepares and Commits. -/
  broadcasts : ∀ event ∈ history, ∀ message vote,
    .sendToAllReplicas message ∈ event.actions →
    (message = .prepare vote →
      event = .perform (.prepare vote.blockNum vote.digest) [.sendToAllReplicas message]) ∧
    (message = .commit vote →
      event = .perform (.commit vote.blockNum) [.sendToAllReplicas message])
  /-- A finalized block number has no scratch. -/
  collected : ∀ blockNum ∈ finalizeNums (performedIn history), blockNum ∉ replica.blockScratches
  /-- A call panics at most on a vote without a public key, on a group that is smaller than
  its fault bound, or on as many Prepares as 16 bits can count. -/
  calls : replica.coreActions = [] → ∀ call panic, replica.call call = .error panic →
    replica.Tolerated (some call) panic
  /-- So does an action, except that it has no vote to look up. -/
  actions : ∀ action rest panic, replica.coreActions = action :: rest →
    perform { replica with coreActions := rest } action = .error panic →
    replica.Tolerated none panic
  /-- There are never more Prepares to count than replicas. -/
  room : ∀ call quorum, replica.Gathers call quorum → quorum.size ≤ config.spec.numReplica

theorem phases_stage (done : Nat) (replica : Replica crypto) (blockNum : Nat) :
    replica.stage done blockNum <+: [.prepare, .commit, .finalize] := by
  unfold stage
  split
  · exact List.nil_prefix
  · split_ifs
    · exact List.nil_prefix
    · exact ⟨[.commit, .finalize], rfl⟩
    · exact ⟨[], rfl⟩
    · exact ⟨[.finalize], rfl⟩

theorem Accountable.length_log (h : Accountable config history replica) :
    (finalizedLog history).length = (finalizeNums (performedIn history)).length :=
  h.log.length_eq.symm

theorem Accountable.commandsAt_of_log (h : Accountable config history replica) {index : Nat}
    {commands : List Command} (hat : (finalizedLog history)[index]? = some commands) :
    replica.commandsAt (index + 1) = some commands := by
  obtain ⟨hlt, hget⟩ := List.getElem?_eq_some_iff.mp hat
  have hlt' : index < (finalizeNums (performedIn history)).length := h.length_log ▸ hlt
  have hnum : (finalizeNums (performedIn history)).get ⟨index, hlt'⟩ = index + 1 := by
    rw [List.get_eq_getElem, List.getElem_of_eq h.coherent.finalized hlt', List.getElem_range']
    omega
  have hstored := h.log.get hlt' hlt
  rw [hnum] at hstored
  rwa [← hget]

/-- A finalized list is that of a committed block. -/
theorem Accountable.block_of_log (h : Accountable config history replica) {index : Nat}
    {commands : List Command} (hat : (finalizedLog history)[index]? = some commands) :
    ∃ block : Block crypto, replica.core.blocks[index + 1]? = some block ∧
      block.commitQuorum.isSome ∧ block.digest = blockDigest crypto commands := by
  obtain ⟨hlt, -⟩ := List.getElem?_eq_some_iff.mp hat
  rw [h.length_log] at hlt
  have hle := h.coherent.done_le
  obtain ⟨block, hblock, hcommitted⟩ := h.coherent.committed (index + 1) (by omega) (by omega)
  obtain ⟨block', hblock', rfl⟩ := Option.map_eq_some_iff.mp (h.commandsAt_of_log hat)
  obtain rfl := Option.some.inj (hblock.symm.trans hblock')
  exact ⟨block, hblock, hcommitted, h.coherent.digest _ block hblock⟩

/-- A performed Finalize has its place in the log. -/
theorem Accountable.log_of_finalize (h : Accountable config history replica) {blockNum : Nat}
    {commands : List Command}
    (hmem : .perform (.finalize blockNum) [.finalize commands] ∈ history) :
    1 ≤ blockNum ∧ (finalizedLog history)[blockNum - 1]? = some commands := by
  obtain ⟨commands', hactions, hat⟩ := h.finalizations blockNum _ hmem
  obtain rfl : commands = commands' := by simpa using hactions
  have hnum : blockNum ∈ finalizeNums (performedIn history) :=
    List.mem_filterMap.mpr ⟨.finalize blockNum, List.mem_filterMap.mpr ⟨_, hmem, rfl⟩, rfl⟩
  rw [h.coherent.finalized, List.mem_range'_1, ← h.length_log] at hnum
  refine ⟨hnum.1, ?_⟩
  have hlt : blockNum - 1 < (finalizedLog history).length := by omega
  have hlog := h.commandsAt_of_log (List.getElem?_eq_getElem hlt)
  rw [Nat.sub_add_cancel hnum.1, hat] at hlog
  rw [List.getElem?_eq_getElem hlt, hlog]

/-- Every run of a replica obeys the law of the main path. It may receive anything but a
PrePrepare that verifies under its own key and that it has not signed. -/
theorem mainPath (hrun : LocalRun config history replica) : MainPath config history replica := by
  have h := Accountable.of_run hrun
  obtain ⟨lists, hqueue, hissued, -⟩ := h.coherent.queue
  have hready := h.coherent.ready hissued
  constructor
  · rw [h.length_log]
    exact h.coherent.finalized
  · intro index commands
    exact h.commandsAt_of_log
  · intro blockNum
    rw [h.coherent.phases blockNum]
    exact phases_stage _ _ _
  · exact h.broadcasts
  · intro blockNum hmem
    rw [h.coherent.finalized, List.mem_range'_1] at hmem
    exact h.coherent.collected blockNum (by omega) (by omega)
  · intro hidle call panic hcall
    have hlawful := call_lawful hready call
    rwa [hcall] at hlawful
  · intro action rest panic hhead hperform
    have hlawful := perform_lawful hready hhead (h.coherent.enabled hhead)
    rwa [hperform] at hlawful
  · intro call quorum
    exact FreeRun.size_le (freeRun_of_localRun hrun)

/-- In the normal case among four, a backup finalizes the command by that law. -/
theorem mainPath_normalCase :
    ∃ (history : List (Event .transparent)) (replica : Replica .transparent),
      finalizedLog history = [[Group.ping 0]] ∧
      MainPath ((Group.four ∅).config 1) history replica := by
  have hreplay : ∃ run ∈ (Group.four ∅).replay Group.fourNormalCase,
      finalizedLog (view 1 run.1) = [[Group.ping 0]] := by
    decide +kernel
  obtain ⟨⟨history, states⟩, hrun, hlog⟩ := hreplay
  have hhonest : (Group.four ∅).Honest 1 := by decide
  exact ⟨view 1 history, states 1, hlog, mainPath ((Group.replay_run hrun).localRun hhonest)⟩

end Replica

end BftKit.Pbft
