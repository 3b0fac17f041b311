import BftKit.Pbft.Agreement

/-! # Runs with a correct primary

When the primary of view 0 is honest, logs are what it proposed, and its pool
hands out the commands of each client in increasing order.
-/

namespace BftKit.Pbft

open Foundation

variable {crypto : Crypto}

namespace Group

variable {group : Group} {history : History crypto} {states : Nat → Replica crypto} {who : Nat}

/-- The lists of commands that the primary has proposed, in order. -/
def proposed (group : Group) (history : History crypto) : List (List Command) :=
  proposals (Replica.performedIn (view (group.spec.primary 0) history))

/-- Under an honest primary, an entry of a log is the proposal of its number. -/
theorem finalized_proposal (hprimary : group.Honest (group.spec.primary 0))
    (hrun : GroupRun group history states)
    (hcollision : Set.InjOn (blockDigest crypto)
      (group.finalizedLists history ∪ { commands | commands ∈ group.proposed history }))
    (hwho : group.Honest who) {index : Nat} {commands : List Command}
    (hat : (finalizedLog (view who history))[index]? = some commands) :
    (group.proposed history)[index]? = some commands := by
  have hcoherent := (hrun.accountable hprimary).coherent
  obtain ⟨block, hblock, -, hdigest⟩ := (hrun.accountable hwho).block_of_log hat
  obtain ⟨stored, hstored, hsame⟩ := hrun.accepted hprimary hwho hblock
  have hisPrimary : (states (group.spec.primary 0)).core.isPrimary = true := by
    rw [hcoherent.isPrimary_eq]
    exact beq_self_eq_true _
  have hproposal := hcoherent.primary hisPrimary (index + 1)
  rw [Replica.commandsAt, hstored, Option.map_some, if_neg (Nat.succ_ne_zero index),
    Nat.add_sub_cancel] at hproposal
  have hcommands : stored.commands = commands := by
    refine hcollision (.inr (List.mem_of_getElem? hproposal.symm))
      (.inl ⟨who, hwho, List.mem_of_getElem? hat⟩) ?_
    rw [← hdigest, ← hsame, hcoherent.digest _ stored hstored]
  rw [← hcommands]
  exact hproposal.symm

/-- The commands that an honest primary proposes are increasing for each client. -/
theorem proposed_increasing (hprimary : group.Honest (group.spec.primary 0))
    (hrun : GroupRun group history states) : SeqIncreasing (group.proposed history).flatten := by
  obtain ⟨lists, -, hissued, -⟩ := (hrun.accountable hprimary).coherent.queue
  rw [List.flatten_append] at hissued
  exact hissued.increasing.sublog (List.prefix_append _ _)

/-- With a correct primary, an honest replica's log is a prefix of what the primary
proposed, and finalizes no sequence number of a client twice or out of order. There is no
bound on the faulty replicas. The digests of the lists in question do not collide. -/
theorem correct_primary (hprimary : group.Honest (group.spec.primary 0))
    (hrun : GroupRun group history states)
    (hcollision : Set.InjOn (blockDigest crypto)
      (group.finalizedLists history ∪ { commands | commands ∈ group.proposed history }))
    (hwho : group.Honest who) :
    (∃ count, finalizedLog (view who history) = (group.proposed history).take count) ∧
      SeqIncreasing (finalizedLog (view who history)).flatten ∧
      ((finalizedLog (view who history)).flatten.map
        fun command => (command.clientId, command.seq)).Nodup := by
  have hpre : finalizedLog (view who history) <+: group.proposed history := by
    rw [List.prefix_iff_getElem?]
    intro index hlt
    exact finalized_proposal hprimary hrun hcollision hwho (List.getElem?_eq_getElem hlt)
  have hincreasing : SeqIncreasing (finalizedLog (view who history)).flatten := by
    obtain ⟨rest, hrest⟩ := hpre
    refine (proposed_increasing hprimary hrun).sublog ?_
    rw [← hrest, List.flatten_append]
    exact List.prefix_append _ _
  exact ⟨⟨_, List.prefix_iff_eq_take.mp hpre⟩, hincreasing, hincreasing.nodup⟩

/-- In the normal case among four, a backup's log is the first proposal. -/
theorem correct_primary_normalCase :
    ∃ history : History .transparent, finalizedLog (view 1 history) = [[ping 0]] ∧
      (∃ count, finalizedLog (view 1 history) = ((four ∅).proposed history).take count) ∧
      SeqIncreasing (finalizedLog (view 1 history)).flatten := by
  have hreplay : ∃ run ∈ (four ∅).replay fourNormalCase,
      finalizedLog (view 1 run.1) = [[ping 0]] ∧
      (∀ who < 4, ∀ commands ∈ finalizedLog (view who run.1), commands = [ping 0]) ∧
      ∀ commands ∈ (four ∅).proposed run.1, commands = [ping 0] := by
    decide +kernel
  obtain ⟨⟨history, states⟩, hrun, hlog, hall, hproposed⟩ := hreplay
  have honly : ∀ commands ∈ (four ∅).finalizedLists history ∪
      { commands | commands ∈ (four ∅).proposed history }, commands = [ping 0] := by
    rintro commands (⟨who, hwho, hmem⟩ | hmem)
    · exact hall who hwho.1 commands hmem
    · exact hproposed commands hmem
  have hcollision : Set.InjOn (blockDigest .transparent) ((four ∅).finalizedLists history ∪
      { commands | commands ∈ (four ∅).proposed history }) := by
    intro commands hmem commands' hmem' _
    rw [honly commands hmem, honly commands' hmem']
  obtain ⟨htake, hincreasing, -⟩ := correct_primary (show (four ∅).Honest 0 by decide)
    (replay_run hrun) hcollision (show (four ∅).Honest 1 by decide)
  exact ⟨history, hlog, htake, hincreasing⟩

end Group

end BftKit.Pbft
