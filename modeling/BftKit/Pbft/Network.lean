import BftKit.Foundation.Losses
import BftKit.Pbft.PrimaryTally
import BftKit.Pbft.Receive

/-! # Networks of correct replicas

All replicas of a group follow the code, each call to the end of its loop, and the network
delivers what has been sent and not been lost. Then every message passes its checks, and
the blocks and votes are those of the primary's proposals.
-/

namespace BftKit.Pbft

open Foundation

variable {crypto : Crypto}

namespace Replica

/-- A call with its loop, and what it has asked of the environment on the way. -/
structure Invocation (crypto : Crypto) where
  call : Call crypto
  actions : List (Action crypto)
  performed : List (Event crypto)

def Invocation.events (invocation : Invocation crypto) : List (Event crypto) :=
  .call invocation.call invocation.actions :: invocation.performed

/-- The message that a call receives. -/
def Invocation.receives (invocation : Invocation crypto) : Option (ToReplica crypto) :=
  match invocation.call with
  | .receive message => some message
  | .request _ | .tick => none

/-- A call on a replica that is done with the calls before, to the end of its loop. -/
structure Invokes (replica : Replica crypto) (invocation : Invocation crypto)
    (final : Replica crypto) : Prop where
  idle : replica.coreActions = []
  loop : ∃ next, replica.call invocation.call = .ok (next, invocation.actions) ∧
    Drained next invocation.performed final
  done : final.coreActions = []

variable {config : ReplicaCoreConfig} {history : List (Event crypto)}
  {replica final : Replica crypto} {invocation : Invocation crypto}

theorem Drained.correctRun {events : List (Event crypto)} (h : Drained replica events final)
    (hrun : CorrectRun config history replica) : CorrectRun config (history ++ events) final := by
  induction h generalizing history with
  | nil => rwa [List.append_nil]
  | cons hqueue hperform _ ih =>
      have hnext := ih (.step hrun ⟨.perform hqueue hperform, nofun⟩)
      rwa [List.append_assoc] at hnext

theorem Invokes.delivered (h : replica.Invokes invocation final) :
    Replica.delivered invocation.events = invocation.receives.toList := by
  obtain ⟨next, -, hdrained⟩ := h.loop
  have hrest := hdrained.delivered
  unfold Replica.delivered at hrest
  rw [Replica.delivered, Invocation.events, List.filterMap_cons, hrest, Invocation.receives]
  cases invocation.call <;> rfl

theorem Drained.keeps {events : List (Event crypto)} (h : Drained replica events final)
    (hrun : CorrectRun config history replica) : Keeps replica.core.blocks final.core.blocks := by
  induction h generalizing history with
  | nil => exact .refl _
  | cons hqueue hperform _ ih =>
      obtain ⟨lists, -, heffect⟩ :=
        (CorrectRun.accountable hrun).coherent.effect (.perform hqueue hperform)
      exact heffect.keeps.trans (ih (.step hrun ⟨.perform hqueue hperform, nofun⟩))

/-- The first step of a call on an informed replica. -/
theorem Invokes.call (h : replica.Invokes invocation final)
    (hrun : CorrectRun config history replica)
    (hinformed : ∀ message, invocation.receives = some message →
      Informs config replica message) :
    ∃ next, CorrectRun config (history ++ [.call invocation.call invocation.actions]) next ∧
      Drained next invocation.performed final ∧ Keeps replica.core.blocks next.core.blocks := by
  obtain ⟨next, hcall, hdrained⟩ := h.loop
  have hstep : Replica.Step replica (.call invocation.call invocation.actions) next :=
    .call h.idle hcall
  obtain ⟨lists, -, heffect⟩ := (CorrectRun.accountable hrun).coherent.effect hstep
  refine ⟨next, .step hrun ⟨hstep, ?_⟩, hdrained, heffect.keeps⟩
  intro message hdelivered
  apply hinformed message
  rw [← hdelivered, Invocation.receives]
  cases invocation.call <;> rfl

/-- A call on an informed replica extends its run. -/
theorem Invokes.correctRun (h : replica.Invokes invocation final)
    (hrun : CorrectRun config history replica)
    (hinformed : ∀ message, invocation.receives = some message →
      Informs config replica message) :
    CorrectRun config (history ++ invocation.events) final ∧
      Keeps replica.core.blocks final.core.blocks := by
  obtain ⟨next, hnext, hdrained, hkeeps⟩ := h.call hrun hinformed
  have hfinal := hdrained.correctRun hnext
  rw [List.append_assoc] at hfinal
  exact ⟨hfinal, hkeeps.trans (hdrained.keeps hnext)⟩

end Replica

namespace Group

open Replica

/-- The replicas of a group as the parties of a network. All of them are correct. -/
def protocol (crypto : Crypto) (group : Group) :
    Protocol Nat (Replica crypto) (Invocation crypto) (ToReplica crypto) where
  start := group.initial crypto
  step who replica invocation next :=
    who < group.spec.numReplica ∧ replica.Invokes invocation next
  receives := Invocation.receives
  sends who invocation := (invocation.events.flatMap Event.actions).flatMap
    (ReplicaAction.deliveries group.spec.numReplica who)

/-- The events of one replica in a network. -/
def eventsOf (who : Nat) (history : List (Nat × Invocation crypto)) : List (Event crypto) :=
  (view who history).flatMap Invocation.events

variable {group : Group} {history : List (Nat × Invocation crypto)}
  {network : Network Nat (Replica crypto) (ToReplica crypto)} {who : Nat}
  {message : ToReplica crypto}

theorem eventsOf_concat_self (invocation : Invocation crypto) :
    eventsOf who (history ++ [(who, invocation)]) = eventsOf who history ++ invocation.events := by
  simp [eventsOf]

theorem eventsOf_concat_of_ne {other : Nat} (hne : other ≠ who) (invocation : Invocation crypto) :
    eventsOf who (history ++ [(other, invocation)]) = eventsOf who history := by
  simp [eventsOf, view_singleton_of_ne hne]

/-- A message is sent by an action of some replica. -/
theorem mem_sent : (who, message) ∈ (group.protocol crypto).sent history ↔
    ∃ sender, ∃ event ∈ eventsOf sender history, ∃ action ∈ event.actions,
      (who, message) ∈ action.deliveries group.spec.numReplica sender := by
  simp only [Protocol.sent, protocol, eventsOf, List.mem_flatMap, mem_view]
  constructor
  · rintro ⟨⟨sender, invocation⟩, hmem, action, ⟨event, hevent, haction⟩, hdelivery⟩
    exact ⟨sender, event, ⟨invocation, hmem, hevent⟩, action, haction, hdelivery⟩
  · rintro ⟨sender, event, ⟨invocation, hmem, hevent⟩, action, haction, hdelivery⟩
    exact ⟨(sender, invocation), hmem, action, ⟨event, hevent, haction⟩, hdelivery⟩

theorem mem_sentMessages_of_deliveries {event : Event crypto} {action : Action crypto}
    {sender : Nat} (hevent : event ∈ eventsOf sender history) (haction : action ∈ event.actions)
    (hdelivery : (who, message) ∈ action.deliveries group.spec.numReplica sender) :
    message ∈ sentMessages (eventsOf sender history) := by
  refine mem_sentMessages.mpr ⟨event, hevent, action, haction, ?_⟩
  rcases ReplicaAction.mem_deliveries.mp hdelivery with rfl | ⟨rfl, -⟩ <;> rfl

section

variable (hrun : (group.protocol crypto).NetworkRun history network)

include hrun

theorem NetworkRun.idle (who : Nat) : (network.states who).coreActions = [] := by
  have hlocal := Protocol.NetworkRun.localRun hrun who
  generalize view who history = own at hlocal
  cases hlocal with
  | start hinit =>
      rw [hinit]
      rfl
  | step _ hstep => exact hstep.2.done

/-- What a replica has been delivered, as messages of the network. -/
theorem NetworkRun.mem_delivered : message ∈ delivered (eventsOf who history) ↔
    (who, message) ∈ (group.protocol crypto).received history := by
  induction hrun with
  | start => simp [eventsOf, delivered, Protocol.received]
  | @step history network entry next hprev hstep ih =>
      obtain ⟨party, invocation⟩ := entry
      obtain ⟨hinvokes, -⟩ := hstep.localStep
      rw [Protocol.received_concat, List.mem_append, ← ih]
      by_cases heq : party = who
      · subst heq
        rw [eventsOf_concat_self, delivered_append, hinvokes.2.delivered, List.mem_append]
        simp [protocol]
      · rw [eventsOf_concat_of_ne heq]
        simp only [Option.mem_toList, List.mem_map, Prod.mk.injEq, heq, false_and, and_false,
          exists_false, or_false]

end

/-! ## What is sent among correct replicas -/

/-- A message is about a block that is there. -/
def Backed (blocks : Blocks crypto) : ToReplica crypto → Prop
  | .request _ => True
  | .prePrepare sent commands => ∃ block : Block crypto, blocks[sent.blockNum]? = some block ∧
      block.commands = commands
  | .prepare vote | .commit vote => ∃ block : Block crypto, blocks[vote.blockNum]? = some block ∧
      block.digest = vote.digest

theorem Backed.keeps {blocks blocks' : Blocks crypto} (h : Backed blocks message)
    (hkeeps : Keeps blocks blocks') : Backed blocks' message := by
  cases message with
  | request command => trivial
  | prePrepare sent commands =>
      obtain ⟨block, hblock, hcommands⟩ := h
      obtain ⟨block', hblock', hcommands', -⟩ := hkeeps _ block hblock
      exact ⟨block', hblock', hcommands'.trans hcommands⟩
  | prepare vote | commit vote =>
      obtain ⟨block, hblock, hdigest⟩ := h
      obtain ⟨block', hblock', -, hdigest', -⟩ := hkeeps _ block hblock
      exact ⟨block', hblock', hdigest'.trans hdigest⟩

/-- What the primary's blocks say of a message sent to a replica. -/
structure Sound (group : Group) (blocks : Blocks crypto) (who : Nat) (message : ToReplica crypto) :
    Prop where
  passes : Passes (group.config who) message
  byBackup : ByBackup (group.config who) message
  backed : Backed blocks message
  receiver : who = group.spec.primary 0 → message.prePrepare? = none

/-- Which checks a message passes is the same at all replicas. -/
theorem passes_config {other : Nat} (h : Passes (group.config who) message) :
    Passes (group.config other) message := by
  cases message <;> exact h

/-- What arrives at the primary answers it. -/
theorem Sound.answers {replica : Replica crypto} (h : Sound group replica.core.blocks who message)
    (hwho : who = group.spec.primary 0) : replica.Answers message := by
  cases message with
  | request command => trivial
  | prePrepare sent commands => cases h.receiver hwho
  | prepare vote | commit vote => exact h.backed

theorem primary_lt (hwho : who < group.spec.numReplica) :
    group.spec.primary 0 < group.spec.numReplica :=
  Nat.mod_lt _ (Nat.zero_lt_of_lt hwho)

/-- All replicas are informed, and all messages sound. -/
structure Harmonious (group : Group) (history : List (Nat × Invocation crypto))
    (network : Network Nat (Replica crypto) (ToReplica crypto)) : Prop where
  runs : ∀ who < group.spec.numReplica,
    CorrectRun (group.config who) (eventsOf who history) (network.states who)
  sound : ∀ who message, (who, message) ∈ (group.protocol crypto).sent history →
    Sound group (network.states (group.spec.primary 0)).core.blocks who message

section

variable {next : Network Nat (Replica crypto) (ToReplica crypto)} {party : Nat}
  {invocation : Invocation crypto}

/-- A replica that is called among correct ones stays informed. -/
theorem Harmonious.correctRun (h : Harmonious group history network)
    (hparty : party < group.spec.numReplica) {final : Replica crypto}
    (hinvokes : (network.states party).Invokes invocation final)
    (hsent : ∀ message, invocation.receives = some message →
      (party, message) ∈ (group.protocol crypto).sent history) :
    CorrectRun (group.config party) (eventsOf party history ++ invocation.events) final ∧
      Keeps (network.states party).core.blocks final.core.blocks := by
  apply hinvokes.correctRun (h.runs party hparty)
  intro message hreceives
  have hsound := h.sound party message (hsent message hreceives)
  refine ⟨hsound.passes, hsound.byBackup, fun hprimary => ?_⟩
  obtain rfl : group.spec.primary 0 = party := hprimary
  exact hsound.answers rfl

/-- The block of a replica is the primary's, if what it was delivered is. -/
theorem same_block
    (hwho : CorrectRun (group.config who) (eventsOf who history) (network.states who))
    (hprimary : CorrectRun (group.config (group.spec.primary 0))
      (eventsOf (group.spec.primary 0) history) (network.states (group.spec.primary 0)))
    (hbacked : ∀ message ∈ delivered (eventsOf who history),
      Backed (network.states (group.spec.primary 0)).core.blocks message)
    {blockNum : Nat} {block : Block crypto}
    (hblock : (network.states who).core.blocks[blockNum]? = some block) :
    ∃ stored : Block crypto,
      (network.states (group.spec.primary 0)).core.blocks[blockNum]? = some stored ∧
        stored.digest = block.digest := by
  by_cases heq : group.spec.primary 0 = who
  · exact ⟨block, heq ▸ hblock, rfl⟩
  · obtain ⟨sent, hdelivered, rfl⟩ := CorrectRun.proposed hwho heq hblock
    obtain ⟨stored, hstored, hcommands⟩ := hbacked _ hdelivered
    refine ⟨stored, hstored, ?_⟩
    rw [(CorrectRun.accountable hwho).coherent.digest _ block hblock,
      (CorrectRun.accountable hprimary).coherent.digest _ stored hstored, hcommands]

/-- What a replica sends is sound, if its blocks are the primary's. -/
theorem sound_of_sent (hverifies : crypto.Verifies) {sender : Nat}
    (hsender : CorrectRun (group.config sender) (eventsOf sender history) (network.states sender))
    (hsame : ∀ (blockNum : Nat) (block : Block crypto),
      (network.states sender).core.blocks[blockNum]? = some block → ∃ stored : Block crypto,
        (network.states (group.spec.primary 0)).core.blocks[blockNum]? = some stored ∧
          stored.digest = block.digest)
    {event : Event crypto} (hevent : event ∈ eventsOf sender history) {action : Action crypto}
    (haction : action ∈ event.actions)
    (hdelivery : (who, message) ∈ action.deliveries group.spec.numReplica sender) :
    Sound group (network.states (group.spec.primary 0)).core.blocks who message := by
  have h := CorrectRun.accountable hsender
  have hsent := mem_sentMessages_of_deliveries hevent haction hdelivery
  have hself : ∀ prePrepare commands, message = .prePrepare prePrepare commands →
      group.spec.primary 0 = sender := by
    rintro prePrepare commands rfl
    obtain ⟨hprimary, -⟩ := h.prePrepares _ _ hsent
    exact beq_iff_eq.mp (h.coherent.isPrimary_eq ▸ hprimary)
  refine ⟨passes_config (CorrectRun.sent_passes hsender hverifies hsent), ?_, ?_, ?_⟩
  · cases message with
    | request | prePrepare | commit => trivial
    | prepare vote =>
        intro heq
        obtain ⟨-, hid, -⟩ := h.votes _ hsent vote rfl
        exact CorrectRun.no_prepares hsender (heq.symm.trans hid) vote hsent
  · have hvote : ∀ vote, message.vote? = some vote → ∃ block : Block crypto,
        (network.states (group.spec.primary 0)).core.blocks[vote.blockNum]? = some block ∧
          block.digest = vote.digest := by
      intro vote hvote
      obtain ⟨-, -, block, hblock, hdigest⟩ := h.votes message hsent vote hvote
      obtain ⟨stored, hstored, heq⟩ := hsame _ block hblock
      exact ⟨stored, hstored, heq.trans hdigest⟩
    cases message with
    | request command => trivial
    | prePrepare prePrepare commands =>
        obtain ⟨-, -, block, hblock, -, hcommands⟩ := h.prePrepares _ _ hsent
        rw [hself _ _ rfl]
        exact ⟨block, hblock, hcommands⟩
    | prepare vote => exact hvote vote rfl
    | commit vote => exact hvote vote rfl
  · rintro rfl
    cases message with
    | request | prepare | commit => rfl
    | prePrepare prePrepare commands =>
        rcases ReplicaAction.mem_deliveries.mp hdelivery with rfl | ⟨-, -, hne⟩
        · rcases CorrectRun.broadcast_of_mem hsender hevent haction with
            ⟨_, heq⟩ | ⟨-, _, heq | heq⟩ <;> cases heq
        · exact absurd (hself _ _ rfl) hne

theorem Harmonious.step (h : Harmonious group history network) (hverifies : crypto.Verifies)
    (hrun : (group.protocol crypto).NetworkRun history network)
    (hstep : (group.protocol crypto).Step network (party, invocation) next) :
    Harmonious group (history ++ [(party, invocation)]) next := by
  have hrun' : (group.protocol crypto).NetworkRun (history ++ [(party, invocation)]) next :=
    .step hrun hstep
  obtain ⟨⟨hparty, hinvokes⟩, hothers⟩ := hstep.localStep
  obtain ⟨hcorrect, hkept⟩ := h.correctRun hparty hinvokes fun message hreceives =>
    (Protocol.NetworkRun.account hrun).mem_iff.mp
      (List.mem_append_left _ (hstep.mem_flight hreceives))
  have hkeeps : Keeps (network.states (group.spec.primary 0)).core.blocks
      (next.states (group.spec.primary 0)).core.blocks := by
    by_cases heq : group.spec.primary 0 = party
    · rwa [heq]
    · rw [hothers _ heq]
      exact .refl _
  have hruns : ∀ who < group.spec.numReplica, CorrectRun (group.config who)
      (eventsOf who (history ++ [(party, invocation)])) (next.states who) := by
    intro who hwho
    by_cases heq : party = who
    · subst heq
      rw [eventsOf_concat_self]
      exact hcorrect
    · rw [eventsOf_concat_of_ne heq, hothers who (Ne.symm heq)]
      exact h.runs who hwho
  -- what has been delivered by now was sent before this step
  have hold : ∀ {message}, message ∈ delivered (eventsOf party (history ++ [(party, invocation)])) →
      (party, message) ∈ (group.protocol crypto).sent history := by
    intro message hmessage
    rw [NetworkRun.mem_delivered hrun', Protocol.received_concat, List.mem_append] at hmessage
    refine (Protocol.NetworkRun.account hrun).mem_iff.mp ?_
    rcases hmessage with hreceived | hnew
    · exact List.mem_append_right _ hreceived
    · obtain ⟨_, hreceives, heq⟩ := List.mem_map.mp hnew
      obtain ⟨-, rfl⟩ := Prod.mk.inj heq
      exact List.mem_append_left _ (hstep.mem_flight (Option.mem_toList.mp hreceives))
  refine ⟨hruns, ?_⟩
  intro who message hsent
  rw [Protocol.sent, List.flatMap_append, List.mem_append] at hsent
  rcases hsent with hsent | hsent
  · have hsound := h.sound who message hsent
    exact ⟨hsound.passes, hsound.byBackup, hsound.backed.keeps hkeeps, hsound.receiver⟩
  · obtain ⟨_, hentry, hmem⟩ := List.mem_flatMap.mp hsent
    obtain rfl := List.mem_singleton.mp hentry
    obtain ⟨action, haction, hdelivery⟩ := List.mem_flatMap.mp hmem
    obtain ⟨event, hevent, haction⟩ := List.mem_flatMap.mp haction
    have hmine : event ∈ eventsOf party (history ++ [(party, invocation)]) := by
      rw [eventsOf_concat_self]
      exact List.mem_append_right _ hevent
    refine sound_of_sent hverifies (hruns party hparty) ?_ hmine haction hdelivery
    intro blockNum block hblock
    refine same_block (hruns party hparty) (hruns _ (primary_lt hparty)) ?_ hblock
    intro message hmessage
    exact (h.sound party message (hold hmessage)).backed.keeps hkeeps

end

/-- In a network of correct replicas everyone is informed and everything sound. -/
theorem NetworkRun.harmonious (hverifies : crypto.Verifies)
    (hrun : (group.protocol crypto).NetworkRun history network) :
    Harmonious group history network := by
  induction hrun with
  | start hinit =>
      subst hinit
      exact ⟨fun who hwho => .start (new_initial hwho), by simp [Protocol.sent]⟩
  | step hprev hstep ih => exact ih.step hverifies hprev hstep

/-! ## Losses change nothing of that -/

section

variable {history : List (Incident Nat (Invocation crypto) (ToReplica crypto))}
  (hverifies : crypto.Verifies) (hrun : (group.protocol crypto).LossyRun history network)

include hverifies hrun

theorem LossyRun.harmonious : Harmonious group (steps history) network := by
  obtain ⟨flight, hnetwork, -⟩ := Protocol.LossyRun.networkRun hrun
  have h := NetworkRun.harmonious hverifies hnetwork
  exact ⟨h.runs, h.sound⟩

/-- Nobody's blocks are replaced. -/
theorem LossyRun.keeps {next : Network Nat (Replica crypto) (ToReplica crypto)} {party : Nat}
    {invocation : Invocation crypto}
    (hstep : (group.protocol crypto).Step network (party, invocation) next) (who : Nat) :
    Keeps (network.states who).core.blocks (next.states who).core.blocks := by
  obtain ⟨⟨hparty, hinvokes⟩, hothers⟩ := hstep.localStep
  by_cases heq : who = party
  · subst heq
    exact ((LossyRun.harmonious hverifies hrun).correctRun hparty hinvokes fun message hreceives =>
      Protocol.LossyRun.sent_of_arrives hrun (.inl (hstep.mem_flight hreceives))).2
  · rw [hothers who heq]
    exact .refl _

omit hverifies

theorem LossyRun.idle (who : Nat) : (network.states who).coreActions = [] := by
  obtain ⟨flight, hnetwork, -⟩ := Protocol.LossyRun.networkRun hrun
  exact NetworkRun.idle hnetwork who

theorem LossyRun.mem_delivered : message ∈ delivered (eventsOf who (steps history)) ↔
    (who, message) ∈ (group.protocol crypto).received (steps history) := by
  obtain ⟨flight, hnetwork, -⟩ := Protocol.LossyRun.networkRun hrun
  exact NetworkRun.mem_delivered hnetwork

end

end Group

end BftKit.Pbft
