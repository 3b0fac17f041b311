import BftKit.Pbft.Coherent

/-! # Runs of one replica

A run delivers arbitrary messages, except that nobody else signs PrePrepares in
the name of the replica. Along every run the main path keeps its order, finalized
block numbers are collected, and what the replica signs matches what it stores.
-/

namespace BftKit.Pbft

open Foundation

variable {crypto : Crypto}

/-- What an event asks of the environment. -/
def Replica.Event.actions : Replica.Event crypto → List (Action crypto)
  | .call _ actions | .perform _ actions => actions

/-- The commands that a history finalizes, block by block. -/
def finalizedLog (history : List (Replica.Event crypto)) : List (List Command) :=
  history.flatMap fun event => event.actions.filterMap ReplicaAction.finalized?

/-- The messages that a history sends. -/
def sentMessages (history : List (Replica.Event crypto)) : List (ToReplica crypto) :=
  history.flatMap fun event => event.actions.filterMap ReplicaAction.message?

/-- The fields of a PrePrepare have been signed. -/
def SignedPrePrepare (history : List (Replica.Event crypto)) (prePrepare : PrePrepare crypto) :
    Prop :=
  ∃ sent ∈ (sentMessages history).filterMap ToReplica.prePrepare?,
    sent.viewNum = prePrepare.viewNum ∧ sent.blockNum = prePrepare.blockNum ∧
      sent.digest = prePrepare.digest

/-- The fields of a vote have been signed, in a Prepare or in a Commit. -/
def SignedVote (history : List (Replica.Event crypto)) (vote : Vote crypto) : Prop :=
  ∃ sent ∈ (sentMessages history).filterMap ToReplica.vote?,
    sent.viewNum = vote.viewNum ∧ sent.blockNum = vote.blockNum ∧ sent.digest = vote.digest ∧
      sent.replicaId = vote.replicaId

instance (history : List (Replica.Event crypto)) (prePrepare : PrePrepare crypto) :
    Decidable (SignedPrePrepare history prePrepare) :=
  inferInstanceAs (Decidable (∃ sent ∈ (sentMessages history).filterMap ToReplica.prePrepare?, _))

instance (history : List (Replica.Event crypto)) (vote : Vote crypto) :
    Decidable (SignedVote history vote) :=
  inferInstanceAs (Decidable (∃ sent ∈ (sentMessages history).filterMap ToReplica.vote?, _))

theorem mem_sentMessages_concat {history : List (Replica.Event crypto)}
    {event : Replica.Event crypto} {message : ToReplica crypto} :
    message ∈ sentMessages (history ++ [event]) ↔ message ∈ sentMessages history ∨
      ∃ action ∈ event.actions, action.message? = some message := by
  simp [sentMessages, List.flatMap_append]

theorem mem_prePrepares {history : List (Replica.Event crypto)} {sent : PrePrepare crypto} :
    sent ∈ (sentMessages history).filterMap ToReplica.prePrepare? ↔
      ∃ commands, .prePrepare sent commands ∈ sentMessages history := by
  rw [List.mem_filterMap]
  constructor
  · rintro ⟨message, hmessage, hsent⟩
    cases message with
    | prePrepare other commands =>
        obtain rfl : other = sent := Option.some.inj hsent
        exact ⟨commands, hmessage⟩
    | request | prepare | commit => cases hsent
  · rintro ⟨commands, hmessage⟩
    exact ⟨_, hmessage, rfl⟩

/-- A received PrePrepare verifies under the replica's own key only if the replica
has signed it. -/
def Unforged (config : ReplicaCoreConfig) (history : List (Replica.Event crypto))
    (event : Replica.Event crypto) : Prop :=
  ∀ prePrepare commands actions,
    event = .call (.receive (.prePrepare prePrepare commands)) actions →
    crypto.verify prePrepare (crypto.publicKey (crypto.replicaSecretKey config.id))
      prePrepare.sig = true →
    SignedPrePrepare history prePrepare

/-- The runs of one replica. -/
abbrev LocalRun (config : ReplicaCoreConfig) :
    List (Replica.Event crypto) → Replica crypto → Prop :=
  Run (fun replica => Replica.new crypto config = .ok replica)
    fun history replica event next =>
      Replica.Step replica event next ∧ Unforged config history event

namespace Replica

variable {config : ReplicaCoreConfig} {replica next : Replica crypto} {log : List Command}
  {event : Event crypto}

theorem Keeps.commandsAt (hkeeps : Keeps replica.core.blocks next.core.blocks) {blockNum : Nat}
    {commands : List Command} (hat : replica.commandsAt blockNum = some commands) :
    next.commandsAt blockNum = some commands := by
  obtain ⟨block, hblock, rfl⟩ := Option.map_eq_some_iff.mp hat
  obtain ⟨block', hblock', hcommands, -⟩ := hkeeps _ block hblock
  simp [Replica.commandsAt, hblock', hcommands]

/-! ## What a step signs -/

/-- PrePrepares are signed by a primary, for what it stores. -/
theorem Effect.prePrepare_sent (heffect : Effect log replica event next)
    {action : Action crypto} (haction : action ∈ event.actions) {prePrepare : PrePrepare crypto}
    {commands : List Command}
    (hmessage : action.message? = some (.prePrepare prePrepare commands)) :
    replica.core.isPrimary = true ∧ ∃ blockNum block,
      next.core.blocks[blockNum]? = some block ∧ block.commands = commands ∧
        prePrepare = replica.signPrePrepare blockNum block.digest := by
  cases heffect with
  | drop | request | accept | keepPrepare | countPrepare | keepCommit | countCommit =>
      simp [Event.actions] at haction
  | resend _ _ _ hactions =>
      rcases hactions action haction with rfl | rfl <;> simp [ReplicaAction.message?] at hmessage
  | tick hactions =>
      obtain ⟨hprimary, blockNum, block, hblock, rfl⟩ := hactions action haction
      simp only [ReplicaAction.message?, Option.some.injEq, ToReplica.prePrepare.injEq] at hmessage
      exact ⟨hprimary, blockNum, block, hblock, hmessage.2, hmessage.1.symm⟩
  | @propose blockNum _ _ _ _ hprimary =>
      obtain rfl := List.mem_singleton.mp haction
      simp only [ReplicaAction.message?, Option.some.injEq, ToReplica.prePrepare.injEq] at hmessage
      exact ⟨hprimary, blockNum, _, getElem?_insert_self _ _, hmessage.2, hmessage.1.symm⟩
  | prepare | commit | finalize | forward =>
      obtain rfl := List.mem_singleton.mp haction
      simp [ReplicaAction.message?] at hmessage

/-- Votes are signed for what the replica stores. -/
theorem Effect.vote_sent (heffect : Effect log replica event next)
    {action : Action crypto} (haction : action ∈ event.actions) {message : ToReplica crypto}
    (hmessage : action.message? = some message) {vote : Vote crypto}
    (hvote : message.vote? = some vote) :
    ∃ blockNum block, next.core.blocks[blockNum]? = some block ∧
      vote = replica.signVote blockNum block.digest := by
  have hkeeps := heffect.keeps
  cases heffect with
  | drop | request | accept | keepPrepare | countPrepare | keepCommit | countCommit =>
      simp [Event.actions] at haction
  | @resend prePrepare _ block _ _ hblock hdigest hactions =>
      refine ⟨prePrepare.blockNum, block, hblock, ?_⟩
      rw [hdigest]
      rcases hactions action haction with rfl | rfl <;>
        obtain rfl := Option.some.inj hmessage <;> exact (Option.some.inj hvote).symm
  | tick hactions =>
      obtain ⟨_, _, _, _, rfl⟩ := hactions action haction
      obtain rfl := Option.some.inj hmessage
      simp [ToReplica.vote?] at hvote
  | @prepare blockNum digest _ block _ _ hblock hdigest =>
      obtain rfl := List.mem_singleton.mp haction
      obtain rfl := Option.some.inj hmessage
      obtain ⟨block', hblock', -, hdigest', -⟩ := hkeeps _ block hblock
      refine ⟨blockNum, block', hblock', ?_⟩
      rw [hdigest', hdigest]
      exact (Option.some.inj hvote).symm
  | @commit blockNum _ block _ _ hblock =>
      obtain rfl := List.mem_singleton.mp haction
      obtain rfl := Option.some.inj hmessage
      obtain ⟨block', hblock', -, hdigest', -⟩ := hkeeps _ block hblock
      refine ⟨blockNum, block', hblock', ?_⟩
      rw [hdigest']
      exact (Option.some.inj hvote).symm
  | propose | forward =>
      obtain rfl := List.mem_singleton.mp haction
      obtain rfl := Option.some.inj hmessage
      simp [ToReplica.vote?] at hvote
  | finalize =>
      obtain rfl := List.mem_singleton.mp haction
      simp [ReplicaAction.message?] at hmessage

/-- Prepares and Commits are broadcast by the actions of that name only. -/
theorem Effect.broadcast (heffect : Effect log replica event next) {message : ToReplica crypto}
    (haction : .sendToAllReplicas message ∈ event.actions) {vote : Vote crypto} :
    (message = .prepare vote →
      event = .perform (.prepare vote.blockNum vote.digest) [.sendToAllReplicas message]) ∧
    (message = .commit vote →
      event = .perform (.commit vote.blockNum) [.sendToAllReplicas message]) := by
  cases heffect with
  | drop | request | accept | keepPrepare | countPrepare | keepCommit | countCommit =>
      simp [Event.actions] at haction
  | resend _ _ _ hactions => rcases hactions _ haction with h | h <;> cases h
  | tick hactions =>
      obtain ⟨-, blockNum, block, -, heq⟩ := hactions _ haction
      obtain rfl := ReplicaAction.sendToAllReplicas.inj heq
      constructor <;> intro h <;> cases h
  | propose | prepare | commit | finalize | forward =>
      have heq := List.mem_singleton.mp haction
      cases heq <;> constructor <;> intro h <;> cases h <;> rfl

/-- A step finalizes the stored commands of the block it performs Finalize for. -/
theorem Effect.finalized (heffect : Effect log replica event next) :
    List.Forall₂ (fun blockNum commands => next.commandsAt blockNum = some commands)
      (finalizeNums event.performed?.toList)
      (event.actions.filterMap ReplicaAction.finalized?) := by
  cases heffect with
  | drop | request | accept | keepPrepare | countPrepare | keepCommit | countCommit =>
      exact .nil
  | resend _ _ _ hactions =>
      have hnone : List.filterMap ReplicaAction.finalized? _ = [] :=
        List.filterMap_eq_nil_iff.mpr fun action haction => by
          rcases hactions action haction with rfl | rfl <;> rfl
      exact (show _ = [] from hnone) ▸ .nil
  | tick hactions =>
      have hnone : List.filterMap ReplicaAction.finalized? _ = [] :=
        List.filterMap_eq_nil_iff.mpr fun action haction => by
          obtain ⟨_, _, _, _, rfl⟩ := hactions action haction
          rfl
      exact (show _ = [] from hnone) ▸ .nil
  | propose | prepare | commit | forward => exact .nil
  | finalize _ hblock => exact .cons (by simp [commandsAt, hblock]) .nil

/-- Verification under the id of a replica is verification under its key. -/
theorem Coherent.verified {performed : ReplicaCoreActions crypto}
    (h : Coherent config performed replica) {Value : Type} [UpdateHash Value] {message : Value}
    {id : Nat} {sig : crypto.Sig} (hverify : replica.verify message id sig = .ok true) :
    id < config.spec.numReplica ∧
      crypto.verify message (crypto.publicKey (crypto.replicaSecretKey id)) sig = true := by
  unfold Replica.verify at hverify
  by_cases hid : id < config.spec.numReplica
  · rw [h.publicKeys, List.getElem?_map, List.getElem?_range hid] at hverify
    exact ⟨hid, Except.ok.inj hverify⟩
  · rw [h.publicKeys, List.getElem?_eq_none (by simpa using hid)] at hverify
    cases hverify

/-! ## What a run establishes -/

/-- A replica stands by what it has signed, broadcast and finalized. -/
structure Accountable (config : ReplicaCoreConfig) (history : List (Event crypto))
    (replica : Replica crypto) : Prop where
  coherent : Coherent config (performedIn history) replica
  prePrepares : ∀ prePrepare commands, .prePrepare prePrepare commands ∈ sentMessages history →
    replica.core.isPrimary = true ∧ prePrepare.viewNum = 0 ∧
      ∃ block : Block crypto, replica.core.blocks[prePrepare.blockNum]? = some block ∧
        block.digest = prePrepare.digest ∧ block.commands = commands
  votes : ∀ message ∈ sentMessages history, ∀ vote, message.vote? = some vote →
    vote.viewNum = 0 ∧ vote.replicaId = config.id ∧
      ∃ block : Block crypto, replica.core.blocks[vote.blockNum]? = some block ∧
        block.digest = vote.digest
  broadcasts : ∀ event ∈ history, ∀ message vote,
    .sendToAllReplicas message ∈ event.actions →
    (message = .prepare vote →
      event = .perform (.prepare vote.blockNum vote.digest) [.sendToAllReplicas message]) ∧
    (message = .commit vote →
      event = .perform (.commit vote.blockNum) [.sendToAllReplicas message])
  log : List.Forall₂ (fun blockNum commands => replica.commandsAt blockNum = some commands)
    (finalizeNums (performedIn history)) (finalizedLog history)
  finalizations : ∀ blockNum actions, .perform (.finalize blockNum) actions ∈ history →
    ∃ commands, actions = [.finalize commands] ∧ replica.commandsAt blockNum = some commands

namespace Accountable

variable {history : List (Event crypto)}

/-- A signed PrePrepare is one of the replica's own blocks. -/
theorem signedPrePrepare (h : Accountable config history replica) {prePrepare : PrePrepare crypto}
    (hsigned : SignedPrePrepare history prePrepare) :
    ∃ block : Block crypto, replica.core.blocks[prePrepare.blockNum]? = some block ∧
      block.digest = prePrepare.digest := by
  obtain ⟨sent, hsent, -, hnum, hdigest⟩ := hsigned
  obtain ⟨commands, hmessage⟩ := mem_prePrepares.mp hsent
  obtain ⟨-, -, block, hblock, hblockDigest, -⟩ := h.prePrepares _ _ hmessage
  exact ⟨block, hnum ▸ hblock, hblockDigest.trans hdigest⟩

/-- A signed vote is for the block that the replica has under its number. -/
theorem signedVote (h : Accountable config history replica) {vote : Vote crypto}
    (hsigned : SignedVote history vote) :
    ∃ block : Block crypto, replica.core.blocks[vote.blockNum]? = some block ∧
      block.digest = vote.digest := by
  obtain ⟨sent, hsent, -, hnum, hdigest, -⟩ := hsigned
  obtain ⟨message, hmessage, hvote⟩ := List.mem_filterMap.mp hsent
  obtain ⟨-, -, block, hblock, hblockDigest⟩ := h.votes message hmessage sent hvote
  exact ⟨block, hnum ▸ hblock, hblockDigest.trans hdigest⟩

theorem of_new (hnew : Replica.new crypto config = .ok replica) :
    Accountable config [] replica where
  coherent := .of_new hnew
  prePrepares := by simp [sentMessages]
  votes := by simp [sentMessages]
  broadcasts := by simp
  log := .nil
  finalizations := by simp

/-- The primary's own signature means that the block is there. -/
theorem stored_of_own (h : Accountable config history replica)
    (hunforged : Unforged config history event) {prePrepare : PrePrepare crypto}
    {commands : List Command} {actions : List (Action crypto)}
    (hevent : event = .call (.receive (.prePrepare prePrepare commands)) actions)
    (hprimary : replica.core.isPrimary = true)
    (hadmits : replica.Admits prePrepare prePrepare.viewNum
      (replica.core.config.spec.primary prePrepare.viewNum) prePrepare.sig) :
    replica.core.blocks[prePrepare.blockNum]? ≠ none := by
  have hid : replica.core.config.spec.primary prePrepare.viewNum = config.id := by
    rw [hadmits.view, ← h.coherent.configured]
    exact beq_iff_eq.mp hprimary
  have hverified := (h.coherent.verified (hid ▸ hadmits.verified)).2
  obtain ⟨block, hblock, -⟩ := h.signedPrePrepare (hunforged _ _ _ hevent hverified)
  simp [hblock]

/-- A step that leaves the replica coherent leaves it accountable. -/
theorem step_of_coherent (h : Accountable config history replica) (hstep : Step replica event next)
    (hcoherent : Coherent config (performedIn (history ++ [event])) next) :
    Accountable config (history ++ [event]) next := by
  obtain ⟨lists, -, heffect⟩ := h.coherent.effect hstep
  have hkeeps := heffect.keeps
  have hprimary : next.core.isPrimary = replica.core.isPrimary :=
    hcoherent.isPrimary_eq.trans h.coherent.isPrimary_eq.symm
  refine ⟨hcoherent, ?_, ?_, ?_, ?_, ?_⟩
  · intro prePrepare commands hsent
    rw [hprimary]
    rcases mem_sentMessages_concat.mp hsent with hold | ⟨action, haction, hmessage⟩
    · obtain ⟨hprim, hview, block, hblock, hdigest, hcommands⟩ := h.prePrepares _ _ hold
      obtain ⟨block', hblock', hcommands', hdigest', -⟩ := hkeeps _ block hblock
      exact ⟨hprim, hview, block', hblock', hdigest'.trans hdigest, hcommands'.trans hcommands⟩
    · obtain ⟨hprim, blockNum, block, hblock, hcommands, rfl⟩ :=
        heffect.prePrepare_sent haction hmessage
      exact ⟨hprim, h.coherent.view, block, hblock, rfl, hcommands⟩
  · intro message hsent vote hvote
    rcases mem_sentMessages_concat.mp hsent with hold | ⟨action, haction, hmessage⟩
    · obtain ⟨hview, hid, block, hblock, hdigest⟩ := h.votes message hold vote hvote
      obtain ⟨block', hblock', -, hdigest', -⟩ := hkeeps _ block hblock
      exact ⟨hview, hid, block', hblock', hdigest'.trans hdigest⟩
    · obtain ⟨blockNum, block, hblock, rfl⟩ := heffect.vote_sent haction hmessage hvote
      exact ⟨h.coherent.view, congrArg ReplicaCoreConfig.id h.coherent.configured, block, hblock, rfl⟩
  · intro other hmem message vote haction
    rcases List.mem_append.mp hmem with hold | hnew
    · exact h.broadcasts other hold message vote haction
    · obtain rfl := List.mem_singleton.mp hnew
      exact heffect.broadcast haction
  · have hnums : finalizeNums (performedIn (history ++ [event])) =
        finalizeNums (performedIn history) ++ finalizeNums event.performed?.toList := by
      rw [performedIn_concat, finalizeNums, List.filterMap_append]
      rfl
    have hlog : finalizedLog (history ++ [event]) =
        finalizedLog history ++ event.actions.filterMap ReplicaAction.finalized? := by
      simp [finalizedLog]
    rw [hnums, hlog]
    exact List.rel_append (h.log.imp fun _ _ => hkeeps.commandsAt) heffect.finalized
  · intro blockNum actions hmem
    rcases List.mem_append.mp hmem with hold | hnew
    · obtain ⟨commands, hactions, hat⟩ := h.finalizations blockNum actions hold
      exact ⟨commands, hactions, hkeeps.commandsAt hat⟩
    · obtain rfl := List.mem_singleton.mp hnew
      cases heffect with
      | finalize _ hblock => exact ⟨_, rfl, by simp [commandsAt, hblock]⟩

theorem step (h : Accountable config history replica)
    (hstep : Step replica event next) (hunforged : Unforged config history event) :
    Accountable config (history ++ [event]) next :=
  h.step_of_coherent hstep (h.coherent.step hstep fun _ _ _ => h.stored_of_own hunforged)

/-- Every run keeps its replica accountable. -/
theorem of_run (hrun : LocalRun config history replica) : Accountable config history replica := by
  refine hrun.invariant (fun _ => of_new) ?_
  rintro history state event next - hinv ⟨hstep, hunforged⟩
  exact hinv.step hstep hunforged

end Accountable

end Replica

end BftKit.Pbft
