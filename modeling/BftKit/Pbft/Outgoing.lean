import BftKit.Pbft.Connection
import BftKit.Pbft.FreeRuns
import BftKit.Pbft.Replay

/-! # Outgoing messages

A replica signs what it sends, all of it and in every place that sends something. The
placeholder with which messages are built never gets to a connection, where it could not be
encoded and would end the replica task.
-/

namespace BftKit.Pbft

open Foundation Transport

variable {crypto : Crypto}

namespace Replica

variable {config : ReplicaCoreConfig} {history : List (Event crypto)}
  {replica next : Replica crypto} {event : Event crypto} {action : Action crypto}
  {actions : List (Action crypto)}

/-- What is sent again is signed again. -/
theorem tick_signed (htick : replica.tick = .ok (next, actions)) (haction : action ∈ actions) :
    ∃ blockNum digest commands, action = .sendToAllReplicas
      (.prePrepare (replica.signPrePrepare blockNum digest) commands) := by
  unfold tick at htick
  dsimp only at htick
  split at htick
  next =>
    obtain ⟨-, rfl⟩ := Prod.mk.inj (Except.ok.inj htick)
    cases haction
  next =>
    rw [bind_eq_ok] at htick
    obtain ⟨resent, hresend, heq⟩ := htick
    obtain ⟨-, rfl⟩ := Prod.mk.inj (Except.ok.inj heq)
    obtain ⟨sent, hsent, hmem⟩ := List.mem_flatten.mp haction
    obtain ⟨blockNum, -, hblock⟩ := mapM_of_mem hresend hsent
    unfold resendPrePrepare at hblock
    split at hblock
    next =>
      obtain rfl := Except.ok.inj hblock
      cases hmem
    next =>
      split at hblock
      next => cases hblock
      next block _ =>
        obtain rfl := Except.ok.inj hblock
        exact ⟨blockNum, block.digest, block.commands, List.mem_singleton.mp hmem⟩

theorem performPropose_signed {blockNum : Nat} {commands : List Command}
    (hperform : replica.performPropose blockNum commands = .ok (next, actions)) :
    actions = [.sendToAllReplicas (.prePrepare
      (replica.signPrePrepare blockNum (blockDigest crypto commands)) commands)] := by
  simp only [performPropose, bind_eq_ok] at hperform
  obtain ⟨_, -, heq⟩ := hperform
  exact (Prod.mk.inj (Except.ok.inj heq)).2.symm

/-- The message has no signature, or one under the key. -/
def SignedBy (secretKey : crypto.SecretKey) (message : ToReplica crypto) : Prop :=
  ∀ sig ∈ message.sig?, ∃ bytes, sig = crypto.signBytes bytes secretKey

theorem signVote_signedBy (blockNum : Nat) (digest : Digest) :
    SignedBy replica.cryptoConfig.secretKey (.prepare (replica.signVote blockNum digest)) ∧
      SignedBy replica.cryptoConfig.secretKey (.commit (replica.signVote blockNum digest)) := by
  constructor
  · rintro _ ⟨⟩
    exact ⟨_, rfl⟩
  · rintro _ ⟨⟩
    exact ⟨_, rfl⟩

theorem signPrePrepare_signedBy (blockNum : Nat) (digest : Digest) (commands : List Command) :
    SignedBy replica.cryptoConfig.secretKey
      (.prePrepare (replica.signPrePrepare blockNum digest) commands) := by
  rintro _ ⟨⟩
  exact ⟨_, rfl⟩

/-- Whatever happens, what is sent is signed. -/
theorem Step.signedBy (hstep : Step replica event next) (haction : action ∈ event.actions)
    {message : ToReplica crypto} (hmessage : action.message? = some message) :
    SignedBy replica.cryptoConfig.secretKey message := by
  have houtcome := hstep.outcome
  cases houtcome with
  | drop | request | accept | keepPrepare | countPrepare | keepCommit | countCommit | enterView =>
      simp [Event.actions] at haction
  | resend _ hblock hdigest hactions =>
      rcases hactions action haction with rfl | ⟨rfl, -⟩
      · obtain rfl := Option.some.inj hmessage
        exact (signVote_signedBy _ _).1
      · obtain rfl := Option.some.inj hmessage
        exact (signVote_signedBy _ _).2
  -- the outcomes leave open how PrePrepares are signed, the functions do not
  | tick =>
      cases hstep with
      | call _ htick =>
          obtain ⟨blockNum, digest, commands, rfl⟩ := tick_signed htick haction
          obtain rfl := Option.some.inj hmessage
          exact signPrePrepare_signedBy _ _ _
  | propose =>
      cases hstep with
      | perform _ hperform =>
          rw [Event.actions, performPropose_signed hperform] at haction
          obtain rfl := List.mem_singleton.mp haction
          obtain rfl := Option.some.inj hmessage
          exact signPrePrepare_signedBy _ _ _
  | prepare =>
      obtain rfl := List.mem_singleton.mp haction
      obtain rfl := Option.some.inj hmessage
      exact (signVote_signedBy _ _).1
  | commit =>
      obtain rfl := List.mem_singleton.mp haction
      obtain rfl := Option.some.inj hmessage
      exact (signVote_signedBy _ _).2
  | finalize =>
      obtain rfl := List.mem_singleton.mp haction
      cases hmessage
  | forward =>
      obtain rfl := List.mem_singleton.mp haction
      obtain rfl := Option.some.inj hmessage
      rintro _ ⟨⟩

/-- In a run with any messages, everything that has been sent is signed with the key of the
replica. -/
theorem FreeRun.signedBy (hrun : FreeRun config history replica) {message : ToReplica crypto}
    (hsent : message ∈ sentMessages history) :
    SignedBy (crypto.replicaSecretKey config.id) message := by
  induction hrun with
  | start => simp [sentMessages] at hsent
  | @step before current event next hprev hstep ih =>
      rcases mem_sentMessages_concat.mp hsent with hold | ⟨action, haction, hmessage⟩
      · exact ih hold
      · rw [← (FreeRun.sound hprev).secretKey]
        exact hstep.signedBy haction hmessage

open ToReplica in
/-- Whatever a replica is shown, no write of what it sends fails, and another replica is
delivered what is written to it, up to the first message that does not fit into the buffer. -/
theorem sends_encodable (wire : SigWire crypto)
    (hsigns : ∀ bytes secretKey, wire.form (crypto.signBytes bytes secretKey) ≠ .uninitialized)
    (hrun : FreeRun config history replica) (messages : List (ToReplica crypto))
    (hsent : ∀ message ∈ messages, message ∈ sentMessages history) :
    ∃ items, write (format wire) messages = .ok items ∧
      (wire.Inverts → (∀ message ∈ messages, message.Representable) → ∀ cuts,
        readTask (format wire).codec (writeTask [] items) cuts =
          (messages.takeWhile fun message =>
            decide (((format wire).bytes message).length ≤ bufferLen), .closed)) := by
  have hencode : ∀ message ∈ messages, ∃ bytes, message.encode wire = .ok bytes := by
    intro message hmem
    refine encode_ok.mpr ?_
    rintro ⟨sig, hsig, hform⟩
    obtain ⟨bytes, rfl⟩ := FreeRun.signedBy hrun (hsent message hmem) sig hsig
    exact hsigns _ _ hform
  obtain ⟨items, hitems⟩ : ∃ items, write (format wire) messages = .ok items := write_ok hencode
  refine ⟨items, hitems, fun hinverts hmessages cuts => ?_⟩
  exact readTask_write (format_inverts hinverts) (format_yields wire) hmessages hitems cuts

open ToReplica in
/-- A primary that proposes a request, and sends it again. -/
theorem sends_encodable_proposal :
    ∃ history : List (Event plainCrypto), (sentMessages history).length = 2 ∧
      ∃ items, write (format plainWire) (sentMessages history) = .ok items := by
  have hreplay : ∃ run, ((Group.four ∅).initial plainCrypto 0).replay
      [.request (Group.ping 0), .tick, .tick] = .ok run ∧ (sentMessages run.1).length = 2 := by
    refine ⟨_, rfl, ?_⟩
    decide +kernel
  obtain ⟨⟨history, replica⟩, hreplay, hlength⟩ := hreplay
  have hrun := replay_run (Group.new_initial (by decide)) hreplay
  obtain ⟨items, hitems, -⟩ := sends_encodable plainWire (fun _ _ => by rintro ⟨⟩) hrun
    (sentMessages history) fun _ hmem => hmem
  exact ⟨history, hlength, items, hitems⟩

end Replica

end BftKit.Pbft
