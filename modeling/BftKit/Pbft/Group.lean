import BftKit.Pbft.Evidence

/-! # Groups of replicas

Honest replicas of one group take steps in any interleaving. Everything else (the
network, the faulty replicas, the clients) is the choice of the messages that are
delivered: any message may be, at any time and any number of times, as long as
what verifies under the key of an honest replica has been signed by it.
-/

namespace BftKit.Pbft

open Foundation

variable {crypto : Crypto}

structure Group where
  spec : Spec
  maxNumInflight : Nat → Nat
  maxBatchSize : Nat → Nat
  faulty : Finset Nat

namespace Group

def config (group : Group) (id : Nat) : ReplicaCoreConfig where
  spec := group.spec
  id
  maxNumInflight := group.maxNumInflight id
  maxBatchSize := group.maxBatchSize id

def Honest (group : Group) (id : Nat) : Prop := id < group.spec.numReplica ∧ id ∉ group.faulty

instance (group : Group) (id : Nat) : Decidable (group.Honest id) :=
  inferInstanceAs (Decidable (_ ∧ _))

variable {group : Group}

/-- The events of a group, with the replica each belongs to. -/
abbrev History (crypto : Crypto) := List (Nat × Replica.Event crypto)

/-- Signatures are unforgeable: what verifies under the key of an honest replica
has been signed by it. -/
structure Authentic (group : Group) (history : History crypto) (message : ToReplica crypto) :
    Prop where
  prePrepare : ∀ prePrepare ∈ message.prePrepare?, ∀ id < group.spec.numReplica,
    id ∉ group.faulty →
    crypto.verify prePrepare (crypto.publicKey (crypto.replicaSecretKey id)) prePrepare.sig = true →
    SignedPrePrepare (view id history) prePrepare
  vote : ∀ vote ∈ message.vote?, ∀ id < group.spec.numReplica, id ∉ group.faulty →
    crypto.verify vote (crypto.publicKey (crypto.replicaSecretKey id)) vote.sig = true →
    SignedVote (view id history) vote

instance (group : Group) (history : History crypto) (message : ToReplica crypto) :
    Decidable (group.Authentic history message) :=
  decidable_of_iff (_ ∧ _) ⟨fun h => ⟨h.1, h.2⟩, fun h => ⟨h.1, h.2⟩⟩

/-- One honest replica steps. -/
structure Step (group : Group) (who : Nat) (history : History crypto) (replica : Replica crypto)
    (event : Replica.Event crypto) (next : Replica crypto) : Prop where
  honest : group.Honest who
  step : Replica.Step replica event next
  authentic : ∀ message actions, event = .call (.receive message) actions →
    group.Authentic history message

/-- The honest replicas are new. -/
def Start (group : Group) (who : Nat) (replica : Replica crypto) : Prop :=
  group.Honest who → Replica.new crypto (group.config who) = .ok replica

/-- The runs of a group. -/
abbrev GroupRun (group : Group) : History crypto → (Nat → Replica crypto) → Prop :=
  Run (fun states => ∀ who, group.Start who (states who)) (interleave group.Step)

variable {history : History crypto} {states : Nat → Replica crypto} {who : Nat}

/-- Each honest replica sees a run of its own. -/
theorem GroupRun.localRun (hrun : GroupRun group history states) (hhonest : group.Honest who) :
    LocalRun (group.config who) (view who history) (states who) := by
  have hstep : ∀ (history : History crypto) replica event next,
      Step group who history replica event next → Replica.Step replica event next ∧
        Unforged (group.config who) (view who history) event := by
    intro history replica event next hstep
    refine ⟨hstep.step, ?_⟩
    rintro prePrepare commands actions rfl hverified
    exact (hstep.authentic _ _ rfl).prePrepare _ rfl who hhonest.1 hhonest.2 hverified
  exact (Run.view hstep hrun).mono (fun _ hstart => hstart hhonest) fun _ _ _ _ h => h

theorem GroupRun.accountable (hrun : GroupRun group history states)
    (hhonest : group.Honest who) :
    Replica.Accountable (group.config who) (view who history) (states who) :=
  .of_run (hrun.localRun hhonest)

/-! ## Signed messages as sources -/

/-- A vote that counts names a replica of the group, which has signed it if honest. -/
def Vouched (group : Group) (history : History crypto) (vote : Vote crypto) : Prop :=
  vote.replicaId < group.spec.numReplica ∧
    (group.Honest vote.replicaId → SignedVote (view vote.replicaId history) vote)

/-- The messages that honest replicas act on. -/
def sources (group : Group) (history : History crypto) : Replica.Sources crypto where
  prePrepare prePrepare := group.Honest (group.spec.primary 0) →
    SignedPrePrepare (view (group.spec.primary 0) history) prePrepare
  early := group.Vouched history
  prepare := group.Vouched history
  commit := group.Vouched history

theorem sentMessages_append (first second : List (Replica.Event crypto)) :
    sentMessages (first ++ second) = sentMessages first ++ sentMessages second :=
  List.flatMap_append

theorem signedPrePrepare_append {first second : List (Replica.Event crypto)}
    {prePrepare : PrePrepare crypto} (hsigned : SignedPrePrepare first prePrepare) :
    SignedPrePrepare (first ++ second) prePrepare := by
  obtain ⟨sent, hsent, hrest⟩ := hsigned
  refine ⟨sent, ?_, hrest⟩
  rw [sentMessages_append, List.filterMap_append]
  exact List.mem_append_left _ hsent

theorem signedVote_append {first second : List (Replica.Event crypto)} {vote : Vote crypto}
    (hsigned : SignedVote first vote) : SignedVote (first ++ second) vote := by
  obtain ⟨sent, hsent, hrest⟩ := hsigned
  refine ⟨sent, ?_, hrest⟩
  rw [sentMessages_append, List.filterMap_append]
  exact List.mem_append_left _ hsent

theorem Vouched.mono {vote : Vote crypto} (h : group.Vouched history vote)
    (entry : Nat × Replica.Event crypto) : group.Vouched (history ++ [entry]) vote := by
  refine ⟨h.1, fun hhonest => ?_⟩
  rw [view_append]
  exact signedVote_append (h.2 hhonest)

theorem sources_sub (entry : Nat × Replica.Event crypto) :
    (group.sources history).Sub (group.sources (history ++ [entry])) where
  prePrepare _ hsource hhonest := by
    rw [view_append]
    exact signedPrePrepare_append (hsource hhonest)
  early _ hvouched := hvouched.mono entry
  prepare _ hvouched := hvouched.mono entry
  commit _ hvouched := hvouched.mono entry

/-- What an honest replica verifies is a source. -/
theorem Step.admitted {replica next : Replica crypto} {event : Replica.Event crypto}
    (hstep : group.Step who history replica event next)
    (haccountable : Replica.Accountable (group.config who) (view who history) replica) :
    Replica.Admitted (group.sources history) replica event := by
  have hvouched : ∀ (message : ToReplica crypto) (vote : Vote crypto),
      event = .call (.receive message) [] → message.vote? = some vote →
      replica.Admits vote vote.viewNum vote.replicaId vote.sig → group.Vouched history vote := by
    intro message vote hevent hvote hadmits
    obtain ⟨hid, hverified⟩ := haccountable.coherent.verified hadmits.verified
    exact ⟨hid, fun hhonest =>
      (hstep.authentic message [] hevent).vote vote hvote _ hhonest.1 hhonest.2 hverified⟩
  constructor
  · intro prePrepare commands hevent hadmits hhonest
    have hverified := (haccountable.coherent.verified hadmits.verified).2
    rw [hadmits.view, haccountable.coherent.view, haccountable.coherent.configured] at hverified
    exact (hstep.authentic _ _ hevent).prePrepare _ rfl _ hhonest.1 hhonest.2 hverified
  · intro vote hevent hadmits
    exact hvouched _ vote hevent rfl hadmits
  · intro vote _ hevent hadmits _ _ _
    exact hvouched _ vote hevent rfl hadmits
  · intro blockNum digest actions _ vote _ hearly _
    exact hearly
  · intro vote hevent hadmits
    exact hvouched _ vote hevent rfl hadmits

/-- In every run whose steps act on messages from growing sources only, the
sources are the evidence for everything honest replicas store. -/
theorem evidence_of_run {sources : History crypto → Replica.Sources crypto}
    {step : Nat → History crypto → Replica crypto → Replica.Event crypto → Replica crypto → Prop}
    (hgrow : ∀ history entry, (sources history).Sub (sources (history ++ [entry])))
    (hgroup : ∀ who history replica event next, step who history replica event next →
      group.Step who history replica event next)
    (hadmitted : ∀ who history replica event next, step who history replica event next →
      Replica.Accountable (group.config who) (view who history) replica →
      Replica.Admitted (sources history) replica event)
    (hrun : Run (fun states => ∀ who, group.Start who (states who)) (interleave step)
      history states) (hhonest : group.Honest who) :
    Replica.Evidence (group.config who) (sources history) (states who).core.blocks
      (states who).blockScratches := by
  induction hrun with
  | start hstart => exact .of_new (hstart who hhonest)
  | @step history states entry next hprev hstep ih =>
      obtain ⟨party, event⟩ := entry
      obtain ⟨target, hstep, rfl⟩ := hstep
      by_cases heq : party = who
      · subst heq
        have hprev' : GroupRun group history states :=
          hprev.mono (fun _ h => h)
            fun _ _ _ _ ⟨target, h, hnext⟩ => ⟨target, hgroup _ _ _ _ _ h, hnext⟩
        have haccountable := hprev'.accountable hhonest
        rw [Function.update_self]
        exact ((ih.step haccountable.coherent (hadmitted _ _ _ _ _ hstep haccountable)
          (hgroup _ _ _ _ _ hstep).step)).mono (hgrow history _)
      · rw [Function.update_of_ne (Ne.symm heq)]
        exact ih.mono (hgrow history _)

theorem GroupRun.evidence (hrun : GroupRun group history states) (hhonest : group.Honest who) :
    Replica.Evidence (group.config who) (group.sources history) (states who).core.blocks
      (states who).blockScratches :=
  evidence_of_run (fun _ entry => sources_sub entry) (fun _ _ _ _ _ h => h)
    (fun _ _ _ _ _ h => h.admitted) hrun hhonest

/-- An honest replica that counts for a block number stores a block of the same digest. -/
theorem GroupRun.backer (hrun : GroupRun group history states) {blockNum id : Nat}
    {block : Block crypto} (hid : group.Honest id)
    (hblock : (states who).core.blocks[blockNum]? = some block)
    (hbacker : Replica.Backer (group.config who) (group.Vouched history) blockNum block.digest id) :
    ∃ stored : Block crypto, (states id).core.blocks[blockNum]? = some stored ∧
      stored.digest = block.digest := by
  rcases hbacker with rfl | ⟨vote, hvouched, rfl, hdigest, rfl⟩
  · exact ⟨block, hblock, rfl⟩
  · rw [← hdigest]
    exact (hrun.accountable hid).signedVote (hvouched.2 hid)

/-- Under an honest primary, honest replicas store what the primary stores. -/
theorem GroupRun.accepted (hrun : GroupRun group history states)
    (hprimary : group.Honest (group.spec.primary 0)) (hhonest : group.Honest who) {blockNum : Nat}
    {block : Block crypto} (hblock : (states who).core.blocks[blockNum]? = some block) :
    ∃ stored : Block crypto,
      (states (group.spec.primary 0)).core.blocks[blockNum]? = some stored ∧
        stored.digest = block.digest := by
  rcases ((hrun.evidence hhonest).certified blockNum block hblock).accepted with
    hself | ⟨prePrepare, hsource, rfl, hdigest⟩
  · have hwho : group.spec.primary 0 = who := hself
    exact ⟨block, hwho ▸ hblock, rfl⟩
  · rw [← hdigest]
    exact (hrun.accountable hprimary).signedPrePrepare (hsource hprimary)

end Group

end BftKit.Pbft
