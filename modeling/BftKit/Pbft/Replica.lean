import BftKit.Foundation.Result
import BftKit.Pbft.Core

/-! # The PBFT replica

Signing, vote counting and the action queue around the core. A call runs until
the queue of core actions is empty. The source performs the actions in batches
and collects new ones for the next batch; with actions only ever added behind,
that is one first-in first-out queue, and the machine below performs one action
of it at a time.
-/

namespace BftKit.Pbft

open Foundation

variable {crypto : Crypto}

structure PrePrepare (crypto : Crypto) where
  viewNum : Nat
  blockNum : Nat
  digest : Digest
  sig : crypto.Sig

/-- Shared by Prepare and Commit. -/
structure Vote (crypto : Crypto) where
  viewNum : Nat
  blockNum : Nat
  digest : Digest
  replicaId : Nat
  sig : crypto.Sig

instance : UpdateHash (PrePrepare crypto) where
  updateHash prePrepare :=
    leBytes 4 prePrepare.viewNum ++ leBytes 4 prePrepare.blockNum ++ prePrepare.digest.bytes

instance : UpdateHash (Vote crypto) where
  updateHash vote :=
    leBytes 4 vote.viewNum ++ leBytes 4 vote.blockNum ++ vote.digest.bytes ++
      leBytes 2 vote.replicaId

inductive ToReplica (crypto : Crypto) where
  | request (command : Command)
  | prePrepare (prePrepare : PrePrepare crypto) (commands : List Command)
  | prepare (vote : Vote crypto)
  | commit (vote : Vote crypto)

namespace ToReplica

def prePrepare? : ToReplica crypto → Option (PrePrepare crypto)
  | .prePrepare sent _ => some sent
  | .request _ | .prepare _ | .commit _ => none

/-- The vote of a message, whatever it is wrapped as. -/
def vote? : ToReplica crypto → Option (Vote crypto)
  | .prepare vote | .commit vote => some vote
  | .request _ | .prePrepare _ _ => none

end ToReplica

abbrev Action (crypto : Crypto) := ReplicaAction (ToReplica crypto)

structure BlockScratch (crypto : Crypto) where
  prepareVotes : List (Vote crypto)
  prepareQuorum : Quorum crypto.Sig
  commitVotes : List (Vote crypto)
  commitQuorum : Quorum crypto.Sig

instance : Inhabited (BlockScratch crypto) := ⟨⟨[], ∅, [], ∅⟩⟩

structure Replica (crypto : Crypto) where
  core : ReplicaCore crypto
  coreActions : ReplicaCoreActions crypto
  cryptoConfig : ReplicaConfig crypto
  blockScratches : Std.ExtTreeMap Nat (BlockScratch crypto)
  tickedScratchNum : Nat

/-- `len() as ReplicaId + 1`. A quorum has one vote of each public key at most, so the cast
keeps its size; the sum is one of 16 bits. -/
def withPrimary (prepareQuorum : Quorum crypto.Sig) : Except Panic Nat :=
  if prepareQuorum.size + 1 < 2 ^ 16 then .ok (prepareQuorum.size + 1) else .error .overflow

def checkPrepareQuorum (blockNum : Nat) (scratch : BlockScratch crypto)
    (core : ReplicaCore crypto) :
    Except Panic (BlockScratch crypto × ReplicaCore crypto × ReplicaCoreActions crypto) := do
  let count ← withPrimary scratch.prepareQuorum
  let quorumSize ← core.config.spec.quorumSize
  -- if prepare quorum is not empty, PrePrepare must present
  if quorumSize ≤ count then
    let (core, actions) ← core.handle (.prepareQuorum blockNum scratch.prepareQuorum)
    .ok ({ scratch with prepareQuorum := ∅ }, core, actions)
  else .ok (scratch, core, [])

def checkCommitQuorum (blockNum : Nat) (scratch : BlockScratch crypto)
    (core : ReplicaCore crypto) :
    Except Panic (BlockScratch crypto × ReplicaCore crypto × ReplicaCoreActions crypto) := do
  if core.isPrepared blockNum then
    let quorumSize ← core.config.spec.quorumSize
    if quorumSize ≤ scratch.commitQuorum.size then
      let (core, actions) ← core.handle (.commitQuorum blockNum scratch.commitQuorum)
      .ok ({ scratch with commitQuorum := ∅ }, core, actions)
    else .ok (scratch, core, [])
  else .ok (scratch, core, [])

namespace Replica

def new (crypto : Crypto) (coreConfig : ReplicaCoreConfig) : Except Panic (Replica crypto) := do
  let cryptoConfig ← ReplicaConfig.new crypto coreConfig.id coreConfig.spec.numReplica
  .ok {
    core := .new coreConfig
    coreActions := []
    cryptoConfig
    blockScratches := ∅
    tickedScratchNum := 0 }

/-- A vote of this replica in its current view. The signature does not cover
itself. -/
def signVote (replica : Replica crypto) (blockNum : Nat) (digest : Digest) : Vote crypto :=
  let vote : Vote crypto := {
    viewNum := replica.core.viewNum
    blockNum, digest
    replicaId := replica.core.config.id
    sig := crypto.uninitialized }
  { vote with sig := crypto.sign vote replica.cryptoConfig.secretKey }

def signPrePrepare (replica : Replica crypto) (blockNum : Nat) (digest : Digest) :
    PrePrepare crypto :=
  let prePrepare : PrePrepare crypto := {
    viewNum := replica.core.viewNum
    blockNum, digest
    sig := crypto.uninitialized }
  { prePrepare with sig := crypto.sign prePrepare replica.cryptoConfig.secretKey }

/-- `verify(.., &public_keys[id as usize], ..)`. -/
def verify {Value : Type} [UpdateHash Value] (replica : Replica crypto) (message : Value)
    (id : Nat) (sig : crypto.Sig) : Except Panic Bool :=
  match replica.cryptoConfig.publicKeys[id]? with
  | none => .error .publicKeyIndex
  | some publicKey => .ok (crypto.verify message publicKey sig)

def handle (replica : Replica crypto) (event : ReplicaCoreEvent crypto) :
    Except Panic (Replica crypto) := do
  let (core, actions) ← replica.core.handle event
  .ok { replica with core, coreActions := replica.coreActions ++ actions }

def receivePrePrepare (replica : Replica crypto) (prePrepare : PrePrepare crypto)
    (commands : List Command) : Except Panic (Replica crypto × List (Action crypto)) :=
  if prePrepare.viewNum ≠ replica.core.viewNum then .ok (replica, [])
  else
    match replica.core.blocks[prePrepare.blockNum]? with
    | some block =>
        if block.digest = prePrepare.digest then
          -- (re)send whatever we have to best effort progress the primary
          let vote := replica.signVote prePrepare.blockNum prePrepare.digest
          let primary := replica.core.config.spec.primary replica.core.viewNum
          .ok (replica, .sendToReplica primary (.prepare vote) ::
            if block.prepareQuorum.isSome then [.sendToReplica primary (.commit vote)] else [])
        else .ok (replica, [])
    | none => do
        let verified ← replica.verify prePrepare
          (replica.core.config.spec.primary prePrepare.viewNum) prePrepare.sig
        let digest := blockDigest crypto commands
        if !verified || prePrepare.digest ≠ digest then .ok (replica, [])
        else
          let block : Block crypto := {
            commands, digest
            prePrepare := (prePrepare.viewNum, prePrepare.sig)
            prepareQuorum := none
            commitQuorum := none }
          let replica ← replica.handle (.proposal prePrepare.blockNum block)
          .ok (replica, [])

def receivePrepare (replica : Replica crypto) (prepare : Vote crypto) :
    Except Panic (Replica crypto) :=
  if prepare.viewNum ≠ replica.core.viewNum || replica.core.isPrepared prepare.blockNum then
    .ok replica
  else do
    if ← replica.verify prepare prepare.replicaId prepare.sig then
      let scratch := replica.blockScratches.getD prepare.blockNum default
      match replica.core.blocks[prepare.blockNum]? with
      | some block =>
          if prepare.digest ≠ block.digest then
            -- the entry is created before the digests are compared
            .ok { replica with
              blockScratches := replica.blockScratches.insert prepare.blockNum scratch }
          else
            let scratch := { scratch with
              prepareQuorum := scratch.prepareQuorum.insert prepare.replicaId prepare.sig }
            let (scratch, core, actions) ←
              checkPrepareQuorum prepare.blockNum scratch replica.core
            .ok { replica with
              core
              coreActions := replica.coreActions ++ actions
              blockScratches := replica.blockScratches.insert prepare.blockNum scratch }
      | none =>
          let scratch := { scratch with prepareVotes := scratch.prepareVotes ++ [prepare] }
          .ok { replica with
            blockScratches := replica.blockScratches.insert prepare.blockNum scratch }
    else .ok replica

def receiveCommit (replica : Replica crypto) (commit : Vote crypto) :
    Except Panic (Replica crypto) :=
  if commit.viewNum ≠ replica.core.viewNum || replica.core.isCommitted commit.blockNum then
    .ok replica
  else do
    if ← replica.verify commit commit.replicaId commit.sig then
      let scratch := replica.blockScratches.getD commit.blockNum default
      match replica.core.blocks[commit.blockNum]? with
      | some block =>
          if commit.digest ≠ block.digest then
            .ok { replica with
              blockScratches := replica.blockScratches.insert commit.blockNum scratch }
          else
            let scratch := { scratch with
              commitQuorum := scratch.commitQuorum.insert commit.replicaId commit.sig }
            let (scratch, core, actions) ←
              checkCommitQuorum commit.blockNum scratch replica.core
            .ok { replica with
              core
              coreActions := replica.coreActions ++ actions
              blockScratches := replica.blockScratches.insert commit.blockNum scratch }
      | none =>
          let scratch := { scratch with commitVotes := scratch.commitVotes ++ [commit] }
          .ok { replica with
            blockScratches := replica.blockScratches.insert commit.blockNum scratch }
    else .ok replica

/-- The part of `receive` before its loop over the core actions. -/
def receiveMessage (replica : Replica crypto) :
    ToReplica crypto → Except Panic (Replica crypto × List (Action crypto))
  | .request command => do
      let replica ← replica.handle (.request command)
      .ok (replica, [])
  | .prePrepare prePrepare commands => replica.receivePrePrepare prePrepare commands
  | .prepare vote => do
      let replica ← replica.receivePrepare vote
      .ok (replica, [])
  | .commit vote => do
      let replica ← replica.receiveCommit vote
      .ok (replica, [])

/-- The votes of a digest, as entries of a quorum. -/
def matchingVotes (digest : Digest) (votes : List (Vote crypto)) :
    List (Nat × crypto.Sig) :=
  votes.filterMap fun vote => if vote.digest = digest then some (vote.replicaId, vote.sig) else none

def performPropose (replica : Replica crypto) (blockNum : Nat) (commands : List Command) :
    Except Panic (Replica crypto × List (Action crypto)) := do
  let digest := blockDigest crypto commands
  let prePrepare := replica.signPrePrepare blockNum digest
  let block : Block crypto := {
    commands, digest
    prePrepare := (prePrepare.viewNum, prePrepare.sig)
    prepareQuorum := none
    commitQuorum := none }
  let replica ← replica.handle (.proposal blockNum block)
  .ok (replica, [.sendToAllReplicas (.prePrepare prePrepare commands)])

def performPrepare (replica : Replica crypto) (blockNum : Nat) (digest : Digest) :
    Except Panic (Replica crypto × List (Action crypto)) := do
  let scratch := replica.blockScratches.getD blockNum default
  let prepare := replica.signVote blockNum digest
  let prepareQuorum := Map.extend scratch.prepareQuorum (matchingVotes digest scratch.prepareVotes)
  let scratch : BlockScratch crypto := {
    prepareVotes := []
    prepareQuorum := prepareQuorum.insert prepare.replicaId prepare.sig
    commitVotes := []
    commitQuorum := Map.extend scratch.commitQuorum (matchingVotes digest scratch.commitVotes) }
  let (scratch, core, actions) ← checkPrepareQuorum blockNum scratch replica.core
  .ok ({ replica with
    core
    coreActions := replica.coreActions ++ actions
    blockScratches := replica.blockScratches.insert blockNum scratch },
    [.sendToAllReplicas (.prepare prepare)])

def performCommit (replica : Replica crypto) (blockNum : Nat) :
    Except Panic (Replica crypto × List (Action crypto)) :=
  match replica.blockScratches[blockNum]?, replica.core.blocks[blockNum]? with
  | none, _ => .error .unwrap
  | some _, none => .error .index
  | some scratch, some block => do
      let commit := replica.signVote blockNum block.digest
      let scratch := { scratch with
        commitQuorum := scratch.commitQuorum.insert commit.replicaId commit.sig }
      let (scratch, core, actions) ← checkCommitQuorum blockNum scratch replica.core
      .ok ({ replica with
        core
        coreActions := replica.coreActions ++ actions
        blockScratches := replica.blockScratches.insert blockNum scratch },
        [.sendToAllReplicas (.commit commit)])

def performFinalize (replica : Replica crypto) (blockNum : Nat) :
    Except Panic (Replica crypto × List (Action crypto)) :=
  if blockNum ∉ replica.blockScratches then .error .assert
  else
    match replica.core.blocks[blockNum]? with
    | none => .error .index
    | some block =>
        .ok ({ replica with blockScratches := replica.blockScratches.erase blockNum },
          [.finalize block.commands])

/-- One core action, as the loop of `receive` performs it. -/
def perform (replica : Replica crypto) :
    ReplicaCoreAction crypto → Except Panic (Replica crypto × List (Action crypto))
  | .propose blockNum commands => replica.performPropose blockNum commands
  | .prepare blockNum digest => replica.performPrepare blockNum digest
  | .commit blockNum => replica.performCommit blockNum
  | .finalize blockNum => replica.performFinalize blockNum
  | .forward replicaId command => .ok (replica, [.sendToReplica replicaId (.request command)])
  | .viewChange _ _ => .error (.todo .viewChange)
  | .newView _ _ _ => .error (.todo .newView)
  | .enterView => .ok ({ replica with blockScratches := ∅ }, [])

/-- One iteration of the loop of `tick`. -/
def resendPrePrepare (replica : Replica crypto) (blockNum : Nat) :
    Except Panic (List (Action crypto)) :=
  if replica.core.isCommitted blockNum then .ok []
  else
    match replica.core.blocks[blockNum]? with
    | none => .error .index
    | some block =>
        let prePrepare := replica.signPrePrepare blockNum block.digest
        .ok [.sendToAllReplicas (.prePrepare prePrepare block.commands)]

def tick (replica : Replica crypto) : Except Panic (Replica crypto × List (Action crypto)) :=
  let ticked2ScratchNum := replica.tickedScratchNum
  let replica := { replica with tickedScratchNum := replica.core.proposeNum }
  if !replica.core.isPrimary then .ok (replica, [])
  else do
    let first := replica.core.finalizeNum + 1
    let resent ← (List.range' first (ticked2ScratchNum + 1 - first)).mapM replica.resendPrePrepare
    .ok (replica, resent.flatten)

/-! ## The replica as a state machine -/

/-- The calls a replica accepts between two iterations of its loop. -/
inductive Call (crypto : Crypto) where
  | request (command : Command)
  | receive (message : ToReplica crypto)
  | tick

def call (replica : Replica crypto) :
    Call crypto → Except Panic (Replica crypto × List (Action crypto))
  | .request command => replica.receiveMessage (.request command)
  | .receive message => replica.receiveMessage message
  | .tick => replica.tick

/-- A call or the performance of a core action, with what it asks the environment. -/
inductive Event (crypto : Crypto) where
  | call (call : Call crypto) (actions : List (Action crypto))
  | perform (action : ReplicaCoreAction crypto) (actions : List (Action crypto))

/-- One iteration: perform the first queued action, or accept a call when there
is none. A panic has no successor. -/
inductive Step (replica : Replica crypto) : Event crypto → Replica crypto → Prop
  | call {call next actions} (hidle : replica.coreActions = [])
      (hcall : replica.call call = .ok (next, actions)) :
      Step replica (.call call actions) next
  | perform {action rest next actions} (hqueue : replica.coreActions = action :: rest)
      (hperform : perform { replica with coreActions := rest } action = .ok (next, actions)) :
      Step replica (.perform action actions) next

/-- The loop of `receive` as a function, for at most the given number of actions. -/
def drain : Nat → Replica crypto →
    Except Panic (Replica crypto × List (Event crypto))
  | 0, replica => .ok (replica, [])
  | fuel + 1, replica =>
      match replica.coreActions with
      | [] => .ok (replica, [])
      | action :: rest => do
          let (replica, actions) ← perform { replica with coreActions := rest } action
          let (replica, events) ← drain fuel replica
          .ok (replica, .perform action actions :: events)

/-- Iterations of the loop, one after another. -/
inductive Drained : Replica crypto → List (Event crypto) → Replica crypto → Prop
  | nil {replica} : Drained replica [] replica
  | cons {replica action rest next actions events final}
      (hqueue : replica.coreActions = action :: rest)
      (hperform : perform { replica with coreActions := rest } action = .ok (next, actions))
      (h : Drained next events final) : Drained replica (.perform action actions :: events) final

theorem drain_drained {fuel : Nat} {replica final : Replica crypto} {events : List (Event crypto)}
    (hdrain : replica.drain fuel = .ok (final, events)) : Drained replica events final := by
  induction fuel generalizing replica events with
  | zero =>
      obtain ⟨rfl, rfl⟩ := Prod.mk.inj (Except.ok.inj hdrain)
      exact .nil
  | succ fuel ih =>
      unfold drain at hdrain
      cases hqueue : replica.coreActions with
      | nil =>
          rw [hqueue] at hdrain
          obtain ⟨rfl, rfl⟩ := Prod.mk.inj (Except.ok.inj hdrain)
          exact .nil
      | cons action rest =>
          simp only [hqueue, bind_eq_ok] at hdrain
          obtain ⟨⟨next, actions⟩, hperform, ⟨final', events'⟩, hrest, heq⟩ := hdrain
          obtain ⟨rfl, rfl⟩ := Prod.mk.inj (Except.ok.inj heq)
          exact .cons hqueue hperform (ih hrest)

end Replica

end BftKit.Pbft
