import Mathlib.Data.List.ProdSigma
import Std.Data.ExtTreeMap
import BftKit.CommandPool
import BftKit.Crypto

/-! # The PBFT replica core

The event-driven half of a replica: it decides what to propose, prepare, commit
and finalize, and leaves signing and vote counting to the replica around it.
-/

namespace BftKit.Pbft

open Foundation

/-- Replicas are counted in the 16 bits of their ids. -/
structure Spec where
  numFaulty : Nat
  numReplica : Nat
  numReplica_lt : numReplica < 2 ^ 16 := by decide

namespace Spec

def primary (spec : Spec) (viewNum : Nat) : Nat := viewNum % spec.numReplica

/-- `num_replica - num_faulty`. -/
def quorumSize (spec : Spec) : Except Panic Nat :=
  if spec.numFaulty ≤ spec.numReplica then .ok (spec.numReplica - spec.numFaulty)
  else .error .underflow

end Spec

structure ReplicaCoreConfig where
  spec : Spec
  id : Nat
  maxNumInflight : Nat
  maxBatchSize : Nat

variable {crypto : Crypto}

structure Block (crypto : Crypto) where
  commands : List Command
  /-- `block_digest(&commands)`, cached. -/
  digest : Digest
  prePrepare : Nat × crypto.Sig
  prepareQuorum : Option (Quorum crypto.Sig)
  commitQuorum : Option (Quorum crypto.Sig)

abbrev Blocks (crypto : Crypto) := Std.ExtTreeMap Nat (Block crypto)

def blockDigest (crypto : Crypto) (commands : List Command) : Digest := crypto.digest commands

inductive ReplicaCoreEvent (crypto : Crypto) where
  | request (command : Command)
  | proposal (blockNum : Nat) (block : Block crypto)
  | prepareQuorum (blockNum : Nat) (quorum : Quorum crypto.Sig)
  | commitQuorum (blockNum : Nat) (quorum : Quorum crypto.Sig)
  | viewExpired
  | viewChangeQuorum (viewNum : Nat) (quorum : Quorum (Blocks crypto))
  | enterView (viewNum : Nat) (quorum : Quorum (Blocks crypto)) (proposals : Blocks crypto)

inductive ReplicaCoreAction (crypto : Crypto) where
  | propose (blockNum : Nat) (commands : List Command)
  | prepare (blockNum : Nat) (digest : Digest)
  | commit (blockNum : Nat)
  | finalize (blockNum : Nat)
  | forward (replicaId : Nat) (command : Command)
  | viewChange (viewNum : Nat) (blocks : Blocks crypto)
  | newView (viewNum : Nat) (quorum : Quorum (Blocks crypto))
      (proposals : Std.ExtTreeMap Nat (List Command))
  | enterView

abbrev ReplicaCoreActions (crypto : Crypto) := List (ReplicaCoreAction crypto)

structure ReplicaCore (crypto : Crypto) where
  config : ReplicaCoreConfig
  viewNum : Nat
  pool : CommandPool
  blocks : Blocks crypto
  proposeNum : Nat
  finalizeNum : Nat

namespace ReplicaCore

def new (config : ReplicaCoreConfig) : ReplicaCore crypto where
  config
  viewNum := 0
  pool := .closeLoop .new
  blocks := ∅
  proposeNum := 0
  finalizeNum := 0

def isPrimaryOf (core : ReplicaCore crypto) (viewNum : Nat) : Bool :=
  core.config.spec.primary viewNum == core.config.id

def isPrimary (core : ReplicaCore crypto) : Bool := core.isPrimaryOf core.viewNum

def canPropose (core : ReplicaCore crypto) : Except Panic Bool :=
  if core.isPrimary then
    if core.finalizeNum ≤ core.proposeNum then
      .ok (core.proposeNum - core.finalizeNum < core.config.maxNumInflight)
    else .error .underflow
  else .ok false

/-- `while self.can_propose()`, for at most the given number of rounds. -/
def proposeLoop : Nat → ReplicaCore crypto →
    Except Panic (ReplicaCore crypto × ReplicaCoreActions crypto)
  | 0, core => .ok (core, [])
  | rounds + 1, core => do
      if ← core.canPropose then
        match ← core.pool.closeBatch core.config.maxBatchSize with
        | (pool, none) => .ok ({ core with pool }, [])
        | (pool, some commands) =>
            let proposeNum := core.proposeNum + 1
            let (core, actions) ← proposeLoop rounds { core with pool, proposeNum }
            .ok (core, .propose proposeNum commands :: actions)
      else .ok (core, [])

/-- Each round uses up one slot of the window, so the window bounds the rounds. -/
def propose (core : ReplicaCore crypto) :
    Except Panic (ReplicaCore crypto × ReplicaCoreActions crypto) :=
  core.proposeLoop (core.config.maxNumInflight + 1)

def isPrepared (core : ReplicaCore crypto) (blockNum : Nat) : Bool :=
  blockNum < core.finalizeNum || core.blocks[blockNum]?.any (·.prepareQuorum.isSome)

/-- The index of `blocks` is guarded by `is_prepared`. -/
def isCommitted (core : ReplicaCore crypto) (blockNum : Nat) : Bool :=
  blockNum < core.finalizeNum ||
    core.isPrepared blockNum && core.blocks[blockNum]?.any (·.commitQuorum.isSome)

/-- The `while` of `CommitQuorum`, for at most the given number of blocks. -/
def finalizeLoop : Nat → ReplicaCore crypto →
    Except Panic (ReplicaCore crypto × ReplicaCoreActions crypto)
  | 0, core => .ok (core, [])
  | rounds + 1, core =>
      match core.blocks[core.finalizeNum + 1]? with
      | none => .ok (core, [])
      | some block =>
          if block.prepareQuorum.isSome && block.commitQuorum.isSome then do
            let finalizeNum := core.finalizeNum + 1
            let pool ← block.commands.foldlM CommandPool.commit core.pool
            let (core, actions) ← finalizeLoop rounds { core with pool, finalizeNum }
            .ok (core, .finalize finalizeNum :: actions)
          else .ok (core, [])

/-- A placeholder in the source too. -/
def viewChangeProposals (_quorum : Quorum (Blocks crypto)) :
    Std.ExtTreeMap Nat (List Command) := ∅

/-- `EnterView`, against the proposals computed from its quorum. The lockstep
walk ends with the shorter of the two maps. -/
def enterView (core : ReplicaCore crypto) (viewNum : Nat)
    (computed : Std.ExtTreeMap Nat (List Command)) (proposals : Blocks crypto) :
    Except Panic (ReplicaCore crypto × ReplicaCoreActions crypto) :=
  if core.isPrimaryOf viewNum then .error .assert
  else if (proposals.toList.zip computed.toList).any (fun (entry, other) =>
      entry.1 ≠ other.1 || entry.2.digest ≠ blockDigest crypto other.2) then
    .ok (core, [])
  else
    match proposals.minKey? with
    | none => .ok ({ core with viewNum }, [.enterView])
    | some minNum =>
        -- `split_off` keeps the smaller block numbers
        let kept := core.blocks.filter fun blockNum _ => blockNum < minNum
        let blocks := proposals.toList.foldl
          (fun blocks entry => blocks.insert entry.1 entry.2) kept
        .ok ({ core with viewNum, blocks },
          .enterView :: proposals.toList.map fun entry => .prepare entry.1 entry.2.digest)

def handle (core : ReplicaCore crypto) :
    ReplicaCoreEvent crypto → Except Panic (ReplicaCore crypto × ReplicaCoreActions crypto)
  | .request command => do
      let (pool, _) ← core.pool.push command
      let core := { core with pool }
      if core.isPrimary then core.propose
      else .ok (core, [.forward (core.config.spec.primary core.viewNum) command])
  | .proposal blockNum block =>
      if blockNum ∈ core.blocks then .ok (core, [])
      else
        let digest := block.digest
        let core := { core with blocks := core.blocks.insert blockNum block }
        .ok (core, if core.isPrimary then [] else [.prepare blockNum digest])
  | .prepareQuorum blockNum prepareQuorum =>
      match core.blocks[blockNum]? with
      | none => .error .unwrap
      | some block =>
          if block.prepareQuorum.isSome then .error .assert
          else
            let block := { block with prepareQuorum := some prepareQuorum }
            .ok ({ core with blocks := core.blocks.insert blockNum block }, [.commit blockNum])
  | .commitQuorum blockNum commitQuorum =>
      match core.blocks[blockNum]? with
      | none => .error .unwrap
      | some block =>
          if block.commitQuorum.isSome then .error .assert
          else do
            let block := { block with commitQuorum := some commitQuorum }
            let core := { core with blocks := core.blocks.insert blockNum block }
            -- the finalized run cannot be longer than the blocks there are
            let (core, finalized) ← core.finalizeLoop core.blocks.size
            let (core, proposed) ← core.propose
            .ok (core, finalized ++ proposed)
  | .viewExpired => .ok (core, [.viewChange (core.viewNum + 1) core.blocks])
  | .viewChangeQuorum viewNum quorum =>
      if core.isPrimaryOf viewNum then
        .ok ({ core with viewNum }, [.newView viewNum quorum (viewChangeProposals quorum)])
      else .ok (core, [])
  | .enterView viewNum quorum proposals =>
      core.enterView viewNum (viewChangeProposals quorum) proposals

end ReplicaCore

end BftKit.Pbft
