import BftKit.CommandPool
import BftKit.Hotstuff.Message

/-! # The HotStuff core

The event-driven state machine without networking and signing. Nodes and quorum
certificates are stored by key; the slabs they are stored in only grow, so a list
holds either, and the next key is its length. Genesis is its own parent and its
own justification.
-/

namespace BftKit.Hotstuff

open Foundation Threshold

variable {scheme : ThresholdScheme}

structure Spec where
  numFaulty : Nat
  numReplica : Nat

structure ReplicaCoreConfig where
  spec : Spec
  id : Nat
  openLoop : Bool
  maxBatchSize : Nat

structure NodeData where
  parent : Nat
  commands : List Command
  justify : Nat
  height : Nat
  height_lt : height < 2 ^ 32 := by decide

structure Node extends NodeData where
  digest : Digest

structure QuorumCert (scheme : ThresholdScheme) where
  node : Nat
  sig : Sig scheme

structure ReplicaCore (scheme : ThresholdScheme) where
  config : ReplicaCoreConfig
  voteHeight : Nat
  blockLock : Nat
  blockExecute : Nat
  blockLeaf : Nat
  quorumCertHigh : Nat
  pool : CommandPool
  nodes : List Node
  nodeIndex : Map Digest Nat
  quorumCerts : List (QuorumCert scheme)
  quorumCertIndex : Map Digest Nat
  numExtraRound : Nat

inductive ReplicaCoreEvent (scheme : ThresholdScheme) where
  | request (command : Command)
  | proposal (blockDigest : Digest) (block : Message.Block scheme)
  /-- A proposal on the proposer itself. -/
  | proposed (blockDigest : Digest) (block : Message.Block scheme)
  | quorumCert (quorumCert : Message.QuorumCert scheme)

inductive ReplicaCoreAction where
  | propose (block : NodeData)
  | vote (block : Nat)
  | finalize (block : Nat)

abbrev ReplicaCoreActions := List ReplicaCoreAction

namespace ReplicaCore

def genesis : Node where
  parent := 0
  commands := []
  justify := 0
  height := 0
  digest := .zero

def new (scheme : ThresholdScheme) (config : ReplicaCoreConfig) : ReplicaCore scheme where
  config
  voteHeight := 0
  blockLock := 0
  blockExecute := 0
  blockLeaf := 0
  quorumCertHigh := 0
  pool := if config.openLoop then .openLoop .new else .closeLoop .new
  nodes := [genesis]
  nodeIndex := Finmap.singleton .zero 0
  quorumCerts := [⟨0, .vec []⟩]
  quorumCertIndex := Finmap.singleton .zero 0
  numExtraRound := 0

def getLeader (_core : ReplicaCore scheme) : Nat := 0

/-- `self.nodes[key]`. -/
def node (core : ReplicaCore scheme) (key : Nat) : Except Panic Node :=
  match core.nodes[key]? with
  | none => .error .index
  | some node => .ok node

/-- `self.quorum_certs[key]`. -/
def quorumCert (core : ReplicaCore scheme) (key : Nat) : Except Panic (QuorumCert scheme) :=
  match core.quorumCerts[key]? with
  | none => .error .index
  | some quorumCert => .ok quorumCert

/-- `self.node_index[digest]`. -/
def nodeKey (core : ReplicaCore scheme) (digest : Digest) : Except Panic Nat :=
  match core.nodeIndex.lookup digest with
  | none => .error .index
  | some key => .ok key

def updateQuorumCertHigh (core : ReplicaCore scheme) (quorumCert : Nat) :
    Except Panic (ReplicaCore scheme) := do
  let cert ← core.quorumCert quorumCert
  let certNode ← core.node cert.node
  let high ← core.quorumCert core.quorumCertHigh
  let highNode ← core.node high.node
  if highNode.height < certNode.height then
    .ok { core with quorumCertHigh := quorumCert, blockLeaf := cert.node }
  else .ok core

def onBeat (core : ReplicaCore scheme) (commands : Option (List Command)) :
    Except Panic (ReplicaCore scheme × ReplicaCoreActions) :=
  if core.config.id = core.getLeader ∧ (commands.isSome ∨ 0 < core.numExtraRound) then do
    let commands := commands.getD []
    let numExtraRound ←
      if commands.isEmpty then
        if core.numExtraRound = 0 then .error .underflow else .ok (core.numExtraRound - 1)
      else .ok 3
    let leaf ← core.node core.blockLeaf
    if hroom : leaf.height + 1 < 2 ^ 32 then
      let block : NodeData := {
        parent := core.blockLeaf
        commands
        justify := core.quorumCertHigh
        height := leaf.height + 1
        height_lt := hroom }
      -- the leaf moves when the block is stored
      .ok ({ core with numExtraRound }, [.propose block])
    else .error .overflow
  else .ok (core, [])

def beat (core : ReplicaCore scheme) : Except Panic (ReplicaCore scheme × ReplicaCoreActions) := do
  let high ← core.quorumCert core.quorumCertHigh
  if high.node = core.blockLeaf then
    let (pool, commands) ← core.pool.closeBatch core.config.maxBatchSize
    onBeat { core with pool } commands
  else .ok (core, [])

/-- `quorum_cert_index.entry(justify.node).or_insert_with(..)`. -/
def ingestJustify (core : ReplicaCore scheme) (justify : Message.QuorumCert scheme) :
    Except Panic (ReplicaCore scheme × Nat) :=
  match core.quorumCertIndex.lookup justify.node with
  | some key => .ok (core, key)
  | none => do
      let node ← core.nodeKey justify.node
      let key := core.quorumCerts.length
      .ok ({ core with
        quorumCerts := core.quorumCerts ++ [⟨node, justify.sig⟩]
        quorumCertIndex := core.quorumCertIndex.insert justify.node key }, key)

def ingest (core : ReplicaCore scheme) (blockDigest : Digest) (block : Message.Block scheme) :
    Except Panic (ReplicaCore scheme × Nat) := do
  let (core, justify) ← core.ingestJustify block.justify
  let parent ← core.nodeKey block.parent
  let key := core.nodes.length
  let node : Node := {
    parent
    commands := block.commands
    justify
    height := block.height
    height_lt := block.height_lt
    digest := blockDigest }
  if (core.nodeIndex.lookup blockDigest).isSome then .error .assert
  else
    .ok ({ core with
      nodes := core.nodes ++ [node]
      nodeIndex := core.nodeIndex.insert blockDigest key }, key)

/-- Whether a node extends another one, for at most the given number of calls. -/
def extendsWithin (core : ReplicaCore scheme) : Nat → Nat → Nat → Except Panic Bool
  | 0, _, _ => .error .recursion
  | fuel + 1, nodeKey, otherNodeKey =>
      if nodeKey = otherNodeKey then .ok true
      else do
        let node ← core.node nodeKey
        let otherNode ← core.node otherNodeKey
        if node.height ≤ otherNode.height then .ok false
        else core.extendsWithin fuel node.parent otherNodeKey

/-- `extends`: parents are stored before their children, so a chain of parents has
at most as many nodes as are stored. -/
def extendsNode (core : ReplicaCore scheme) (nodeKey otherNodeKey : Nat) : Except Panic Bool :=
  core.extendsWithin core.nodes.length nodeKey otherNodeKey

def shouldVote (core : ReplicaCore scheme) (block : Nat) : Except Panic Bool := do
  let node ← core.node block
  if node.height ≤ core.voteHeight then .ok false
  else if ← core.extendsNode block core.blockLock then .ok true
  else
    let justify ← core.quorumCert node.justify
    let justified ← core.node justify.node
    let locked ← core.node core.blockLock
    .ok (locked.height < justified.height)

/-- Executes a node after its ancestors, for at most the given number of calls. -/
def onCommitWithin : Nat → ReplicaCore scheme → Nat →
    Except Panic (ReplicaCore scheme × ReplicaCoreActions)
  | 0, _, _ => .error .recursion
  | fuel + 1, core, block => do
      let executed ← core.node core.blockExecute
      let node ← core.node block
      if executed.height < node.height then
        let (core, actions) ← onCommitWithin fuel core node.parent
        let pool ← node.commands.foldlM CommandPool.commit core.pool
        .ok ({ core with pool }, actions ++ [.finalize block])
      else .ok (core, [])

def onCommit (core : ReplicaCore scheme) (block : Nat) :
    Except Panic (ReplicaCore scheme × ReplicaCoreActions) :=
  onCommitWithin core.nodes.length core block

/-- Locks a node that is higher than the locked one. -/
def updateLock (core : ReplicaCore scheme) (block : Nat) : Except Panic (ReplicaCore scheme) := do
  let node ← core.node block
  let locked ← core.node core.blockLock
  if locked.height < node.height then .ok { core with blockLock := block }
  else .ok core

def update (core : ReplicaCore scheme) (block0 : Nat) :
    Except Panic (ReplicaCore scheme × ReplicaCoreActions) := do
  let node0 ← core.node block0
  let justify0 ← core.quorumCert node0.justify
  let block1 := justify0.node
  let node1 ← core.node block1
  let justify1 ← core.quorumCert node1.justify
  let block2 := justify1.node
  let node2 ← core.node block2
  let justify2 ← core.quorumCert node2.justify
  let block3 := justify2.node
  let core ← core.updateQuorumCertHigh node0.justify
  let core ← core.updateLock block2
  if node1.parent = block2 ∧ node2.parent = block3 then
    let (core, actions) ← core.onCommit block3
    .ok ({ core with blockExecute := block3 }, actions)
  else .ok (core, [])

/-- Stores a block, votes for it if it may be voted for, and updates. -/
def handleProposal (core : ReplicaCore scheme) (blockDigest : Digest)
    (block : Message.Block scheme) : Except Panic (ReplicaCore scheme × ReplicaCoreActions) := do
  let (core, block) ← core.ingest blockDigest block
  let node ← core.node block
  let voting ← core.shouldVote block
  let core := if voting then { core with voteHeight := node.height } else core
  let (core, actions) ← core.update block
  .ok (core, (if voting then [.vote block] else []) ++ actions)

/-- The same on the proposer, which has to vote and moves its leaf to the block. -/
def handleProposed (core : ReplicaCore scheme) (blockDigest : Digest)
    (block : Message.Block scheme) : Except Panic (ReplicaCore scheme × ReplicaCoreActions) := do
  let (core, block) ← core.ingest blockDigest block
  let node ← core.node block
  if ← core.shouldVote block then
    let core := { core with voteHeight := node.height, blockLeaf := block }
    let (core, actions) ← core.update block
    .ok (core, .vote block :: actions)
  else .error .assert

def handleQuorumCert (core : ReplicaCore scheme) (quorumCert : Message.QuorumCert scheme) :
    Except Panic (ReplicaCore scheme) := do
  let node ← core.nodeKey quorumCert.node
  let key := core.quorumCerts.length
  updateQuorumCertHigh
    { core with quorumCerts := core.quorumCerts ++ [⟨node, quorumCert.sig⟩] } key

/-- What an event does before the beat. -/
def react (core : ReplicaCore scheme) :
    ReplicaCoreEvent scheme → Except Panic (ReplicaCore scheme × ReplicaCoreActions)
  | .request command => do
      let (pool, _) ← core.pool.push command
      .ok ({ core with pool }, [])
  | .proposed blockDigest block => core.handleProposed blockDigest block
  | .proposal blockDigest block => core.handleProposal blockDigest block
  | .quorumCert quorumCert => do
      let core ← core.handleQuorumCert quorumCert
      .ok (core, [])

def handle (core : ReplicaCore scheme) (event : ReplicaCoreEvent scheme) :
    Except Panic (ReplicaCore scheme × ReplicaCoreActions) := do
  let (core, actions) ← core.react event
  let (core, beatActions) ← core.beat
  .ok (core, actions ++ beatActions)

end ReplicaCore

end BftKit.Hotstuff
