import BftKit.Pbft.CoreLaws
import BftKit.Pbft.Replica

/-! # What a step of the replica can do

One constructor for each way a call or a performed action can end, guards
included. The states in which the calls and the queued actions do not panic are
`Ready` and `Enabled`; there every outcome is an effect or one of three tolerated
panics. Invariants are derived from the effects, never from the functions.
-/

namespace BftKit.Pbft

open Foundation

variable {crypto : Crypto}

namespace Replica

/-- The scratch that `entry(..).or_default()` finds or creates. -/
def scratchAt (replica : Replica crypto) (blockNum : Nat) : BlockScratch crypto :=
  replica.blockScratches.getD blockNum default

/-- What keeps the calls of a replica from panicking. -/
structure Ready (log : List Command) (replica : Replica crypto) : Prop where
  pool : replica.core.pool.Issued log
  closeLoop : replica.core.pool.IsCloseLoop
  keys : replica.cryptoConfig.publicKeys.length = replica.core.config.spec.numReplica
  replicas : 0 < replica.core.config.spec.numReplica
  window : replica.core.isPrimary = true → replica.core.finalizeNum ≤ replica.core.proposeNum
  proposed : replica.core.isPrimary = true →
    ∀ blockNum ∈ replica.core.blocks, blockNum ≤ replica.core.proposeNum
  ticked : replica.core.isPrimary = true →
    ∀ blockNum, 1 ≤ blockNum → blockNum ≤ replica.tickedScratchNum →
      blockNum ∈ replica.core.blocks

/-- What a queued action relies on. -/
def Enabled (replica : Replica crypto) : ReplicaCoreAction crypto → Prop
  | .propose blockNum _ =>
      replica.core.blocks[blockNum]? = none ∧ replica.core.isPrimary = true
  | .prepare blockNum digest => ∃ block, replica.core.blocks[blockNum]? = some block ∧
      block.digest = digest ∧ block.prepareQuorum = none
  | .commit blockNum => blockNum ∈ replica.blockScratches ∧
      ∃ block, replica.core.blocks[blockNum]? = some block ∧
        block.prepareQuorum.isSome ∧ block.commitQuorum = none
  | .finalize blockNum => blockNum ∈ replica.blockScratches ∧
      ∃ block, replica.core.blocks[blockNum]? = some block
  | .forward _ _ => True
  | .viewChange _ _ | .newView _ _ _ | .enterView => False

/-- What a loop does in one go: proposals, finalizations and forwards queue nothing. -/
def Flat : ReplicaCoreAction crypto → Prop
  | .propose _ _ | .finalize _ | .forward _ _ => True
  | .prepare _ _ | .commit _ | .viewChange _ _ | .newView _ _ _ | .enterView => False

/-- A message names the current view and verifies under a replica's key. -/
structure Admits {Value : Type} [UpdateHash Value] (replica : Replica crypto) (message : Value)
    (viewNum id : Nat) (sig : crypto.Sig) : Prop where
  view : viewNum = replica.core.viewNum
  verified : replica.verify message id sig = .ok true

/-- What `check_prepare_quorum` does with the scratch of a block that is not
prepared. -/
inductive PrepareCheck (replica : Replica crypto) (blockNum : Nat) (block : Block crypto)
    (scratch : BlockScratch crypto) : Replica crypto → Prop
  | waiting : PrepareCheck replica blockNum block scratch
      { replica with blockScratches := replica.blockScratches.insert blockNum scratch }
  | prepared (hquorum : replica.core.config.spec.numReplica ≤
        scratch.prepareQuorum.size + 1 + replica.core.config.spec.numFaulty) :
      PrepareCheck replica blockNum block scratch
        { replica with
          core := { replica.core with
            blocks := replica.core.blocks.insert blockNum
              { block with prepareQuorum := some scratch.prepareQuorum } }
          coreActions := replica.coreActions ++ [.commit blockNum]
          blockScratches := replica.blockScratches.insert blockNum
            { scratch with prepareQuorum := ∅ } }

/-- What `check_commit_quorum` does with the scratch of a block that is not
committed. -/
inductive CommitCheck (log : List Command) (replica : Replica crypto) (blockNum : Nat)
    (block : Block crypto) (scratch : BlockScratch crypto) : Replica crypto → Prop
  | waiting : CommitCheck log replica blockNum block scratch
      { replica with blockScratches := replica.blockScratches.insert blockNum scratch }
  | committed {pool count lists} (hprepared : block.prepareQuorum.isSome)
      (hquorum : replica.core.config.spec.numReplica ≤
        scratch.commitQuorum.size + replica.core.config.spec.numFaulty)
      (hissued : pool.Issued (log ++ lists.flatten)) (hclose : pool.IsCloseLoop)
      (hbackup : replica.core.isPrimary = false → lists = [])
      (hrun : ∀ other, replica.core.finalizeNum < other →
        other ≤ replica.core.finalizeNum + count →
        ∃ stored, (replica.core.blocks.insert blockNum
            { block with commitQuorum := some scratch.commitQuorum })[other]? = some stored ∧
          stored.prepareQuorum.isSome ∧ stored.commitQuorum.isSome) :
      CommitCheck log replica blockNum block scratch
        { replica with
          core := { replica.core with
            pool
            blocks := replica.core.blocks.insert blockNum
              { block with commitQuorum := some scratch.commitQuorum }
            finalizeNum := replica.core.finalizeNum + count
            proposeNum := replica.core.proposeNum + lists.length }
          coreActions := replica.coreActions ++
            (finalizeActions crypto replica.core.finalizeNum count ++
              proposeActions crypto replica.core.proposeNum lists)
          blockScratches := replica.blockScratches.insert blockNum
            { scratch with commitQuorum := ∅ } }

/-- The steps of a replica, by what they do. -/
inductive Effect (log : List Command) (replica : Replica crypto) :
    Event crypto → Replica crypto → Prop
  | drop (message : ToReplica crypto) : Effect log replica (.call (.receive message) []) replica
  | request {call command pool lists}
      (hcall : call = .request command ∨ call = .receive (.request command))
      (hissued : pool.Issued (log ++ lists.flatten)) (hclose : pool.IsCloseLoop)
      (hbackup : replica.core.isPrimary = false → lists = []) :
      Effect log replica (.call call [])
        { replica with
          core := { replica.core with
            pool, proposeNum := replica.core.proposeNum + lists.length }
          coreActions := replica.coreActions ++
            if replica.core.isPrimary then proposeActions crypto replica.core.proposeNum lists
            else [.forward (replica.core.config.spec.primary replica.core.viewNum) command] }
  | resend {prePrepare commands block actions}
      (hview : prePrepare.viewNum = replica.core.viewNum)
      (hblock : replica.core.blocks[prePrepare.blockNum]? = some block)
      (hdigest : block.digest = prePrepare.digest)
      (hactions : ∀ action ∈ actions,
        let vote := replica.signVote prePrepare.blockNum prePrepare.digest
        let primary := replica.core.config.spec.primary replica.core.viewNum
        action = .sendToReplica primary (.prepare vote) ∨
          action = .sendToReplica primary (.commit vote)) :
      Effect log replica (.call (.receive (.prePrepare prePrepare commands)) actions) replica
  | accept {prePrepare commands}
      (hadmits : replica.Admits prePrepare prePrepare.viewNum
        (replica.core.config.spec.primary prePrepare.viewNum) prePrepare.sig)
      (hnone : replica.core.blocks[prePrepare.blockNum]? = none)
      (hdigest : prePrepare.digest = blockDigest crypto commands) :
      Effect log replica (.call (.receive (.prePrepare prePrepare commands)) [])
        { replica with
          core := { replica.core with
            blocks := replica.core.blocks.insert prePrepare.blockNum {
              commands
              digest := blockDigest crypto commands
              prePrepare := (prePrepare.viewNum, prePrepare.sig)
              prepareQuorum := none
              commitQuorum := none } }
          coreActions := replica.coreActions ++
            if replica.core.isPrimary then []
            else [.prepare prePrepare.blockNum (blockDigest crypto commands)] }
  | keepPrepare {vote : Vote crypto} {scratch : BlockScratch crypto}
      (hopen : replica.core.isPrepared vote.blockNum = false)
      (hscratch : scratch = replica.scratchAt vote.blockNum ∨
        replica.core.blocks[vote.blockNum]? = none ∧
          replica.Admits vote vote.viewNum vote.replicaId vote.sig ∧
          scratch = { replica.scratchAt vote.blockNum with
            prepareVotes := (replica.scratchAt vote.blockNum).prepareVotes ++ [vote] }) :
      Effect log replica (.call (.receive (.prepare vote)) [])
        { replica with blockScratches := replica.blockScratches.insert vote.blockNum scratch }
  | countPrepare {vote : Vote crypto} {block next}
      (hopen : replica.core.isPrepared vote.blockNum = false)
      (hadmits : replica.Admits vote vote.viewNum vote.replicaId vote.sig)
      (hblock : replica.core.blocks[vote.blockNum]? = some block)
      (hdigest : vote.digest = block.digest)
      (hcheck : PrepareCheck replica vote.blockNum block
        { replica.scratchAt vote.blockNum with
          prepareQuorum :=
            (replica.scratchAt vote.blockNum).prepareQuorum.insert vote.replicaId vote.sig }
        next) :
      Effect log replica (.call (.receive (.prepare vote)) []) next
  | keepCommit {vote : Vote crypto} {scratch : BlockScratch crypto}
      (hopen : replica.core.isCommitted vote.blockNum = false)
      (hscratch : scratch = replica.scratchAt vote.blockNum ∨
        replica.core.blocks[vote.blockNum]? = none ∧
          replica.Admits vote vote.viewNum vote.replicaId vote.sig ∧
          scratch = { replica.scratchAt vote.blockNum with
            commitVotes := (replica.scratchAt vote.blockNum).commitVotes ++ [vote] }) :
      Effect log replica (.call (.receive (.commit vote)) [])
        { replica with blockScratches := replica.blockScratches.insert vote.blockNum scratch }
  | countCommit {vote : Vote crypto} {block next}
      (hopen : replica.core.isCommitted vote.blockNum = false)
      (hadmits : replica.Admits vote vote.viewNum vote.replicaId vote.sig)
      (hblock : replica.core.blocks[vote.blockNum]? = some block)
      (hdigest : vote.digest = block.digest)
      (hcheck : CommitCheck log replica vote.blockNum block
        { replica.scratchAt vote.blockNum with
          commitQuorum :=
            (replica.scratchAt vote.blockNum).commitQuorum.insert vote.replicaId vote.sig }
        next) :
      Effect log replica (.call (.receive (.commit vote)) []) next
  | tick {actions}
      (hactions : ∀ action ∈ actions, replica.core.isPrimary = true ∧
        ∃ blockNum block, replica.core.blocks[blockNum]? = some block ∧
          action = .sendToAllReplicas (.prePrepare
            (replica.signPrePrepare blockNum block.digest) block.commands)) :
      Effect log replica (.call .tick actions)
        { replica with tickedScratchNum := replica.core.proposeNum }
  | propose {blockNum commands rest}
      (hqueue : replica.coreActions = .propose blockNum commands :: rest)
      (hnone : replica.core.blocks[blockNum]? = none)
      (hprimary : replica.core.isPrimary = true) :
      Effect log replica
        (.perform (.propose blockNum commands) [.sendToAllReplicas (.prePrepare
          (replica.signPrePrepare blockNum (blockDigest crypto commands)) commands)])
        { replica with
          core := { replica.core with
            blocks := replica.core.blocks.insert blockNum {
              commands
              digest := blockDigest crypto commands
              prePrepare := (replica.core.viewNum,
                (replica.signPrePrepare blockNum (blockDigest crypto commands)).sig)
              prepareQuorum := none
              commitQuorum := none } }
          coreActions := rest }
  | prepare {blockNum digest rest block next}
      (hqueue : replica.coreActions = .prepare blockNum digest :: rest)
      (hblock : replica.core.blocks[blockNum]? = some block)
      (hdigest : block.digest = digest)
      (hunprepared : block.prepareQuorum = none)
      (hcheck : PrepareCheck { replica with coreActions := rest } blockNum block {
          prepareVotes := []
          prepareQuorum :=
            (Map.extend (replica.scratchAt blockNum).prepareQuorum
              (matchingVotes digest (replica.scratchAt blockNum).prepareVotes)).insert
              replica.core.config.id (replica.signVote blockNum digest).sig
          commitVotes := []
          commitQuorum :=
            Map.extend (replica.scratchAt blockNum).commitQuorum
              (matchingVotes digest (replica.scratchAt blockNum).commitVotes) }
        next) :
      Effect log replica (.perform (.prepare blockNum digest)
        [.sendToAllReplicas (.prepare (replica.signVote blockNum digest))]) next
  | commit {blockNum rest block next}
      (hqueue : replica.coreActions = .commit blockNum :: rest)
      (hblock : replica.core.blocks[blockNum]? = some block)
      (huncommitted : block.commitQuorum = none)
      (hcheck : CommitCheck log { replica with coreActions := rest } blockNum block
        { replica.scratchAt blockNum with
          commitQuorum := (replica.scratchAt blockNum).commitQuorum.insert
            replica.core.config.id (replica.signVote blockNum block.digest).sig }
        next) :
      Effect log replica (.perform (.commit blockNum)
        [.sendToAllReplicas (.commit (replica.signVote blockNum block.digest))]) next
  | finalize {blockNum rest block}
      (hqueue : replica.coreActions = .finalize blockNum :: rest)
      (hblock : replica.core.blocks[blockNum]? = some block) :
      Effect log replica (.perform (.finalize blockNum) [.finalize block.commands])
        { replica with
          coreActions := rest
          blockScratches := replica.blockScratches.erase blockNum }
  | forward {replicaId command rest}
      (hqueue : replica.coreActions = .forward replicaId command :: rest) :
      Effect log replica (.perform (.forward replicaId command)
        [.sendToReplica replicaId (.request command)]) { replica with coreActions := rest }

/-- The Prepares that are counted once a block is prepared: those that came early and match,
and the own one. -/
def mergedPrepares (replica : Replica crypto) (blockNum : Nat) (digest : Digest) :
    Quorum crypto.Sig :=
  (Map.extend (replica.scratchAt blockNum).prepareQuorum
    (matchingVotes digest (replica.scratchAt blockNum).prepareVotes)).insert
    replica.core.config.id (replica.signVote blockNum digest).sig

/-- The Prepares that a call, or else the first queued action, goes on to count. -/
inductive Gathers (replica : Replica crypto) :
    Option (Call crypto) → Quorum crypto.Sig → Prop
  | receive {vote : Vote crypto} (hadmits : replica.Admits vote vote.viewNum vote.replicaId vote.sig) :
      Gathers replica (some (.receive (.prepare vote)))
        ((replica.scratchAt vote.blockNum).prepareQuorum.insert vote.replicaId vote.sig)
  | perform {blockNum digest rest}
      (hqueue : replica.coreActions = .prepare blockNum digest :: rest) :
      Gathers replica none (replica.mergedPrepares blockNum digest)

/-- The panics that a well-formed replica can still run into: a vote whose id has
no public key, a group smaller than its own fault bound, and as many Prepares as
16 bits can count. -/
def Tolerated (replica : Replica crypto) (call : Option (Call crypto)) : Panic → Prop
  | .publicKeyIndex => ∃ vote : Vote crypto,
      replica.core.config.spec.numReplica ≤ vote.replicaId ∧
      (call = some (.receive (.prepare vote)) ∨ call = some (.receive (.commit vote)))
  | .underflow => replica.core.config.spec.numReplica < replica.core.config.spec.numFaulty
  | .overflow => ∃ quorum, replica.Gathers call quorum ∧ 2 ^ 16 ≤ quorum.size + 1
  | _ => False

variable {replica : Replica crypto} {log : List Command}

/-- Without a vote to check, a group within its fault bound tolerates no panic as long as
the Prepares can be counted. -/
theorem not_tolerated
    (hfaulty : replica.core.config.spec.numFaulty ≤ replica.core.config.spec.numReplica)
    (hroom : ∀ quorum, replica.Gathers none quorum → quorum.size + 1 < 2 ^ 16) {panic : Panic} :
    ¬replica.Tolerated none panic := by
  intro htolerated
  cases panic with
  | publicKeyIndex => obtain ⟨_, -, hcall | hcall⟩ := htolerated <;> cases hcall
  | underflow => exact absurd htolerated (not_lt.mpr hfaulty)
  | overflow =>
      obtain ⟨quorum, hgathers, hcrowded⟩ := htolerated
      exact absurd hcrowded (not_le.mpr (hroom quorum hgathers))
  | index | unwrap | assert | batchSize | recursion | todo _ => exact htolerated

theorem verify_ok {Value : Type} [UpdateHash Value] (message : Value) {id : Nat}
    (sig : crypto.Sig) (hid : id < replica.cryptoConfig.publicKeys.length) :
    ∃ verified, replica.verify message id sig = .ok verified := by
  unfold verify
  rw [List.getElem?_eq_getElem hid]
  exact ⟨_, rfl⟩

theorem verify_error {Value : Type} [UpdateHash Value] (message : Value) {id : Nat}
    (sig : crypto.Sig) (hid : replica.cryptoConfig.publicKeys.length ≤ id) :
    replica.verify message id sig = .error .publicKeyIndex := by
  unfold verify
  rw [List.getElem?_eq_none hid]

/-! ## The quorum checks -/

theorem checkPrepareQuorum_check {blockNum : Nat} {block : Block crypto}
    (hblock : replica.core.blocks[blockNum]? = some block) (hnone : block.prepareQuorum = none)
    (scratch : BlockScratch crypto) :
    (∃ scratch' core actions,
      checkPrepareQuorum blockNum scratch replica.core = .ok (scratch', core, actions) ∧
      PrepareCheck replica blockNum block scratch
        { replica with
          core
          coreActions := replica.coreActions ++ actions
          blockScratches := replica.blockScratches.insert blockNum scratch' }) ∨
    checkPrepareQuorum blockNum scratch replica.core = .error .underflow ∧
      replica.core.config.spec.numReplica < replica.core.config.spec.numFaulty ∨
    checkPrepareQuorum blockNum scratch replica.core = .error .overflow ∧
      2 ^ 16 ≤ scratch.prepareQuorum.size + 1 := by
  unfold checkPrepareQuorum withPrimary Spec.quorumSize
  by_cases hroom : scratch.prepareQuorum.size + 1 < 2 ^ 16
  swap
  · right; right
    simp only [hroom, if_false, error_bind]
    exact ⟨trivial, Nat.le_of_not_lt hroom⟩
  simp only [hroom, if_true, ok_bind]
  by_cases hle : replica.core.config.spec.numFaulty ≤ replica.core.config.spec.numReplica
  · left
    simp only [hle, if_true, ok_bind]
    by_cases hquorum : replica.core.config.spec.numReplica - replica.core.config.spec.numFaulty ≤
        scratch.prepareQuorum.size + 1
    · simp only [hquorum, if_true, ReplicaCore.handle_prepareQuorum hblock hnone, ok_bind]
      exact ⟨_, _, _, rfl, .prepared (by omega)⟩
    · simp only [hquorum, if_false]
      refine ⟨_, _, _, rfl, ?_⟩
      rw [List.append_nil]
      exact .waiting
  · right; left
    simp only [hle, if_false, error_bind]
    exact ⟨trivial, Nat.lt_of_not_le hle⟩

/-- A run of stored blocks stays below what was proposed. -/
theorem Ready.run_le (hready : replica.Ready log) {count : Nat}
    (hrun : ∀ other, replica.core.finalizeNum < other →
      other ≤ replica.core.finalizeNum + count → other ∈ replica.core.blocks)
    (hprimary : replica.core.isPrimary = true) :
    replica.core.finalizeNum + count ≤ replica.core.proposeNum := by
  cases count with
  | zero => exact hready.window hprimary
  | succ count => exact hready.proposed hprimary _ (hrun _ (by omega) (le_refl _))

theorem checkCommitQuorum_check (hready : replica.Ready log) {blockNum : Nat}
    {block : Block crypto} (hblock : replica.core.blocks[blockNum]? = some block)
    (hnone : replica.core.isPrepared blockNum = true →
      block.prepareQuorum.isSome ∧ block.commitQuorum = none)
    (scratch : BlockScratch crypto) :
    (∃ scratch' core actions,
      checkCommitQuorum blockNum scratch replica.core = .ok (scratch', core, actions) ∧
      CommitCheck log replica blockNum block scratch
        { replica with
          core
          coreActions := replica.coreActions ++ actions
          blockScratches := replica.blockScratches.insert blockNum scratch' }) ∨
    checkCommitQuorum blockNum scratch replica.core = .error .underflow ∧
      replica.core.config.spec.numReplica < replica.core.config.spec.numFaulty := by
  have hwaiting : CommitCheck log replica blockNum block scratch
      { replica with
        core := replica.core
        coreActions := replica.coreActions ++ []
        blockScratches := replica.blockScratches.insert blockNum scratch } := by
    rw [List.append_nil]
    exact .waiting
  unfold checkCommitQuorum Spec.quorumSize
  by_cases hprepared : replica.core.isPrepared blockNum = true
  · obtain ⟨hsome, hnone⟩ := hnone hprepared
    by_cases hle : replica.core.config.spec.numFaulty ≤ replica.core.config.spec.numReplica
    · left
      simp only [hprepared, hle, if_true, ok_bind]
      by_cases hquorum : replica.core.config.spec.numReplica -
          replica.core.config.spec.numFaulty ≤ scratch.commitQuorum.size
      · obtain ⟨pool, count, lists, hhandle, hissued, hclose, hbackup, hrun⟩ :=
          ReplicaCore.handle_commitQuorum hblock hsome hnone scratch.commitQuorum hready.pool
            hready.closeLoop fun _ => hready.run_le
        simp only [hquorum, if_true, hhandle, ok_bind]
        exact ⟨_, _, _, rfl, .committed hsome (by omega) hissued hclose hbackup hrun⟩
      · simp only [hquorum, if_false]
        exact ⟨_, _, _, rfl, hwaiting⟩
    · right
      simp only [hprepared, hle, if_true, if_false, error_bind]
      exact ⟨trivial, Nat.lt_of_not_le hle⟩
  · left
    simp only [hprepared, Bool.false_eq_true, if_false]
    exact ⟨_, _, _, rfl, hwaiting⟩

/-! ## The calls -/

/-- A result is an effect under its label, or a tolerated panic. -/
def Lawful (log : List Command) (replica : Replica crypto) (call : Option (Call crypto))
    (label : List (Action crypto) → Event crypto) :
    Except Panic (Replica crypto × List (Action crypto)) → Prop
  | .ok (next, actions) => Effect log replica (label actions) next
  | .error panic => replica.Tolerated call panic

theorem request_lawful (hready : replica.Ready log) (command : Command) {call : Call crypto}
    (hcall : call = .request command ∨ call = .receive (.request command)) :
    Lawful log replica (some call) (.call call) (replica.receiveMessage (.request command)) := by
  obtain ⟨pool, lists, hhandle, hissued, hclose, hbackup⟩ :=
    ReplicaCore.handle_request hready.pool hready.closeLoop hready.window command
  simp only [receiveMessage, handle, hhandle, ok_bind]
  exact .request hcall hissued hclose hbackup

theorem receivePrePrepare_lawful (hready : replica.Ready log) (prePrepare : PrePrepare crypto)
    (commands : List Command) (call : Option (Call crypto)) :
    Lawful log replica call (.call (.receive (.prePrepare prePrepare commands)))
      (replica.receivePrePrepare prePrepare commands) := by
  unfold receivePrePrepare
  by_cases hview : prePrepare.viewNum = replica.core.viewNum
  · simp only [hview, ne_eq, not_true_eq_false, if_false]
    cases hblock : replica.core.blocks[prePrepare.blockNum]? with
    | some block =>
        by_cases hdigest : block.digest = prePrepare.digest
        · simp only [hdigest, if_true]
          refine .resend hview hblock hdigest ?_
          intro action hmem
          rcases List.mem_cons.mp hmem with rfl | hrest
          · exact .inl rfl
          · split at hrest
            · exact .inr (List.mem_singleton.mp hrest)
            · cases hrest
        · simp only [hdigest, if_false]
          exact .drop _
    | none =>
        have hid : replica.core.config.spec.primary replica.core.viewNum <
            replica.cryptoConfig.publicKeys.length := by
          rw [hready.keys]
          exact Nat.mod_lt _ hready.replicas
        obtain ⟨verified, hverify⟩ := verify_ok prePrepare prePrepare.sig hid
        simp only [hverify, ok_bind]
        by_cases hgood : verified = true ∧ prePrepare.digest = blockDigest crypto commands
        · obtain ⟨rfl, hdigest⟩ := hgood
          have heffect : Effect log replica _ _ :=
            .accept ⟨hview, by rw [hview]; exact hverify⟩ hblock hdigest
          rw [hview] at heffect
          simp only [hdigest, Bool.not_true, not_true_eq_false, decide_false, Bool.or_self,
            Bool.false_eq_true, if_false, handle, ReplicaCore.handle_proposal hblock, ok_bind]
          exact heffect
        · have hbad : (!verified || decide (prePrepare.digest ≠ blockDigest crypto commands)) =
              true := by
            cases verified <;> simp_all
          simp only [hbad, if_true]
          exact .drop _
  · simp only [hview, ne_eq, not_false_eq_true, if_true]
    exact .drop _

theorem isPrepared_eq_false {core : ReplicaCore crypto} {blockNum : Nat} {block : Block crypto}
    (hopen : core.isPrepared blockNum = false) (hblock : core.blocks[blockNum]? = some block) :
    block.prepareQuorum = none := by
  simpa [ReplicaCore.isPrepared, hblock] using (Bool.or_eq_false_iff.mp hopen).2

theorem isCommitted_eq_false {core : ReplicaCore crypto} {blockNum : Nat} {block : Block crypto}
    (hopen : core.isCommitted blockNum = false) (hblock : core.blocks[blockNum]? = some block)
    (hprepared : core.isPrepared blockNum = true) :
    block.prepareQuorum.isSome ∧ block.commitQuorum = none := by
  obtain ⟨hge, hcommitted⟩ := Bool.or_eq_false_iff.mp hopen
  constructor
  · simpa [ReplicaCore.isPrepared, hblock, hge] using hprepared
  · simpa [hprepared, hblock] using hcommitted

theorem receivePrepare_lawful (hready : replica.Ready log) (vote : Vote crypto) :
    Lawful log replica (some (.receive (.prepare vote))) (.call (.receive (.prepare vote)))
      (replica.receiveMessage (.prepare vote)) := by
  simp only [receiveMessage]
  unfold receivePrepare
  by_cases hskip : (decide (vote.viewNum ≠ replica.core.viewNum) ||
      replica.core.isPrepared vote.blockNum) = true
  · simp only [hskip, if_true, ok_bind]
    exact .drop _
  · simp only [hskip, Bool.false_eq_true, if_false]
    obtain ⟨hview, hopen⟩ := Bool.or_eq_false_iff.mp (Bool.not_eq_true _ ▸ hskip)
    replace hview : vote.viewNum = replica.core.viewNum := by simpa using hview
    by_cases hid : vote.replicaId < replica.cryptoConfig.publicKeys.length
    · obtain ⟨verified, hverify⟩ := verify_ok vote vote.sig hid
      simp only [hverify, ok_bind]
      cases verified with
      | false => exact .drop _
      | true =>
          have hadmits : replica.Admits vote vote.viewNum vote.replicaId vote.sig :=
            ⟨hview, hverify⟩
          simp only [if_true]
          cases hblock : replica.core.blocks[vote.blockNum]? with
          | none =>
              simp only [ok_bind]
              exact .keepPrepare hopen (.inr ⟨hblock, hadmits, rfl⟩)
          | some block =>
              by_cases hdigest : vote.digest = block.digest
              · simp only [hdigest, ne_eq, not_true_eq_false, if_false]
                rcases checkPrepareQuorum_check hblock (isPrepared_eq_false hopen hblock)
                    { replica.scratchAt vote.blockNum with
                      prepareQuorum := (replica.scratchAt vote.blockNum).prepareQuorum.insert
                        vote.replicaId vote.sig } with
                  ⟨scratch, core, actions, hcheck, heffect⟩ | ⟨hcheck, hlt⟩ | ⟨hcheck, hcrowded⟩
                · simp only [scratchAt] at hcheck
                  simp only [hcheck, ok_bind]
                  exact .countPrepare hopen hadmits hblock hdigest heffect
                · simp only [scratchAt] at hcheck
                  simp only [hcheck, error_bind]
                  exact hlt
                · simp only [scratchAt] at hcheck
                  simp only [hcheck, error_bind]
                  exact ⟨_, .receive hadmits, hcrowded⟩
              · simp only [hdigest, ne_eq, not_false_eq_true, if_true, ok_bind]
                exact .keepPrepare hopen (.inl rfl)
    · rw [verify_error vote vote.sig (Nat.le_of_not_lt hid)]
      simp only [error_bind]
      exact ⟨vote, hready.keys ▸ Nat.le_of_not_lt hid, .inl rfl⟩

theorem receiveCommit_lawful (hready : replica.Ready log) (vote : Vote crypto) :
    Lawful log replica (some (.receive (.commit vote))) (.call (.receive (.commit vote)))
      (replica.receiveMessage (.commit vote)) := by
  simp only [receiveMessage]
  unfold receiveCommit
  by_cases hskip : (decide (vote.viewNum ≠ replica.core.viewNum) ||
      replica.core.isCommitted vote.blockNum) = true
  · simp only [hskip, if_true, ok_bind]
    exact .drop _
  · simp only [hskip, Bool.false_eq_true, if_false]
    obtain ⟨hview, hopen⟩ := Bool.or_eq_false_iff.mp (Bool.not_eq_true _ ▸ hskip)
    replace hview : vote.viewNum = replica.core.viewNum := by simpa using hview
    by_cases hid : vote.replicaId < replica.cryptoConfig.publicKeys.length
    · obtain ⟨verified, hverify⟩ := verify_ok vote vote.sig hid
      simp only [hverify, ok_bind]
      cases verified with
      | false => exact .drop _
      | true =>
          have hadmits : replica.Admits vote vote.viewNum vote.replicaId vote.sig :=
            ⟨hview, hverify⟩
          simp only [if_true]
          cases hblock : replica.core.blocks[vote.blockNum]? with
          | none =>
              simp only [ok_bind]
              exact .keepCommit hopen (.inr ⟨hblock, hadmits, rfl⟩)
          | some block =>
              by_cases hdigest : vote.digest = block.digest
              · simp only [hdigest, ne_eq, not_true_eq_false, if_false]
                rcases checkCommitQuorum_check hready hblock (isCommitted_eq_false hopen hblock)
                    { replica.scratchAt vote.blockNum with
                      commitQuorum := (replica.scratchAt vote.blockNum).commitQuorum.insert
                        vote.replicaId vote.sig } with
                  ⟨scratch, core, actions, hcheck, heffect⟩ | ⟨hcheck, hlt⟩
                · simp only [scratchAt] at hcheck
                  simp only [hcheck, ok_bind]
                  exact .countCommit hopen hadmits hblock hdigest heffect
                · simp only [scratchAt] at hcheck
                  simp only [hcheck, error_bind]
                  exact hlt
              · simp only [hdigest, ne_eq, not_false_eq_true, if_true, ok_bind]
                exact .keepCommit hopen (.inl rfl)
    · rw [verify_error vote vote.sig (Nat.le_of_not_lt hid)]
      simp only [error_bind]
      exact ⟨vote, hready.keys ▸ Nat.le_of_not_lt hid, .inr rfl⟩

theorem resendPrePrepare_lawful {blockNum : Nat} (hstored : blockNum ∈ replica.core.blocks) :
    ∃ actions, replica.resendPrePrepare blockNum = .ok actions ∧
      ∀ action ∈ actions, ∃ block, replica.core.blocks[blockNum]? = some block ∧
        action = .sendToAllReplicas (.prePrepare
          (replica.signPrePrepare blockNum block.digest) block.commands) := by
  obtain ⟨block, hblock⟩ :=
    Option.isSome_iff_exists.mp (Std.ExtTreeMap.mem_iff_isSome_getElem?.mp hstored)
  unfold resendPrePrepare
  by_cases hcommitted : replica.core.isCommitted blockNum = true
  · exact ⟨[], by simp [hcommitted], by simp⟩
  · refine ⟨[.sendToAllReplicas (.prePrepare
        (replica.signPrePrepare blockNum block.digest) block.commands)], ?_, ?_⟩
    · simp [hcommitted, hblock]
    · intro action hmem
      exact ⟨block, hblock, List.mem_singleton.mp hmem⟩

theorem tick_lawful (hready : replica.Ready log) (call : Option (Call crypto)) :
    Lawful log replica call (.call .tick) replica.tick := by
  unfold tick
  by_cases hprimary : replica.core.isPrimary = true
  · have hresend : ∀ blockNum ∈ List.range' (replica.core.finalizeNum + 1)
          (replica.tickedScratchNum + 1 - (replica.core.finalizeNum + 1)),
        ∃ actions : List (Action crypto),
          { replica with tickedScratchNum := replica.core.proposeNum }.resendPrePrepare blockNum =
            .ok actions ∧
          ∀ action ∈ actions, ∃ num block, replica.core.blocks[num]? = some block ∧
            action = .sendToAllReplicas (.prePrepare
              (replica.signPrePrepare num block.digest) block.commands) := by
      intro blockNum hmem
      obtain ⟨hge, hlt⟩ := List.mem_range'_1.mp hmem
      obtain ⟨actions, hok, hactions⟩ :=
        @resendPrePrepare_lawful _ { replica with tickedScratchNum := replica.core.proposeNum }
          blockNum (hready.ticked hprimary blockNum (by omega) (by omega))
      refine ⟨actions, hok, fun action haction => ?_⟩
      obtain ⟨block, hblock, heq⟩ := hactions action haction
      exact ⟨blockNum, block, hblock, heq⟩
    obtain ⟨resent, hok, hall⟩ := mapM_ok hresend
    simp only [hprimary, Bool.not_true, Bool.false_eq_true, if_false, hok, ok_bind]
    refine .tick ?_
    intro action haction
    obtain ⟨actions, hmem, hin⟩ := List.mem_flatten.mp haction
    exact ⟨hprimary, hall actions hmem action hin⟩
  · simp only [hprimary, Bool.not_false, if_true]
    exact .tick (by simp)

/-- Every call on a ready replica is an effect or a tolerated panic. -/
theorem call_lawful (hready : replica.Ready log) (call : Call crypto) :
    Lawful log replica (some call) (.call call) (replica.call call) := by
  cases call with
  | request command => exact request_lawful hready command (.inl rfl)
  | receive message =>
      cases message with
      | request command => exact request_lawful hready command (.inr rfl)
      | prePrepare prePrepare commands => exact receivePrePrepare_lawful hready _ _ _
      | prepare vote => exact receivePrepare_lawful hready vote
      | commit vote => exact receiveCommit_lawful hready vote
  | tick => exact tick_lawful hready _

/-! ## The actions -/

/-- Every enabled action at the head of the queue is an effect or a tolerated panic. -/
theorem perform_lawful (hready : replica.Ready log) {action : ReplicaCoreAction crypto}
    {rest : ReplicaCoreActions crypto} (hqueue : replica.coreActions = action :: rest)
    (henabled : replica.Enabled action) :
    Lawful log replica none (.perform action)
      (perform { replica with coreActions := rest } action) := by
  have hready' : Ready log { replica with coreActions := rest } := { hready with }
  cases action with
  | propose blockNum commands =>
      obtain ⟨hnone, hprimary⟩ := henabled
      have hprimary' : ReplicaCore.isPrimary replica.core = true := hprimary
      simp only [perform, performPropose, handle, ReplicaCore.handle_proposal hnone, ok_bind,
        hprimary', if_true, List.append_nil]
      exact .propose hqueue hnone hprimary
  | prepare blockNum digest =>
      obtain ⟨block, hblock, hdigest, hnone⟩ := henabled
      simp only [perform, performPrepare]
      -- the votes that came early and match, and the own one
      rcases @checkPrepareQuorum_check _ { replica with coreActions := rest } _ _ hblock hnone {
          prepareVotes := []
          prepareQuorum :=
            (Map.extend (replica.scratchAt blockNum).prepareQuorum
              (matchingVotes digest (replica.scratchAt blockNum).prepareVotes)).insert
              replica.core.config.id (replica.signVote blockNum digest).sig
          commitVotes := []
          commitQuorum :=
            Map.extend (replica.scratchAt blockNum).commitQuorum
              (matchingVotes digest (replica.scratchAt blockNum).commitVotes) } with
        ⟨scratch, core, actions, hcheck, heffect⟩ | ⟨hcheck, hlt⟩ | ⟨hcheck, hcrowded⟩
      · have heffect' : Effect log replica _ _ :=
          .prepare hqueue hblock hdigest hnone heffect
        erw [hcheck]
        exact heffect'
      · erw [hcheck]
        exact hlt
      · erw [hcheck]
        exact ⟨_, .perform hqueue, hcrowded⟩
  | commit blockNum =>
      obtain ⟨hscratch, block, hblock, hsome, hnone⟩ := henabled
      obtain ⟨scratch, hget⟩ :=
        Option.isSome_iff_exists.mp (Std.ExtTreeMap.mem_iff_isSome_getElem?.mp hscratch)
      have hat : replica.scratchAt blockNum = scratch := by
        rw [scratchAt, Std.ExtTreeMap.getD_eq_getD_getElem?, hget, Option.getD_some]
      simp only [perform, performCommit, hget, hblock]
      rcases @checkCommitQuorum_check _ { replica with coreActions := rest } _ hready' _ _ hblock
          (fun _ => ⟨hsome, hnone⟩) {
            replica.scratchAt blockNum with
            commitQuorum := (replica.scratchAt blockNum).commitQuorum.insert
              replica.core.config.id (replica.signVote blockNum block.digest).sig } with
        ⟨scratch', core, actions, hcheck, heffect⟩ | ⟨hcheck, hlt⟩
      · have heffect' : Effect log replica _ _ := .commit hqueue hblock hnone heffect
        rw [hat] at hcheck
        erw [hcheck]
        exact heffect'
      · rw [hat] at hcheck
        erw [hcheck]
        exact hlt
  | finalize blockNum =>
      obtain ⟨hscratch, block, hblock⟩ := henabled
      simp only [perform, performFinalize, hscratch, not_true_eq_false, if_false, hblock]
      exact .finalize hqueue hblock
  | forward replicaId command => exact .forward hqueue
  | viewChange _ _ => exact absurd henabled id
  | newView _ _ _ => exact absurd henabled id
  | enterView => exact absurd henabled id

theorem Step.effect {event : Event crypto} {next : Replica crypto} (hready : replica.Ready log)
    (henabled : ∀ action rest, replica.coreActions = action :: rest → replica.Enabled action)
    (hstep : Step replica event next) : Effect log replica event next := by
  cases hstep with
  | @call call _ _ hidle hcall =>
      have hlawful := call_lawful hready call
      rwa [hcall] at hlawful
  | perform hqueue hperform =>
      have hlawful := perform_lawful hready hqueue (henabled _ _ hqueue)
      rwa [hperform] at hlawful

/-! ## What no step undoes -/

/-- A block stays where it is, with its commands and the quorums it has. -/
def Keeps (blocks blocks' : Blocks crypto) : Prop :=
  ∀ (blockNum : Nat) (block : Block crypto), blocks[blockNum]? = some block →
    ∃ block' : Block crypto, blocks'[blockNum]? = some block' ∧ block'.commands = block.commands ∧
      block'.digest = block.digest ∧
      (block.prepareQuorum.isSome → block'.prepareQuorum = block.prepareQuorum) ∧
      (block.commitQuorum.isSome → block'.commitQuorum = block.commitQuorum)

theorem Keeps.refl (blocks : Blocks crypto) : Keeps blocks blocks :=
  fun _ block hblock => ⟨block, hblock, rfl, rfl, fun _ => rfl, fun _ => rfl⟩

theorem Keeps.trans {blocks blocks' blocks'' : Blocks crypto} (h : Keeps blocks blocks')
    (h' : Keeps blocks' blocks'') : Keeps blocks blocks'' := by
  intro blockNum block hblock
  obtain ⟨block', hblock', hcommands, hdigest, hprepare, hcommit⟩ := h blockNum block hblock
  obtain ⟨block'', hblock'', hcommands', hdigest', hprepare', hcommit'⟩ := h' blockNum block' hblock'
  refine ⟨block'', hblock'', hcommands'.trans hcommands, hdigest'.trans hdigest, ?_, ?_⟩
  · intro hsome
    exact (hprepare' (hprepare hsome ▸ hsome)).trans (hprepare hsome)
  · intro hsome
    exact (hcommit' (hcommit hsome ▸ hsome)).trans (hcommit hsome)

theorem Keeps.insert_new {blocks : Blocks crypto} {blockNum : Nat}
    (hnone : blocks[blockNum]? = none) (block : Block crypto) :
    Keeps blocks (blocks.insert blockNum block) := by
  intro other stored hstored
  have hne : blockNum ≠ other := by
    rintro rfl
    simp [hnone] at hstored
  exact ⟨stored, by simp [Std.ExtTreeMap.getElem?_insert, hne, hstored], rfl, rfl,
    fun _ => rfl, fun _ => rfl⟩

theorem Keeps.insert_over {blocks : Blocks crypto} {blockNum : Nat} {block block' : Block crypto}
    (hblock : blocks[blockNum]? = some block) (hcommands : block'.commands = block.commands)
    (hdigest : block'.digest = block.digest)
    (hprepare : block.prepareQuorum.isSome → block'.prepareQuorum = block.prepareQuorum)
    (hcommit : block.commitQuorum.isSome → block'.commitQuorum = block.commitQuorum) :
    Keeps blocks (blocks.insert blockNum block') := by
  intro other stored hstored
  by_cases heq : blockNum = other
  · subst heq
    obtain rfl : block = stored := Option.some.inj (hblock.symm.trans hstored)
    exact ⟨block', by simp, hcommands, hdigest, hprepare, hcommit⟩
  · exact ⟨stored, by simp [Std.ExtTreeMap.getElem?_insert, heq, hstored], rfl, rfl,
      fun _ => rfl, fun _ => rfl⟩

theorem PrepareCheck.keeps {blockNum : Nat} {block : Block crypto} {scratch : BlockScratch crypto}
    {next : Replica crypto} (hcheck : PrepareCheck replica blockNum block scratch next)
    (hblock : replica.core.blocks[blockNum]? = some block) (hnone : block.prepareQuorum = none) :
    Keeps replica.core.blocks next.core.blocks := by
  cases hcheck with
  | waiting => exact .refl _
  | prepared => exact .insert_over hblock rfl rfl (by simp [hnone]) fun _ => rfl

theorem CommitCheck.keeps {blockNum : Nat} {block : Block crypto} {scratch : BlockScratch crypto}
    {next : Replica crypto} (hcheck : CommitCheck log replica blockNum block scratch next)
    (hblock : replica.core.blocks[blockNum]? = some block)
    (hnone : block.prepareQuorum.isSome → block.commitQuorum = none) :
    Keeps replica.core.blocks next.core.blocks := by
  cases hcheck with
  | waiting => exact .refl _
  | committed hprepared =>
      exact .insert_over hblock rfl rfl (fun _ => rfl) (by simp [hnone hprepared])

theorem isPrepared_of_isSome {core : ReplicaCore crypto} {blockNum : Nat} {block : Block crypto}
    (hblock : core.blocks[blockNum]? = some block) (hsome : block.prepareQuorum.isSome) :
    core.isPrepared blockNum = true := by
  simp [ReplicaCore.isPrepared, hblock, hsome]

/-- Blocks are never replaced, and neither are the quorums they hold. -/
theorem Effect.keeps {event : Event crypto} {next : Replica crypto}
    (heffect : Effect log replica event next) : Keeps replica.core.blocks next.core.blocks := by
  cases heffect with
  | drop | request | resend | keepPrepare | keepCommit | tick | finalize | forward =>
      exact .refl _
  | accept _ hnone => exact .insert_new hnone _
  | propose _ hnone => exact .insert_new hnone _
  | countPrepare hopen _ hblock _ hcheck =>
      exact hcheck.keeps hblock (isPrepared_eq_false hopen hblock)
  | prepare _ hblock _ hnone hcheck => exact hcheck.keeps hblock hnone
  | countCommit hopen _ hblock _ hcheck =>
      exact hcheck.keeps hblock fun hsome =>
        (isCommitted_eq_false hopen hblock (isPrepared_of_isSome hblock hsome)).2
  | commit _ hblock hnone hcheck => exact hcheck.keeps hblock fun _ => hnone

end Replica

end BftKit.Pbft
