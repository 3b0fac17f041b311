import BftKit.Pbft.FreeRuns
import BftKit.Pbft.Replay

/-! # Stored quorums are certificates

Signatures come into a quorum when a vote for the stored block arrives, when the block
arrives that earlier votes were for, and when the replica votes itself. On each of these ways
the signature is one of a vote for the number and the digest that the quorum ends up with.
-/

namespace BftKit.Pbft

open Foundation

variable {crypto : Crypto}

namespace Replica

/-- The signature is that of a replica's vote in the first view. -/
def Attests (config : ReplicaCoreConfig) (blockNum : Nat) (digest : Digest) (id : Nat)
    (sig : crypto.Sig) : Prop :=
  let vote : Vote crypto := { viewNum := 0, blockNum, digest, replicaId := id, sig }
  id < config.spec.numReplica ∧
    crypto.verify vote (crypto.publicKey (crypto.replicaSecretKey id)) sig = true

/-- The entries of a quorum are signatures of votes for one block. -/
def Attested (config : ReplicaCoreConfig) (blockNum : Nat) (digest : Digest)
    (quorum : Quorum crypto.Sig) : Prop :=
  ∀ id sig, quorum.lookup id = some sig → Attests config blockNum digest id sig

/-- The entries of a quorum are for the block that is stored. -/
def Gathering (config : ReplicaCoreConfig) (blocks : Blocks crypto) (blockNum : Nat)
    (quorum : Quorum crypto.Sig) : Prop :=
  ∀ id sig, quorum.lookup id = some sig → ∃ block : Block crypto,
    blocks[blockNum]? = some block ∧ Attests config blockNum block.digest id sig

/-- What a scratch has gathered for its block number. -/
structure Gathered (config : ReplicaCoreConfig) (blocks : Blocks crypto) (blockNum : Nat)
    (scratch : BlockScratch crypto) : Prop where
  prepareVotes : ∀ vote ∈ scratch.prepareVotes,
    Attests config blockNum vote.digest vote.replicaId vote.sig
  prepareQuorum : Gathering config blocks blockNum scratch.prepareQuorum
  commitVotes : ∀ vote ∈ scratch.commitVotes,
    Attests config blockNum vote.digest vote.replicaId vote.sig
  commitQuorum : Gathering config blocks blockNum scratch.commitQuorum

/-- The quorums of a stored block are large enough and for this block. -/
structure Sealed (config : ReplicaCoreConfig) (blockNum : Nat) (block : Block crypto) : Prop where
  prepared : ∀ quorum, block.prepareQuorum = some quorum →
    config.spec.numReplica ≤ quorum.size + 1 + config.spec.numFaulty ∧
      Attested config blockNum block.digest quorum
  committed : ∀ quorum, block.commitQuorum = some quorum →
    config.spec.numReplica ≤ quorum.size + config.spec.numFaulty ∧
      Attested config blockNum block.digest quorum

/-- What the blocks and the scratches hold is signed. -/
structure Endorsed (config : ReplicaCoreConfig) (blocks : Blocks crypto)
    (scratches : Std.ExtTreeMap Nat (BlockScratch crypto)) : Prop where
  sealedAt : ∀ (blockNum : Nat) (block : Block crypto), blocks[blockNum]? = some block →
    Sealed config blockNum block
  gathered : ∀ (blockNum : Nat) (scratch : BlockScratch crypto),
    scratches[blockNum]? = some scratch → Gathered config blocks blockNum scratch

variable {config : ReplicaCoreConfig} {blocks blocks' : Blocks crypto}
  {scratches : Std.ExtTreeMap Nat (BlockScratch crypto)} {blockNum : Nat} {block : Block crypto}
  {quorum : Quorum crypto.Sig} {scratch : BlockScratch crypto} {replica next : Replica crypto}
  {event : Event crypto} {history : List (Event crypto)} {digest : Digest} {id : Nat}
  {sig : crypto.Sig}

/-! ## Where signatures come from -/

/-- Verification under the id of a replica is verification under its key. -/
theorem Sound.verify_iff (h : Sound config replica) {Value : Type} [UpdateHash Value]
    {message : Value} :
    replica.verify message id sig = .ok true ↔ id < config.spec.numReplica ∧
      crypto.verify message (crypto.publicKey (crypto.replicaSecretKey id)) sig = true := by
  unfold Replica.verify
  by_cases hid : id < config.spec.numReplica
  · simp [h.publicKeys, hid]
  · rw [h.publicKeys, List.getElem?_eq_none (by simpa using hid)]
    simp [hid]

theorem Sound.attests_of_admits (h : Sound config replica) {vote : Vote crypto}
    (hadmits : replica.Admits vote vote.viewNum vote.replicaId vote.sig) :
    Attests config vote.blockNum vote.digest vote.replicaId vote.sig := by
  obtain ⟨viewNum, blockNum, digest, id, sig⟩ := vote
  obtain rfl : viewNum = 0 := hadmits.view.trans h.view
  exact h.verify_iff.mp hadmits.verified

/-- The replica's own signature verifies like the others. -/
theorem Sound.attests_own (h : Sound config replica) (hverifies : crypto.Verifies)
    (blockNum : Nat) (digest : Digest) :
    Attests config blockNum digest replica.core.config.id
      (replica.signVote blockNum digest).sig := by
  have hsigned := hverifies (updateHash (replica.signVote blockNum digest))
    (crypto.replicaSecretKey config.id)
  have hid : replica.core.config.id = config.id := congrArg _ h.configured
  unfold Attests
  rw [hid]
  refine ⟨h.member, ?_⟩
  simp only [signVote, h.view, h.secretKey, hid] at hsigned ⊢
  exact hsigned

theorem Gathering.empty : Gathering config blocks blockNum (∅ : Quorum crypto.Sig) := by
  intro id sig hlookup
  simp at hlookup

theorem Gathering.mono (h : Gathering config blocks blockNum quorum)
    (hkeeps : Keeps blocks blocks') : Gathering config blocks' blockNum quorum := by
  intro id sig hlookup
  obtain ⟨block, hblock, hattests⟩ := h id sig hlookup
  obtain ⟨block', hblock', -, hdigest, -⟩ := hkeeps blockNum block hblock
  exact ⟨block', hblock', hdigest ▸ hattests⟩

theorem Gathering.insert (h : Gathering config blocks blockNum quorum)
    (hblock : blocks[blockNum]? = some block)
    (hattests : Attests config blockNum block.digest id sig) :
    Gathering config blocks blockNum (quorum.insert id sig) := by
  intro other sig' hlookup
  rw [Map.lookup_insert] at hlookup
  split at hlookup
  next heq =>
    obtain rfl := Option.some.inj hlookup
    exact ⟨block, hblock, heq ▸ hattests⟩
  next => exact h other sig' hlookup

/-- Waiting votes join a quorum if they are for the digest of the block. -/
theorem Gathering.extend (h : Gathering config blocks blockNum quorum)
    (hblock : blocks[blockNum]? = some block) {votes : List (Vote crypto)}
    (hvotes : ∀ vote ∈ votes, Attests config blockNum vote.digest vote.replicaId vote.sig) :
    Gathering config blocks blockNum
      (Map.extend quorum (matchingVotes block.digest votes)) := by
  intro id sig hlookup
  rcases Map.lookup_extend hlookup with hentry | hold
  · obtain ⟨vote, hvote, heq⟩ := List.mem_filterMap.mp hentry
    split at heq
    next hdigest =>
      obtain ⟨rfl, rfl⟩ := Prod.mk.inj (Option.some.inj heq)
      exact ⟨block, hblock, hdigest ▸ hvotes vote hvote⟩
    next => cases heq
  · exact h id sig hold

theorem Gathering.attested (h : Gathering config blocks blockNum quorum)
    (hblock : blocks[blockNum]? = some block) :
    Attested config blockNum block.digest quorum := by
  intro id sig hlookup
  obtain ⟨stored, hstored, hattests⟩ := h id sig hlookup
  rwa [Option.some.inj (hstored.symm.trans hblock)] at hattests

/-! ## Where they go -/

theorem Gathered.mono (h : Gathered config blocks blockNum scratch)
    (hkeeps : Keeps blocks blocks') : Gathered config blocks' blockNum scratch :=
  { h with
    prepareQuorum := h.prepareQuorum.mono hkeeps
    commitQuorum := h.commitQuorum.mono hkeeps }

theorem Endorsed.put (h : Endorsed config blocks scratches)
    (hgathered : Gathered config blocks blockNum scratch) :
    Endorsed config blocks (scratches.insert blockNum scratch) :=
  { h with gathered := entries_insert h.gathered hgathered }

theorem Endorsed.insert_block (h : Endorsed config blocks scratches)
    (hkeeps : Keeps blocks (blocks.insert blockNum block))
    (hsealed : Sealed config blockNum block) :
    Endorsed config (blocks.insert blockNum block) scratches where
  sealedAt := entries_insert h.sealedAt hsealed
  gathered other scratch hscratch := (h.gathered other scratch hscratch).mono hkeeps

theorem Endorsed.scratchAt (h : Endorsed config blocks replica.blockScratches) (blockNum : Nat) :
    Gathered config blocks blockNum (replica.scratchAt blockNum) :=
  entries_getD h.gathered ⟨by simp [default], .empty, by simp [default], .empty⟩

theorem PrepareOutcome.endorsed (hconfig : replica.core.config = config)
    (h : Endorsed config replica.core.blocks replica.blockScratches)
    (hgathered : Gathered config replica.core.blocks blockNum scratch)
    (hcheck : PrepareOutcome replica blockNum scratch next) :
    Endorsed config next.core.blocks next.blockScratches := by
  have hkeeps := hcheck.keeps
  cases hcheck with
  | waiting => exact h.put hgathered
  | @prepared block hblock hnone hquorum =>
      refine Endorsed.insert_block ?_ hkeeps ?_
      · exact h.put { hgathered with prepareQuorum := .empty }
      · refine { h.sealedAt blockNum block hblock with prepared := ?_ }
        intro quorum heq
        obtain rfl := Option.some.inj heq
        have hattested := hgathered.prepareQuorum.attested hblock
        exact ⟨hconfig ▸ hquorum, hattested⟩

theorem CommitOutcome.endorsed (hconfig : replica.core.config = config)
    (h : Endorsed config replica.core.blocks replica.blockScratches)
    (hgathered : Gathered config replica.core.blocks blockNum scratch)
    (hcheck : CommitOutcome replica blockNum scratch next) :
    Endorsed config next.core.blocks next.blockScratches := by
  have hkeeps := hcheck.keeps
  cases hcheck with
  | waiting => exact h.put hgathered
  | @committed block core _ hblock hnone hquorum hcore =>
      have hblocks : core.blocks = replica.core.blocks.insert blockNum
          { block with commitQuorum := some scratch.commitQuorum } := by rw [hcore]
      simp only [hblocks] at hkeeps ⊢
      refine Endorsed.insert_block ?_ hkeeps ?_
      · exact h.put { hgathered with commitQuorum := .empty }
      · refine { h.sealedAt blockNum block hblock with committed := ?_ }
        intro quorum heq
        obtain rfl := Option.some.inj heq
        have hattested := hgathered.commitQuorum.attested hblock
        exact ⟨hconfig ▸ hquorum, hattested⟩

/-- A new block has no quorums yet. -/
theorem Endorsed.store (h : Endorsed config blocks scratches)
    (hnone : blocks[blockNum]? = none) (hprepare : block.prepareQuorum = none)
    (hcommit : block.commitQuorum = none) :
    Endorsed config (blocks.insert blockNum block) scratches :=
  h.insert_block (.insert_new hnone block) ⟨by simp [hprepare], by simp [hcommit]⟩

/-- What a step gathers is signed. -/
theorem Endorsed.step (hsound : Sound config replica) (hverifies : crypto.Verifies)
    (h : Endorsed config replica.core.blocks replica.blockScratches)
    (houtcome : Outcome replica event next) :
    Endorsed config next.core.blocks next.blockScratches := by
  cases houtcome with
  | drop | resend | tick | forward => exact h
  | request hcore => rwa [hcore]
  | accept hnone => exact h.store hnone rfl rfl
  | @keepPrepare vote _ hscratch =>
      refine h.put ?_
      rcases hscratch with rfl | ⟨-, hadmits, rfl⟩
      · exact h.scratchAt _
      · have hat := h.scratchAt vote.blockNum
        refine { hat with prepareVotes := List.forall_mem_append.mpr ⟨hat.prepareVotes, ?_⟩ }
        rw [List.forall_mem_singleton]
        exact hsound.attests_of_admits hadmits
  | @keepCommit vote _ hscratch =>
      refine h.put ?_
      rcases hscratch with rfl | ⟨-, hadmits, rfl⟩
      · exact h.scratchAt _
      · have hat := h.scratchAt vote.blockNum
        refine { hat with commitVotes := List.forall_mem_append.mpr ⟨hat.commitVotes, ?_⟩ }
        rw [List.forall_mem_singleton]
        exact hsound.attests_of_admits hadmits
  | @countPrepare vote block _ hadmits hblock hdigest hcheck =>
      have hat := h.scratchAt vote.blockNum
      have hattests := hsound.attests_of_admits hadmits
      rw [hdigest] at hattests
      refine hcheck.endorsed hsound.configured h ?_
      exact { hat with prepareQuorum := hat.prepareQuorum.insert hblock hattests }
  | @countCommit vote block _ hadmits hblock hdigest hcheck =>
      have hat := h.scratchAt vote.blockNum
      have hattests := hsound.attests_of_admits hadmits
      rw [hdigest] at hattests
      refine hcheck.endorsed hsound.configured h ?_
      exact { hat with commitQuorum := hat.commitQuorum.insert hblock hattests }
  | propose _ hstored =>
      rcases hstored with ⟨-, rfl, -⟩ | ⟨block, -, hprepare, hcommit, hnone, rfl, -⟩
      · exact h
      · exact h.store hnone hprepare hcommit
  | @prepare blockNum digest rest _ hqueue hcheck =>
      -- the early votes for the digest of the block join, and the own vote
      obtain ⟨block, hblock, rfl⟩ := hsound.head hqueue
      have hat := h.scratchAt blockNum
      have hown := hsound.attests_own hverifies blockNum block.digest
      refine PrepareOutcome.endorsed ?_ ?_ ?_ hcheck
      · exact hsound.configured
      · exact h
      · exact {
          prepareVotes := by simp
          prepareQuorum := (hat.prepareQuorum.extend hblock hat.prepareVotes).insert hblock hown
          commitVotes := by simp
          commitQuorum := hat.commitQuorum.extend hblock hat.commitVotes }
  | @commit blockNum rest block _ hqueue hblock hcheck =>
      have hat := h.scratchAt blockNum
      have hown := hsound.attests_own hverifies blockNum block.digest
      refine CommitOutcome.endorsed ?_ ?_ ?_ hcheck
      · exact hsound.configured
      · exact h
      · exact { hat with commitQuorum := hat.commitQuorum.insert hblock hown }
  | finalize => exact { h with gathered := entries_erase h.gathered }
  | enterView => exact { h with gathered := by simp }

theorem FreeRun.endorsed (hverifies : crypto.Verifies) (hrun : FreeRun config history replica) :
    Endorsed config replica.core.blocks replica.blockScratches := by
  induction hrun with
  | start hnew =>
      simp only [Replica.new, bind_eq_ok] at hnew
      obtain ⟨_, -, hreplica⟩ := hnew
      obtain rfl := Except.ok.inj hreplica
      exact ⟨by simp [ReplicaCore.new], by simp⟩
  | step hrun hstep ih => exact ih.step (FreeRun.sound hrun) hverifies hstep.outcome

/-! ## Certificates -/

/-- Every entry of a quorum is a signature that verifies, of a vote for the block in the
current view. -/
def Certifies (replica : Replica crypto) (blockNum : Nat) (digest : Digest)
    (quorum : Quorum crypto.Sig) : Prop :=
  ∀ id sig, quorum.lookup id = some sig →
    let vote : Vote crypto :=
      { viewNum := replica.core.viewNum, blockNum, digest, replicaId := id, sig }
    replica.verify vote id sig = .ok true

theorem Attested.certifies (h : Attested config blockNum digest quorum)
    (hsound : Sound config replica) : replica.Certifies blockNum digest quorum := by
  intro id sig hlookup
  dsimp only
  rw [hsound.view]
  exact hsound.verify_iff.mpr (h id sig hlookup)

/-- Whatever a replica is shown, the quorums that it stores are certificates, and what its
scratches have gathered for a block is for this block. -/
theorem stored_certificates (hverifies : crypto.Verifies)
    (hrun : FreeRun config history replica)
    (hblock : replica.core.blocks[blockNum]? = some block) :
    (∀ quorum, block.prepareQuorum = some quorum →
      config.spec.numReplica - config.spec.numFaulty - 1 ≤ quorum.keys.card ∧
        replica.Certifies blockNum block.digest quorum) ∧
    (∀ quorum, block.commitQuorum = some quorum →
      config.spec.numReplica - config.spec.numFaulty ≤ quorum.keys.card ∧
        replica.Certifies blockNum block.digest quorum) ∧
    ∀ scratch, replica.blockScratches[blockNum]? = some scratch →
      replica.Certifies blockNum block.digest scratch.prepareQuorum ∧
        replica.Certifies blockNum block.digest scratch.commitQuorum := by
  have hsound := FreeRun.sound hrun
  have h := FreeRun.endorsed hverifies hrun
  refine ⟨?_, ?_, ?_⟩
  · intro quorum hquorum
    obtain ⟨hsize, hattested⟩ := (h.sealedAt blockNum block hblock).prepared quorum hquorum
    unfold Map.size at hsize
    exact ⟨by omega, hattested.certifies hsound⟩
  · intro quorum hquorum
    obtain ⟨hsize, hattested⟩ := (h.sealedAt blockNum block hblock).committed quorum hquorum
    unfold Map.size at hsize
    exact ⟨by omega, hattested.certifies hsound⟩
  · intro scratch hscratch
    have hgathered := h.gathered blockNum scratch hscratch
    exact ⟨(hgathered.prepareQuorum.attested hblock).certifies hsound,
      (hgathered.commitQuorum.attested hblock).certifies hsound⟩

theorem stored_certificates_normalCase : ∃ (replica : Replica .transparent)
    (block : Block .transparent) (prepareQuorum commitQuorum : Quorum Crypto.transparent.Sig),
    replica.core.blocks[1]? = some block ∧
      block.prepareQuorum = some prepareQuorum ∧ block.commitQuorum = some commitQuorum ∧
      (2 ≤ prepareQuorum.keys.card ∧ replica.Certifies 1 block.digest prepareQuorum) ∧
      3 ≤ commitQuorum.keys.card ∧ replica.Certifies 1 block.digest commitQuorum := by
  have hreplay : ∃ run, ((Group.four ∅).initial .transparent 0).replay fourCalls = .ok run ∧
      run.2.core.blocks[1]?.any (fun block =>
        block.prepareQuorum.isSome && block.commitQuorum.isSome) = true := by
    refine ⟨_, rfl, ?_⟩
    decide +kernel
  obtain ⟨⟨history, replica⟩, hreplay, hany⟩ := hreplay
  obtain ⟨block, hblock, hquorums⟩ := Option.any_eq_true _ _ |>.mp hany
  obtain ⟨hprepared, hcommitted⟩ := Bool.and_eq_true_iff.mp hquorums
  obtain ⟨prepareQuorum, hprepare⟩ := Option.isSome_iff_exists.mp hprepared
  obtain ⟨commitQuorum, hcommit⟩ := Option.isSome_iff_exists.mp hcommitted
  have hrun := replay_run (Group.new_initial (by decide)) hreplay
  obtain ⟨hprepares, hcommits, -⟩ :=
    stored_certificates Crypto.transparent_verifies hrun hblock
  exact ⟨replica, block, prepareQuorum, commitQuorum, hblock, hprepare, hcommit,
    hprepares prepareQuorum hprepare, hcommits commitQuorum hcommit⟩

end Replica

end BftKit.Pbft
