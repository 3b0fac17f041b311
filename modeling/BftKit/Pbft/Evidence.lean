import BftKit.Pbft.Trace

/-! # Evidence behind the quorums

Where the members of the vote maps come from. A replica counts an id only on a
vote that it received and verified, or as its own, and it stores a block only on
a verified PrePrepare, or as the primary.
-/

namespace BftKit.Pbft

open Foundation

variable {crypto : Crypto}

namespace Replica

/-- The received messages that a replica may act on. -/
structure Sources (crypto : Crypto) where
  prePrepare : PrePrepare crypto → Prop
  /-- Prepares that wait for their block. -/
  early : Vote crypto → Prop
  prepare : Vote crypto → Prop
  commit : Vote crypto → Prop

/-- One set of messages is part of another. -/
structure Sources.Sub (sources sources' : Sources crypto) : Prop where
  prePrepare : ∀ prePrepare, sources.prePrepare prePrepare → sources'.prePrepare prePrepare
  early : ∀ vote, sources.early vote → sources'.early vote
  prepare : ∀ vote, sources.prepare vote → sources'.prepare vote
  commit : ∀ vote, sources.commit vote → sources'.commit vote

/-- An id counts for a block number and a digest: it is the replica's own, or one
of the votes names it. -/
def Backer (config : ReplicaCoreConfig) (votes : Vote crypto → Prop) (blockNum : Nat)
    (digest : Digest) (id : Nat) : Prop :=
  id = config.id ∨ ∃ vote, votes vote ∧ vote.blockNum = blockNum ∧ vote.digest = digest ∧
    vote.replicaId = id

/-- What a scratch has collected for its block number. -/
structure Collected (config : ReplicaCoreConfig) (sources : Sources crypto)
    (blocks : Blocks crypto) (blockNum : Nat) (scratch : BlockScratch crypto) : Prop where
  prepareVotes : ∀ vote ∈ scratch.prepareVotes, vote.blockNum = blockNum ∧ sources.early vote
  prepareQuorum : ∀ id ∈ scratch.prepareQuorum.keys, ∃ block : Block crypto,
    blocks[blockNum]? = some block ∧ Backer config sources.prepare blockNum block.digest id
  commitVotes : ∀ vote ∈ scratch.commitVotes, vote.blockNum = blockNum ∧ sources.commit vote
  commitQuorum : ∀ id ∈ scratch.commitQuorum.keys, ∃ block : Block crypto,
    blocks[blockNum]? = some block ∧ Backer config sources.commit blockNum block.digest id

/-- What a stored block rests on. -/
structure Certified (config : ReplicaCoreConfig) (sources : Sources crypto)
    (blockNum : Nat) (block : Block crypto) : Prop where
  accepted : config.spec.primary 0 = config.id ∨ ∃ prePrepare : PrePrepare crypto,
    sources.prePrepare prePrepare ∧ prePrepare.blockNum = blockNum ∧
      prePrepare.digest = block.digest
  prepared : ∀ quorum, block.prepareQuorum = some quorum →
    config.spec.numReplica ≤ quorum.size + 1 + config.spec.numFaulty ∧
    ∀ id ∈ quorum.keys, Backer config sources.prepare blockNum block.digest id
  committed : ∀ quorum, block.commitQuorum = some quorum →
    config.spec.numReplica ≤ quorum.size + config.spec.numFaulty ∧
    ∀ id ∈ quorum.keys, Backer config sources.commit blockNum block.digest id

/-- There is evidence for everything in the blocks and the scratches. -/
structure Evidence (config : ReplicaCoreConfig) (sources : Sources crypto)
    (blocks : Blocks crypto) (scratches : Std.ExtTreeMap Nat (BlockScratch crypto)) : Prop where
  certified : ∀ (blockNum : Nat) (block : Block crypto), blocks[blockNum]? = some block →
    Certified config sources blockNum block
  collected : ∀ (blockNum : Nat) (scratch : BlockScratch crypto),
    scratches[blockNum]? = some scratch → Collected config sources blocks blockNum scratch

variable {config : ReplicaCoreConfig} {sources : Sources crypto} {blocks : Blocks crypto}
  {scratches : Std.ExtTreeMap Nat (BlockScratch crypto)} {blockNum : Nat}
  {scratch : BlockScratch crypto} {block : Block crypto}

section Growth

variable {sources' : Sources crypto}

theorem Backer.mono {votes votes' : Vote crypto → Prop} {digest : Digest} {id : Nat}
    (h : Backer config votes blockNum digest id) (hsub : ∀ vote, votes vote → votes' vote) :
    Backer config votes' blockNum digest id := by
  rcases h with hself | ⟨vote, hvote, hrest⟩
  · exact .inl hself
  · exact .inr ⟨vote, hsub vote hvote, hrest⟩

theorem Collected.mono (h : Collected config sources blocks blockNum scratch)
    (hsub : sources.Sub sources') : Collected config sources' blocks blockNum scratch := by
  constructor
  · intro vote hmem
    exact ⟨(h.prepareVotes vote hmem).1, hsub.early vote (h.prepareVotes vote hmem).2⟩
  · intro id hmem
    obtain ⟨stored, hstored, hbacker⟩ := h.prepareQuorum id hmem
    exact ⟨stored, hstored, hbacker.mono hsub.prepare⟩
  · intro vote hmem
    exact ⟨(h.commitVotes vote hmem).1, hsub.commit vote (h.commitVotes vote hmem).2⟩
  · intro id hmem
    obtain ⟨stored, hstored, hbacker⟩ := h.commitQuorum id hmem
    exact ⟨stored, hstored, hbacker.mono hsub.commit⟩

theorem Certified.mono (h : Certified config sources blockNum block)
    (hsub : sources.Sub sources') : Certified config sources' blockNum block := by
  constructor
  · rcases h.accepted with hself | ⟨prePrepare, hsource, hrest⟩
    · exact .inl hself
    · exact .inr ⟨prePrepare, hsub.prePrepare _ hsource, hrest⟩
  · intro quorum hquorum
    obtain ⟨hsize, hids⟩ := h.prepared quorum hquorum
    exact ⟨hsize, fun id hid => (hids id hid).mono hsub.prepare⟩
  · intro quorum hquorum
    obtain ⟨hsize, hids⟩ := h.committed quorum hquorum
    exact ⟨hsize, fun id hid => (hids id hid).mono hsub.commit⟩

theorem Evidence.mono (h : Evidence config sources blocks scratches)
    (hsub : sources.Sub sources') : Evidence config sources' blocks scratches where
  certified blockNum block hblock := (h.certified blockNum block hblock).mono hsub
  collected blockNum scratch hscratch := (h.collected blockNum scratch hscratch).mono hsub

end Growth

/-- Scratches only look at the digest under their block number. -/
theorem Collected.insert_block {other : Nat} (h : Collected config sources blocks other scratch)
    (hdigest : ∀ old : Block crypto, blocks[blockNum]? = some old → old.digest = block.digest) :
    Collected config sources (blocks.insert blockNum block) other scratch := by
  have hstored : ∀ stored : Block crypto, blocks[other]? = some stored →
      ∃ stored' : Block crypto, (blocks.insert blockNum block)[other]? = some stored' ∧
        stored'.digest = stored.digest := by
    intro stored hstored
    by_cases heq : blockNum = other
    · subst heq
      exact ⟨block, getElem?_insert_self _ _, (hdigest stored hstored).symm⟩
    · exact ⟨stored, (getElem?_insert_of_ne heq _).trans hstored, rfl⟩
  refine { h with prepareQuorum := ?_, commitQuorum := ?_ }
  · intro id hid
    obtain ⟨stored, hat, hbacker⟩ := h.prepareQuorum id hid
    obtain ⟨stored', hat', heq⟩ := hstored stored hat
    exact ⟨stored', hat', heq ▸ hbacker⟩
  · intro id hid
    obtain ⟨stored, hat, hbacker⟩ := h.commitQuorum id hid
    obtain ⟨stored', hat', heq⟩ := hstored stored hat
    exact ⟨stored', hat', heq ▸ hbacker⟩

theorem Evidence.insert_block (h : Evidence config sources blocks scratches)
    (hdigest : ∀ old : Block crypto, blocks[blockNum]? = some old → old.digest = block.digest)
    (hcertified : Certified config sources blockNum block) :
    Evidence config sources (blocks.insert blockNum block) scratches := by
  constructor
  · exact entries_insert h.certified hcertified
  · intro other scratch hscratch
    exact (h.collected other scratch hscratch).insert_block hdigest

theorem Evidence.put (h : Evidence config sources blocks scratches)
    (hcollected : Collected config sources blocks blockNum scratch) :
    Evidence config sources blocks (scratches.insert blockNum scratch) :=
  { h with collected := entries_insert h.collected hcollected }

theorem Evidence.erase (h : Evidence config sources blocks scratches) :
    Evidence config sources blocks (scratches.erase blockNum) :=
  { h with collected := entries_erase h.collected }

theorem Evidence.scratchAt {replica : Replica crypto}
    (h : Evidence config sources blocks replica.blockScratches) (blockNum : Nat) :
    Collected config sources blocks blockNum (replica.scratchAt blockNum) := by
  refine entries_getD h.collected ?_
  constructor <;> intro _ hmem <;> cases hmem

/-! ## Counting votes -/

theorem Collected.addPrepare (h : Collected config sources blocks blockNum scratch)
    (hblock : blocks[blockNum]? = some block) {id : Nat} {sig : crypto.Sig}
    (hbacker : Backer config sources.prepare blockNum block.digest id) :
    Collected config sources blocks blockNum
      { scratch with prepareQuorum := scratch.prepareQuorum.insert id sig } := by
  refine { h with prepareQuorum := ?_ }
  intro other hmem
  rcases Map.mem_keys_insert.mp hmem with rfl | hold
  · exact ⟨block, hblock, hbacker⟩
  · exact h.prepareQuorum other hold

theorem Collected.addCommit (h : Collected config sources blocks blockNum scratch)
    (hblock : blocks[blockNum]? = some block) {id : Nat} {sig : crypto.Sig}
    (hbacker : Backer config sources.commit blockNum block.digest id) :
    Collected config sources blocks blockNum
      { scratch with commitQuorum := scratch.commitQuorum.insert id sig } := by
  refine { h with commitQuorum := ?_ }
  intro other hmem
  rcases Map.mem_keys_insert.mp hmem with rfl | hold
  · exact ⟨block, hblock, hbacker⟩
  · exact h.commitQuorum other hold

/-- Early votes are counted once the block is there, if they name its digest. -/
theorem Collected.release (h : Collected config sources blocks blockNum scratch)
    (hblock : blocks[blockNum]? = some block)
    (hrelease : ∀ vote ∈ scratch.prepareVotes, sources.early vote → vote.digest = block.digest →
      sources.prepare vote) :
    Collected config sources blocks blockNum {
      prepareVotes := []
      prepareQuorum :=
        Map.extend scratch.prepareQuorum (matchingVotes block.digest scratch.prepareVotes)
      commitVotes := []
      commitQuorum :=
        Map.extend scratch.commitQuorum (matchingVotes block.digest scratch.commitVotes) } := by
  have hmatch : ∀ {source : Vote crypto → Prop} {votes : List (Vote crypto)},
      (∀ vote ∈ votes, vote.digest = block.digest → vote.blockNum = blockNum ∧ source vote) →
      ∀ {id sig}, (id, sig) ∈ matchingVotes block.digest votes →
        Backer config source blockNum block.digest id := by
    intro source votes hvotes id sig hmem
    obtain ⟨vote, hvote, heq⟩ := List.mem_filterMap.mp hmem
    split at heq
    next hdigest =>
      obtain ⟨rfl, -⟩ := Prod.mk.inj (Option.some.inj heq)
      obtain ⟨hnum, hsource⟩ := hvotes vote hvote hdigest
      exact .inr ⟨vote, hsource, hnum, hdigest, rfl⟩
    next => cases heq
  constructor
  · simp
  · intro id hmem
    rcases Map.mem_keys_extend hmem with ⟨sig, hentry⟩ | hold
    · refine ⟨block, hblock, hmatch (fun vote hvote hdigest => ?_) hentry⟩
      obtain ⟨hnum, hearly⟩ := h.prepareVotes vote hvote
      exact ⟨hnum, hrelease vote hvote hearly hdigest⟩
    · exact h.prepareQuorum id hold
  · simp
  · intro id hmem
    rcases Map.mem_keys_extend hmem with ⟨sig, hentry⟩ | hold
    · exact ⟨block, hblock, hmatch (fun vote hvote _ => h.commitVotes vote hvote) hentry⟩
    · exact h.commitQuorum id hold

variable {replica next : Replica crypto} {event : Event crypto} {log : List Command}

theorem Evidence.prepareCheck
    (h : Evidence config sources replica.core.blocks replica.blockScratches)
    (hconfig : replica.core.config = config)
    (hblock : replica.core.blocks[blockNum]? = some block)
    (hcollected : Collected config sources replica.core.blocks blockNum scratch)
    (hcheck : PrepareCheck replica blockNum block scratch next) :
    Evidence config sources next.core.blocks next.blockScratches := by
  cases hcheck with
  | waiting => exact h.put hcollected
  | prepared hquorum =>
      have hempty : Collected config sources replica.core.blocks blockNum
          { scratch with prepareQuorum := ∅ } :=
        { hcollected with prepareQuorum := by simp }
      refine (h.put hempty).insert_block ?_ ?_
      · intro old hold
        rw [Option.some.inj (hold.symm.trans hblock)]
      · refine { h.certified blockNum block hblock with prepared := ?_ }
        intro quorum heq
        obtain rfl := Option.some.inj heq
        refine ⟨hconfig ▸ hquorum, fun id hid => ?_⟩
        obtain ⟨stored, hstored, hbacker⟩ := hcollected.prepareQuorum id hid
        rwa [Option.some.inj (hstored.symm.trans hblock)] at hbacker

theorem Evidence.commitCheck
    (h : Evidence config sources replica.core.blocks replica.blockScratches)
    (hconfig : replica.core.config = config)
    (hblock : replica.core.blocks[blockNum]? = some block)
    (hcollected : Collected config sources replica.core.blocks blockNum scratch)
    (hcheck : CommitCheck log replica blockNum block scratch next) :
    Evidence config sources next.core.blocks next.blockScratches := by
  cases hcheck with
  | waiting => exact h.put hcollected
  | committed hprepared hquorum =>
      have hempty : Collected config sources replica.core.blocks blockNum
          { scratch with commitQuorum := ∅ } :=
        { hcollected with commitQuorum := by simp }
      refine (h.put hempty).insert_block ?_ ?_
      · intro old hold
        rw [Option.some.inj (hold.symm.trans hblock)]
      · refine { h.certified blockNum block hblock with committed := ?_ }
        intro quorum heq
        obtain rfl := Option.some.inj heq
        refine ⟨hconfig ▸ hquorum, fun id hid => ?_⟩
        obtain ⟨stored, hstored, hbacker⟩ := hcollected.commitQuorum id hid
        rwa [Option.some.inj (hstored.symm.trans hblock)] at hbacker

/-- The messages that a step acts on are among the sources. -/
structure Admitted (sources : Sources crypto) (replica : Replica crypto) (event : Event crypto) :
    Prop where
  prePrepare : ∀ prePrepare commands,
    event = .call (.receive (.prePrepare prePrepare commands)) [] →
    replica.Admits prePrepare prePrepare.viewNum
      (replica.core.config.spec.primary prePrepare.viewNum) prePrepare.sig →
    sources.prePrepare prePrepare
  early : ∀ vote : Vote crypto, event = .call (.receive (.prepare vote)) [] →
    replica.Admits vote vote.viewNum vote.replicaId vote.sig → sources.early vote
  prepare : ∀ (vote : Vote crypto) (block : Block crypto),
    event = .call (.receive (.prepare vote)) [] →
    replica.Admits vote vote.viewNum vote.replicaId vote.sig →
    replica.core.isPrepared vote.blockNum = false →
    replica.core.blocks[vote.blockNum]? = some block → vote.digest = block.digest →
    sources.prepare vote
  release : ∀ blockNum digest actions, event = .perform (.prepare blockNum digest) actions →
    ∀ vote ∈ (replica.scratchAt blockNum).prepareVotes, sources.early vote →
    vote.digest = digest → sources.prepare vote
  commit : ∀ vote : Vote crypto, event = .call (.receive (.commit vote)) [] →
    replica.Admits vote vote.viewNum vote.replicaId vote.sig → sources.commit vote

/-- Whatever a step adds comes from the messages it acts on. -/
theorem Evidence.step {performed : ReplicaCoreActions crypto}
    (hcoherent : Coherent config performed replica)
    (h : Evidence config sources replica.core.blocks replica.blockScratches)
    (hadmitted : Admitted sources replica event) (hstep : Step replica event next) :
    Evidence config sources next.core.blocks next.blockScratches := by
  obtain ⟨lists, -, heffect⟩ := hcoherent.effect hstep
  cases heffect with
  | drop | request | resend | tick | forward => exact h
  | @accept prePrepare commands hadmits hnone hdigest =>
      refine h.insert_block (by simp [hnone]) ⟨.inr ?_, by simp, by simp⟩
      exact ⟨prePrepare, hadmitted.prePrepare _ _ rfl hadmits, rfl, hdigest⟩
  | propose _ hnone hprimary =>
      refine h.insert_block (by simp [hnone]) ⟨.inl ?_, by simp, by simp⟩
      exact beq_iff_eq.mp (hcoherent.isPrimary_eq ▸ hprimary)
  | @keepPrepare vote _ _ hscratch =>
      apply h.put
      rcases hscratch with rfl | ⟨-, hadmits, rfl⟩
      · exact h.scratchAt _
      · have hat := h.scratchAt vote.blockNum
        refine { hat with prepareVotes := List.forall_mem_append.mpr ⟨hat.prepareVotes, ?_⟩ }
        rw [List.forall_mem_singleton]
        exact ⟨rfl, hadmitted.early _ rfl hadmits⟩
  | @keepCommit vote _ _ hscratch =>
      apply h.put
      rcases hscratch with rfl | ⟨-, hadmits, rfl⟩
      · exact h.scratchAt _
      · have hat := h.scratchAt vote.blockNum
        refine { hat with commitVotes := List.forall_mem_append.mpr ⟨hat.commitVotes, ?_⟩ }
        rw [List.forall_mem_singleton]
        exact ⟨rfl, hadmitted.commit _ rfl hadmits⟩
  | @countPrepare vote _ _ hopen hadmits hblock hdigest hcheck =>
      have hsource := hadmitted.prepare _ _ rfl hadmits hopen hblock hdigest
      exact h.prepareCheck hcoherent.configured hblock ((h.scratchAt _).addPrepare hblock
        (.inr ⟨vote, hsource, rfl, hdigest, rfl⟩)) hcheck
  | @countCommit vote _ _ _ hadmits hblock hdigest hcheck =>
      have hsource := hadmitted.commit _ rfl hadmits
      exact h.commitCheck hcoherent.configured hblock ((h.scratchAt _).addCommit hblock
        (.inr ⟨vote, hsource, rfl, hdigest, rfl⟩)) hcheck
  | prepare _ hblock hdigest _ hcheck =>
      -- early votes for the digest of the block are counted now
      subst hdigest
      refine Evidence.prepareCheck ?_ ?_ ?_ ?_ hcheck
      · exact h
      · exact hcoherent.configured
      · exact hblock
      · exact ((h.scratchAt _).release hblock (hadmitted.release _ _ _ rfl)).addPrepare hblock
          (.inl (congrArg ReplicaCoreConfig.id hcoherent.configured))
  | commit _ hblock _ hcheck =>
      refine Evidence.commitCheck ?_ ?_ ?_ ?_ hcheck
      · exact h
      · exact hcoherent.configured
      · exact hblock
      · exact (h.scratchAt _).addCommit hblock
          (.inl (congrArg ReplicaCoreConfig.id hcoherent.configured))
  | finalize => exact h.erase

theorem Evidence.of_new (hnew : Replica.new crypto config = .ok replica) :
    Evidence config sources replica.core.blocks replica.blockScratches := by
  simp only [Replica.new, bind_eq_ok] at hnew
  obtain ⟨_, -, hreplica⟩ := hnew
  obtain rfl := Except.ok.inj hreplica
  constructor <;> simp [ReplicaCore.new]

end Replica

end BftKit.Pbft
