import BftKit.Pbft.Delivery
import BftKit.Pbft.MainPath

/-! # The order of delivery

What a backup ends with is a matter of which messages it has been delivered, not of
their order: which block numbers are prepared and committed can be told from the
unordered collection of the messages, and so can what is finalized.
-/

namespace BftKit.Pbft

open Foundation

variable {crypto : Crypto}

namespace Replica

/-- The messages prepare a block number at a backup. -/
def PreparedBy (config : ReplicaCoreConfig) (messages : List (ToReplica crypto)) (blockNum : Nat) :
    Prop :=
  ∃ commands, Proposed messages blockNum commands ∧ Enough config
    ((preparers config messages blockNum (blockDigest crypto commands)).card + 1)

/-- The messages commit a block number at a backup. -/
def CommittedBy (config : ReplicaCoreConfig) (messages : List (ToReplica crypto))
    (blockNum : Nat) : Prop :=
  ∃ commands, Proposed messages blockNum commands ∧ Enough config
    ((preparers config messages blockNum (blockDigest crypto commands)).card + 1) ∧
    Enough config (committers config messages blockNum (blockDigest crypto commands)).card

/-- No two PrePrepares propose different commands under one block number. -/
def Unequivocal (messages : List (ToReplica crypto)) : Prop :=
  ∀ sent commands sent' commands', .prePrepare sent commands ∈ messages →
    .prePrepare sent' commands' ∈ messages → sent.blockNum = sent'.blockNum → commands = commands'

/-- A backup has been delivered the messages in this order and is done with them. -/
structure Delivers (config : ReplicaCoreConfig) (messages : List (ToReplica crypto))
    (history : List (Event crypto)) (replica : Replica crypto) : Prop where
  run : FreeRun config history replica
  delivered : delivered history = messages
  idle : replica.coreActions = []

variable {config : ReplicaCoreConfig} {messages messages' : List (ToReplica crypto)}
  {history history' : List (Event crypto)} {replica replica' next : Replica crypto} {blockNum : Nat}

/-! ## The collection decides -/

theorem Proposed.perm (hperm : messages.Perm messages') {commands : List Command} :
    Proposed messages blockNum commands ↔ Proposed messages' blockNum commands := by
  unfold Proposed
  simp only [hperm.mem_iff]

theorem preparedBy_perm (hperm : messages.Perm messages') :
    PreparedBy config messages blockNum ↔ PreparedBy config messages' blockNum := by
  unfold PreparedBy preparers
  simp only [Proposed.perm hperm, voters_perm (preparesFor_perm hperm)]

theorem committedBy_perm (hperm : messages.Perm messages') :
    CommittedBy config messages blockNum ↔ CommittedBy config messages' blockNum := by
  unfold CommittedBy preparers committers
  simp only [Proposed.perm hperm, voters_perm (preparesFor_perm hperm),
    voters_perm (commitsFor_perm hperm)]

theorem Unequivocal.proposed (hunique : Unequivocal messages) {commands commands' : List Command}
    (hproposed : Proposed messages blockNum commands)
    (hproposed' : Proposed messages blockNum commands') : commands = commands' := by
  obtain ⟨sent, hmem, rfl⟩ := hproposed
  obtain ⟨sent', hmem', hnum⟩ := hproposed'
  exact hunique sent commands sent' commands' hmem hmem' hnum.symm

section

variable {performed : ReplicaCoreActions crypto} (ht : Tallied config messages replica)
  (h : Coherent config performed replica) (hidle : replica.coreActions = [])
  (hunique : Unequivocal messages)

include ht h hidle hunique

/-- An idle backup has prepared exactly what the messages prepare. -/
theorem Tallied.prepared_iff :
    replica.core.blocks[blockNum]?.any (·.prepareQuorum.isSome) = true ↔
      PreparedBy config messages blockNum := by
  have hself := ht.tally blockNum
  cases hblock : replica.core.blocks[blockNum]? with
  | none =>
      rw [hblock] at hself
      cases hself with
      | missing hnew =>
          refine ⟨by simp, ?_⟩
          rintro ⟨commands, hproposed, -⟩
          exact absurd hproposed (hnew commands)
  | some block =>
      rw [hblock, hidle] at hself
      have hdigest := h.digest blockNum block hblock
      rw [Option.any_some]
      cases hself with
      | accepted _ hqueue => simp at hqueue
      | preparing hproposed _ hprepare _ _ hfew =>
          refine ⟨by simp [hprepare], ?_⟩
          rintro ⟨commands, hproposed', henough⟩
          obtain rfl := hunique.proposed hproposed hproposed'
          exact absurd (hdigest ▸ henough) hfew
      | prepared hproposed _ hprepare _ henough | committing hproposed _ hprepare _ henough
      | committed hproposed hprepare _ henough =>
          exact ⟨fun _ => ⟨block.commands, hproposed, hdigest ▸ henough⟩, fun _ => hprepare⟩

/-- An idle backup has committed exactly what the messages commit. -/
theorem Tallied.committed_iff :
    replica.core.blocks[blockNum]?.any (·.commitQuorum.isSome) = true ↔
      CommittedBy config messages blockNum := by
  have hself := ht.tally blockNum
  cases hblock : replica.core.blocks[blockNum]? with
  | none =>
      rw [hblock] at hself
      cases hself with
      | missing hnew =>
          refine ⟨by simp, ?_⟩
          rintro ⟨commands, hproposed, -⟩
          exact absurd hproposed (hnew commands)
  | some block =>
      rw [hblock, hidle] at hself
      have hdigest := h.digest blockNum block hblock
      rw [Option.any_some]
      cases hself with
      | accepted _ hqueue => simp at hqueue
      | prepared _ hqueue => simp at hqueue
      | preparing hproposed _ _ hcommit _ hfew =>
          refine ⟨by simp [hcommit], ?_⟩
          rintro ⟨commands, hproposed', henough, -⟩
          obtain rfl := hunique.proposed hproposed hproposed'
          exact absurd (hdigest ▸ henough) hfew
      | committing hproposed _ _ hcommit _ _ hfew =>
          refine ⟨by simp [hcommit], ?_⟩
          rintro ⟨commands, hproposed', -, hquorum⟩
          obtain rfl := hunique.proposed hproposed hproposed'
          exact absurd (hdigest ▸ hquorum) hfew
      | committed hproposed _ hcommit henough hquorum =>
          exact ⟨fun _ => ⟨block.commands, hproposed, hdigest ▸ henough, hdigest ▸ hquorum⟩,
            fun _ => hcommit⟩

/-- An idle backup has finalized up to the first number that is not committed. -/
theorem Tallied.le_finalizeNum_iff (num : Nat) : num ≤ replica.core.finalizeNum ↔
    ∀ blockNum, 1 ≤ blockNum → blockNum ≤ num → CommittedBy config messages blockNum := by
  constructor
  · intro hnum blockNum hpos hle
    obtain ⟨block, hblock, hcommitted⟩ := h.committed blockNum hpos (hle.trans hnum)
    rw [← ht.committed_iff h hidle hunique, hblock]
    exact hcommitted
  · intro hall
    by_contra hlt
    have hnext := hall (replica.core.finalizeNum + 1) (by omega) (by omega)
    rw [← ht.committed_iff h hidle hunique] at hnext
    cases hblock : replica.core.blocks[replica.core.finalizeNum + 1]? with
    | none => simp [hblock] at hnext
    | some block =>
        rw [hblock, Option.any_some] at hnext
        exact ht.settled block hblock ⟨h.prepared _ block hblock hnext, hnext⟩

end

/-! ## Any order can be delivered -/

theorem exists_new (hid : config.id < config.spec.numReplica) :
    ∃ replica, Replica.new crypto config = .ok replica := by
  have hkey : ((List.range config.spec.numReplica).map crypto.replicaSecretKey)[config.id]? =
      some (crypto.replicaSecretKey config.id) := by
    rw [List.getElem?_map, List.getElem?_range hid, Option.map_some]
  simp only [Replica.new, ReplicaConfig.new, hkey, ok_bind]
  exact ⟨_, rfl⟩

/-- A message that passes can be delivered next, if there are fewer replicas than 16 bits can
count. -/
theorem Delivers.concat (hbackup : config.spec.primary 0 ≠ config.id)
    (hfaulty : config.spec.numFaulty ≤ config.spec.numReplica)
    (hcount : config.spec.numReplica + 1 < 2 ^ 16)
    (h : Delivers config messages history replica) {message : ToReplica crypto}
    (hpass : Passes config message) :
    ∃ history' replica', Delivers config (messages ++ [message]) history' replica' := by
  obtain ⟨⟨next, actions⟩, hcall⟩ := (FreeRun.accountable hbackup h.run).receives_ok hfaulty hpass
    fun _ hgathers => lt_of_le_of_lt (Nat.succ_le_succ (FreeRun.size_le h.run hgathers)) hcount
  have hstep : FreeRun config (history ++ [.call (.receive message) actions]) next :=
    .step h.run (.call h.idle hcall)
  obtain ⟨fuel, final, events, hdrain, hidle⟩ :=
    drains (FreeRun.accountable hbackup hstep) hfaulty
      fun _ hgathers => lt_of_le_of_lt (Nat.succ_le_succ (FreeRun.size_le hstep hgathers)) hcount
  have hdrained := drain_drained hdrain
  refine ⟨_, final, hdrained.freeRun hstep, ?_, hidle⟩
  rw [delivered_append, hdrained.delivered, List.append_nil, delivered_concat, h.delivered]
  rfl

theorem exists_delivers (hbackup : config.spec.primary 0 ≠ config.id)
    (hid : config.id < config.spec.numReplica)
    (hfaulty : config.spec.numFaulty ≤ config.spec.numReplica)
    (hcount : config.spec.numReplica + 1 < 2 ^ 16)
    (hpass : ∀ message ∈ messages, Passes config message) :
    ∃ history replica, Delivers config messages history replica := by
  induction messages using List.reverseRecOn with
  | nil =>
      obtain ⟨replica, hnew⟩ := @exists_new crypto config hid
      refine ⟨[], replica, .start hnew, rfl, ?_⟩
      simp only [Replica.new, bind_eq_ok] at hnew
      obtain ⟨_, -, hreplica⟩ := hnew
      obtain rfl := Except.ok.inj hreplica
      rfl
  | append_singleton messages message ih =>
      obtain ⟨history, replica, h⟩ := ih fun other hmem => hpass other (by simp [hmem])
      exact h.concat hbackup hfaulty hcount (hpass message (by simp))

/-! ## No order differs -/

/-- Two replicas have finalized the same and have the same block numbers prepared and
committed. -/
structure SameOutcome (history history' : List (Event crypto)) (replica replica' : Replica crypto) :
    Prop where
  finalizeNum : replica.core.finalizeNum = replica'.core.finalizeNum
  log : finalizedLog history = finalizedLog history'
  prepared : ∀ blockNum, replica.core.isPrepared blockNum = replica'.core.isPrepared blockNum
  committed : ∀ blockNum, replica.core.isCommitted blockNum = replica'.core.isCommitted blockNum

/-- The log of an idle backup, read off the messages. -/
theorem Delivers.log (hbackup : config.spec.primary 0 ≠ config.id)
    (h : Delivers config messages history replica)
    (hpass : ∀ message ∈ messages, Passes config message) :
    (finalizedLog history).length = replica.core.finalizeNum ∧
      ∀ index commands, (finalizedLog history)[index]? = some commands →
        Proposed messages (index + 1) commands := by
  have haccountable := FreeRun.accountable hbackup h.run
  have ht := FreeRun.tallied hbackup h.run (h.delivered ▸ hpass)
  constructor
  · rw [haccountable.length_log, (haccountable.coherent.idle h.idle).1]
  · intro index commands hat
    obtain ⟨block, hblock, rfl⟩ :=
      Option.map_eq_some_iff.mp (haccountable.commandsAt_of_log hat)
    have hself := ht.tally (index + 1)
    rw [hblock, h.delivered] at hself
    exact hself.proposed

theorem Delivers.sameOutcome (hbackup : config.spec.primary 0 ≠ config.id)
    (hperm : messages.Perm messages') (hpass : ∀ message ∈ messages, Passes config message)
    (hunique : Unequivocal messages) (h : Delivers config messages history replica)
    (h' : Delivers config messages' history' replica') :
    SameOutcome history history' replica replica' := by
  have hpass' : ∀ message ∈ messages', Passes config message :=
    fun message hmem => hpass message (hperm.mem_iff.mpr hmem)
  have hunique' : Unequivocal messages' := fun sent commands sent' commands' hmem hmem' =>
    hunique sent commands sent' commands' (hperm.mem_iff.mpr hmem) (hperm.mem_iff.mpr hmem')
  have hc := (FreeRun.accountable hbackup h.run).coherent
  have hc' := (FreeRun.accountable hbackup h'.run).coherent
  have ht := FreeRun.tallied hbackup h.run (h.delivered ▸ hpass)
  have ht' := FreeRun.tallied hbackup h'.run (h'.delivered ▸ hpass')
  rw [h.delivered] at ht
  rw [h'.delivered] at ht'
  -- the finalized run ends where the first block is missing a quorum, in either order
  have hfinalize : replica.core.finalizeNum = replica'.core.finalizeNum := by
    refine le_antisymm ?_ ?_
    · rw [ht'.le_finalizeNum_iff hc' h'.idle hunique']
      intro blockNum hpos hle
      rw [← committedBy_perm hperm]
      exact (ht.le_finalizeNum_iff hc h.idle hunique _).mp (le_refl _) blockNum hpos hle
    · rw [ht.le_finalizeNum_iff hc h.idle hunique]
      intro blockNum hpos hle
      rw [committedBy_perm hperm]
      exact (ht'.le_finalizeNum_iff hc' h'.idle hunique' _).mp (le_refl _) blockNum hpos hle
  have hprepared : ∀ blockNum : Nat,
      replica.core.blocks[blockNum]?.any (·.prepareQuorum.isSome) =
        replica'.core.blocks[blockNum]?.any (·.prepareQuorum.isSome) := by
    intro blockNum
    rw [Bool.eq_iff_iff, ht.prepared_iff hc h.idle hunique, ht'.prepared_iff hc' h'.idle hunique']
    exact preparedBy_perm hperm
  have hcommitted : ∀ blockNum : Nat,
      replica.core.blocks[blockNum]?.any (·.commitQuorum.isSome) =
        replica'.core.blocks[blockNum]?.any (·.commitQuorum.isSome) := by
    intro blockNum
    rw [Bool.eq_iff_iff, ht.committed_iff hc h.idle hunique, ht'.committed_iff hc' h'.idle hunique']
    exact committedBy_perm hperm
  have hisPrepared : ∀ blockNum,
      replica.core.isPrepared blockNum = replica'.core.isPrepared blockNum := by
    intro blockNum
    unfold ReplicaCore.isPrepared
    rw [hfinalize, hprepared]
  refine ⟨hfinalize, ?_, hisPrepared, fun blockNum => ?_⟩
  · obtain ⟨hlength, hlog⟩ := h.log hbackup hpass
    obtain ⟨hlength', hlog'⟩ := h'.log hbackup hpass'
    refine List.ext_getElem (by rw [hlength, hlength', hfinalize]) fun index hlt hlt' => ?_
    have hproposed := hlog index _ (List.getElem?_eq_getElem hlt)
    have hproposed' := hlog' index _ (List.getElem?_eq_getElem hlt')
    exact hunique.proposed hproposed ((Proposed.perm hperm).mpr hproposed')
  · unfold ReplicaCore.isCommitted
    rw [hfinalize, hisPrepared, hcommitted]

/-! ## The largest group -/

/-- The Prepare of a replica for an empty block. -/
def emptyPrepare (crypto : Crypto) (id : Nat) : Vote crypto :=
  let vote : Vote crypto := {
    viewNum := 0
    blockNum := 1
    digest := blockDigest crypto []
    replicaId := id
    sig := crypto.uninitialized }
  { vote with sig := crypto.sign vote (crypto.replicaSecretKey id) }

/-- The PrePrepare of an empty block. -/
def emptyPrePrepare (crypto : Crypto) (config : ReplicaCoreConfig) : PrePrepare crypto :=
  let prePrepare : PrePrepare crypto := {
    viewNum := 0
    blockNum := 1
    digest := blockDigest crypto []
    sig := crypto.uninitialized }
  { prePrepare with
    sig := crypto.sign prePrepare (crypto.replicaSecretKey (config.spec.primary 0)) }

/-- The Prepares of all other replicas, and the PrePrepare only after them. -/
def lateProposal (crypto : Crypto) (config : ReplicaCoreConfig) : List (ToReplica crypto) :=
  ((List.range config.spec.numReplica).filter (· ≠ config.id)).map
      (fun id => .prepare (emptyPrepare crypto id)) ++
    [.prePrepare (emptyPrePrepare crypto config) []]

theorem lateProposal_passes (hverifies : crypto.Verifies) :
    ∀ message ∈ lateProposal crypto config, Passes config message := by
  intro message hmem
  rcases List.mem_append.mp hmem with hvote | hsent
  · obtain ⟨id, hid, rfl⟩ := List.mem_map.mp hvote
    have hlt := List.mem_range.mp (List.mem_filter.mp hid).1
    exact ⟨rfl, le_refl _, hlt, hverifies _ _⟩
  · obtain rfl := List.mem_singleton.mp hsent
    exact ⟨rfl, le_refl _, hverifies _ _, rfl⟩

theorem proposed_lateProposal {commands : List Command} {blockNum : Nat}
    (hproposed : Proposed (lateProposal crypto config) blockNum commands) : commands = [] := by
  obtain ⟨sent, hmem, -⟩ := hproposed
  rcases List.mem_append.mp hmem with hvote | hsent
  · obtain ⟨id, -, heq⟩ := List.mem_map.mp hvote
    cases heq
  · exact (ToReplica.prePrepare.inj (List.mem_singleton.mp hsent)).2

/-- All replicas but the own one prepare the empty block. -/
theorem preparers_lateProposal (hid : config.id < config.spec.numReplica) :
    preparers config (lateProposal crypto config) 1 (blockDigest crypto []) =
      Finset.range config.spec.numReplica := by
  ext id
  rw [preparers, Finset.mem_insert, mem_voters, Finset.mem_range]
  constructor
  · rintro (rfl | ⟨vote, hvote, -, rfl⟩)
    · exact hid
    · obtain ⟨message, hmem, hprepare⟩ := List.mem_filterMap.mp (List.mem_filter.mp hvote).1
      rcases List.mem_append.mp hmem with hvote | hsent
      · obtain ⟨id, hid, rfl⟩ := List.mem_map.mp hvote
        obtain rfl := Option.some.inj hprepare
        exact List.mem_range.mp (List.mem_filter.mp hid).1
      · obtain rfl := List.mem_singleton.mp hsent
        cases hprepare
  · intro hlt
    by_cases heq : id = config.id
    · exact .inl heq
    · refine .inr ⟨emptyPrepare crypto id, List.mem_filter.mpr ⟨?_, by simp [emptyPrepare]⟩, rfl, rfl⟩
      refine List.mem_filterMap.mpr ⟨.prepare (emptyPrepare crypto id), ?_, rfl⟩
      refine List.mem_append_left _ (List.mem_map.mpr ⟨id, ?_, rfl⟩)
      exact List.mem_filter.mpr ⟨List.mem_range.mpr hlt, by simpa using heq⟩

/-- A backup gets through a late proposal only if it can work out its quorums. -/
theorem Delivers.of_late (hverifies : crypto.Verifies)
    (hbackup : config.spec.primary 0 ≠ config.id) (hid : config.id < config.spec.numReplica)
    (h : Delivers config (lateProposal crypto config) history replica) :
    config.spec.numFaulty ≤ config.spec.numReplica ∧ config.spec.numReplica + 1 < 2 ^ 16 := by
  have hpasses := @lateProposal_passes crypto config hverifies
  have haccountable := FreeRun.accountable hbackup h.run
  have hself := (FreeRun.tallied hbackup h.run (h.delivered ▸ hpasses)).tally 1
  rw [h.delivered] at hself
  cases hblock : replica.core.blocks[1]? with
  | none =>
      rw [hblock] at hself
      cases hself with
      | missing hnew =>
          refine absurd ?_ (hnew [])
          exact ⟨_, List.mem_append_right _ (List.mem_singleton_self _), rfl⟩
  | some block =>
      -- the Prepare was performed once the PrePrepare was there, after everything else
      obtain ⟨digest, actions, hevent⟩ := haccountable.performed_prepare hbackup h.idle hblock
      obtain ⟨before, current, next, hcurrent, hstep, hpre⟩ := h.run.of_mem hevent
      have hdelivered : Replica.delivered before <+: lateProposal crypto config := by
        rw [← h.delivered]
        exact ((List.prefix_append _ _).trans hpre).filterMap _
      have hc := (FreeRun.accountable hbackup hcurrent).coherent
      have ht := FreeRun.tallied hbackup hcurrent fun message hmem =>
        hpasses message (hdelivered.subset hmem)
      cases hstep with
      | @perform _ rest _ _ hqueue hperform =>
          obtain ⟨lists, hlists, -⟩ := hc.queue
          obtain ⟨rfl, -, ⟨stored, hstored, rfl, -⟩, -⟩ := hlists.solo_head hqueue trivial
          have hproposed := ht.tally 1
          rw [hstored] at hproposed
          replace hproposed := hproposed.proposed
          have hall : Replica.delivered before = lateProposal crypto config := by
            rcases List.prefix_concat_iff.mp hdelivered with heq | hvotes
            · exact heq
            · obtain ⟨sent, hmem, -⟩ := hproposed
              obtain ⟨id, -, heq⟩ := List.mem_map.mp (hvotes.subset hmem)
              cases heq
          have hempty : stored.commands = [] := proposed_lateProposal (hall ▸ hproposed)
          have hkeys := ht.merged_keys hc hqueue
          rw [hall, hc.digest 1 stored hstored, hempty, preparers_lateProposal hid] at hkeys
          rw [hc.digest 1 stored hstored, hempty] at hperform
          simp only [perform, performPrepare, checkPrepareQuorum, bind_eq_ok] at hperform
          obtain ⟨_, ⟨count, hcount, size, hsize, -⟩, -⟩ := hperform
          obtain ⟨-, hroom⟩ := withPrimary_ok hcount
          have hquorum := quorumSize_ok hsize
          have hspec : current.core.config = config := hc.configured
          have hroom : (current.mergedPrepares 1 (blockDigest crypto [])).size + 1 < 2 ^ 16 := hroom
          rw [Map.size, hkeys, Finset.card_range] at hroom
          rw [hspec] at hquorum
          exact ⟨by omega, hroom⟩

/-- Every order of messages that pass can be delivered to a backup, and no two orders
end differently. -/
def Insensitive (crypto : Crypto) (config : ReplicaCoreConfig) : Prop :=
  ∀ messages messages' : List (ToReplica crypto), messages.Perm messages' →
    (∀ message ∈ messages, Passes config message) → Unequivocal messages →
    ((∃ history replica, Delivers config messages history replica) ∧
      ∃ history replica, Delivers config messages' history replica) ∧
    ∀ history history' replica replica', Delivers config messages history replica →
      Delivers config messages' history' replica' →
      SameOutcome history history' replica replica'

/-- A backup is insensitive to the order of delivery exactly in a group that is not smaller
than its fault bound and has fewer replicas than 16 bits can count, with one to spare. Any set
of messages may be delivered. What replicas sign is taken to verify. -/
theorem insensitive_iff (hverifies : crypto.Verifies)
    (hbackup : config.spec.primary 0 ≠ config.id) (hid : config.id < config.spec.numReplica) :
    Insensitive crypto config ↔
      config.spec.numFaulty ≤ config.spec.numReplica ∧ config.spec.numReplica + 1 < 2 ^ 16 := by
  constructor
  · intro hinsensitive
    obtain ⟨⟨⟨history, replica, hdelivers⟩, -⟩, -⟩ := hinsensitive (lateProposal crypto config) _
      (List.Perm.refl _) (lateProposal_passes hverifies) fun sent commands sent' commands' hmem hmem'
        _ => (proposed_lateProposal ⟨sent, hmem, rfl⟩).trans
          (proposed_lateProposal ⟨sent', hmem', rfl⟩).symm
    exact hdelivers.of_late hverifies hbackup hid
  · rintro ⟨hfaulty, hcount⟩ messages messages' hperm hpass hunique
    refine ⟨⟨exists_delivers hbackup hid hfaulty hcount hpass,
      exists_delivers hbackup hid hfaulty hcount fun message hmem =>
        hpass message (hperm.mem_iff.mpr hmem)⟩, ?_⟩
    exact fun _ _ _ _ h h' => h.sameOutcome hbackup hperm hpass hunique h'

/-- What a backup is sent in the normal case, in two orders. -/
def fourDeliveries : List (ToReplica .transparent) :=
  let vote := fun id => Group.fourVote id 1 [Group.ping 0]
  [.prePrepare (Group.fourPrePrepare 1 [Group.ping 0]) [Group.ping 0], .prepare (vote 2),
    .prepare (vote 3), .commit (vote 0), .commit (vote 2)]

theorem insensitive_normalCase :
    ((∃ history replica, Delivers ((Group.four ∅).config 1) fourDeliveries history replica) ∧
      ∃ history replica,
        Delivers ((Group.four ∅).config 1) fourDeliveries.reverse history replica) ∧
    ∀ history history' replica replica',
      Delivers ((Group.four ∅).config 1) fourDeliveries history replica →
      Delivers ((Group.four ∅).config 1) fourDeliveries.reverse history' replica' →
      SameOutcome history history' replica replica' := by
  have hunique : Unequivocal fourDeliveries := by
    intro sent commands sent' commands' hmem hmem' _
    simp [fourDeliveries] at hmem hmem'
    rw [hmem.2, hmem'.2]
  exact (insensitive_iff Crypto.transparent_verifies (by decide) (by decide)).mpr (by decide) _ _
    (List.reverse_perm _).symm (by decide +kernel) hunique

/-- A backup of as many replicas as there are ids for. -/
def largestConfig : ReplicaCoreConfig where
  spec := { numFaulty := 1, numReplica := 65535 }
  id := 1
  maxNumInflight := 1
  maxBatchSize := 1

/-- It does not get through the Prepares of all others before the PrePrepare. -/
theorem insensitive_fails : ¬ ∀ config : ReplicaCoreConfig, config.spec.primary 0 ≠ config.id →
    config.id < config.spec.numReplica → Insensitive .transparent config := by
  intro hclaim
  obtain ⟨⟨⟨history, replica, hdelivers⟩, -⟩, -⟩ := hclaim largestConfig (by decide) (by decide)
    (lateProposal .transparent largestConfig) _ (List.Perm.refl _)
    (lateProposal_passes Crypto.transparent_verifies)
    fun sent commands sent' commands' hmem hmem' _ =>
      (proposed_lateProposal ⟨sent, hmem, rfl⟩).trans
        (proposed_lateProposal ⟨sent', hmem', rfl⟩).symm
  have hcount := (hdelivers.of_late Crypto.transparent_verifies (by decide) (by decide)).2
  exact absurd hcount (by decide)

end Replica

end BftKit.Pbft
