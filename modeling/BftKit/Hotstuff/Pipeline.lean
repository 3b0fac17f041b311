import BftKit.Hotstuff.NetworkReplay
import BftKit.Hotstuff.Reordering
import BftKit.Hotstuff.Safety
import BftKit.Hotstuff.Signing

/-! # The normal-case pipeline

The leader sends one row of blocks. A backup stores the part of the row that it has
received without a gap, in whatever order the blocks come in, and every replica
finalizes what it stores up to the last three blocks.
-/

namespace BftKit.Hotstuff

open Foundation Threshold

variable {scheme : ThresholdScheme}

namespace Replica

variable {replica next : Replica scheme} {event : Event scheme}

/-- The commands finalized along a history, one list for each node. -/
def finalizedIn (history : List (Event scheme)) : List (List Command) :=
  history.flatMap fun event => event.actions.filterMap ReplicaAction.finalized?

theorem finalizedIn_concat (history : List (Event scheme)) (event : Event scheme) :
    finalizedIn (history ++ [event]) =
      finalizedIn history ++ event.actions.filterMap ReplicaAction.finalized? := by
  simp [finalizedIn]

theorem Refilled.finalized {actions : List (Action scheme)} (h : Refilled replica next actions) :
    actions.filterMap ReplicaAction.finalized? = [] := by
  cases h with
  | enough => rfl
  | refill =>
      unfold refillNonces
      split <;> rfl

/-- Performed finalizations hand out the commands of their nodes. -/
theorem Effect.finalized (h : Effect replica event next) :
    event.actions.filterMap ReplicaAction.finalized? =
      (finalizations event.performed?.toList).map fun key => (replica.core.nodeAt key).commands := by
  cases h with
  | init =>
      change replica.refillNonces.2.filterMap _ = []
      unfold refillNonces
      split <;> rfl
  | tick | request | ignore | accept | park | vote | supply | defer | release | propose => rfl
  | perform _ _ _ _ hvote =>
      cases hvote with
      | unlisted | unsigned => rfl
      | signed _ _ _ hcast =>
          cases hcast with
          | leader _ _ hrefilled => exact hrefilled.finalized
          | backup _ hrefilled => exact hrefilled.finalized
  | @finalize key _ node _ _ hnode =>
      change [node.commands] = [(replica.core.nodeAt key).commands]
      rw [ReplicaCore.nodeAt_eq hnode]

end Replica

section

variable {coreConfig : ReplicaCoreConfig} {cryptoConfig : CryptoConfig scheme}
  {history : List (Replica.Event scheme)} {replica : Replica scheme}

theorem LocalRun.finalization_lt (hrun : LocalRun coreConfig cryptoConfig history replica)
    {key : Nat}
    (hkey : key ∈ finalizations (Replica.performedIn history ++ replica.coreActions)) :
    key < replica.core.nodes.length := by
  obtain ⟨top, hcommitted⟩ := hrun.disciplined.committed key hkey
  exact (hrun.stored.ancestor_le hcommitted.ancestor).trans_lt (hrun.stored.block2_lt top)

theorem LocalRun.finalizedIn_eq (hrun : LocalRun coreConfig cryptoConfig history replica) :
    Replica.finalizedIn history = (finalizations (Replica.performedIn history)).map
      fun key => (replica.core.nodeAt key).commands := by
  induction hrun with
  | start => rfl
  | @step history replica event next hprev hstep ih =>
      have hgrows := hstep.effect.grows (LocalRun.stored hprev)
      have hold : ∀ key ∈ finalizations (Replica.performedIn history ++ event.performed?.toList),
          (next.core.nodeAt key).commands = (replica.core.nodeAt key).commands := by
        intro key hkey
        have hmem : key ∈ finalizations (Replica.performedIn history ++ replica.coreActions) := by
          rw [finalizations_append] at hkey ⊢
          refine (List.mem_append.mp hkey).elim (List.mem_append_left _) fun hnew => ?_
          obtain ⟨action, haction, heq⟩ := List.mem_filterMap.mp hnew
          have hqueued := hstep.queued (Option.mem_toList.mp haction)
          exact List.mem_append_right _ (List.mem_filterMap.mpr ⟨action, hqueued, heq⟩)
        rw [hgrows.nodeAt (LocalRun.finalization_lt hprev hmem)]
      rw [Replica.finalizedIn_concat, ih, hstep.effect.finalized, Replica.performedIn_concat,
        ← List.map_append, ← finalizations_append]
      exact (List.map_congr_left hold).symm

end

namespace Replica

variable {replica next : Replica scheme} {event : Event scheme} {digest : Digest}

theorem admittedBy_of_received {entry : Message.Generic scheme × Message.Block scheme}
    (h : event.received? = some entry) :
    replica.admittedBy event =
      if replica.Admits entry.1 entry.2 then [(entry.1.block, entry.2)] else [] := by
  unfold Event.received? at h
  split at h
  · obtain rfl := Option.some.inj h
    rfl
  all_goals cases h

theorem received_of_admittedBy {entry : Digest × Message.Block scheme}
    (h : entry ∈ replica.admittedBy event) : ∃ generic : Message.Generic scheme,
      generic.block = entry.1 ∧ event.received? = some (generic, entry.2) := by
  unfold admittedBy at h
  split at h
  next generic block _ =>
    split at h
    · obtain rfl := List.mem_singleton.mp h
      exact ⟨generic, rfl, rfl⟩
    · cases h
  all_goals cases h

/-- What is known stays known. -/
theorem Effect.lookup_isSome (h : Effect replica event next) (hstored : replica.core.Stored)
    (hknown : (replica.core.nodeIndex.lookup digest).isSome) :
    (next.core.nodeIndex.lookup digest).isSome := by
  cases h.core with
  | keep hcore => rwa [hcore]
  | give _ hhandle =>
      obtain ⟨hstored', hgrows⟩ := hstored.handle hhandle
      obtain ⟨key, hkey⟩ := Option.isSome_iff_exists.mp hknown
      obtain ⟨hlt, hdigest⟩ := (hstored.index _ _).mp hkey
      rw [(hstored'.index digest key).mpr
        ⟨hgrows.lt_length hlt, (hgrows.digestOf hlt).trans hdigest⟩]
      rfl

end Replica

/-- The first blocks of a list have been received, and not the one after them. -/
structure CaughtUp (sent received : List (Message.Generic scheme × Message.Block scheme))
    (height : Nat) : Prop where
  below : ∀ index < height, ∃ entry ∈ received, sent[index]? = some entry
  gap : ∀ entry ∈ received, sent[height]? ≠ some entry

/-- What a leader sends: a row of blocks under their digests, each with a certificate
of the one before it. -/
structure Sends (config : CryptoConfig scheme)
    (sent : List (Message.Generic scheme × Message.Block scheme)) : Prop where
  row : Row (sent.map Prod.snd)
  digest : ∀ entry ∈ sent, entry.1.block = scheme.digest entry.2
  verified : ∀ index entry, sent[index + 1]? = some entry → config.Verifies entry.2.justify

namespace Replica

variable {replica next : Replica scheme} {event : Event scheme}
  {sent received : List (Message.Generic scheme × Message.Block scheme)}
  {admitted : List (Digest × Message.Block scheme)} {performed : ReplicaCoreActions}

/-- A backup that has received some of what a leader sends. -/
structure Backs (sent received : List (Message.Generic scheme × Message.Block scheme))
    (admitted : List (Digest × Message.Block scheme)) (performed : ReplicaCoreActions)
    (replica : Replica scheme) : Prop where
  lined : replica.Lined performed
  stores : replica.core.Stores (sent.map Prod.snd)
  kept : ∀ entry ∈ received, (replica.core.nodeIndex.lookup entry.1.block).isSome ∨
    (entry.1.block, entry.2) ∈ admitted
  got : ∀ entry ∈ admitted, ∃ generic : Message.Generic scheme,
    generic.block = entry.1 ∧ (generic, entry.2) ∈ received

namespace Backs

/-- The place of an admitted block in the row. -/
theorem index (h : Backs sent received admitted performed replica) (hsource : received ⊆ sent)
    {entry : Digest × Message.Block scheme} (hentry : entry ∈ admitted) :
    ∃ index : Nat, (sent.map Prod.snd)[index]? = some entry.2 := by
  obtain ⟨generic, -, hmem⟩ := h.got entry hentry
  obtain ⟨index, hindex⟩ := List.mem_iff_getElem?.mp (hsource hmem)
  exact ⟨index, by rw [List.getElem?_map, hindex]; rfl⟩

/-- The block on the stack goes on top of the line. -/
theorem head (h : Backs sent received admitted performed replica)
    (hbuffers : Buffers admitted replica) (hsent : Sends replica.cryptoConfig sent)
    (hsource : received ⊆ sent) {blockDigest : Digest} {block : Message.Block scheme}
    {rest : List (Digest × Message.Block scheme)}
    (hpending : replica.pending = (blockDigest, block) :: rest) :
    (sent.map Prod.snd)[replica.core.nodes.length - 1]? = some block ∧
      scheme.digest block = blockDigest ∧ replica.core.Next block := by
  have hstored := h.lined.line.stored
  have hpos := hstored.nodes_pos
  obtain ⟨hadmitted, hunknown, hparent, -⟩ := hbuffers.head hpending
  obtain ⟨index, hblock⟩ := h.index hsource hadmitted
  have hdigest := hbuffers.digest _ hadmitted
  have hindex := (List.getElem?_eq_some_iff.mp hblock).1
  have hunknown' : ¬index + 1 < replica.core.nodes.length := by
    intro hlt
    rw [← hdigest, ← digestAt_succ hblock, h.stores.lookup hstored hsent.row (by omega),
      if_pos hlt] at hunknown
    cases hunknown
  have hparent' : index < replica.core.nodes.length := by
    by_contra hge
    rw [hsent.row.parent index block hblock, h.stores.lookup hstored hsent.row (by omega),
      if_neg hge] at hparent
    cases hparent
  obtain rfl : index = replica.core.nodes.length - 1 := by omega
  have hknown : replica.core.nodeIndex.lookup
      (digestAt (sent.map Prod.snd) (replica.core.nodes.length - 1)) =
      some (replica.core.nodes.length - 1) := by
    rw [h.stores.lookup hstored hsent.row (by omega), if_pos hparent']
  refine ⟨hblock, hdigest, ?_, ?_, ?_⟩
  · rw [hsent.row.parent _ block hblock, hknown]
  · rw [hsent.row.justify _ block hblock, hknown]
  · rw [hsent.row.height _ block hblock]
    omega

/-- A block of the row that is not stored is admitted. -/
theorem admits (h : Backs sent received admitted performed replica)
    (hsent : Sends replica.cryptoConfig sent) {generic : Message.Generic scheme}
    {block : Message.Block scheme} (hmem : (generic, block) ∈ sent)
    (hfresh : replica.core.nodeIndex.lookup generic.block = none) :
    replica.Admits generic block where
  fresh := hfresh
  digest := (hsent.digest _ hmem).symm
  verified := by
    obtain ⟨index, hindex⟩ := List.mem_iff_getElem?.mp hmem
    have hblock : (sent.map Prod.snd)[index]? = some block := by
      rw [List.getElem?_map, hindex]
      rfl
    unfold verifyJustify
    cases index with
    | zero =>
        rw [hsent.row.justify 0 block hblock, digestAt, h.lined.line.stored.certIndex_zero]
        rfl
    | succ index =>
        split
        · rfl
        · exact hsent.verified index _ hindex

theorem step (h : Backs sent received admitted performed replica)
    (hbuffers : Buffers admitted replica) (hsent : Sends replica.cryptoConfig sent)
    (hsource : received ++ event.received?.toList ⊆ sent)
    (hplans : proposals replica.coreActions = []) (heffect : Effect replica event next) :
    Backs sent (received ++ event.received?.toList) (admitted ++ replica.admittedBy event)
      (performed ++ event.performed?.toList) next := by
  have hstored := h.lined.line.stored
  have hgrows := heffect.grows hstored
  have hold : received ⊆ sent := fun entry hentry => hsource (List.mem_append_left _ hentry)
  -- a block that is given to the core is the next one that has been sent
  have hgiven : ∀ {blockDigest : Digest} {block : Message.Block scheme},
      Gives replica event (.proposal blockDigest block) ∨
        Gives replica event (.proposed blockDigest block) →
      event = .release blockDigest block ∧
        (sent.map Prod.snd)[replica.core.nodes.length - 1]? = some block ∧
        scheme.digest block = blockDigest ∧ replica.core.Next block := by
    rintro blockDigest block (hgives | hgives)
    · cases hgives with
      | proposal hpending => exact ⟨rfl, h.head hbuffers hsent hold hpending⟩
    · cases hgives with
      | proposed hqueue =>
          rw [hqueue] at hplans
          cases hplans
  constructor
  · exact h.lined.step heffect.core fun blockDigest block hgives => (hgiven hgives).2.2.2
  · cases heffect.core with
    | keep hcore =>
        rw [hcore]
        exact h.stores
    | @give coreEvent pushed hgives hhandle =>
        have hcases : (∀ blockDigest block, coreEvent ≠ .proposal blockDigest block ∧
            coreEvent ≠ .proposed blockDigest block) ∨ ∃ blockDigest block,
            coreEvent = .proposal blockDigest block ∨ coreEvent = .proposed blockDigest block := by
          cases coreEvent <;> simp
        rcases hcases with hother | ⟨blockDigest, block, hevent⟩
        · exact h.stores.grows hstored hgrows (by rw [hstored.handle_nodes hother hhandle])
        · obtain ⟨-, hblock, hdigest, -⟩ := @hgiven blockDigest block
            (by rcases hevent with rfl | rfl; exacts [.inl hgives, .inr hgives])
          obtain ⟨hrepresents, hlength⟩ := hstored.handle_block hevent hdigest hhandle
          intro index hindex
          rcases Nat.lt_or_ge (index + 1) replica.core.nodes.length with hlt | hge
          · obtain ⟨block', hblock', hrepresents'⟩ := h.stores index hlt
            exact ⟨block', hblock', hrepresents'.grows hgrows hstored hlt⟩
          · have hlast : index + 1 = replica.core.nodes.length := by omega
            refine ⟨block, ?_, hlast ▸ hrepresents⟩
            rwa [← hlast, Nat.add_sub_cancel] at hblock
  · intro entry hentry
    have hknown : (replica.core.nodeIndex.lookup entry.1.block).isSome →
        (next.core.nodeIndex.lookup entry.1.block).isSome := heffect.lookup_isSome hstored
    rcases List.mem_append.mp hentry with hentry | hentry
    · exact (h.kept entry hentry).imp hknown (List.mem_append_left _)
    · have hreceived := Option.mem_toList.mp hentry
      rw [admittedBy_of_received hreceived]
      by_cases hadmits : replica.Admits entry.1 entry.2
      · rw [if_pos hadmits]
        exact .inr (List.mem_append_right _ (List.mem_singleton_self _))
      · -- it passes all checks but one: it is known already
        refine .inl (hknown ?_)
        by_contra hnone
        exact hadmits
          (h.admits hsent (hsource (List.mem_append_right _ hentry)) (by simpa using hnone))
  · intro entry hentry
    rcases List.mem_append.mp hentry with hentry | hentry
    · obtain ⟨generic, hdigest, hmem⟩ := h.got entry hentry
      exact ⟨generic, hdigest, List.mem_append_left _ hmem⟩
    · obtain ⟨generic, hdigest, hreceived⟩ := received_of_admittedBy hentry
      exact ⟨generic, hdigest, List.mem_append_right _ (Option.mem_toList.mpr hreceived)⟩

/-- Between calls, a backup stores what it has received without a gap. -/
theorem caughtUp (h : Backs sent received admitted performed replica)
    (hbuffers : Buffers admitted replica) (hsent : Sends replica.cryptoConfig sent)
    (hsource : received ⊆ sent) (hbackup : replica.core.config.id ≠ 0) (hidle : replica.Idle) :
    CaughtUp sent received (replica.core.nodes.length - 1) := by
  have hstored := h.lined.line.stored
  have hpos := hstored.nodes_pos
  have hdigestAt : ∀ {index : Nat} {entry : Message.Generic scheme × Message.Block scheme},
      sent[index]? = some entry → index + 1 ≤ (sent.map Prod.snd).length ∧
        digestAt (sent.map Prod.snd) (index + 1) = scheme.digest entry.2 := by
    intro index entry hindex
    have hblock : (sent.map Prod.snd)[index]? = some entry.2 := by
      rw [List.getElem?_map, hindex]
      rfl
    exact ⟨(List.getElem?_eq_some_iff.mp hblock).1, digestAt_succ hblock⟩
  have hstores_length := h.stores.length hpos
  constructor
  · intro index hindex
    obtain ⟨entry, hentry, hrepresents⟩ := hbuffers.stored hbackup (index + 1) (by omega) (by omega)
    obtain ⟨generic, -, hmem⟩ := h.got entry hentry
    obtain ⟨index', hindex'⟩ := List.mem_iff_getElem?.mp (hsource hmem)
    obtain ⟨hle, hdigest⟩ := hdigestAt hindex'
    -- the block is in the row where it is in the store
    have hsame : digestAt (sent.map Prod.snd) (index' + 1) =
        digestAt (sent.map Prod.snd) (index + 1) := by
      rw [hdigest, ← h.stores.digestOf hstored (by omega), hrepresents.digest]
    have heq := hsent.row.distinct _ hle _ (by omega) hsame
    obtain rfl : index' = index := by omega
    exact ⟨_, hmem, hindex'⟩
  · intro entry hmem hindex
    obtain ⟨hle, hdigest⟩ := hdigestAt hindex
    have hunknown : replica.core.nodeIndex.lookup (scheme.digest entry.2) = none := by
      rw [← hdigest, h.stores.lookup hstored hsent.row hle, if_neg (by omega)]
    rcases h.kept entry hmem with hknown | hadmitted
    · rw [hsent.digest entry (hsource hmem), hunknown] at hknown
      cases hknown
    · rcases hbuffers.settled _ hadmitted with ⟨key, hlt, hrepresents⟩ | hpending | ⟨digest, hparked⟩
      · rw [← hrepresents.digest, hstored.lookup_digestOf hlt] at hunknown
        cases hunknown
      · rw [hidle.1] at hpending
        cases hpending
      · obtain ⟨parked, hlookup, hin⟩ := hparked
        have hwaiting : (entry.1.block, entry.2) ∈ replica.waitingAt (some digest) := by
          rw [waitingAt, hlookup]
          exact hin
        -- it would wait for the last node
        have hlast : digest = digestAt (sent.map Prod.snd) (replica.core.nodes.length - 1) := by
          have hblock : (sent.map Prod.snd)[replica.core.nodes.length - 1]? = some entry.2 := by
            rw [List.getElem?_map, hindex]
            rfl
          rcases hbuffers.parked digest _ hwaiting with heq | ⟨heq, -⟩
          · exact heq.trans (hsent.row.parent _ _ hblock)
          · exact heq.trans (hsent.row.justify _ _ hblock)
        have hnone := hbuffers.unknown hbackup digest _ hwaiting
        rw [hlast, h.stores.lookup hstored hsent.row (by omega), if_pos (by omega)] at hnone
        cases hnone

end Backs

end Replica

namespace ReplicaCore

variable {core : ReplicaCore scheme} {blocks : List (Message.Block scheme)}

/-- The commands of the first nodes of a row. -/
theorem Stores.commands (h : core.Stores blocks) {count : Nat}
    (hcount : count < core.nodes.length) :
    (List.range' 1 count).map (fun key => (core.nodeAt key).commands) =
      (blocks.take count).map Message.Block.commands := by
  induction count with
  | zero => rfl
  | succ count ih =>
      obtain ⟨block, hblock, hrepresents⟩ := h count hcount
      rw [List.range'_1_concat, List.map_append, ih (by omega), List.take_add_one, hblock,
        List.map_append, Nat.add_comm 1 count, List.map_singleton, hrepresents.commands]
      rfl

/-- The log of a store that holds a whole row. -/
theorem Stores.log (h : core.Stores blocks) (hstored : core.Stored)
    (hlength : core.nodes.length = blocks.length + 1) :
    core.log = (blocks.map Message.Block.commands).flatten := by
  have hnodes : core.nodes = (List.range core.nodes.length).map core.nodeAt := by
    apply List.ext_getElem (by simp)
    intro index hindex _
    rw [List.getElem_map, List.getElem_range, nodeAt, List.getD_eq_getElem _ _ hindex]
  have hrest := @Stores.commands _ core blocks h blocks.length (by omega)
  rw [List.take_length] at hrest
  rw [ReplicaCore.log, hnodes, hlength, List.range_eq_range', List.range'_succ, List.flatMap_map,
    List.flatMap_cons, hstored.genesis, ← hrest]
  rfl

end ReplicaCore

section

variable {coreConfig : ReplicaCoreConfig} {cryptoConfig : CryptoConfig scheme}
  {history : List (Replica.Event scheme)} {replica : Replica scheme}
  {sent : List (Message.Generic scheme × Message.Block scheme)}
  {blocks : List (Message.Block scheme)}

theorem AdmittingRun.backs {current : Replica scheme × List (Digest × Message.Block scheme)}
    (hrun : AdmittingRun coreConfig cryptoConfig history current) (hbackup : coreConfig.id ≠ 0)
    (hsent : Sends cryptoConfig sent) (hsource : Replica.received history ⊆ sent) :
    Replica.Backs sent (Replica.received history) current.2 (Replica.performedIn history)
      current.1 := by
  induction hrun with
  | start hinit =>
      subst hinit
      refine ⟨⟨.new scheme coreConfig, rfl, rfl⟩, ?_, ?_, ?_⟩
      · intro index hindex
        exact absurd hindex (by simp [Replica.new, ReplicaCore.new])
      · intro entry hentry
        cases hentry
      · intro entry hentry
        cases hentry
  | @step history current event next hprev hstep ih =>
      have hlocal := AdmittingRun.localRun hprev
      rw [Replica.received_concat] at hsource ⊢
      rw [Replica.performedIn_concat, hstep.2]
      have hold : Replica.received history ⊆ sent :=
        fun entry hentry => hsource (List.mem_append_left _ hentry)
      have hplans := hlocal.no_proposals hbackup
      rw [proposals_append, List.append_eq_nil_iff] at hplans
      rw [← hlocal.cryptoConfig_eq] at hsent
      exact (ih hold).step (AdmittingRun.buffers hprev) hsent hsource hplans.2 hstep.1.effect

/-- What a leader that receives no blocks sends. -/
theorem LocalRun.sends (hrun : LocalRun coreConfig cryptoConfig history replica)
    (hsound : AggregateSound scheme) (hleader : coreConfig.id = 0)
    (hreceived : Replica.received history = []) :
    Sends cryptoConfig (Replica.generics history) := by
  have hproposes := hrun.proposes hsound hleader hreceived
  exact ⟨hproposes.issues.row (hrun.leads hleader hreceived).2.line, hproposes.digest,
    hproposes.verified⟩

/-- All replicas with a share of the same key accept what a leader sends. -/
theorem Sends.congr {cryptoConfig' : CryptoConfig scheme} (h : Sends cryptoConfig sent)
    (hkey : scheme.sharedPublicKey cryptoConfig'.keyShare =
      scheme.sharedPublicKey cryptoConfig.keyShare) : Sends cryptoConfig' sent where
  row := h.row
  digest := h.digest
  verified index entry hentry := by
    have hverified := h.verified index entry hentry
    unfold CryptoConfig.Verifies at hverified ⊢
    rwa [hkey]

/-- What has been finalized are the commands of the first blocks, up to the last three. -/
theorem LocalRun.finalizedIn_take (hrun : LocalRun coreConfig cryptoConfig history replica)
    (hlined : replica.Lined (Replica.performedIn history)) (hstores : replica.core.Stores blocks) :
    ∃ count ≤ replica.core.nodes.length - 4,
      finalizations (Replica.performedIn history) = List.range' 1 count ∧
      Replica.finalizedIn history = (blocks.take count).map Message.Block.commands ∧
      (replica.coreActions = [] → count = replica.core.nodes.length - 4) := by
  have hpos := hlined.line.stored.nodes_pos
  have hall := hlined.finalizations
  rw [finalizations_append] at hall
  obtain ⟨count, hle, hperformed, -⟩ := List.range'_eq_append_iff.mp hall.symm
  refine ⟨count, hle, hperformed, ?_, ?_⟩
  · rw [hrun.finalizedIn_eq, ← hstores.commands (by omega), ← hperformed]
  · intro hqueue
    have hlength := congrArg List.length hall
    rw [hqueue, hperformed, List.length_append, List.length_range', List.length_range'] at hlength
    exact hlength

end

namespace Group

/-- The normal-case pipeline: the leader's blocks form one chain whose links are all
certified, a backup between calls stores what it has received without a gap, and each
replica finalizes what it stores but for the last three blocks. -/
structure Pipelined (group : Group scheme) (history : History scheme)
    (network : Network Nat (Replica scheme) (ToReplica scheme))
    (sent : List (Message.Generic scheme × Message.Block scheme)) : Prop where
  sends : Sends (group.cryptoConfig 0) sent
  leader : (network.states 0).core.nodes.length = sent.length + 1
  stores : ∀ who < group.spec.numReplica, (network.states who).core.Stores (sent.map Prod.snd)
  backup : ∀ who < group.spec.numReplica, who ≠ 0 → (network.states who).Idle →
    CaughtUp sent (Replica.received (view who history))
      ((network.states who).core.nodes.length - 1)
  finalized : ∀ who < group.spec.numReplica, (network.states who).Idle →
    finalizations (Replica.performedIn (view who history)) =
        List.range' 1 ((network.states who).core.nodes.length - 4) ∧
      Replica.finalizedIn (view who history) =
        ((sent.map Prod.snd).take ((network.states who).core.nodes.length - 4)).map
          Message.Block.commands
  comparable : ∀ who < group.spec.numReplica, ∀ who' < group.spec.numReplica,
    Replica.finalizedIn (view who history) <+: Replica.finalizedIn (view who' history) ∨
      Replica.finalizedIn (view who' history) <+: Replica.finalizedIn (view who history)
  increasing : ∀ who < group.spec.numReplica,
    SeqIncreasing (Replica.finalizedIn (view who history)).flatten

variable {group : Group scheme} {history : History scheme}
  {network : Network Nat (Replica scheme) (ToReplica scheme)} {who : Nat}

/-- Every replica's store is a line, of the blocks that the leader has sent. -/
theorem NetworkRun.lined (hrun : group.NetworkRun history network) (hsound : AggregateSound scheme)
    (hkey : scheme.sharedPublicKey (group.keyShare who) = scheme.sharedPublicKey (group.keyShare 0)) :
    (network.states who).Lined (Replica.performedIn (view who history)) ∧
      (network.states who).core.Stores ((Replica.generics (view 0 history)).map Prod.snd) ∧
      (who ≠ 0 → (network.states who).Idle →
        CaughtUp (Replica.generics (view 0 history)) (Replica.received (view who history))
          ((network.states who).core.nodes.length - 1)) := by
  have hleader := NetworkRun.localRun hrun 0
  have hreceived := NetworkRun.leader_received hrun
  have hsends := hleader.sends hsound rfl hreceived
  have hlocal := NetworkRun.localRun hrun who
  by_cases hid : who = 0
  · subst hid
    refine ⟨(hleader.leads rfl hreceived).2, (hleader.proposes hsound rfl hreceived).stores, ?_⟩
    exact fun hbackup => absurd rfl hbackup
  · have hsource : Replica.received (view who history) ⊆ Replica.generics (view 0 history) :=
      fun entry hentry => (NetworkRun.received hrun hentry).2
    have hsends' : Sends (group.cryptoConfig who) _ := hsends.congr hkey
    obtain ⟨admitted, hadmitting⟩ := hlocal.admitting
    have hbacks := hadmitting.backs hid hsends' hsource
    refine ⟨hbacks.lined, hbacks.stores, fun _ hidle => ?_⟩
    rw [← hlocal.cryptoConfig_eq] at hsends'
    exact hbacks.caughtUp hadmitting.buffers hsends' hsource (hlocal.config ▸ hid) hidle

/-- All that is finalized has been sent by the leader, in this order. -/
theorem NetworkRun.finalizedIn_prefix (hrun : group.NetworkRun history network)
    (hsound : AggregateSound scheme)
    (hkey : scheme.sharedPublicKey (group.keyShare who) = scheme.sharedPublicKey (group.keyShare 0)) :
    Replica.finalizedIn (view who history) <+:
      ((Replica.generics (view 0 history)).map Prod.snd).map Message.Block.commands := by
  obtain ⟨hlined, hstores, -⟩ := NetworkRun.lined hrun hsound hkey
  obtain ⟨count, -, -, htake, -⟩ :=
    (NetworkRun.localRun hrun who).finalizedIn_take hlined hstores
  rw [htake, List.map_take]
  exact List.take_prefix _ _

/-- What the leader sends has increasing sequence numbers. -/
theorem NetworkRun.sent_increasing (hrun : group.NetworkRun history network)
    (hsound : AggregateSound scheme) :
    SeqIncreasing (((Replica.generics (view 0 history)).map Prod.snd).map
      Message.Block.commands).flatten := by
  have hleader := NetworkRun.localRun hrun 0
  have hreceived := NetworkRun.leader_received hrun
  have hproposes := hleader.proposes hsound rfl hreceived
  have hleads := (hleader.leads rfl hreceived).1
  rw [← hproposes.stores.log hleads.core.line.stored (by rw [hproposes.length, List.length_map])]
  have hplans := hleads.core.plans
  generalize proposals (network.states 0).coreActions = planned at hplans
  cases hplans with
  | none _ _ hissued => exact hissued.increasing
  | one _ _ _ hissued => exact (SeqIncreasing.append_iff.mp hissued.increasing).1

/-- In every reachable state of a network of replicas that follow the code and share a
key, the pipeline works. Messages come in any order, once or not at all. Of the aggregate
scheme only its soundness is used. -/
theorem pipeline (hrun : group.NetworkRun history network) (hsound : AggregateSound scheme)
    (hkeys : ∀ who < group.spec.numReplica,
      scheme.sharedPublicKey (group.keyShare who) = scheme.sharedPublicKey (group.keyShare 0)) :
    group.Pipelined history network (Replica.generics (view 0 history)) := by
  have hleader := NetworkRun.localRun hrun 0
  have hreceived := NetworkRun.leader_received hrun
  constructor
  · exact hleader.sends hsound rfl hreceived
  · exact (hleader.proposes hsound rfl hreceived).length
  · intro who hwho
    exact (NetworkRun.lined hrun hsound (hkeys who hwho)).2.1
  · intro who hwho hbackup hidle
    exact (NetworkRun.lined hrun hsound (hkeys who hwho)).2.2 hbackup hidle
  · intro who hwho hidle
    obtain ⟨hlined, hstores, -⟩ := NetworkRun.lined hrun hsound (hkeys who hwho)
    obtain ⟨count, -, hfinalizations, hfinalized, hcount⟩ :=
      (NetworkRun.localRun hrun who).finalizedIn_take hlined hstores
    obtain rfl := hcount hidle.2
    exact ⟨hfinalizations, hfinalized⟩
  · intro who hwho who' hwho'
    exact List.prefix_or_prefix_of_prefix
      (NetworkRun.finalizedIn_prefix hrun hsound (hkeys who hwho))
      (NetworkRun.finalizedIn_prefix hrun hsound (hkeys who' hwho'))
  · intro who hwho
    have hprefix := NetworkRun.finalizedIn_prefix hrun hsound (hkeys who hwho)
    exact SeqIncreasing.sublog hprefix.flatten (NetworkRun.sent_increasing hrun hsound)

/-- Four replicas in the middle of the pipeline: the first backup has finalized a command
that has not reached the last one. -/
theorem pipeline_four :
    ∃ (history : History .transparent)
      (network : Network Nat (Replica .transparent) (ToReplica .transparent)),
      Replica.finalizedIn (view 1 history) = [[ping 0]] ∧
      Replica.finalizedIn (view 3 history) = [] ∧
      (four ∅).Pipelined history network (Replica.generics (view 0 history)) := by
  have hreplay : ∃ run ∈ replayNetwork (four ∅) (fourQueue 16),
      Replica.finalizedIn (view 1 run.1) = [[ping 0]] ∧
      Replica.finalizedIn (view 3 run.1) = [] := by
    decide +kernel
  obtain ⟨⟨history, network⟩, hrun, hfirst, hlast⟩ := hreplay
  have hkeys : ∀ who < (four ∅).spec.numReplica,
      ThresholdScheme.transparent.sharedPublicKey ((four ∅).keyShare who) =
        ThresholdScheme.transparent.sharedPublicKey ((four ∅).keyShare 0) :=
    fun who _ => rfl
  have hpipelined := pipeline (replayNetwork_run hrun) transparent_aggregateSound hkeys
  exact ⟨history, network, hfirst, hlast, hpipelined⟩

end Group

end BftKit.Hotstuff
