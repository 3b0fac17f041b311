import BftKit.Foundation.OrderedMap
import BftKit.Foundation.Run
import BftKit.Pbft.Outcome
import BftKit.Pbft.Replay

/-! # Entering a view

A backup that enters a view compares the proposals it is given with the ones it computes from
the quorum, entry by entry, and then drops what it has stored from the first proposed number
on. The comparison ends with the shorter of the two maps, and no number is compared with the
last finalized one.
-/

namespace BftKit.Pbft

open Foundation

variable {crypto : Crypto}

namespace ReplicaCore

/-- `handle`, with some computation in place of the placeholder `view_change_proposals`. -/
def handleWith (viewChangeProposals : Quorum (Blocks crypto) → Std.ExtTreeMap Nat (List Command))
    (core : ReplicaCore crypto) :
    ReplicaCoreEvent crypto → Except Panic (ReplicaCore crypto × ReplicaCoreActions crypto)
  | .viewChangeQuorum viewNum quorum =>
      if core.isPrimaryOf viewNum then
        .ok ({ core with viewNum }, [.newView viewNum quorum (viewChangeProposals quorum)])
      else .ok (core, [])
  | .enterView viewNum quorum proposals =>
      core.enterView viewNum (viewChangeProposals quorum) proposals
  | .request command => core.handle (.request command)
  | .proposal blockNum block => core.handle (.proposal blockNum block)
  | .prepareQuorum blockNum quorum => core.handle (.prepareQuorum blockNum quorum)
  | .commitQuorum blockNum quorum => core.handle (.commitQuorum blockNum quorum)
  | .viewExpired => core.handle .viewExpired

example (core : ReplicaCore crypto) (event : ReplicaCoreEvent crypto) :
    core.handleWith viewChangeProposals event = core.handle event := by
  cases event <;> rfl

/-- The proposals have exactly the block numbers and digests that have been computed. -/
abbrev Dictates (computed : Std.ExtTreeMap Nat (List Command)) (proposals : Blocks crypto) : Prop :=
  SameEntries Block.digest (blockDigest crypto) proposals computed

/-- Blocks up to the last finalized number stay as they are and are not prepared. -/
structure Spares (core core' : ReplicaCore crypto) (actions : ReplicaCoreActions crypto) :
    Prop where
  blocks : ∀ (blockNum : Nat) (block : Block crypto), blockNum ≤ core.finalizeNum →
    core.blocks[blockNum]? = some block → core'.blocks[blockNum]? = some block
  prepares : ∀ blockNum digest, .prepare blockNum digest ∈ actions → core.finalizeNum < blockNum

/-- Only what has been computed is adopted, and it spares what is finalized. -/
def Adopts (core : ReplicaCore crypto) (viewNum : Nat)
    (computed : Std.ExtTreeMap Nat (List Command)) (proposals : Blocks crypto) : Prop :=
  ∃ core' actions, core.enterView viewNum computed proposals = .ok (core', actions) ∧
    (¬ Dictates computed proposals → core' = core ∧ actions = []) ∧
    (.enterView ∈ actions → core.Spares core' actions)

/-- The walk over both maps meets a mismatch, or the maps are of one size and the proposals
start behind the last finalized number. -/
def Admits (core : ReplicaCore crypto) (computed : Std.ExtTreeMap Nat (List Command))
    (proposals : Blocks crypto) : Prop :=
  ¬ Walks Block.digest (blockDigest crypto) proposals computed ∨
    proposals.size = computed.size ∧ ∀ blockNum ∈ proposals, core.finalizeNum < blockNum

variable {core core' : ReplicaCore crypto} {actions : ReplicaCoreActions crypto} {viewNum : Nat}
  {computed : Std.ExtTreeMap Nat (List Command)} {proposals : Blocks crypto}

/-! ## One event -/

theorem enterView_mismatch (hbackup : core.isPrimaryOf viewNum = false)
    (hwalk : ¬ Walks Block.digest (blockDigest crypto) proposals computed) :
    core.enterView viewNum computed proposals = .ok (core, []) := by
  unfold enterView
  rw [hbackup, if_neg Bool.false_ne_true, if_pos]
  simp only [Walks, not_forall, not_and_or] at hwalk
  obtain ⟨pair, hmem, hdiffers⟩ := hwalk
  refine List.any_eq_true.mpr ⟨pair, hmem, ?_⟩
  simpa using hdiffers

/-- Without a mismatch the view is entered, with a Prepare for every proposal. -/
theorem enterView_match (hbackup : core.isPrimaryOf viewNum = false)
    (hwalk : Walks Block.digest (blockDigest crypto) proposals computed) :
    ∃ core', core.enterView viewNum computed proposals = .ok (core',
        .enterView :: proposals.toList.map fun entry => .prepare entry.1 entry.2.digest) ∧
      core'.finalizeNum = core.finalizeNum ∧
      ∀ blockNum, (∀ other ∈ proposals, blockNum < other) →
        core'.blocks[blockNum]? = core.blocks[blockNum]? := by
  unfold enterView
  rw [hbackup, if_neg Bool.false_ne_true, if_neg]
  swap
  · rw [List.any_eq_true]
    rintro ⟨pair, hmem, hdiffers⟩
    obtain ⟨hkey, hdigest⟩ := hwalk pair hmem
    simp [hkey, hdigest] at hdiffers
  split
  next hmin =>
    obtain rfl := Std.ExtTreeMap.minKey?_eq_none_iff.mp hmin
    exact ⟨_, rfl, rfl, fun _ _ => rfl⟩
  next minNum hmin =>
    refine ⟨_, rfl, rfl, fun blockNum hbefore => ?_⟩
    have hmem := (Std.ExtTreeMap.minKey?_eq_some_iff_mem_and_forall.mp hmin).1
    rw [getElem?_foldl_insert, Std.ExtTreeMap.getElem?_filter']
    · have hlt : blockNum < minNum := hbefore minNum hmem
      cases core.blocks[blockNum]? <;> simp [hlt]
    · rintro ⟨other, block⟩ hentry
      have hother := Std.ExtTreeMap.mem_toList_iff_getElem?_eq_some.mp hentry
      exact (hbefore other (Std.ExtTreeMap.mem_iff_isSome_getElem?.mpr (by simp [hother]))).ne'

theorem mem_prepares {blockNum : Nat} :
    (∃ digest, .prepare blockNum digest ∈ (proposals.toList.map fun entry =>
      (.prepare entry.1 entry.2.digest : ReplicaCoreAction crypto))) ↔ blockNum ∈ proposals := by
  rw [Std.ExtTreeMap.mem_iff_isSome_getElem?, Option.isSome_iff_exists]
  constructor
  · rintro ⟨digest, hmem⟩
    obtain ⟨⟨other, block⟩, hentry, heq⟩ := List.mem_map.mp hmem
    obtain ⟨rfl, -⟩ := ReplicaCoreAction.prepare.inj heq
    exact ⟨block, Std.ExtTreeMap.mem_toList_iff_getElem?_eq_some.mp hentry⟩
  · rintro ⟨block, hblock⟩
    exact ⟨block.digest, List.mem_map.mpr
      ⟨(blockNum, block), Std.ExtTreeMap.mem_toList_iff_getElem?_eq_some.mpr hblock, rfl⟩⟩

/-- Proposals behind the last finalized number spare what is finalized. -/
theorem enterView_spares (hbackup : core.isPrimaryOf viewNum = false)
    (hwalk : Walks Block.digest (blockDigest crypto) proposals computed)
    (hbehind : ∀ blockNum ∈ proposals, core.finalizeNum < blockNum)
    (henter : core.enterView viewNum computed proposals = .ok (core', actions)) :
    core.Spares core' actions ∧ core'.finalizeNum = core.finalizeNum := by
  obtain ⟨entered, hentered, hnum, hblocks⟩ := enterView_match hbackup hwalk
  obtain ⟨rfl, rfl⟩ := Prod.mk.inj (Except.ok.inj (hentered.symm.trans henter))
  refine ⟨⟨?_, ?_⟩, hnum⟩
  · intro blockNum block hle hblock
    rwa [hblocks blockNum fun other hmem => hle.trans_lt (hbehind other hmem)]
  · intro blockNum digest hprepare
    refine hbehind blockNum (mem_prepares.mp ⟨digest, ?_⟩)
    simpa using hprepare

theorem adopts_iff (hbackup : core.isPrimaryOf viewNum = false) :
    core.Adopts viewNum computed proposals ↔ core.Admits computed proposals := by
  by_cases hwalk : Walks Block.digest (blockDigest crypto) proposals computed
  · obtain ⟨entered, henter, -, -⟩ := enterView_match hbackup hwalk
    constructor
    · rintro ⟨core', actions, hresult, hunchanged, hspares⟩
      obtain ⟨rfl, rfl⟩ := Prod.mk.inj (Except.ok.inj (henter.symm.trans hresult))
      refine .inr ⟨?_, ?_⟩
      · refine hwalk.sameEntries_iff.mp ?_
        by_contra hother
        cases (hunchanged hother).2
      · intro blockNum hmem
        obtain ⟨digest, hprepare⟩ := mem_prepares.mpr hmem
        exact (hspares List.mem_cons_self).prepares blockNum digest
          (List.mem_cons_of_mem _ hprepare)
    · rintro (hmismatch | ⟨hsize, hbehind⟩)
      · exact absurd hwalk hmismatch
      · refine ⟨entered, _, henter, fun hother => absurd (hwalk.sameEntries hsize) hother, ?_⟩
        exact fun _ => (enterView_spares hbackup hwalk hbehind henter).1
  · exact ⟨fun _ => .inl hwalk, fun _ =>
      ⟨core, [], enterView_mismatch hbackup hwalk, fun _ => ⟨rfl, rfl⟩, by simp⟩⟩

/-! ## Runs of the core -/

variable {viewChangeProposals : Quorum (Blocks crypto) → Std.ExtTreeMap Nat (List Command)}
  {config : ReplicaCoreConfig} {event : ReplicaCoreEvent crypto}
  {events : List (ReplicaCoreEvent crypto)}

/-- The runs of a core that handles any events. -/
abbrev EventRun (viewChangeProposals : Quorum (Blocks crypto) → Std.ExtTreeMap Nat (List Command))
    (config : ReplicaCoreConfig) : List (ReplicaCoreEvent crypto) → ReplicaCore crypto → Prop :=
  Run (· = .new config) fun _ core event next =>
    ∃ actions, core.handleWith viewChangeProposals event = .ok (next, actions)

/-- An event, if it enters a view, is one that the core admits. -/
def Admitted (viewChangeProposals : Quorum (Blocks crypto) → Std.ExtTreeMap Nat (List Command))
    (core : ReplicaCore crypto) : ReplicaCoreEvent crypto → Prop
  | .enterView _ quorum proposals => core.Admits (viewChangeProposals quorum) proposals
  | .request _ | .proposal _ _ | .prepareQuorum _ _ | .commitQuorum _ _ | .viewExpired
  | .viewChangeQuorum _ _ => True

/-- The runs whose events are all admitted. -/
abbrev AdmittedRun
    (viewChangeProposals : Quorum (Blocks crypto) → Std.ExtTreeMap Nat (List Command))
    (config : ReplicaCoreConfig) : List (ReplicaCoreEvent crypto) → ReplicaCore crypto → Prop :=
  Run (· = .new config) fun _ core event next =>
    core.Admitted viewChangeProposals event ∧
      ∃ actions, core.handleWith viewChangeProposals event = .ok (next, actions)

/-- The block is stored with both of its quorums, as every finalized one is. -/
def Finalized (core : ReplicaCore crypto) (blockNum : Nat) (block : Block crypto) : Prop :=
  core.blocks[blockNum]? = some block ∧ block.prepareQuorum.isSome ∧ block.commitQuorum.isSome

/-- No block is missing up to the last finalized number. -/
def Gapless (core : ReplicaCore crypto) : Prop :=
  ∀ blockNum, 1 ≤ blockNum → blockNum ≤ core.finalizeNum → ∃ block, core.Finalized blockNum block

/-- What is finalized stays finalized as it is and is not prepared again, and no number is
passed over. -/
structure KeepsFinalized (core core' : ReplicaCore crypto) (actions : ReplicaCoreActions crypto) :
    Prop where
  finalizeNum : core.finalizeNum ≤ core'.finalizeNum
  blocks : ∀ blockNum block, 1 ≤ blockNum → blockNum ≤ core.finalizeNum →
    core.Finalized blockNum block → core'.Finalized blockNum block
  finalized : ∀ blockNum, core.finalizeNum < blockNum → blockNum ≤ core'.finalizeNum →
    ∃ block, core'.Finalized blockNum block
  prepares : ∀ blockNum digest, 1 ≤ blockNum → .prepare blockNum digest ∈ actions →
    core.finalizeNum < blockNum

theorem KeepsFinalized.gapless (h : core.KeepsFinalized core' actions) (hgapless : core.Gapless) :
    core'.Gapless := by
  intro blockNum hpos hle
  by_cases hold : blockNum ≤ core.finalizeNum
  · obtain ⟨block, hblock⟩ := hgapless blockNum hpos hold
    exact ⟨block, h.blocks blockNum block hpos hold hblock⟩
  · exact h.finalized blockNum (not_le.mp hold) hle

theorem ne_prepare_of_flat {action : ReplicaCoreAction crypto} (hflat : Replica.Flat action)
    (blockNum : Nat) (digest : Digest) : action ≠ .prepare blockNum digest := by
  rintro rfl
  exact hflat

/-- A step that leaves the blocks alone and prepares nothing. -/
theorem Spares.of_eq (hblocks : core'.blocks = core.blocks)
    (hprepares : ∀ action ∈ actions, ∀ blockNum digest, action ≠ .prepare blockNum digest) :
    core.Spares core' actions where
  blocks blockNum block _ hblock := by rwa [hblocks]
  prepares blockNum digest hmem := absurd rfl (hprepares _ hmem blockNum digest)

theorem Spares.keepsFinalized (h : core.Spares core' actions)
    (hnum : core'.finalizeNum = core.finalizeNum) : core.KeepsFinalized core' actions where
  finalizeNum := hnum.ge
  blocks blockNum block _ hle hblock := ⟨h.blocks blockNum block hle hblock.1, hblock.2⟩
  finalized _ hlt hle := absurd (hnum ▸ hle) (not_le.mpr hlt)
  prepares blockNum digest _ := h.prepares blockNum digest

/-- A block that lacks a quorum is not one of the finalized ones. -/
theorem Finalized.insert {blockNum other : Nat} {block stored : Block crypto}
    (h : core.Finalized other stored) (hblocks : core'.blocks = core.blocks.insert blockNum block)
    (hopen : ∀ stored, ¬ core.Finalized blockNum stored) : core'.Finalized other stored := by
  have hne : blockNum ≠ other := by
    rintro rfl
    exact hopen stored h
  refine ⟨?_, h.2⟩
  rw [hblocks, Replica.getElem?_insert_of_ne hne]
  exact h.1

theorem proposal_keepsFinalized (hgapless : core.Gapless) {blockNum : Nat} {block : Block crypto}
    (hhandle : core.handle (.proposal blockNum block) = .ok (core', actions)) :
    core.KeepsFinalized core' actions := by
  rcases proposal_outcome hhandle with ⟨-, rfl, rfl⟩ | ⟨hnone, rfl, rfl⟩
  · exact (Spares.of_eq rfl (by simp)).keepsFinalized rfl
  · have hopen : ∀ stored, ¬ core.Finalized blockNum stored := by
      rintro stored ⟨hstored, -⟩
      cases hnone.symm.trans hstored
    refine ⟨le_rfl, fun _ _ _ _ h => h.insert rfl hopen, by dsimp only; omega, ?_⟩
    intro other digest hpos hmem
    split at hmem
    next => cases hmem
    next =>
      obtain ⟨rfl, -⟩ := ReplicaCoreAction.prepare.inj (List.mem_singleton.mp hmem)
      by_contra hle
      obtain ⟨stored, hstored⟩ := hgapless other hpos (not_lt.mp hle)
      exact hopen stored hstored

theorem prepareQuorum_keepsFinalized {blockNum : Nat} {quorum : Quorum crypto.Sig}
    (hhandle : core.handle (.prepareQuorum blockNum quorum) = .ok (core', actions)) :
    core.KeepsFinalized core' actions := by
  obtain ⟨block, hblock, hnone, rfl, rfl⟩ := prepareQuorum_outcome hhandle
  have hopen : ∀ stored, ¬ core.Finalized blockNum stored := by
    rintro stored ⟨hstored, hprepared, -⟩
    obtain rfl := Option.some.inj (hblock.symm.trans hstored)
    simp [hnone] at hprepared
  exact ⟨le_rfl, fun _ _ _ _ h => h.insert rfl hopen, by dsimp only; omega, by simp⟩

theorem commitQuorum_keepsFinalized {blockNum : Nat} {quorum : Quorum crypto.Sig}
    (hhandle : core.handle (.commitQuorum blockNum quorum) = .ok (core', actions)) :
    core.KeepsFinalized core' actions := by
  obtain ⟨block, hblock, hnone, hcore, hlooped, hle, hrun⟩ := commitQuorum_outcome hhandle
  have hopen : ∀ stored, ¬ core.Finalized blockNum stored := by
    rintro stored ⟨hstored, -, hcommitted⟩
    obtain rfl := Option.some.inj (hblock.symm.trans hstored)
    simp [hnone] at hcommitted
  refine ⟨hle, fun _ _ _ _ h => h.insert (by rw [hcore]) hopen, hrun, ?_⟩
  intro other digest _ hmem
  exact absurd rfl (ne_prepare_of_flat (hlooped _ hmem).flat other digest)

theorem enterView_keepsFinalized (hadmits : core.Admits computed proposals)
    (henter : core.enterView viewNum computed proposals = .ok (core', actions)) :
    core.KeepsFinalized core' actions := by
  cases hprimary : core.isPrimaryOf viewNum with
  | true =>
      rw [enterView, hprimary, if_pos rfl] at henter
      cases henter
  | false =>
      by_cases hwalk : Walks Block.digest (blockDigest crypto) proposals computed
      · obtain ⟨-, hbehind⟩ := hadmits.resolve_left (not_not.mpr hwalk)
        obtain ⟨hspares, hnum⟩ := enterView_spares hprimary hwalk hbehind henter
        exact hspares.keepsFinalized hnum
      · obtain ⟨rfl, rfl⟩ := Prod.mk.inj (Except.ok.inj
          ((enterView_mismatch hprimary hwalk).symm.trans henter))
        exact (Spares.of_eq rfl (by simp)).keepsFinalized rfl

/-- Every event but `EnterView` keeps what is finalized, and that one does if it is admitted. -/
theorem handleWith_keepsFinalized (hgapless : core.Gapless)
    (hadmitted : core.Admitted viewChangeProposals event)
    (hhandle : core.handleWith viewChangeProposals event = .ok (core', actions)) :
    core.KeepsFinalized core' actions := by
  cases event with
  | request command =>
      obtain ⟨hcore, hflat⟩ := request_outcome hhandle
      refine Spares.keepsFinalized (.of_eq ?_ ?_) (by rw [hcore])
      · rw [hcore]
      · exact fun action hmem => ne_prepare_of_flat (hflat action hmem)
  | proposal blockNum block => exact proposal_keepsFinalized hgapless hhandle
  | prepareQuorum blockNum quorum => exact prepareQuorum_keepsFinalized hhandle
  | commitQuorum blockNum quorum => exact commitQuorum_keepsFinalized hhandle
  | viewExpired =>
      obtain ⟨rfl, rfl⟩ := Prod.mk.inj (Except.ok.inj hhandle)
      exact (Spares.of_eq rfl (by simp)).keepsFinalized rfl
  | viewChangeQuorum viewNum quorum =>
      simp only [handleWith] at hhandle
      split at hhandle
      all_goals
        obtain ⟨rfl, rfl⟩ := Prod.mk.inj (Except.ok.inj hhandle)
        refine Spares.keepsFinalized (.of_eq rfl ?_) rfl
        simp
  | enterView viewNum quorum proposals => exact enterView_keepsFinalized hadmitted hhandle

theorem AdmittedRun.gapless (hrun : AdmittedRun viewChangeProposals config events core) :
    core.Gapless := by
  induction hrun with
  | start hstart =>
      intro blockNum hpos hle
      rw [hstart] at hle
      exact absurd hle (not_le.mpr hpos)
  | step _ hstep ih =>
      obtain ⟨hadmitted, actions, hhandle⟩ := hstep
      exact (handleWith_keepsFinalized ih hadmitted hhandle).gapless ih

/-- A view is entered as claimed if and only if the core admits it. As long as it does, no
event of the run replaces or prepares what is finalized. What a quorum of ViewChanges proposes
is a parameter, as the code does not compute it. -/
theorem enterView_adopts :
    (∀ (core : ReplicaCore crypto) viewNum quorum proposals, core.isPrimaryOf viewNum = false →
      (core.Adopts viewNum (viewChangeProposals quorum) proposals ↔
        core.Admits (viewChangeProposals quorum) proposals)) ∧
    ∀ events (core : ReplicaCore crypto) event core' actions,
      AdmittedRun viewChangeProposals config events core →
      core.Admitted viewChangeProposals event →
      core.handleWith viewChangeProposals event = .ok (core', actions) →
      core.Gapless ∧ core.KeepsFinalized core' actions := by
  refine ⟨fun _ _ _ _ hbackup => adopts_iff hbackup, ?_⟩
  intro events core event core' actions hrun hadmitted hhandle
  have hgapless := AdmittedRun.gapless hrun
  exact ⟨hgapless, handleWith_keepsFinalized hgapless hadmitted hhandle⟩

/-! ## A backup of four -/

/-- The core after a list of events. -/
def handleAll (viewChangeProposals : Quorum (Blocks crypto) → Std.ExtTreeMap Nat (List Command))
    (core : ReplicaCore crypto) (events : List (ReplicaCoreEvent crypto)) :
    Except Panic (ReplicaCore crypto) :=
  events.foldlM (fun core event => do return (← core.handleWith viewChangeProposals event).1) core

theorem AdmittedRun.handleAll {more : List (ReplicaCoreEvent crypto)}
    (hrun : AdmittedRun viewChangeProposals config events core)
    (hadmitted : ∀ event ∈ more, ∀ core, Admitted viewChangeProposals core event)
    (hmore : core.handleAll viewChangeProposals more = .ok core') :
    AdmittedRun viewChangeProposals config (events ++ more) core' := by
  induction more generalizing core events with
  | nil =>
      obtain rfl := Except.ok.inj hmore
      rwa [List.append_nil]
  | cons event rest ih =>
      rw [ReplicaCore.handleAll, List.foldlM_cons, bind_eq_ok] at hmore
      obtain ⟨middle, hmiddle, hrest⟩ := hmore
      rw [bind_eq_ok] at hmiddle
      obtain ⟨result, hhandle, heq⟩ := hmiddle
      obtain rfl : result.1 = middle := Except.ok.inj heq
      rw [← List.singleton_append, ← List.append_assoc]
      refine ih (.step hrun ⟨hadmitted event List.mem_cons_self core, result.2, hhandle⟩) ?_ hrest
      exact fun other hmem => hadmitted other (List.mem_cons_of_mem _ hmem)

/-- A block that the first primary of four proposes as its first one. -/
def fourBlock (commands : List Command) : Block .transparent where
  commands
  digest := blockDigest .transparent commands
  prePrepare := (0, (Group.fourPrePrepare 1 commands).sig)
  prepareQuorum := none
  commitQuorum := none

/-- The signatures of some of the four under that block. -/
def fourQuorum (ids : List Nat) (commands : List Command) : Quorum Crypto.transparent.Sig :=
  Map.extend ∅ (ids.map fun id => (id, (Group.fourVote id 1 commands).sig))

/-- What a backup of four handles until the block is finalized. -/
def fourEvents : List (ReplicaCoreEvent .transparent) :=
  [.proposal 1 (fourBlock [Group.ping 0]),
    .prepareQuorum 1 (fourQuorum [1, 2] [Group.ping 0]),
    .commitQuorum 1 (fourQuorum [0, 1, 2] [Group.ping 0])]

/-- Another block in place of the finalized one. -/
def fourProposals (blockNum : Nat) : Blocks .transparent :=
  (∅ : Blocks .transparent).insert blockNum (fourBlock [Group.ping 1])

/-- This block, computed from a quorum. -/
def fourComputed (blockNum : Nat) : Std.ExtTreeMap Nat (List Command) :=
  (∅ : Std.ExtTreeMap Nat (List Command)).insert blockNum [Group.ping 1]

theorem fourEvents_run
    (viewChangeProposals : Quorum (Blocks .transparent) → Std.ExtTreeMap Nat (List Command)) :
    ∃ core, AdmittedRun viewChangeProposals ((Group.four ∅).config 1) fourEvents core ∧
      core.finalizeNum = 1 ∧ core.isPrimaryOf 2 = false := by
  have hhandle : ∃ core, (new ((Group.four ∅).config 1)).handleAll viewChangeProposals fourEvents =
      .ok core ∧ core.finalizeNum = 1 ∧ core.isPrimaryOf 2 = false := by
    refine ⟨_, rfl, ?_⟩
    decide +kernel
  obtain ⟨core, hcore, hfacts⟩ := hhandle
  have hadmitted : ∀ event ∈ fourEvents, ∀ core, Admitted viewChangeProposals core event := by
    simp [fourEvents, Admitted]
  have hrun : AdmittedRun viewChangeProposals ((Group.four ∅).config 1) fourEvents core :=
    AdmittedRun.handleAll (.start rfl) hadmitted hcore
  exact ⟨core, hrun, hfacts⟩

/-- A backup that has finalized its first block enters a view with another block in its place:
with the proposals that the source computes, which are none, and with exactly this block
computed, too. -/
theorem enterView_fails : ∃ core : ReplicaCore .transparent,
    EventRun ReplicaCore.viewChangeProposals ((Group.four ∅).config 1) fourEvents core ∧
      core.finalizeNum = 1 ∧ core.isPrimaryOf 2 = false ∧
      ¬ core.Adopts 2 (ReplicaCore.viewChangeProposals (∅ : Quorum (Blocks .transparent)))
        (fourProposals 1) ∧
      ¬ core.Adopts 2 (fourComputed 1) (fourProposals 1) := by
  obtain ⟨core, hrun, hnum, hbackup⟩ := fourEvents_run ReplicaCore.viewChangeProposals
  have hevents := hrun.mono (fun _ hstart => hstart) fun _ _ _ _ hstep => hstep.2
  refine ⟨core, hevents, hnum, hbackup, ?_, ?_⟩
  · rw [adopts_iff hbackup]
    rintro (hmismatch | ⟨hsize, -⟩)
    · exact hmismatch (by unfold Walks; decide +kernel)
    · simp [fourProposals, ReplicaCore.viewChangeProposals, Std.ExtTreeMap.size_insert] at hsize
  · rw [adopts_iff hbackup]
    rintro (hmismatch | ⟨-, hbehind⟩)
    · exact hmismatch (by unfold Walks; decide +kernel)
    · have hlt := hbehind 1 (by simp [fourProposals])
      omega

/-- The second block may be replaced while the first one is finalized. -/
theorem enterView_adopts_second : ∃ core core' : ReplicaCore .transparent, ∃ actions,
    core.finalizeNum = 1 ∧
      core.handleWith (fun _ => fourComputed 2) (.enterView 2 ∅ (fourProposals 2)) =
        .ok (core', actions) ∧
      core.Adopts 2 (fourComputed 2) (fourProposals 2) ∧
      core.Gapless ∧ core.KeepsFinalized core' actions := by
  obtain ⟨core, hrun, hnum, hbackup⟩ := fourEvents_run fun _ => fourComputed 2
  obtain ⟨hadopts, hkeeps⟩ :=
    @enterView_adopts .transparent (fun _ => fourComputed 2) ((Group.four ∅).config 1)
  have hwalk : Walks Block.digest (blockDigest .transparent) (fourProposals 2)
      (fourComputed 2) := by
    unfold Walks
    decide +kernel
  have hadmits : core.Admits (fourComputed 2) (fourProposals 2) := by
    refine .inr ⟨by simp [fourProposals, fourComputed, Std.ExtTreeMap.size_insert], ?_⟩
    intro blockNum hmem
    simp [fourProposals] at hmem
    omega
  obtain ⟨core', henter, -⟩ := enterView_match hbackup hwalk
  exact ⟨core, core', _, hnum, henter, (hadopts core 2 ∅ (fourProposals 2) hbackup).mpr hadmits,
    hkeeps _ core (.enterView 2 ∅ (fourProposals 2)) core' _ hrun hadmits henter⟩

end ReplicaCore

end BftKit.Pbft
