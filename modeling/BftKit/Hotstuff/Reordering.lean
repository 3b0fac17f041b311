import BftKit.Foundation.Buckets
import BftKit.Hotstuff.Row

/-! # Reordering

A backup stores a block when it has its parent and the node it justifies. Until then
the block waits for one of the two, in one place, under a digest that is not known:
whatever becomes known takes along what has been waiting for it.
-/

namespace BftKit.Hotstuff

open Foundation Threshold

variable {scheme : ThresholdScheme}

namespace ReplicaCore

variable {core core' : ReplicaCore scheme}

/-- The index is a matter of the nodes. -/
theorem Stored.lookup_congr (h : Stored core) (h' : Stored core')
    (hnodes : core'.nodes = core.nodes) (digest : Digest) :
    core'.nodeIndex.lookup digest = core.nodeIndex.lookup digest := by
  have hdigestOf : core'.digestOf = core.digestOf := by
    funext key
    rw [digestOf, nodeAt, hnodes, digestOf, nodeAt]
  ext key
  rw [h'.index, h.index, hnodes, hdigestOf]

/-- A stored block makes its own digest known and no other. -/
theorem Stored.lookup_handle (h : Stored core) {event : ReplicaCoreEvent scheme}
    {blockDigest : Digest} {block : Message.Block scheme} {pushed : ReplicaCoreActions}
    (hevent : event = .proposal blockDigest block ∨ event = .proposed blockDigest block)
    (hdigest : scheme.digest block = blockDigest)
    (hhandle : core.handle event = .ok (core', pushed)) (digest : Digest) :
    (core'.nodeIndex.lookup digest).isSome ↔
      (core.nodeIndex.lookup digest).isSome ∨ digest = blockDigest := by
  obtain ⟨hstored, hgrows⟩ := h.handle hhandle
  obtain ⟨hrepresents, hlength⟩ := h.handle_block hevent hdigest hhandle
  rw [Option.isSome_iff_exists, Option.isSome_iff_exists]
  simp only [hstored.index, h.index, hlength]
  constructor
  · rintro ⟨key, hlt, rfl⟩
    rcases Nat.lt_succ_iff_lt_or_eq.mp hlt with hold | rfl
    · exact .inl ⟨key, hold, (hgrows.digestOf hold).symm⟩
    · exact .inr (hrepresents.digest.trans hdigest)
  · rintro (⟨key, hlt, rfl⟩ | rfl)
    · exact ⟨key, by omega, hgrows.digestOf hlt⟩
    · exact ⟨core.nodes.length, by omega, hrepresents.digest.trans hdigest⟩

end ReplicaCore

namespace Replica

variable {replica next : Replica scheme} {event : Event scheme}
  {entry other : Digest × Message.Block scheme} {digest : Digest}

theorem waits_park_self (replica : Replica scheme) (digest : Digest)
    (entry : Digest × Message.Block scheme) : (replica.park digest entry).Waits entry := by
  refine .inr ⟨digest, (replica.reorderingBlocks.lookup digest).getD [] ++ [entry], ?_, by simp⟩
  exact Finmap.lookup_insert _

theorem Waits.park (h : replica.Waits entry) : (replica.park digest other).Waits entry := by
  rcases h with hpending | ⟨digest', parked, hlookup, hmem⟩
  · exact .inl hpending
  · by_cases heq : digest' = digest
    · subst heq
      refine .inr ⟨digest', (replica.reorderingBlocks.lookup digest').getD [] ++ [other],
        Finmap.lookup_insert _, ?_⟩
      rw [hlookup]
      exact List.mem_append_left _ hmem
    · refine .inr ⟨digest', parked, ?_, hmem⟩
      exact (Finmap.lookup_insert_of_ne _ heq).trans hlookup

theorem Waits.unpark (h : replica.Waits entry) : (replica.unpark digest).Waits entry := by
  rcases h with hpending | ⟨digest', parked, hlookup, hmem⟩
  · exact .inl (List.mem_append_right _ hpending)
  · by_cases heq : digest' = digest
    · subst heq
      refine .inl (List.mem_append_left _ (List.mem_reverse.mpr ?_))
      rw [hlookup]
      exact hmem
    · refine .inr ⟨digest', parked, ?_, hmem⟩
      exact (Finmap.lookup_erase_ne heq).trans hlookup

theorem Waits.congr (h : replica.Waits entry) (hwaiting : next.pending = replica.pending ∧
    next.reorderingBlocks = replica.reorderingBlocks) : next.Waits entry := by
  unfold Waits at h ⊢
  rwa [hwaiting.1, hwaiting.2]

/-- The signers of blocks that are not stored are kept. -/
def KeepsSigners (replica next : Replica scheme) : Prop :=
  ∀ digest, replica.core.nodeIndex.lookup digest = none →
    (replica.blockSigners.lookup digest).isSome → (next.blockSigners.lookup digest).isSome

theorem Refilled.blockSigners {actions : List (Action scheme)} (h : Refilled replica next actions) :
    next.blockSigners = replica.blockSigners := by
  cases h with
  | enough => rfl
  | refill =>
      unfold refillNonces
      split <;> rfl

theorem VoteTaken.blockSigners {vote : Message.VoteGeneric scheme}
    (h : VoteTaken replica vote next) : next.blockSigners = replica.blockSigners := by
  cases h with
  | share => rfl
  | quorum _ _ hhandle =>
      obtain ⟨core, pushed, -, rfl⟩ := handle_eq_ok.mp hhandle
      rfl

theorem VotePerformed.blockSigners {node : Node} {signers : Signers scheme}
    {actions : List (Action scheme)} (h : VotePerformed replica node signers next actions) :
    next.blockSigners = replica.blockSigners.erase node.digest := by
  cases h with
  | unlisted | unsigned => rfl
  | signed _ _ _ hcast =>
      cases hcast with
      | leader _ htaken hrefilled => rw [hrefilled.blockSigners, htaken.blockSigners]
      | backup _ hrefilled => rw [hrefilled.blockSigners]

theorem VotePerformed.keepsSigners {key : Nat} {node : Node} {signers : Signers scheme}
    {actions : List (Action scheme)} {rest : ReplicaCoreActions}
    (h : VotePerformed { replica with coreActions := rest } node signers next actions)
    (hstored : replica.core.Stored) (hnode : replica.core.nodes[key]? = some node) :
    KeepsSigners replica next := by
  intro digest hunknown hsome
  rw [h.blockSigners, Map.lookup_erase]
  split
  next heq =>
    obtain ⟨hlt, -⟩ := List.getElem?_eq_some_iff.mp hnode
    have hdigest : replica.core.digestOf key = digest := by
      rw [heq, ReplicaCore.digestOf, ReplicaCore.nodeAt_eq hnode]
    rw [← hdigest, hstored.lookup_digestOf hlt] at hunknown
    cases hunknown
  next => exact hsome

/-- What waits on the stack, or under a digest. -/
def waitingAt (replica : Replica scheme) : Option Digest → List (Digest × Message.Block scheme)
  | none => replica.pending
  | some digest => (replica.reorderingBlocks.lookup digest).getD []

theorem waits_iff : replica.Waits entry ↔ ∃ spot, entry ∈ replica.waitingAt spot := by
  constructor
  · rintro (hpending | ⟨digest, parked, hlookup, hmem⟩)
    · exact ⟨none, hpending⟩
    · exact ⟨some digest, by rw [waitingAt, hlookup]; exact hmem⟩
  · rintro ⟨spot, hmem⟩
    cases spot with
    | none => exact .inl hmem
    | some digest =>
        cases hlookup : replica.reorderingBlocks.lookup digest with
        | none => simp [waitingAt, hlookup] at hmem
        | some parked => exact .inr ⟨digest, parked, hlookup, by simpa [waitingAt, hlookup] using hmem⟩

theorem waitingAt_park (replica : Replica scheme) (digest : Digest)
    (entry : Digest × Message.Block scheme) (spot : Option Digest) :
    (replica.park digest entry).waitingAt spot =
      if spot = some digest then replica.waitingAt spot ++ [entry] else replica.waitingAt spot := by
  cases spot with
  | none => rfl
  | some other =>
      simp only [waitingAt, park, Map.lookup_insert, Option.some.injEq]
      split
      next heq => rw [heq, Option.getD_some]
      next => rfl

theorem waitingAt_unpark (replica : Replica scheme) (digest : Digest) (spot : Option Digest) :
    (replica.unpark digest).waitingAt spot =
      if spot = none then (replica.waitingAt (some digest)).reverse ++ replica.pending
      else if spot = some digest then [] else replica.waitingAt spot := by
  cases spot with
  | none => rfl
  | some other =>
      simp only [waitingAt, unpark, Map.lookup_erase, Option.some.injEq, reduceCtorEq, if_false]
      split
      next => rfl
      next => rfl

/-! ## Admitted blocks -/

instance (replica : Replica scheme) (generic : Message.Generic scheme)
    (block : Message.Block scheme) : Decidable (replica.Admits generic block) :=
  decidable_of_iff ((replica.core.nodeIndex.lookup generic.block).isNone ∧
      scheme.digest block = generic.block ∧
      (replica.verifyJustify block.justify).toOption.getD false = true) <| by
    constructor
    · rintro ⟨hfresh, hdigest, hverified⟩
      refine ⟨by simpa using hfresh, hdigest, ?_⟩
      cases hverify : replica.verifyJustify block.justify with
      | error panic => simp [hverify, Except.toOption] at hverified
      | ok verified => simpa [hverify, Except.toOption] using hverified
    · rintro ⟨hfresh, hdigest, hverified⟩
      exact ⟨by simp [hfresh], hdigest, by simp [hverified, Except.toOption]⟩

/-- The block that passes its checks in an event, with its digest. -/
def admittedBy (replica : Replica scheme) : Event scheme → List (Digest × Message.Block scheme)
  | .call (.receive (.generic generic block)) _ =>
      if replica.Admits generic block then [(generic.block, block)] else []
  | .call _ _ | .release _ _ | .perform _ _ _ => []

theorem admittedBy_of_admits {generic : Message.Generic scheme} {block : Message.Block scheme}
    {actions : List (Action scheme)} (hadmits : replica.Admits generic block) :
    replica.admittedBy (.call (.receive (.generic generic block)) actions) =
      [(generic.block, block)] :=
  if_pos hadmits

/-- The invariant of the reordering buffer. -/
structure Buffers (admitted : List (Digest × Message.Block scheme)) (replica : Replica scheme) :
    Prop where
  nodup : (admitted.map Prod.fst).Nodup
  digest : ∀ entry ∈ admitted, scheme.digest entry.2 = entry.1
  waiting : ∀ spot, ∀ entry ∈ replica.waitingAt spot, entry ∈ admitted ∧
    replica.core.nodeIndex.lookup entry.1 = none ∧ (replica.blockSigners.lookup entry.1).isSome
  once : ∀ spot, ((replica.waitingAt spot).map Prod.fst).Nodup
  apart : ∀ spot spot', ∀ entry ∈ replica.waitingAt spot, ∀ entry' ∈ replica.waitingAt spot',
    entry.1 = entry'.1 → spot = spot'
  released : ∀ entry ∈ replica.pending, (replica.core.nodeIndex.lookup entry.2.parent).isSome
  parked : ∀ digest, ∀ entry ∈ replica.waitingAt (some digest), digest = entry.2.parent ∨
    digest = entry.2.justify.node ∧ (replica.core.nodeIndex.lookup entry.2.parent).isSome
  /-- What a leader proposes takes nothing along. -/
  unknown : replica.core.config.id ≠ 0 → ∀ digest, ∀ entry ∈ replica.waitingAt (some digest),
    replica.core.nodeIndex.lookup digest = none
  settled : ∀ entry ∈ admitted,
    (∃ key < replica.core.nodes.length, replica.core.Represents key entry.2) ∨
      replica.Waits entry
  stored : replica.core.config.id ≠ 0 → ∀ key, 0 < key → key < replica.core.nodes.length →
    ∃ entry ∈ admitted, replica.core.Represents key entry.2

namespace Buffers

variable {admitted : List (Digest × Message.Block scheme)}

theorem new (coreConfig : ReplicaCoreConfig) (cryptoConfig : CryptoConfig scheme) :
    Buffers [] (Replica.new coreConfig cryptoConfig) where
  nodup := List.nodup_nil
  digest := by simp
  waiting := by
    intro spot entry hmem
    cases spot <;> cases hmem
  once := by
    intro spot
    cases spot <;> exact List.nodup_nil
  apart := by
    intro spot _ entry hmem
    cases spot <;> cases hmem
  released := by
    intro entry hmem
    cases hmem
  parked := by
    intro digest entry hmem
    cases hmem
  unknown := by
    intro _ digest entry hmem
    cases hmem
  settled := by simp
  stored _ key hpos hlt := absurd (Nat.lt_one_iff.mp hlt) hpos.ne'

/-- Steps that neither store nor move blocks. -/
theorem inert (h : Buffers admitted replica) (hstored : replica.core.Stored)
    (hstored' : next.core.Stored) (hgrows : ReplicaCore.Grows replica.core next.core)
    (hnodes : next.core.nodes = replica.core.nodes)
    (hwaiting : next.pending = replica.pending ∧ next.reorderingBlocks = replica.reorderingBlocks)
    (hsigners : KeepsSigners replica next) : Buffers admitted next := by
  have hlookup := hstored.lookup_congr hstored' hnodes
  have hat : next.waitingAt = replica.waitingAt := by
    funext spot
    cases spot with
    | none => exact hwaiting.1
    | some digest => rw [waitingAt, waitingAt, hwaiting.2]
  refine {
    nodup := h.nodup
    digest := h.digest
    waiting := ?_
    once := hat ▸ h.once
    apart := hat ▸ h.apart
    released := ?_
    parked := ?_
    unknown := ?_
    settled := ?_
    stored := ?_ }
  · intro spot entry hmem
    rw [hat] at hmem
    obtain ⟨hadmitted, hunknown, hsome⟩ := h.waiting spot entry hmem
    exact ⟨hadmitted, (hlookup _).trans hunknown, hsigners _ hunknown hsome⟩
  · intro entry hmem
    rw [hwaiting.1] at hmem
    rw [hlookup]
    exact h.released entry hmem
  · intro digest entry hmem
    rw [hat] at hmem
    rw [hlookup]
    exact h.parked digest entry hmem
  · intro hbackup digest entry hmem
    rw [hat] at hmem
    rw [hlookup]
    exact h.unknown (hgrows.config ▸ hbackup) digest entry hmem
  · intro entry hmem
    rcases h.settled entry hmem with ⟨key, hlt, hrepresents⟩ | hwaits
    · exact .inl ⟨key, by rwa [hnodes], hrepresents.grows hgrows hstored hlt⟩
    · exact .inr (hwaits.congr hwaiting)
  · intro hbackup key hpos hlt
    rw [hnodes] at hlt
    obtain ⟨entry, hmem, hrepresents⟩ := h.stored (hgrows.config ▸ hbackup) key hpos hlt
    exact ⟨entry, hmem, hrepresents.grows hgrows hstored hlt⟩

/-- A block that is admitted has not been admitted before. -/
theorem fresh (h : Buffers admitted replica) (hstored : replica.core.Stored)
    {generic : Message.Generic scheme} {block : Message.Block scheme}
    (hadmits : replica.Admits generic block)
    (hsigners : replica.blockSigners.lookup generic.block = none) :
    generic.block ∉ admitted.map Prod.fst := by
  intro hmem
  obtain ⟨entry, hentry, heq⟩ := List.mem_map.mp hmem
  rcases h.settled entry hentry with ⟨key, hlt, hrepresents⟩ | hwaits
  · have hfresh := hadmits.fresh
    rw [← heq, ← h.digest entry hentry, ← hrepresents.digest, hstored.lookup_digestOf hlt] at hfresh
    cases hfresh
  · obtain ⟨spot, hspot⟩ := waits_iff.mp hwaits
    have hsome := (h.waiting spot entry hspot).2.2
    rw [heq, hsigners] at hsome
    cases hsome

theorem spread (h : Buffers admitted replica) : Spread Prod.fst replica.waitingAt :=
  ⟨h.once, h.apart⟩

/-- A new block is put in one place. -/
theorem place (h : Buffers admitted replica) (spot₀ : Option Digest) (signers : Signers scheme)
    (hcore : next.core = replica.core)
    (hat : ∀ spot, next.waitingAt spot =
      if spot = spot₀ then replica.waitingAt spot ++ [entry] else replica.waitingAt spot)
    (hsigners : next.blockSigners = replica.blockSigners.insert entry.1 signers)
    (hnew : entry.1 ∉ admitted.map Prod.fst) (hdigest : scheme.digest entry.2 = entry.1)
    (hunknown : replica.core.nodeIndex.lookup entry.1 = none)
    (hreleased : spot₀ = none → (replica.core.nodeIndex.lookup entry.2.parent).isSome)
    (hparked : ∀ digest, spot₀ = some digest →
      replica.core.nodeIndex.lookup digest = none ∧ digest = entry.2.parent) :
    Buffers (admitted ++ [entry]) next := by
  -- what waits has been admitted, so it is another block
  have hold : ∀ spot, ∀ other ∈ replica.waitingAt spot, other.1 ≠ entry.1 := by
    intro spot other hmem heq
    exact hnew (heq ▸ List.mem_map_of_mem (h.waiting spot other hmem).1)
  have hspread := h.spread.push hat hold
  have hcases : ∀ spot, ∀ other ∈ next.waitingAt spot,
      other ∈ replica.waitingAt spot ∨ spot = spot₀ ∧ other = entry :=
    fun _ _ hmem => Spread.mem_of_push hat hmem
  have hwaits : ∀ other, replica.Waits other → next.Waits other := by
    intro other hother
    obtain ⟨spot, hmem⟩ := waits_iff.mp hother
    refine waits_iff.mpr ⟨spot, ?_⟩
    rw [hat]
    split
    · exact List.mem_append_left _ hmem
    · exact hmem
  refine {
    nodup := ?_
    digest := ?_
    waiting := ?_
    once := hspread.once
    apart := hspread.apart
    released := ?_
    parked := ?_
    unknown := ?_
    settled := ?_
    stored := ?_ }
  · rw [List.map_append, List.nodup_append]
    refine ⟨h.nodup, by simp, ?_⟩
    rintro digest hmem _ hlast rfl
    rw [List.map_singleton, List.mem_singleton] at hlast
    exact hnew (hlast ▸ hmem)
  · intro other hmem
    rcases List.mem_append.mp hmem with hmem | hmem
    · exact h.digest other hmem
    · rw [List.mem_singleton.mp hmem]
      exact hdigest
  · intro spot other hmem
    rw [hcore, hsigners, Map.lookup_insert]
    rcases hcases spot other hmem with hmem | ⟨-, rfl⟩
    · obtain ⟨hadmitted, hlookup, hsome⟩ := h.waiting spot other hmem
      refine ⟨List.mem_append_left _ hadmitted, hlookup, ?_⟩
      rwa [if_neg (hold spot other hmem)]
    · exact ⟨List.mem_append_right _ (List.mem_singleton_self _), hunknown, by simp⟩
  · intro other hmem
    rw [hcore]
    rcases hcases none other hmem with hmem | ⟨hspot, rfl⟩
    · exact h.released other hmem
    · exact hreleased hspot.symm
  · intro digest other hmem
    rw [hcore]
    rcases hcases (some digest) other hmem with hmem | ⟨hspot, rfl⟩
    · exact h.parked digest other hmem
    · exact .inl (hparked digest hspot.symm).2
  · intro hbackup digest other hmem
    rw [hcore] at hbackup ⊢
    rcases hcases (some digest) other hmem with hmem | ⟨hspot, rfl⟩
    · exact h.unknown hbackup digest other hmem
    · exact (hparked digest hspot.symm).1
  · intro other hmem
    rw [hcore]
    rcases List.mem_append.mp hmem with hmem | hmem
    · exact (h.settled other hmem).imp_right (hwaits other)
    · refine .inr (waits_iff.mpr ⟨spot₀, ?_⟩)
      rw [hat, if_pos rfl, List.mem_singleton.mp hmem]
      exact List.mem_append_right _ (List.mem_singleton_self _)
  · intro hbackup key hpos hlt
    rw [hcore] at hbackup hlt ⊢
    obtain ⟨other, hmem, hrepresents⟩ := h.stored hbackup key hpos hlt
    exact ⟨other, List.mem_append_left _ hmem, hrepresents⟩

/-- What is on the stack. -/
theorem head (h : Buffers admitted replica) {rest : List (Digest × Message.Block scheme)}
    (hpending : replica.pending = entry :: rest) :
    entry ∈ admitted ∧ replica.core.nodeIndex.lookup entry.1 = none ∧
      (replica.core.nodeIndex.lookup entry.2.parent).isSome ∧
      (∀ other ∈ rest, other.1 ≠ entry.1) ∧
      ∀ digest, ∀ other ∈ replica.waitingAt (some digest), other.1 ≠ entry.1 := by
  have hmem : entry ∈ replica.waitingAt none := by
    rw [waitingAt, hpending]
    exact List.mem_cons_self
  obtain ⟨hadmitted, hunknown, -⟩ := h.waiting none entry hmem
  have hbucket : replica.waitingAt none = entry :: rest := hpending
  obtain ⟨hrest, hother⟩ := h.spread.ne_head hbucket
  exact ⟨hadmitted, hunknown, h.released entry hmem, hrest,
    fun digest => hother (some digest) (Option.some_ne_none digest)⟩

/-- What is popped off the stack waits nowhere else. -/
theorem popped (h : Buffers admitted replica) {rest : List (Digest × Message.Block scheme)}
    (hpending : replica.pending = entry :: rest) :
    Spread Prod.fst (waitingAt { replica with pending := rest }) ∧
      ∀ spot, ∀ other ∈ waitingAt { replica with pending := rest } spot,
        other ∈ replica.waitingAt spot ∧ other.1 ≠ entry.1 := by
  have hsub : ∀ spot, (waitingAt { replica with pending := rest } spot).Sublist
      (replica.waitingAt spot) := by
    intro spot
    cases spot with
    | none =>
        rw [waitingAt, waitingAt, hpending]
        exact List.sublist_cons_self entry rest
    | some digest => exact List.Sublist.refl _
  refine ⟨h.spread.sublist hsub, ?_⟩
  obtain ⟨-, -, -, hrest, hother⟩ := h.head hpending
  intro spot other hmem
  refine ⟨(hsub spot).mem hmem, ?_⟩
  cases spot with
  | none => exact hrest other hmem
  | some digest => exact hother digest other hmem

/-- A block whose parent is known waits on for the node it justifies. -/
theorem defer (h : Buffers admitted replica) {rest : List (Digest × Message.Block scheme)}
    (hpending : replica.pending = entry :: rest)
    (hjustify : replica.core.nodeIndex.lookup entry.2.justify.node = none) :
    Buffers admitted
      (Replica.park { replica with pending := rest } entry.2.justify.node entry) := by
  obtain ⟨-, -, hparent, -, -⟩ := h.head hpending
  obtain ⟨hpopped, hsub⟩ := h.popped hpending
  set popped : Replica scheme := { replica with pending := rest }
  have hmem : entry ∈ replica.waitingAt none := by
    rw [waitingAt, hpending]
    exact List.mem_cons_self
  have hat := waitingAt_park popped entry.2.justify.node entry
  have hspread := hpopped.push hat fun spot other hin => (hsub spot other hin).2
  have hcases : ∀ spot, ∀ other ∈ (popped.park entry.2.justify.node entry).waitingAt spot,
      other ∈ popped.waitingAt spot ∨ spot = some entry.2.justify.node ∧ other = entry :=
    fun _ _ hin => Spread.mem_of_push hat hin
  refine {
    nodup := h.nodup
    digest := h.digest
    waiting := ?_
    once := hspread.once
    apart := hspread.apart
    released := ?_
    parked := ?_
    unknown := ?_
    settled := ?_
    stored := h.stored }
  · intro spot other hin
    rcases hcases spot other hin with hin | ⟨-, rfl⟩
    · exact h.waiting spot other (hsub spot other hin).1
    · exact h.waiting none other hmem
  · intro other hin
    exact h.released other (hsub none other hin).1
  · intro digest other hin
    rcases hcases (some digest) other hin with hin | ⟨hspot, rfl⟩
    · exact h.parked digest other hin
    · exact .inr ⟨Option.some.inj hspot, hparent⟩
  · intro hbackup digest other hin
    rcases hcases (some digest) other hin with hin | ⟨hspot, rfl⟩
    · exact h.unknown hbackup digest other hin
    · rw [Option.some.inj hspot]
      exact hjustify
  · intro other hin
    refine (h.settled other hin).imp_right ?_
    rintro (hmem | hparked)
    · rw [hpending] at hmem
      rcases List.mem_cons.mp hmem with rfl | hmem
      · exact waits_park_self _ _ _
      · exact Waits.park (.inl hmem)
    · exact Waits.park (.inr hparked)

/-- Storing a block puts what has been waiting for it on the stack. -/
theorem release (h : Buffers admitted replica) (hstored : replica.core.Stored)
    {rest : List (Digest × Message.Block scheme)} {core' : ReplicaCore scheme}
    {pushed : ReplicaCoreActions} (hpending : replica.pending = entry :: rest)
    (hhandle : replica.core.handle (.proposal entry.1 entry.2) = .ok (core', pushed)) :
    Buffers admitted { unpark { replica with pending := rest } entry.1 with
      core := core'
      coreActions := replica.coreActions ++ pushed } := by
  obtain ⟨hadmitted, hunknown, -, -, -⟩ := h.head hpending
  obtain ⟨hpopped, hsub⟩ := h.popped hpending
  have hdigest := h.digest entry hadmitted
  obtain ⟨hstored', hgrows⟩ := hstored.handle hhandle
  obtain ⟨hrepresents, hlength⟩ := hstored.handle_block (.inl rfl) hdigest hhandle
  have hlookup := hstored.lookup_handle (.inl rfl) hdigest hhandle
  have hstill : ∀ digest, digest ≠ entry.1 → replica.core.nodeIndex.lookup digest = none →
      core'.nodeIndex.lookup digest = none := by
    intro digest hne hnone
    rw [← Option.not_isSome_iff_eq_none, hlookup, hnone]
    simpa using hne
  set final : Replica scheme := { unpark { replica with pending := rest } entry.1 with
    core := core'
    coreActions := replica.coreActions ++ pushed } with hfinal
  have hat : ∀ spot, final.waitingAt spot =
      if spot = none then (waitingAt { replica with pending := rest } (some entry.1)).reverse ++
        waitingAt { replica with pending := rest } none
      else if spot = some entry.1 then [] else waitingAt { replica with pending := rest } spot := by
    intro spot
    have hunpark := waitingAt_unpark { replica with pending := rest } entry.1 spot
    cases spot <;> exact hunpark
  have hspread := hpopped.pour hat (Option.some_ne_none entry.1).symm
  -- where a block has been waiting before
  have hcases : ∀ spot, ∀ other ∈ final.waitingAt spot, other.1 ≠ entry.1 ∧ spot ≠ some entry.1 ∧
      (other ∈ replica.waitingAt spot ∨
        spot = none ∧ other ∈ replica.waitingAt (some entry.1)) := by
    intro spot other hin
    obtain ⟨hspot, hold | ⟨hnone, hpoured⟩⟩ :=
      Spread.mem_of_pour hat (Option.some_ne_none entry.1).symm hin
    · obtain ⟨hold, hne⟩ := hsub spot other hold
      exact ⟨hne, hspot, .inl hold⟩
    · obtain ⟨hpoured, hne⟩ := hsub _ other hpoured
      exact ⟨hne, hspot, .inr ⟨hnone, hpoured⟩⟩
  refine {
    nodup := h.nodup
    digest := h.digest
    waiting := ?_
    once := hspread.once
    apart := hspread.apart
    released := ?_
    parked := ?_
    unknown := ?_
    settled := ?_
    stored := ?_ }
  · intro spot other hin
    have hold : other.1 ≠ entry.1 ∧ ∃ spot', other ∈ replica.waitingAt spot' := by
      obtain ⟨hne, -, hold | ⟨-, hold⟩⟩ := hcases spot other hin
      · exact ⟨hne, _, hold⟩
      · exact ⟨hne, _, hold⟩
    obtain ⟨hne, spot', hold⟩ := hold
    obtain ⟨hmem, hnone, hsome⟩ := h.waiting spot' other hold
    exact ⟨hmem, hstill _ hne hnone, hsome⟩
  · intro other hin
    refine (hlookup _).mpr ?_
    obtain ⟨-, -, hold | ⟨-, hold⟩⟩ := hcases none other hin
    · exact .inl (h.released other hold)
    · rcases h.parked _ other hold with heq | ⟨-, hparent⟩
      · exact .inr heq.symm
      · exact .inl hparent
  · intro digest other hin
    obtain ⟨-, -, hold | ⟨hnone, -⟩⟩ := hcases (some digest) other hin
    · refine (h.parked digest other hold).imp_right ?_
      exact fun hjustify => ⟨hjustify.1, (hlookup _).mpr (.inl hjustify.2)⟩
    · cases hnone
  · intro hbackup digest other hin
    obtain ⟨-, hne, hold | ⟨hnone, -⟩⟩ := hcases (some digest) other hin
    · apply hstill digest
      · exact fun heq => hne (congrArg some heq)
      · exact h.unknown (hgrows.config ▸ hbackup) digest other hold
    · cases hnone
  · intro other hin
    rcases h.settled other hin with ⟨key, hlt, hrepresents'⟩ | hwaits
    · exact .inl ⟨key, by rw [hlength]; omega, hrepresents'.grows hgrows hstored hlt⟩
    · rcases hwaits with hmem | hparked
      · rw [hpending] at hmem
        rcases List.mem_cons.mp hmem with rfl | hmem
        · exact .inl ⟨replica.core.nodes.length, by rw [hlength]; omega, hrepresents⟩
        · exact .inr (@Waits.unpark _ { replica with pending := rest } _ _ (.inl hmem))
      · exact .inr (@Waits.unpark _ { replica with pending := rest } _ _ (.inr hparked))
  · intro hbackup key hpos hlt
    rw [hlength] at hlt
    rcases Nat.lt_succ_iff_lt_or_eq.mp hlt with hold | rfl
    · obtain ⟨other, hin, hrepresents'⟩ := h.stored (hgrows.config ▸ hbackup) key hpos hold
      exact ⟨other, hin, hrepresents'.grows hgrows hstored hold⟩
    · exact ⟨entry, hadmitted, hrepresents⟩

/-- A proposal is stored next to what waits. -/
theorem propose (h : Buffers admitted replica) (hstored : replica.core.Stored)
    {block : Message.Block scheme} {signers : Signers scheme} {pushed : ReplicaCoreActions}
    (hleader : replica.core.config.id = 0)
    (hhandle : replica.core.handle (.proposed (scheme.digest block) block) = .ok (next.core, pushed))
    (hwaiting : next.pending = replica.pending ∧ next.reorderingBlocks = replica.reorderingBlocks)
    (hnone : replica.blockSigners.lookup (scheme.digest block) = none)
    (hsigners : next.blockSigners = replica.blockSigners.insert (scheme.digest block) signers) :
    Buffers admitted next := by
  have hgrows := (hstored.handle hhandle).2
  have hlookup := hstored.lookup_handle (.inr rfl) rfl hhandle
  have hat : next.waitingAt = replica.waitingAt := by
    funext spot
    cases spot with
    | none => exact hwaiting.1
    | some digest => rw [waitingAt, waitingAt, hwaiting.2]
  have hbackup : ¬next.core.config.id ≠ 0 := by
    rw [hgrows.config]
    exact not_not.mpr hleader
  refine {
    nodup := h.nodup
    digest := h.digest
    waiting := ?_
    once := hat ▸ h.once
    apart := hat ▸ h.apart
    released := ?_
    parked := ?_
    unknown := fun hid => absurd hid hbackup
    settled := ?_
    stored := fun hid => absurd hid hbackup }
  · intro spot entry hmem
    rw [hat] at hmem
    obtain ⟨hadmitted, hunknown, hsome⟩ := h.waiting spot entry hmem
    -- the signers of what waits are known, those of the proposal are not
    have hne : entry.1 ≠ scheme.digest block := by
      intro heq
      rw [heq, hnone] at hsome
      cases hsome
    refine ⟨hadmitted, ?_, ?_⟩
    · rw [← Option.not_isSome_iff_eq_none, hlookup, hunknown]
      simpa using hne
    · rw [hsigners, Map.lookup_insert, if_neg hne]
      exact hsome
  · intro entry hmem
    rw [hwaiting.1] at hmem
    exact (hlookup _).mpr (.inl (h.released entry hmem))
  · intro digest entry hmem
    rw [hat] at hmem
    refine (h.parked digest entry hmem).imp_right ?_
    exact fun hjustify => ⟨hjustify.1, (hlookup _).mpr (.inl hjustify.2)⟩
  · intro entry hmem
    rcases h.settled entry hmem with ⟨key, hlt, hrepresents⟩ | hwaits
    · exact .inl ⟨key, hgrows.lt_length hlt, hrepresents.grows hgrows hstored hlt⟩
    · exact .inr (hwaits.congr hwaiting)

theorem step (h : Buffers admitted replica) (hstored : replica.core.Stored)
    (hstored' : next.core.Stored)
    (hplans : replica.core.config.id ≠ 0 → proposals replica.coreActions = [])
    (heffect : Effect replica event next) :
    Buffers (admitted ++ replica.admittedBy event) next := by
  -- most events neither bring a block nor store one
  have hinert : replica.admittedBy event = [] →
      (∀ blockDigest block, event ≠ .release blockDigest block) →
      (∀ data signed actions, event ≠ .perform (.propose data) signed actions) →
      (next.pending = replica.pending ∧ next.reorderingBlocks = replica.reorderingBlocks) →
      KeepsSigners replica next → Buffers (admitted ++ replica.admittedBy event) next := by
    intro hnil hrelease hpropose hwaiting hsigners
    rw [hnil, List.append_nil]
    exact h.inert hstored hstored' (heffect.grows hstored)
      (heffect.nodes hstored hrelease hpropose) hwaiting hsigners
  have hsame : next.blockSigners = replica.blockSigners → KeepsSigners replica next := by
    intro heq digest _ hsome
    rwa [heq]
  cases heffect with
  | init =>
      have hrefilled : replica.refillNonces.1.pending = replica.pending ∧
          replica.refillNonces.1.reorderingBlocks = replica.reorderingBlocks ∧
          replica.refillNonces.1.blockSigners = replica.blockSigners := by
        unfold refillNonces
        split <;> exact ⟨rfl, rfl, rfl⟩
      exact hinert rfl (by simp) (by simp) ⟨hrefilled.1, hrefilled.2.1⟩ (hsame hrefilled.2.2)
  | tick | supply | finalize => exact hinert rfl (by simp) (by simp) ⟨rfl, rfl⟩ (hsame rfl)
  | request _ hhandle =>
      obtain ⟨core, pushed, -, rfl⟩ := handle_eq_ok.mp hhandle
      exact hinert rfl (by simp) (by simp) ⟨rfl, rfl⟩ (hsame rfl)
  | ignore _ hignored =>
      exact hinert (if_neg hignored) (by simp) (by simp) ⟨rfl, rfl⟩ (hsame rfl)
  | @accept generic block hidle hadmits hsigners hparent =>
      rw [admittedBy_of_admits hadmits]
      refine h.place none generic.signers rfl ?_ rfl
        (h.fresh hstored hadmits hsigners) hadmits.digest hadmits.fresh (fun _ => hparent) ?_
      · intro spot
        cases spot with
        | none => rw [if_pos rfl, waitingAt, waitingAt, hidle.1, List.nil_append]
        | some digest => rw [if_neg (by simp), waitingAt, waitingAt]
      · intro digest hspot
        cases hspot
  | @park generic block hidle hadmits hsigners hparent =>
      rw [admittedBy_of_admits hadmits]
      refine h.place (some block.parent) generic.signers rfl ?_ rfl
        (h.fresh hstored hadmits hsigners) hadmits.digest hadmits.fresh ?_ ?_
      · intro spot
        exact waitingAt_park _ _ _ spot
      · intro hspot
        cases hspot
      · intro digest hspot
        obtain rfl := Option.some.inj hspot
        exact ⟨hparent, rfl⟩
  | vote _ htaken =>
      exact hinert rfl (by simp) (by simp) htaken.waiting (hsame htaken.blockSigners)
  | defer hpending hjustify =>
      rw [admittedBy, List.append_nil]
      exact h.defer hpending hjustify
  | release hpending _ hhandle =>
      rw [admittedBy, List.append_nil]
      obtain ⟨core, pushed, hcore, rfl⟩ := handle_eq_ok.mp hhandle
      exact h.release hstored hpending hcore
  | @propose data rest block _ _ hqueue _ _ _ hsigners hhandle =>
      rw [admittedBy, List.append_nil]
      have hleader : replica.core.config.id = 0 := by
        by_contra hid
        have hnone := hplans hid
        rw [hqueue] at hnone
        cases hnone
      obtain ⟨core, pushed, hcore, rfl⟩ := handle_eq_ok.mp hhandle
      exact h.propose hstored hleader hcore ⟨rfl, rfl⟩ hsigners rfl
  | perform _ hqueue hnode _ hvote =>
      exact hinert rfl (by simp) (by simp) hvote.waiting (hvote.keepsSigners hstored hnode)

end Buffers

/-! ## Runs -/

/-- A block waits under one digest only, once, and for something that is not known. -/
structure Parked (replica : Replica scheme) (entry : Digest × Message.Block scheme)
    (digest : Digest) : Prop where
  mem : entry ∈ replica.waitingAt (some digest)
  once : ((replica.waitingAt (some digest)).map Prod.fst).count entry.1 = 1
  only : ∀ other, entry.1 ∈ (replica.waitingAt (some other)).map Prod.fst → other = digest
  awaited : digest = entry.2.parent ∨ digest = entry.2.justify.node
  unknown : replica.core.nodeIndex.lookup digest = none

/-- Each block that has passed its checks is stored once or parked once, and nothing
else is parked. -/
structure Reordered (admitted : List (Digest × Message.Block scheme)) (replica : Replica scheme) :
    Prop where
  distinct : (admitted.map Prod.fst).Nodup
  settled : ∀ entry ∈ admitted,
    (∃! key, key < replica.core.nodes.length ∧ replica.core.Represents key entry.2) ∧
        (∀ digest, entry.1 ∉ (replica.waitingAt (some digest)).map Prod.fst) ∨
      replica.core.nodeIndex.lookup entry.1 = none ∧ ∃ digest, replica.Parked entry digest
  parked : ∀ digest, ∀ entry ∈ replica.waitingAt (some digest), entry ∈ admitted

variable {admitted : List (Digest × Message.Block scheme)}

theorem Buffers.parked_of_mem (h : Buffers admitted replica)
    (hbackup : replica.core.config.id ≠ 0) (hmem : entry ∈ replica.waitingAt (some digest)) :
    replica.Parked entry digest where
  mem := hmem
  once := List.count_eq_one_of_mem (h.once _) (List.mem_map_of_mem hmem)
  only := by
    intro other hother
    obtain ⟨other', hother', heq⟩ := List.mem_map.mp hother
    exact Option.some.inj (h.apart _ _ other' hother' entry hmem heq)
  awaited := (h.parked digest entry hmem).imp_right And.left
  unknown := h.unknown hbackup digest entry hmem

theorem Buffers.reordered (h : Buffers admitted replica) (hstored : replica.core.Stored)
    (hbackup : replica.core.config.id ≠ 0) (hidle : replica.Idle) : Reordered admitted replica where
  distinct := h.nodup
  settled := by
    intro entry hentry
    rcases h.settled entry hentry with ⟨key, hlt, hrepresents⟩ | hwaits
    · refine .inl ⟨⟨key, ⟨hlt, hrepresents⟩, ?_⟩, ?_⟩
      · rintro key' ⟨hlt', hrepresents'⟩
        exact hstored.key_unique hlt' hlt (hrepresents'.digest.trans hrepresents.digest.symm)
      · intro digest hmem
        obtain ⟨other, hother, heq⟩ := List.mem_map.mp hmem
        have hunknown := (h.waiting _ other hother).2.1
        rw [heq, ← h.digest entry hentry, ← hrepresents.digest,
          hstored.lookup_digestOf hlt] at hunknown
        cases hunknown
    · obtain ⟨spot, hspot⟩ := waits_iff.mp hwaits
      cases spot with
      | none =>
          rw [waitingAt, hidle.1] at hspot
          cases hspot
      | some digest =>
          exact .inr ⟨(h.waiting _ entry hspot).2.1, digest, h.parked_of_mem hbackup hspot⟩
  parked digest entry hmem := (h.waiting _ entry hmem).1

end Replica

/-- The runs of one replica, with the blocks that have passed their checks. -/
abbrev AdmittingRun (coreConfig : ReplicaCoreConfig) (cryptoConfig : CryptoConfig scheme) :
    List (Replica.Event scheme) →
      Replica scheme × List (Digest × Message.Block scheme) → Prop :=
  Run (· = (Replica.new coreConfig cryptoConfig, [])) fun _ current event next =>
    Replica.Step current.1 event next.1 ∧ next.2 = current.2 ++ current.1.admittedBy event

variable {coreConfig : ReplicaCoreConfig} {cryptoConfig : CryptoConfig scheme}
  {history : List (Replica.Event scheme)} {replica : Replica scheme}
  {current : Replica scheme × List (Digest × Message.Block scheme)}

/-- Every run has its admitted blocks. -/
theorem LocalRun.admitting (hrun : LocalRun coreConfig cryptoConfig history replica) :
    ∃ admitted, AdmittingRun coreConfig cryptoConfig history (replica, admitted) := by
  induction hrun with
  | start hinit =>
      subst hinit
      exact ⟨[], .start rfl⟩
  | step _ hstep ih =>
      obtain ⟨admitted, hadmitting⟩ := ih
      exact ⟨_, .step hadmitting ⟨hstep, rfl⟩⟩

theorem AdmittingRun.localRun (hrun : AdmittingRun coreConfig cryptoConfig history current) :
    LocalRun coreConfig cryptoConfig history current.1 := by
  induction hrun with
  | start hinit =>
      subst hinit
      exact .start rfl
  | step _ hstep ih => exact .step ih hstep.1

theorem AdmittingRun.buffers (hrun : AdmittingRun coreConfig cryptoConfig history current) :
    Replica.Buffers current.2 current.1 := by
  induction hrun with
  | start hinit =>
      subst hinit
      exact .new _ _
  | @step history current event next hprev hstep ih =>
      have hlocal := AdmittingRun.localRun hprev
      rw [hstep.2]
      refine ih.step hlocal.stored (LocalRun.stored (.step hlocal hstep.1)) ?_ hstep.1.effect
      intro hbackup
      have hnone := hlocal.no_proposals (hlocal.config ▸ hbackup)
      rw [proposals_append, List.append_eq_nil_iff] at hnone
      exact hnone.2

/-- A backup keeps each block that has passed its checks in one place, and gives its core
a block only with its parent and the node that it justifies. -/
theorem reordering {admitted : List (Digest × Message.Block scheme)}
    (hrun : AdmittingRun coreConfig cryptoConfig history (replica, admitted))
    (hbackup : coreConfig.id ≠ 0) :
    (replica.Idle → Replica.Reordered admitted replica) ∧
      ∀ blockDigest block rest, replica.pending = (blockDigest, block) :: rest →
        (replica.core.nodeIndex.lookup block.justify.node).isSome →
        (replica.core.nodeIndex.lookup block.parent).isSome ∧
          ∃ core key, replica.core.ingest blockDigest block = .ok (core, key) := by
  have hbuffers := hrun.buffers
  have hlocal := AdmittingRun.localRun hrun
  have hstored := hlocal.stored
  refine ⟨hbuffers.reordered hstored (hlocal.config.symm ▸ hbackup), ?_⟩
  intro blockDigest block rest hpending hjustify
  obtain ⟨-, hunknown, hparent, -⟩ := hbuffers.head hpending
  refine ⟨hparent, ?_⟩
  rcases hstored.ingest_cases blockDigest block with ⟨core, hingest, -⟩ | ⟨panic, -, hrefused⟩
  · exact ⟨core, _, hingest⟩
  · cases hrefused with
    | justify hnone =>
        rw [hnone] at hjustify
        cases hjustify
    | parent hnone =>
        rw [hnone] at hparent
        cases hparent
    | known hknown =>
        rw [hunknown] at hknown
        cases hknown

/-- A backup that receives the third block of a chain before the first one. -/
theorem reordering_gap :
    ∃ (admitted : List (Digest × Message.Block .transparent)) (replica : Replica .transparent),
      replica.core.nodes.length = 2 ∧
      (replica.waitingAt (some (Group.fourDigest (Group.fourChild Group.fourFirst [])))).length = 1 ∧
      Replica.Reordered admitted replica := by
  have hreplay : ∃ run ∈ Group.replay (fun _ _ => True) (Group.four ∅) Group.fourGap,
      (run.2 1).core.nodes.length = 2 ∧
      ((run.2 1).waitingAt
        (some (Group.fourDigest (Group.fourChild Group.fourFirst [])))).length = 1 ∧
      (run.2 1).Idle := by
    decide +kernel
  obtain ⟨⟨history, states⟩, hrun, hlength, hparked, hidle⟩ := hreplay
  have hhonest : (Group.four ∅).Honest 1 := by decide
  obtain ⟨admitted, hadmitting⟩ := ((Group.replay_run hrun).groupRun.localRun hhonest).admitting
  exact ⟨admitted, states 1, hlength, hparked, (reordering hadmitting (by decide)).1 hidle⟩

end BftKit.Hotstuff
