import Mathlib.Data.Finset.Card
import BftKit.Pbft.FreeRuns

/-! # Who has voted

The Prepares in the scratches name replicas whose Prepares have been admitted. With fewer
of them than 16 bits can count, no sum over a scratch overflows.
-/

namespace BftKit.Pbft

open Foundation

variable {crypto : Crypto}

namespace Replica

/-- The Prepares of a scratch, kept or counted, are from the given replicas. -/
structure Among (allowed : Finset Nat) (scratch : BlockScratch crypto) : Prop where
  kept : ∀ vote ∈ scratch.prepareVotes, vote.replicaId ∈ allowed
  counted : scratch.prepareQuorum.keys ⊆ allowed

/-- The Prepares of all scratches are. -/
def Voters (allowed : Finset Nat) (replica : Replica crypto) : Prop :=
  ∀ (blockNum : Nat) (scratch : BlockScratch crypto),
    replica.blockScratches[blockNum]? = some scratch → Among allowed scratch

/-- There is room to count what the first queued action counts. -/
def Roomy (replica : Replica crypto) : Prop :=
  ∀ quorum, replica.Gathers none quorum → quorum.size + 1 < 2 ^ 16

variable {config : ReplicaCoreConfig} {history : List (Event crypto)}
  {replica next : Replica crypto} {event : Event crypto} {allowed : Finset Nat}
  {blockNum : Nat} {scratch : BlockScratch crypto}

/-! ## What is counted -/

theorem Voters.scratchAt (h : Voters allowed replica) (blockNum : Nat) :
    Among allowed (replica.scratchAt blockNum) := by
  refine @entries_getD _ _ _ _ replica.blockScratches (fun _ => Among allowed) h blockNum
    default ?_
  exact ⟨fun _ hmem => (by cases hmem), Finset.empty_subset _⟩

theorem Voters.receive_subset (h : Voters allowed replica) {vote : Vote crypto}
    (hvote : vote.replicaId ∈ allowed) :
    ((replica.scratchAt vote.blockNum).prepareQuorum.insert vote.replicaId vote.sig).keys ⊆
      allowed := by
  intro id hid
  rcases Map.mem_keys_insert.mp hid with rfl | hmem
  · exact hvote
  · exact (h.scratchAt _).counted hmem

theorem Voters.merged_subset (h : Voters allowed replica) {digest : Digest}
    (hown : replica.core.config.id ∈ allowed) :
    (replica.mergedPrepares blockNum digest).keys ⊆ allowed := by
  intro id hid
  rcases Map.mem_keys_insert.mp hid with rfl | hmem
  · exact hown
  · rcases Map.mem_keys_extend hmem with ⟨sig, hmatching⟩ | hcounted
    · obtain ⟨vote, hvote, hentry⟩ := List.mem_filterMap.mp hmatching
      rw [Option.ite_none_right_eq_some] at hentry
      obtain ⟨rfl, -⟩ := Prod.mk.inj (Option.some.inj hentry.2)
      exact (h.scratchAt _).kept vote hvote
    · exact (h.scratchAt _).counted hcounted

theorem size_lt_of_subset {quorum : Quorum crypto.Sig} (hsubset : quorum.keys ⊆ allowed)
    (hcard : allowed.card + 1 < 2 ^ 16) : quorum.size + 1 < 2 ^ 16 :=
  lt_of_le_of_lt (Nat.succ_le_succ (Finset.card_le_card hsubset)) hcard

/-- With few enough replicas to count, there is room. -/
theorem Voters.roomy (h : Voters allowed replica) (hcard : allowed.card + 1 < 2 ^ 16)
    (hown : ∀ blockNum digest rest, replica.coreActions = .prepare blockNum digest :: rest →
      replica.core.config.id ∈ allowed) : replica.Roomy := by
  intro quorum hgathers
  cases hgathers with
  | perform hqueue => exact size_lt_of_subset (h.merged_subset (hown _ _ _ hqueue)) hcard

/-! ## What the steps preserve -/

theorem Voters.insert (h : Voters allowed replica) (hscratch : Among allowed scratch)
    (other : Nat) (stored : BlockScratch crypto)
    (hstored : (replica.blockScratches.insert blockNum scratch)[other]? = some stored) :
    Among allowed stored :=
  @entries_insert _ _ _ _ _ replica.blockScratches (fun _ => Among allowed) h _ _ hscratch _ _
    hstored

theorem PrepareOutcome.voters (hcheck : PrepareOutcome replica blockNum scratch next)
    (h : Voters allowed replica) (hscratch : Among allowed scratch) : Voters allowed next := by
  cases hcheck with
  | waiting => exact h.insert hscratch
  | prepared => exact h.insert ⟨hscratch.kept, Finset.empty_subset _⟩

theorem CommitOutcome.voters (hcheck : CommitOutcome replica blockNum scratch next)
    (h : Voters allowed replica) (hscratch : Among allowed scratch) : Voters allowed next := by
  cases hcheck with
  | waiting => exact h.insert hscratch
  | committed => exact h.insert ⟨hscratch.kept, hscratch.counted⟩

/-- A step adds at most the replica itself and who it admits. -/
theorem Outcome.voters (houtcome : Outcome replica event next) (h : Voters allowed replica)
    (hown : ∀ blockNum digest rest, replica.coreActions = .prepare blockNum digest :: rest →
      replica.core.config.id ∈ allowed)
    (hadmitted : ∀ vote actions, event = .call (.receive (.prepare vote)) actions →
      replica.Admits vote vote.viewNum vote.replicaId vote.sig → vote.replicaId ∈ allowed) :
    Voters allowed next := by
  cases houtcome with
  | drop | request | resend | accept | tick | propose | forward => exact h
  | @keepPrepare vote scratch hscratch =>
      refine h.insert ?_
      rcases hscratch with rfl | ⟨-, hadmits, rfl⟩
      · exact h.scratchAt _
      · refine ⟨?_, (h.scratchAt _).counted⟩
        intro other hmem
        rcases List.mem_append.mp hmem with hold | hnew
        · exact (h.scratchAt _).kept other hold
        · obtain rfl := List.mem_singleton.mp hnew
          exact hadmitted _ _ rfl hadmits
  | countPrepare hadmits _ _ hcheck =>
      exact hcheck.voters h
        ⟨(h.scratchAt _).kept, h.receive_subset (hadmitted _ _ rfl hadmits)⟩
  | keepCommit hscratch =>
      refine h.insert ?_
      rcases hscratch with rfl | ⟨-, -, rfl⟩
      · exact h.scratchAt _
      · exact ⟨(h.scratchAt _).kept, (h.scratchAt _).counted⟩
  | countCommit _ _ _ hcheck =>
      exact hcheck.voters h ⟨(h.scratchAt _).kept, (h.scratchAt _).counted⟩
  | prepare hqueue hcheck =>
      exact PrepareOutcome.voters hcheck h
        ⟨fun _ hmem => (by cases hmem), h.merged_subset (hown _ _ _ hqueue)⟩
  | commit hqueue _ hcheck =>
      exact CommitOutcome.voters hcheck h ⟨(h.scratchAt _).kept, (h.scratchAt _).counted⟩
  | finalize =>
      exact @entries_erase _ _ _ _ _ replica.blockScratches (fun _ => Among allowed) h _
  | enterView =>
      intro blockNum scratch hscratch
      simp at hscratch

theorem Voters.of_new (hnew : Replica.new crypto config = .ok replica) :
    Voters allowed replica := by
  simp only [Replica.new, bind_eq_ok] at hnew
  obtain ⟨cryptoConfig, -, hreplica⟩ := hnew
  obtain rfl := Except.ok.inj hreplica
  intro blockNum scratch hscratch
  simp at hscratch

theorem Sound.verify_lt (h : Sound config replica) {Value : Type} [UpdateHash Value]
    {value : Value} {id : Nat} {sig : crypto.Sig} {verified : Bool}
    (hverify : replica.verify value id sig = .ok verified) : id < config.spec.numReplica := by
  by_contra hid
  rw [Replica.verify, h.publicKeys, List.getElem?_eq_none (by simpa using hid)] at hverify
  cases hverify

/-- Whatever a replica is shown, it counts votes of the group only. -/
theorem FreeRun.voters (hrun : FreeRun config history replica) :
    Voters (Finset.range config.spec.numReplica) replica := by
  induction hrun with
  | start hnew => exact .of_new hnew
  | step hprev hstep ih =>
      have hsound := FreeRun.sound hprev
      refine hstep.outcome.voters ih (fun _ _ _ _ => ?_) fun vote _ _ hadmits => ?_
      · rw [hsound.configured]
        exact Finset.mem_range.mpr hsound.member
      · exact Finset.mem_range.mpr (hsound.verify_lt hadmits.verified)

/-- A quorum is no larger than the group. -/
theorem FreeRun.size_le (hrun : FreeRun config history replica) {call : Option (Call crypto)}
    {quorum : Quorum crypto.Sig} (hgathers : replica.Gathers call quorum) :
    quorum.size ≤ config.spec.numReplica := by
  have h := FreeRun.voters hrun
  have hsound := FreeRun.sound hrun
  suffices hsubset : quorum.keys ⊆ Finset.range config.spec.numReplica from
    (Finset.card_le_card hsubset).trans_eq (Finset.card_range _)
  cases hgathers with
  | receive hadmits =>
      exact h.receive_subset (Finset.mem_range.mpr (hsound.verify_lt hadmits.verified))
  | perform =>
      refine h.merged_subset ?_
      rw [hsound.configured]
      exact Finset.mem_range.mpr hsound.member

end Replica

end BftKit.Pbft
