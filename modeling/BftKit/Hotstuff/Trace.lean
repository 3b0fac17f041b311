import BftKit.Foundation.Run
import BftKit.Hotstuff.Effect

/-! # Runs of one replica

A run delivers arbitrary messages. Seen from the core it is a sequence of events,
and the core actions that these push are the performed ones followed by the queued
ones. So an invariant of the core and of what it has pushed is an invariant of runs.
-/

namespace BftKit.Hotstuff

open Foundation Threshold

variable {scheme : ThresholdScheme}

namespace ReplicaCoreAction

def vote? : ReplicaCoreAction → Option Nat
  | .vote key => some key
  | .propose _ | .finalize _ => none

def finalize? : ReplicaCoreAction → Option Nat
  | .finalize key => some key
  | .propose _ | .vote _ => none

def proposal? : ReplicaCoreAction → Option NodeData
  | .propose block => some block
  | .vote _ | .finalize _ => none

end ReplicaCoreAction

/-- The nodes voted for, in order. -/
def votes (actions : ReplicaCoreActions) : List Nat := actions.filterMap ReplicaCoreAction.vote?

/-- The nodes finalized, in order. -/
def finalizations (actions : ReplicaCoreActions) : List Nat :=
  actions.filterMap ReplicaCoreAction.finalize?

/-- The blocks proposed, in order. -/
def proposals (actions : ReplicaCoreActions) : List NodeData :=
  actions.filterMap ReplicaCoreAction.proposal?

section

variable (first second : ReplicaCoreActions) (path : List Nat)

theorem votes_nil : votes [] = [] := rfl

theorem finalizations_nil : finalizations [] = [] := rfl

@[simp] theorem votes_append : votes (first ++ second) = votes first ++ votes second :=
  List.filterMap_append

@[simp] theorem finalizations_append :
    finalizations (first ++ second) = finalizations first ++ finalizations second :=
  List.filterMap_append

@[simp] theorem proposals_append :
    proposals (first ++ second) = proposals first ++ proposals second :=
  List.filterMap_append

@[simp] theorem votes_finalize : votes (path.map .finalize) = [] := by
  simp [votes, List.filterMap_map, Function.comp_def, ReplicaCoreAction.vote?]

@[simp] theorem finalizations_finalize : finalizations (path.map .finalize) = path := by
  simp [finalizations, List.filterMap_map, Function.comp_def, ReplicaCoreAction.finalize?]

@[simp] theorem proposals_finalize : proposals (path.map .finalize) = [] := by
  simp [proposals, List.filterMap_map, Function.comp_def, ReplicaCoreAction.proposal?]

end

/-- Beats only propose. -/
theorem ReplicaCore.Beat.pushed {core core' : ReplicaCore scheme} {actions : ReplicaCoreActions}
    (h : core.Beat core' actions) : votes actions = [] ∧ finalizations actions = [] := by
  cases h <;> exact ⟨rfl, rfl⟩

/-- Proposals are made by beats. -/
theorem ReplicaCore.Reacted.proposals {core core' : ReplicaCore scheme}
    {event : ReplicaCoreEvent scheme} {actions : ReplicaCoreActions}
    (h : Reacted core event core' actions) : Hotstuff.proposals actions = [] := by
  cases h with
  | request | quorumCert => rfl
  | @proposal _ _ _ voting _ path =>
      rw [proposals_append, proposals_finalize, List.append_nil]
      cases voting <;> rfl
  | @proposed _ _ _ _ path => exact proposals_finalize path

/-- Only a leader plans proposals. -/
theorem ReplicaCore.Stored.handle_proposals {core core' : ReplicaCore scheme}
    {event : ReplicaCoreEvent scheme} {pushed : ReplicaCoreActions} (h : core.Stored)
    (hbackup : core.config.id ≠ 0) (hhandle : core.handle event = .ok (core', pushed)) :
    proposals pushed = [] := by
  obtain ⟨middle, reactions, beats, hreacted, hbeat, rfl⟩ := h.handle_ok hhandle
  have hid : middle.config.id ≠ 0 := by rwa [hreacted.grows.config]
  rw [proposals_append, hreacted.proposals, List.nil_append]
  cases hbeat with
  | wait | backup => rfl
  | rest _ hleader | extra _ hleader | propose _ hleader => exact absurd hleader hid

def ToReplica.generic? : ToReplica scheme → Option (Message.Generic scheme × Message.Block scheme)
  | .generic header block => some (header, block)
  | .voteGeneric _ | .publicCommitmentsSupply _ _ => none

def ToReplica.block? (message : ToReplica scheme) : Option (Message.Block scheme) :=
  message.generic?.map Prod.snd

namespace Replica

variable {replica next : Replica scheme} {event : Event scheme}

/-- The core action that an event performs. -/
def Event.performed? : Event scheme → Option ReplicaCoreAction
  | .perform action _ _ => some action
  | .call _ _ | .release _ _ => none

/-- What an event asks of the environment. -/
def Event.actions : Event scheme → List (Action scheme)
  | .call _ actions | .perform _ _ actions => actions
  | .release _ _ => []

/-- The block that an event receives. -/
def Event.received? : Event scheme → Option (Message.Generic scheme × Message.Block scheme)
  | .call (.receive (.generic generic block)) _ => some (generic, block)
  | .call _ _ | .release _ _ | .perform _ _ _ => none

/-- The digest that an event signs. -/
def Event.signed? : Event scheme → Option Digest
  | .perform _ signed _ => signed.map Prod.snd
  | .call _ _ | .release _ _ => none

/-- The blocks received along a history. -/
def received (history : List (Event scheme)) :
    List (Message.Generic scheme × Message.Block scheme) :=
  history.filterMap Event.received?

/-- The blocks that an event receives or sends. -/
def Event.shown (event : Event scheme) : List (Message.Block scheme) :=
  event.received?.toList.map Prod.snd ++
    event.actions.filterMap fun action => action.message?.bind ToReplica.block?

/-- The blocks received or sent along a history. -/
def shown (history : List (Event scheme)) : List (Message.Block scheme) :=
  history.flatMap Event.shown

/-- The blocks that an event sends. -/
def Event.generics (event : Event scheme) : List (Message.Generic scheme × Message.Block scheme) :=
  event.actions.filterMap fun action => action.message?.bind ToReplica.generic?

/-- The blocks sent along a history. -/
def generics (history : List (Event scheme)) :
    List (Message.Generic scheme × Message.Block scheme) :=
  history.flatMap Event.generics

/-- The digests signed along a history. -/
def signed (history : List (Event scheme)) : List Digest := history.filterMap Event.signed?

/-- The core actions performed along a history. -/
def performedIn (history : List (Event scheme)) : ReplicaCoreActions :=
  history.filterMap Event.performed?

@[simp] theorem performedIn_nil : performedIn ([] : List (Event scheme)) = [] := rfl

theorem performedIn_concat (history : List (Event scheme)) (event : Event scheme) :
    performedIn (history ++ [event]) = performedIn history ++ event.performed?.toList := by
  cases event <;> simp [performedIn, Event.performed?]

/-- The events that a step gives to the core. -/
inductive Gives (replica : Replica scheme) : Event scheme → ReplicaCoreEvent scheme → Prop
  | request {command} : Gives replica (.call (.request command) []) (.request command)
  | proposal {blockDigest block rest} (hpending : replica.pending = (blockDigest, block) :: rest) :
      Gives replica (.release blockDigest block) (.proposal blockDigest block)
  | proposed {data rest block signers} (hqueue : replica.coreActions = .propose data :: rest)
      (hblock : replica.proposalBlock data = .ok block) :
      Gives replica
        (.perform (.propose data) none
          [.sendToAllReplicas (.generic { block := scheme.digest block, signers } block)])
        (.proposed (scheme.digest block) block)
  | quorumCert {event digest signers sig}
      (haggregate : scheme.aggregate replica.cryptoConfig.keyShare signers digest = some sig) :
      Gives replica event (.quorumCert ⟨digest, .givre sig⟩)

/-- What a step means to the core and its queue. -/
inductive CoreStep (replica : Replica scheme) (event : Event scheme) (next : Replica scheme) : Prop
  | keep (hcore : next.core = replica.core)
      (hqueue : event.performed?.toList ++ next.coreActions = replica.coreActions)
  | give {coreEvent pushed} (hgives : Gives replica event coreEvent)
      (hhandle : replica.core.handle coreEvent = .ok (next.core, pushed))
      (hqueue : event.performed?.toList ++ next.coreActions = replica.coreActions ++ pushed)

/-- An aggregate comes from the external scheme. -/
theorem addPartial_some {partialSigs partialSigs' : PartialSigs scheme} {index : Nat}
    {partialSig : PartialSig scheme} {context : GivreAggregateContext scheme} {sig : Sig scheme}
    (hadd : partialSigs.addPartial index partialSig (.givre context) =
      (partialSigs', .ok (some sig))) :
    ∃ signers givreSig, sig = .givre givreSig ∧
      scheme.aggregate context.keyShare signers context.digest = some givreSig := by
  unfold PartialSigs.addPartial at hadd
  split at hadd
  · contradiction
  · contradiction
  next heq =>
    obtain rfl := AggregateContext.givre.inj heq
    dsimp only at hadd
    split at hadd
    · cases hadd
    · split at hadd
      · cases hadd
      · split at hadd
        · cases hadd
        next givreSig haggregate =>
          cases hadd
          exact ⟨_, givreSig, rfl, haggregate⟩
  · cases hadd

theorem Refilled.core {actions : List (Action scheme)} (h : Refilled replica next actions) :
    next.core = replica.core ∧ next.coreActions = replica.coreActions := by
  cases h with
  | enough => exact ⟨rfl, rfl⟩
  | refill =>
      unfold refillNonces
      split <;> exact ⟨rfl, rfl⟩

theorem VoteTaken.core {vote : Message.VoteGeneric scheme} (h : VoteTaken replica vote next) :
    (next.core = replica.core ∧ next.coreActions = replica.coreActions) ∨
      ∃ signers digest sig pushed,
        scheme.aggregate replica.cryptoConfig.keyShare signers digest = some sig ∧
        replica.core.handle (.quorumCert ⟨digest, .givre sig⟩) = .ok (next.core, pushed) ∧
        next.coreActions = replica.coreActions ++ pushed := by
  cases h with
  | share => exact .inl ⟨rfl, rfl⟩
  | quorum _ hadd hhandle =>
      obtain ⟨signers, sig, rfl, haggregate⟩ := addPartial_some hadd
      obtain ⟨core, pushed, hcore, rfl⟩ := handle_eq_ok.mp hhandle
      exact .inr ⟨signers, _, sig, pushed, haggregate, hcore, rfl⟩

theorem VotePerformed.core {node : Node} {signers : Signers scheme} {actions : List (Action scheme)}
    (h : VotePerformed replica node signers next actions) :
    (next.core = replica.core ∧ next.coreActions = replica.coreActions) ∨
      ∃ signers digest sig pushed,
        scheme.aggregate replica.cryptoConfig.keyShare signers digest = some sig ∧
        replica.core.handle (.quorumCert ⟨digest, .givre sig⟩) = .ok (next.core, pushed) ∧
        next.coreActions = replica.coreActions ++ pushed := by
  cases h with
  | unlisted => exact .inl ⟨rfl, rfl⟩
  | unsigned => exact .inl ⟨rfl, rfl⟩
  | signed _ _ _ hcast =>
      cases hcast with
      | leader _ htaken hrefilled =>
          rw [hrefilled.core.1, hrefilled.core.2]
          exact htaken.core
      | backup _ hrefilled => exact .inl hrefilled.core

theorem Effect.core (h : Effect replica event next) : CoreStep replica event next := by
  cases h with
  | init =>
      refine .keep ?_ ?_ <;> unfold refillNonces <;> split <;> rfl
  | tick => exact .keep rfl rfl
  | request _ hhandle =>
      obtain ⟨core, pushed, hcore, rfl⟩ := handle_eq_ok.mp hhandle
      exact .give .request hcore rfl
  | ignore => exact .keep rfl rfl
  | accept => exact .keep rfl rfl
  | park => exact .keep rfl rfl
  | vote _ htaken =>
      rcases htaken.core with
        ⟨hcore, hqueue⟩ | ⟨signers, digest, sig, pushed, haggregate, hcore, hqueue⟩
      · exact .keep hcore hqueue
      · exact .give (.quorumCert haggregate) hcore hqueue
  | supply => exact .keep rfl rfl
  | defer => exact .keep rfl rfl
  | release hpending _ hhandle =>
      obtain ⟨core, pushed, hcore, rfl⟩ := handle_eq_ok.mp hhandle
      exact .give (.proposal hpending) hcore rfl
  | propose _ hqueue hblock _ _ _ hhandle =>
      obtain ⟨core, pushed, hcore, rfl⟩ := handle_eq_ok.mp hhandle
      exact .give (.proposed hqueue hblock) hcore (by rw [hqueue]; rfl)
  | perform _ hqueue _ _ hvote =>
      rcases hvote.core with
        ⟨hcore, hrest⟩ | ⟨signers, digest, sig, pushed, haggregate, hcore, hrest⟩
      · exact .keep hcore (by rw [hrest, hqueue]; rfl)
      · exact .give (.quorumCert haggregate) hcore (by rw [hrest, hqueue]; rfl)
  | finalize _ hqueue => exact .keep rfl (by rw [hqueue]; rfl)

theorem Effect.grows (h : Effect replica event next) (hstored : replica.core.Stored) :
    ReplicaCore.Grows replica.core next.core := by
  cases h.core with
  | keep hcore =>
      rw [hcore]
      exact .refl _
  | give _ hhandle => exact (hstored.handle hhandle).2

theorem Effect.cryptoConfig (h : Effect replica event next) :
    next.cryptoConfig = replica.cryptoConfig := by
  have hrefill : ∀ replica : Replica scheme,
      replica.refillNonces.1.cryptoConfig = replica.cryptoConfig := by
    intro replica
    unfold refillNonces
    split <;> rfl
  have hrefilled : ∀ {replica next : Replica scheme} {actions : List (Action scheme)},
      Refilled replica next actions → next.cryptoConfig = replica.cryptoConfig := by
    intro replica next actions h
    cases h with
    | enough => rfl
    | refill => exact hrefill _
  have htaken : ∀ {replica next : Replica scheme} {vote : Message.VoteGeneric scheme},
      VoteTaken replica vote next → next.cryptoConfig = replica.cryptoConfig := by
    intro replica next vote h
    cases h with
    | share => rfl
    | quorum _ _ hhandle =>
        obtain ⟨core, pushed, hcore, rfl⟩ := handle_eq_ok.mp hhandle
        rfl
  cases h with
  | init => exact hrefill _
  | request _ hhandle | release _ _ hhandle | propose _ _ _ _ _ _ hhandle =>
      obtain ⟨core, pushed, hcore, rfl⟩ := handle_eq_ok.mp hhandle
      rfl
  | vote _ h => exact htaken h
  | perform _ _ _ _ hvote =>
      cases hvote with
      | unlisted | unsigned => rfl
      | signed _ _ _ hcast =>
          cases hcast with
          | leader _ h hrest => rw [hrefilled hrest, htaken h]
          | backup _ hrest => rw [hrefilled hrest]
  | tick | ignore | accept | park | supply | defer | finalize => rfl

end Replica

/-- The runs of one replica. -/
abbrev LocalRun (coreConfig : ReplicaCoreConfig) (cryptoConfig : CryptoConfig scheme) :
    List (Replica.Event scheme) → Replica scheme → Prop :=
  Run (· = Replica.new coreConfig cryptoConfig) fun _ replica event next =>
    Replica.Step replica event next

/-- The runs whose steps meet a guard. -/
abbrev GuardedRun (guard : Replica scheme → Replica.Event scheme → Prop)
    (coreConfig : ReplicaCoreConfig) (cryptoConfig : CryptoConfig scheme) :
    List (Replica.Event scheme) → Replica scheme → Prop :=
  Run (· = Replica.new coreConfig cryptoConfig) fun _ replica event next =>
    Replica.Step replica event next ∧ guard replica event

variable {coreConfig : ReplicaCoreConfig} {cryptoConfig : CryptoConfig scheme}
  {history : List (Replica.Event scheme)} {replica : Replica scheme}
  {guard : Replica scheme → Replica.Event scheme → Prop}

theorem GuardedRun.localRun (hrun : GuardedRun guard coreConfig cryptoConfig history replica) :
    LocalRun coreConfig cryptoConfig history replica :=
  hrun.mono (fun _ h => h) fun _ _ _ _ h => h.1

/-- What holds of a new core, and is kept by every event that a guarded step gives it,
holds of the core and all it has pushed. -/
theorem GuardedRun.core_invariant (Inv : ReplicaCore scheme → ReplicaCoreActions → Prop)
    (hinit : Inv (.new scheme coreConfig) [])
    (hstep : ∀ (replica : Replica scheme) event coreEvent core' pushed pushed', guard replica event →
      Replica.Gives replica event coreEvent → Inv replica.core pushed →
      replica.core.handle coreEvent = .ok (core', pushed') → Inv core' (pushed ++ pushed'))
    (hrun : GuardedRun guard coreConfig cryptoConfig history replica) :
    Inv replica.core (Replica.performedIn history ++ replica.coreActions) := by
  induction hrun with
  | start hinit' =>
      subst hinit'
      exact hinit
  | @step history replica event next hprev h ih =>
      rw [Replica.performedIn_concat, List.append_assoc]
      cases h.1.effect.core with
      | keep hcore hqueue =>
          rw [hcore, hqueue]
          exact ih
      | give hgives hhandle hqueue =>
          rw [hqueue, ← List.append_assoc]
          exact hstep _ _ _ _ _ _ h.2 hgives ih hhandle

theorem LocalRun.core_invariant (Inv : ReplicaCore scheme → ReplicaCoreActions → Prop)
    (hinit : Inv (.new scheme coreConfig) [])
    (hstep : ∀ (core : ReplicaCore scheme) coreEvent core' pushed pushed', Inv core pushed →
      core.handle coreEvent = .ok (core', pushed') → Inv core' (pushed ++ pushed'))
    (hrun : LocalRun coreConfig cryptoConfig history replica) :
    Inv replica.core (Replica.performedIn history ++ replica.coreActions) := by
  have hguarded : GuardedRun (fun _ _ => True) coreConfig cryptoConfig history replica :=
    hrun.mono (fun _ h => h) fun _ _ _ _ h => ⟨h, trivial⟩
  exact hguarded.core_invariant Inv hinit
    fun _ _ _ _ _ _ _ _ hinv hhandle => hstep _ _ _ _ _ hinv hhandle

/-- The store of a replica is well formed in every state it reaches. -/
theorem LocalRun.stored (hrun : LocalRun coreConfig cryptoConfig history replica) :
    replica.core.Stored :=
  hrun.core_invariant (fun core _ => core.Stored) (ReplicaCore.new_stored _)
    fun _ _ _ _ _ hstored hhandle => (hstored.handle hhandle).1

theorem LocalRun.config (hrun : LocalRun coreConfig cryptoConfig history replica) :
    replica.core.config = coreConfig :=
  (hrun.core_invariant (fun core _ => core.Stored ∧ core.config = coreConfig)
    ⟨ReplicaCore.new_stored _, rfl⟩ fun _ _ _ _ _ h hhandle =>
      ⟨(h.1.handle hhandle).1, (h.1.handle hhandle).2.config.trans h.2⟩).2

/-- A backup proposes nothing. -/
theorem LocalRun.no_proposals (hrun : LocalRun coreConfig cryptoConfig history replica)
    (hbackup : coreConfig.id ≠ 0) :
    proposals (Replica.performedIn history ++ replica.coreActions) = [] := by
  refine (hrun.core_invariant (fun core pushed =>
    (core.Stored ∧ core.config.id ≠ 0) ∧ proposals pushed = [])
    ⟨⟨ReplicaCore.new_stored _, hbackup⟩, rfl⟩ ?_).2
  rintro core coreEvent core' pushed pushed' ⟨⟨hstored, hid⟩, hnone⟩ hhandle
  obtain ⟨hstored', hgrows⟩ := hstored.handle hhandle
  refine ⟨⟨hstored', by rwa [hgrows.config]⟩, ?_⟩
  rw [proposals_append, hnone, List.nil_append]
  exact hstored.handle_proposals hid hhandle

theorem LocalRun.cryptoConfig_eq (hrun : LocalRun coreConfig cryptoConfig history replica) :
    replica.cryptoConfig = cryptoConfig := by
  induction hrun with
  | start hinit =>
      subst hinit
      rfl
  | step _ hstep ih => exact hstep.effect.cryptoConfig.trans ih

end BftKit.Hotstuff
