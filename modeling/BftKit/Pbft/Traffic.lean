import Mathlib.Algebra.BigOperators.Ring.List
import BftKit.Foundation.Totals
import BftKit.Pbft.Quiescence

/-! # What a replica sends

How many messages a replica sends follows from how often it does what. It proposes,
prepares and commits each of its blocks once, forwards what it is asked for once, and
answers a PrePrepare only if it has brought no block.
-/

namespace BftKit

open Foundation

namespace ReplicaAction

variable {Message : Type}

/-- The number of messages of an action. -/
def cost (numReplica : Nat) : ReplicaAction Message → Nat
  | .sendToReplica _ _ => 1
  | .sendToAllReplicas _ => numReplica - 1
  | .finalize _ => 0

theorem length_deliveries {numReplica sender : Nat} (hsender : sender < numReplica)
    (action : ReplicaAction Message) :
    (action.deliveries numReplica sender).length = action.cost numReplica := by
  cases action with
  | sendToReplica | finalize => rfl
  | sendToAllReplicas message =>
      have hmem : sender ∈ List.range numReplica := List.mem_range.mpr hsender
      have hothers : (List.range numReplica).filter (· ≠ sender) =
          (List.range numReplica).erase sender := by
        rw [List.nodup_range.erase_eq_filter]
        apply List.filter_congr
        intro id _
        by_cases heq : id = sender <;> simp [heq]
      rw [deliveries, List.length_map, hothers, List.length_erase_of_mem hmem, List.length_range,
        cost]

end ReplicaAction

namespace Pbft

variable {crypto : Crypto}

namespace ReplicaCoreAction

/-- The block number that an action starts: at a primary by proposing it, at a backup by
preparing it. -/
def started? : ReplicaCoreAction crypto → Option Nat
  | .propose blockNum _ | .prepare blockNum _ => some blockNum
  | .commit _ | .finalize _ | .forward _ _ | .viewChange _ _ | .newView _ _ _ | .enterView => none

def committed? : ReplicaCoreAction crypto → Option Nat
  | .commit blockNum => some blockNum
  | .propose _ _ | .prepare _ _ | .finalize _ | .forward _ _ | .viewChange _ _ | .newView _ _ _
  | .enterView => none

def forwarded? : ReplicaCoreAction crypto → Option (Nat × Command)
  | .forward replicaId command => some (replicaId, command)
  | .propose _ _ | .prepare _ _ | .commit _ | .finalize _ | .viewChange _ _ | .newView _ _ _
  | .enterView => none

end ReplicaCoreAction

open ReplicaCoreAction

/-- The command that a message forwards. -/
def ToReplica.request? : ToReplica crypto → Option Command
  | .request command => some command
  | .prePrepare _ _ | .prepare _ | .commit _ => none

namespace Replica

/-- An event is a tick. -/
def Event.isTick : Event crypto → Bool
  | .call .tick _ => true
  | .call (.request _) _ | .call (.receive _) _ | .perform _ _ => false

/-- An event answers a PrePrepare with the votes there are. -/
def Event.isAnswer : Event crypto → Bool
  | .call (.receive (.prePrepare _ _)) actions => !actions.isEmpty
  | .call (.receive (.request _)) _ | .call (.receive (.prepare _)) _
  | .call (.receive (.commit _)) _ | .call (.request _) _ | .call .tick _ | .perform _ _ => false

/-- The number of messages that an event sends. -/
def Event.cost (numReplica : Nat) (event : Event crypto) : Nat :=
  (event.actions.map (ReplicaAction.cost numReplica)).sum

/-- The number of messages that a history sends. -/
def traffic (numReplica : Nat) (history : List (Event crypto)) : Nat :=
  (history.map (Event.cost numReplica)).sum

/-- The block numbers that a history starts. -/
def startedIn (history : List (Event crypto)) : List Nat :=
  (performedIn history).filterMap started?

/-- The block numbers that a history commits. -/
def committedIn (history : List (Event crypto)) : List Nat :=
  (performedIn history).filterMap committed?

/-- The requests that a history forwards, with the replicas they go to. -/
def forwardedIn (history : List (Event crypto)) : List (Nat × Command) :=
  (performedIn history).filterMap forwarded?

variable {config : ReplicaCoreConfig} {history : List (Event crypto)}
  {replica next : Replica crypto} {event : Event crypto} {log : List Command}

/-! ## The bill -/

/-- What an event may cost that is no tick. -/
def Event.charge (numReplica : Nat) (event : Event crypto) : Nat :=
  2 * (if event.isAnswer then 1 else 0) +
    (numReplica - 1) * ((event.performed?.bind started?).toList.length +
      (event.performed?.bind committed?).toList.length) +
    (event.performed?.bind forwarded?).toList.length

/-- A tick sends at most one broadcast for each block number it had been ticked for. -/
theorem tick_le {actions : List (Action crypto)} {measure : Action crypto → Nat} {bound : Nat}
    (hbound : ∀ sent commands, measure (.sendToAllReplicas (.prePrepare sent commands)) ≤ bound)
    (hcall : replica.tick = .ok (next, actions)) :
    (actions.map measure).sum ≤ bound * replica.tickedScratchNum := by
  unfold tick at hcall
  dsimp only at hcall
  split at hcall
  · obtain ⟨-, rfl⟩ := Prod.mk.inj (Except.ok.inj hcall)
    exact Nat.zero_le _
  · simp only [bind_eq_ok] at hcall
    obtain ⟨resent, hmap, heq⟩ := hcall
    obtain ⟨-, rfl⟩ := Prod.mk.inj (Except.ok.inj heq)
    have hresend : ∀ blockNum sent,
        resendPrePrepare { replica with tickedScratchNum := replica.core.proposeNum } blockNum =
          .ok sent → (sent.map measure).sum ≤ bound := by
      intro blockNum sent hresend
      unfold resendPrePrepare at hresend
      split at hresend
      · obtain rfl := Except.ok.inj hresend
        exact Nat.zero_le _
      · split at hresend
        · cases hresend
        · obtain rfl := Except.ok.inj hresend
          simpa using hbound _ _
    have hsum := mapM_sum_le (fun sent => (sent.map measure).sum) hresend hmap
    rw [List.map_flatten, List.sum_flatten, List.map_map]
    refine hsum.trans (Nat.mul_le_mul_left _ ?_)
    rw [List.length_range']
    omega

/-- An answer is a Prepare, and a Commit at most. -/
theorem answer_cost {sent : PrePrepare crypto} {commands : List Command}
    {actions : List (Action crypto)} (numReplica : Nat)
    (hcall : replica.receivePrePrepare sent commands = .ok (next, actions)) :
    (actions.map (ReplicaAction.cost numReplica)).sum ≤ 2 := by
  unfold receivePrePrepare at hcall
  split at hcall
  · obtain ⟨-, rfl⟩ := Prod.mk.inj (Except.ok.inj hcall)
    exact Nat.zero_le _
  · split at hcall
    · split at hcall
      · dsimp only at hcall
        obtain ⟨-, rfl⟩ := Prod.mk.inj (Except.ok.inj hcall)
        split <;> simp [ReplicaAction.cost]
      · obtain ⟨-, rfl⟩ := Prod.mk.inj (Except.ok.inj hcall)
        exact Nat.zero_le _
    · simp only [bind_eq_ok] at hcall
      obtain ⟨verified, -, hcall⟩ := hcall
      split at hcall
      · obtain ⟨-, rfl⟩ := Prod.mk.inj (Except.ok.inj hcall)
        exact Nat.zero_le _
      · simp only [bind_eq_ok] at hcall
        obtain ⟨next', -, heq⟩ := hcall
        obtain ⟨-, rfl⟩ := Prod.mk.inj (Except.ok.inj heq)
        exact Nat.zero_le _

/-- Every event is within its charge. -/
theorem Step.cost_le (hstep : Step replica event next) (heffect : Effect log replica event next)
    (numReplica : Nat) :
    event.cost numReplica ≤
      (if event.isTick then (numReplica - 1) * replica.tickedScratchNum else 0) +
        event.charge numReplica := by
  cases hstep with
  | @call call next actions hidle hcall =>
      cases call with
      | tick =>
          exact (tick_le (fun _ _ => le_rfl) hcall).trans (Nat.le_add_right _ _)
      | request command =>
          cases heffect with
          | request => exact Nat.zero_le _
      | receive message =>
          cases message with
          | prePrepare sent commands =>
              cases hactions : actions with
              | nil => exact Nat.zero_le _
              | cons first rest =>
                  have hcost := answer_cost numReplica hcall
                  rw [hactions] at hcost
                  refine hcost.trans ?_
                  simp only [Event.charge, Event.isAnswer, List.isEmpty_cons, Bool.not_false, if_true]
                  omega
          | request | prepare | commit => cases heffect <;> exact Nat.zero_le _
  | @perform action rest next actions hqueue hperform =>
      cases heffect with
      | propose | prepare | commit | finalize | forward =>
          simp [Event.cost, Event.actions, ReplicaAction.cost, Event.charge, Event.isTick,
            Event.isAnswer, Event.performed?, started?, committed?, forwarded?]

/-- What one more event adds to what a history has performed. -/
theorem filterMap_performed_concat {Item : Type*} (pick : ReplicaCoreAction crypto → Option Item)
    (history : List (Event crypto)) (event : Event crypto) :
    (performedIn (history ++ [event])).filterMap pick =
      (performedIn history).filterMap pick ++ (event.performed?.bind pick).toList := by
  rw [performedIn_concat, List.filterMap_append]
  cases event.performed? with
  | none => rfl
  | some action => cases hpick : pick action <;> simp [hpick]

theorem length_performed {Item : Type*} (pick : ReplicaCoreAction crypto → Option Item)
    (history : List (Event crypto)) :
    (history.map fun event => (event.performed?.bind pick).toList.length).sum =
      ((performedIn history).filterMap pick).length := by
  induction history using List.reverseRecOn with
  | nil => rfl
  | append_singleton history event ih =>
      rw [filterMap_performed_concat, List.map_append, List.sum_append, ih, List.length_append]
      simp

/-- Ticks are charged for the blocks of their time, of which there only become more. -/
theorem CorrectRun.sum_le (hrun : CorrectRun config history replica)
    {measure charge : Event crypto → Nat} {bound : Nat}
    (hcharge : ∀ log replica event next, Step replica event next →
      Effect log replica event next → measure event ≤
        (if event.isTick then bound * replica.tickedScratchNum else 0) + charge event) :
    (history.map measure).sum ≤
      bound * (history.countP Event.isTick * (proposals (performedIn history)).length) +
        (history.map charge).sum := by
  induction hrun with
  | start => exact Nat.zero_le _
  | @step history replica event next hprev hstep ih =>
      have h := (accountable hprev).coherent
      obtain ⟨lists, -, heffect⟩ := h.effect hstep.1
      have hmeasure := hcharge _ _ _ _ hstep.1 heffect
      have hticked := h.ticked
      unfold proposals at ih hticked ⊢
      simp only [filterMap_performed_concat, List.map_append, List.sum_append, List.length_append,
        List.countP_append, List.countP_singleton, List.map_singleton, List.sum_singleton]
      generalize ((performedIn history).filterMap proposal?).length = numBlocks at ih hticked ⊢
      generalize (event.performed?.bind proposal?).toList.length = numMore
      have hmore : bound * (history.countP Event.isTick * numBlocks) +
          (if event.isTick then bound * replica.tickedScratchNum else 0) ≤
          bound * ((history.countP Event.isTick + if event.isTick then 1 else 0) *
            (numBlocks + numMore)) := by
        split
        · refine (Nat.add_le_add_left (Nat.mul_le_mul_left _ hticked) _).trans ?_
          rw [← Nat.mul_add, ← Nat.succ_mul]
          exact Nat.mul_le_mul_left _ (Nat.mul_le_mul_left _ (Nat.le_add_right _ _))
        · exact Nat.mul_le_mul_left _ (Nat.mul_le_mul_left _ (Nat.le_add_right _ _))
      omega

/-- What a history costs is told by how often it does what. -/
theorem CorrectRun.traffic_le (hrun : CorrectRun config history replica) (numReplica : Nat) :
    traffic numReplica history ≤
      (numReplica - 1) * (history.countP Event.isTick * (proposals (performedIn history)).length) +
        (2 * history.countP Event.isAnswer + (numReplica - 1) * ((startedIn history).length +
          (committedIn history).length) + (forwardedIn history).length) := by
  have hsum := sum_le hrun fun _ _ _ _ hstep heffect => hstep.cost_le heffect numReplica
  unfold Event.charge at hsum
  simp only [List.sum_map_add, List.sum_map_mul_left, length_performed, ← countP_eq_sum] at hsum
  exact hsum

/-- How many messages of a kind an event sends, a broadcast counting once. -/
def Event.carried {Item : Type*} (pick : ToReplica crypto → Option Item) (event : Event crypto) :
    Nat :=
  (event.actions.map fun action => (action.message?.bind pick).toList.length).sum

theorem length_sentMessages {Item : Type*} (pick : ToReplica crypto → Option Item)
    (history : List (Event crypto)) :
    ((sentMessages history).filterMap pick).length = (history.map (Event.carried pick)).sum := by
  have hactions : ∀ actions : List (Action crypto),
      ((actions.filterMap ReplicaAction.message?).filterMap pick).length =
        (actions.map fun action => (action.message?.bind pick).toList.length).sum := by
    intro actions
    induction actions with
    | nil => rfl
    | cons action rest ih =>
        rw [List.map_cons, List.sum_cons, ← ih, List.filterMap_cons]
        cases action.message? with
        | none => simp
        | some message => cases hpick : pick message <;> simp [hpick, Nat.add_comm]
  rw [sentMessages, List.filterMap_flatMap, List.length_flatMap]
  exact congrArg List.sum (List.map_congr_left fun event _ => hactions event.actions)

theorem length_flatMap_deliveries {numReplica sender : Nat} (hsender : sender < numReplica)
    (history : List (Event crypto)) :
    ((history.flatMap Event.actions).flatMap (ReplicaAction.deliveries numReplica sender)).length =
      traffic numReplica history := by
  have hcost : ∀ event : Event crypto,
      (event.actions.flatMap (ReplicaAction.deliveries numReplica sender)).length =
        event.cost numReplica := by
    intro event
    rw [List.length_flatMap, Event.cost]
    exact congrArg List.sum (List.map_congr_left fun action _ => action.length_deliveries hsender)
  rw [List.flatMap_assoc, List.length_flatMap, traffic]
  exact congrArg List.sum (List.map_congr_left fun event _ => hcost event)

/-- Each receiver gets a broadcast once. -/
theorem length_filterMap_deliveries_le {Item : Type*} (pick : ToReplica crypto → Option Item)
    (numReplica sender receiver : Nat) (history : List (Event crypto)) :
    (((history.flatMap Event.actions).flatMap
        (ReplicaAction.deliveries numReplica sender)).filterMap
          fun entry => if entry.1 = receiver then pick entry.2 else none).length ≤
      ((sentMessages history).filterMap pick).length := by
  have haction : ∀ action : Action crypto,
      ((action.deliveries numReplica sender).filterMap
        fun entry => if entry.1 = receiver then pick entry.2 else none).length ≤
        (action.message?.bind pick).toList.length := by
    intro action
    cases action with
    | sendToReplica id message =>
        by_cases heq : id = receiver <;>
          cases hpick : pick message <;> simp [ReplicaAction.deliveries, ReplicaAction.message?, *]
    | sendToAllReplicas message =>
        have hnodup : ((List.range numReplica).filter (· ≠ sender)).Nodup :=
          List.nodup_range.filter _
        rw [ReplicaAction.deliveries, List.filterMap_map, List.length_filterMap_eq_countP,
          ReplicaAction.message?, Option.bind_some]
        cases hpick : pick message with
        | none => simp [hpick]
        | some item =>
            apply le_trans _ (List.nodup_iff_count_le_one.mp hnodup receiver)
            apply List.countP_mono_left
            simp [hpick]
    | finalize => exact le_rfl
  rw [length_sentMessages, List.flatMap_assoc, List.filterMap_flatMap, List.length_flatMap]
  apply List.sum_le_sum
  intro event _
  rw [List.filterMap_flatMap, List.length_flatMap]
  exact List.sum_le_sum fun action _ => haction action

/-- An answer carries votes and nothing else. -/
theorem carried_answer {Item : Type*} {pick : ToReplica crypto → Option Item} {call : Call crypto}
    {actions : List (Action crypto)} {id : Nat} {vote : Vote crypto}
    (hprepare : ∀ vote, pick (.prepare vote) = none) (hcommit : ∀ vote, pick (.commit vote) = none)
    (hactions : ∀ action ∈ actions,
      action = .sendToReplica id (.prepare vote) ∨ action = .sendToReplica id (.commit vote)) :
    Event.carried pick (.call call actions) = 0 := by
  apply List.sum_eq_zero
  rw [List.forall_mem_map]
  intro action haction
  rcases hactions action haction with rfl | rfl
  · simp [ReplicaAction.message?, hprepare]
  · simp [ReplicaAction.message?, hcommit]

/-- A replica sends a PrePrepare for each of its proposals, and for all of them at a tick. -/
theorem CorrectRun.prePrepares_le (hrun : CorrectRun config history replica) :
    ((sentMessages history).filterMap ToReplica.prePrepare?).length ≤
      (history.countP Event.isTick + 1) * (proposals (performedIn history)).length := by
  have hsum := @sum_le _ _ _ _ hrun (Event.carried ToReplica.prePrepare?)
    (fun event => (event.performed?.bind proposal?).toList.length) 1 ?_
  · rwa [length_performed, ← length_sentMessages, Nat.one_mul, ← proposals, ← Nat.succ_mul] at hsum
  · rintro log replica event next hstep heffect
    cases heffect with
    | drop | request | accept | keepPrepare | countPrepare | keepCommit | countCommit =>
        exact Nat.zero_le _
    | resend _ _ _ hactions =>
        rw [carried_answer (fun _ => rfl) (fun _ => rfl) hactions]
        exact Nat.zero_le _
    | tick =>
        cases hstep with
        | call hidle hcall => exact (tick_le (fun _ _ => le_rfl) hcall).trans (Nat.le_add_right _ _)
    | propose | prepare | commit | finalize | forward =>
        simp [Event.carried, Event.actions, ReplicaAction.message?, ToReplica.prePrepare?,
          Event.performed?, proposal?]

/-- The requests that a replica sends are those it forwards. -/
theorem CorrectRun.requests_le (hrun : CorrectRun config history replica) :
    ((sentMessages history).filterMap ToReplica.request?).length ≤ (forwardedIn history).length := by
  have hsum := @sum_le _ _ _ _ hrun (Event.carried ToReplica.request?)
    (fun event => (event.performed?.bind forwarded?).toList.length) 0 ?_
  · rwa [length_performed, ← length_sentMessages, Nat.zero_mul, Nat.zero_add] at hsum
  · rintro log replica event next hstep heffect
    cases heffect with
    | drop | request | accept | keepPrepare | countPrepare | keepCommit | countCommit =>
        exact Nat.zero_le _
    | resend _ _ _ hactions =>
        rw [carried_answer (fun _ => rfl) (fun _ => rfl) hactions]
        exact Nat.zero_le _
    | tick =>
        cases hstep with
        | call hidle hcall => exact (tick_le (fun _ _ => le_rfl) hcall).trans (Nat.le_add_right _ _)
    | propose | prepare | commit | finalize | forward =>
        simp [Event.carried, Event.actions, ReplicaAction.message?, ToReplica.request?,
          Event.performed?, forwarded?]

/-! ## How often -/

/-- Actions that are the first of their phase, told by their numbers. -/
theorem count_picked {pick : ReplicaCoreAction crypto → Option Nat} {phase : Phase}
    (hpick : ∀ action blockNum, pick action = some blockNum → phaseOf blockNum action = some phase)
    (blockNum : Nat) (performed : ReplicaCoreActions crypto) :
    (performed.filterMap pick).count blockNum ≤ (phases blockNum performed).count phase := by
  induction performed with
  | nil => exact Nat.zero_le _
  | cons action rest ih =>
      have hrest : phases blockNum (action :: rest) =
          (phaseOf blockNum action).toList ++ phases blockNum rest := by
        rw [phases, List.filterMap_cons]
        cases phaseOf blockNum action <;> rfl
      rw [hrest, List.count_append, List.filterMap_cons]
      cases hnum : pick action with
      | none => exact ih.trans (Nat.le_add_left _ _)
      | some other =>
          dsimp only
          rw [List.count_cons]
          by_cases heq : other = blockNum
          · subst heq
            simp [hpick action other hnum, Nat.add_comm, ih]
          · simp only [beq_iff_eq, heq, if_false, Nat.add_zero]
            exact ih.trans (Nat.le_add_left _ _)

/-- Each block number goes through a phase once, and has a block then. -/
theorem CorrectRun.picked (hrun : CorrectRun config history replica)
    {pick : ReplicaCoreAction crypto → Option Nat} {phase : Phase}
    (hpick : ∀ action blockNum, pick action = some blockNum →
      phaseOf blockNum action = some phase) :
    ((performedIn history).filterMap pick).Nodup ∧
      ∀ blockNum ∈ (performedIn history).filterMap pick, blockNum ∈ replica.core.blocks := by
  have h := (accountable hrun).coherent
  refine ⟨List.nodup_iff_count_le_one.mpr fun blockNum => ?_, fun blockNum hmem => ?_⟩
  · refine (count_picked hpick blockNum _).trans ?_
    rw [h.phases blockNum]
    refine ((phases_stage _ replica blockNum).sublist.count_le phase).trans ?_
    cases phase <;> decide
  · have hpos := List.count_pos_iff.mpr hmem
    have hphase := List.count_pos_iff.mp (hpos.trans_le (count_picked hpick blockNum _))
    rw [h.phases blockNum, stage] at hphase
    split at hphase
    · cases hphase
    next block hblock => exact Coherent.mem_blocks.mpr ⟨block, hblock⟩

theorem CorrectRun.length_started (hrun : CorrectRun config history replica) :
    (startedIn history).length ≤ replica.core.blocks.size := by
  obtain ⟨hnodup, hstored⟩ := @picked _ _ _ _ hrun started? .prepare (by
    intro action blockNum hpick
    cases action with
    | propose | prepare =>
        obtain rfl := Option.some.inj hpick
        exact if_pos rfl
    | commit | finalize | forward | viewChange | newView | enterView => cases hpick)
  exact ReplicaCore.length_le_size hnodup hstored

theorem CorrectRun.length_committed (hrun : CorrectRun config history replica) :
    (committedIn history).length ≤ replica.core.blocks.size := by
  obtain ⟨hnodup, hstored⟩ := @picked _ _ _ _ hrun committed? .commit (by
    intro action blockNum hpick
    cases action with
    | commit =>
        obtain rfl := Option.some.inj hpick
        exact if_pos rfl
    | propose | prepare | finalize | forward | viewChange | newView | enterView => cases hpick)
  exact ReplicaCore.length_le_size hnodup hstored

@[simp]
theorem filterMap_forwarded_finalizeActions (num count : Nat) :
    (finalizeActions crypto num count).filterMap forwarded? = [] := by
  simp [List.filterMap_eq_nil_iff, finalizeActions, forwarded?]

@[simp]
theorem filterMap_forwarded_proposeActions (num : Nat) (lists : List (List Command)) :
    (proposeActions crypto num lists).filterMap forwarded? = [] := by
  simp [List.filterMap_eq_nil_iff, proposeActions, forwarded?]

theorem PrepareCheck.forwarded {blockNum : Nat} {block : Block crypto}
    {scratch : BlockScratch crypto} (hcheck : PrepareCheck replica blockNum block scratch next) :
    next.coreActions.filterMap forwarded? = replica.coreActions.filterMap forwarded? := by
  cases hcheck with
  | waiting => rfl
  | prepared => simp [forwarded?]

theorem CommitCheck.forwarded {blockNum : Nat} {block : Block crypto}
    {scratch : BlockScratch crypto} (hcheck : CommitCheck log replica blockNum block scratch next) :
    next.coreActions.filterMap forwarded? = replica.coreActions.filterMap forwarded? := by
  cases hcheck with
  | waiting => rfl
  | committed => simp

/-- A step queues at most the request it brings for forwarding, and only at a backup. -/
theorem Effect.forwarded (heffect : Effect log replica event next) :
    List.Sublist ((event.performed?.bind forwarded?).toList ++
        next.coreActions.filterMap forwarded?)
      (replica.coreActions.filterMap forwarded? ++ if replica.core.isPrimary then [] else
        event.requested?.toList.map
          (Prod.mk (replica.core.config.spec.primary replica.core.viewNum))) := by
  cases heffect with
  | drop | resend | keepPrepare | keepCommit | tick => exact List.sublist_append_left _ _
  | @request call command pool lists hcall =>
      have hrequested : (Event.call call []).requested? = some command := by
        rcases hcall with rfl | rfl <;> rfl
      simp only [Event.performed?, Option.bind_none, Option.toList_none, List.nil_append,
        List.filterMap_append, hrequested]
      apply List.Sublist.append_left
      by_cases hprimary : replica.core.isPrimary <;> simp [hprimary, forwarded?]
  | accept =>
      simp only [Event.performed?, Option.bind_none, Option.toList_none, List.nil_append,
        List.filterMap_append]
      apply List.Sublist.append_left
      by_cases hprimary : replica.core.isPrimary <;>
        simp [hprimary, forwarded?, List.filterMap_cons]
  | countPrepare _ _ _ _ hcheck =>
      simp only [Event.performed?, Option.bind_none, Option.toList_none, List.nil_append,
        hcheck.forwarded]
      exact List.sublist_append_left _ _
  | countCommit _ _ _ _ hcheck =>
      simp only [Event.performed?, Option.bind_none, Option.toList_none, List.nil_append,
        hcheck.forwarded]
      exact List.sublist_append_left _ _
  | propose hqueue | finalize hqueue | forward hqueue =>
      simp [hqueue, Event.performed?, forwarded?, List.filterMap_cons]
  | prepare hqueue _ _ _ hcheck =>
      simp [hqueue, hcheck.forwarded, Event.performed?, forwarded?, List.filterMap_cons]
  | commit hqueue _ _ hcheck =>
      simp [hqueue, hcheck.forwarded, Event.performed?, forwarded?, List.filterMap_cons]

/-- Requests are forwarded once each, in order, and only from backups to the primary. -/
theorem CorrectRun.forwarded (hrun : CorrectRun config history replica) :
    List.Sublist (forwardedIn history ++ replica.coreActions.filterMap forwarded?)
      (if config.spec.primary 0 = config.id then [] else
        (requests history).map (Prod.mk (config.spec.primary 0))) := by
  induction hrun with
  | @start replica hnew =>
      simp only [Replica.new, bind_eq_ok] at hnew
      obtain ⟨cryptoConfig, -, heq⟩ := hnew
      obtain rfl := Except.ok.inj heq
      exact List.nil_sublist _
  | @step history replica event next hprev hstep ih =>
      have h := (accountable hprev).coherent
      obtain ⟨lists, -, heffect⟩ := h.effect hstep.1
      have hforwarded := heffect.forwarded
      unfold forwardedIn at ih ⊢
      rw [filterMap_performed_concat, List.append_assoc]
      refine (hforwarded.append_left _).trans ?_
      rw [← List.append_assoc]
      refine (ih.append_right _).trans ?_
      rw [h.isPrimary_eq, h.configured, h.view, requests_concat]
      by_cases hprimary : config.spec.primary 0 = config.id <;> simp [hprimary]

theorem size_insert_stored {blocks : Blocks crypto} {blockNum : Nat} {block : Block crypto}
    (hblock : blocks[blockNum]? = some block) (block' : Block crypto) :
    (blocks.insert blockNum block').size = blocks.size := by
  have hmem : blocks.contains blockNum = true := by
    rw [Std.ExtTreeMap.contains_eq_isSome_getElem?, hblock]
    rfl
  rw [Std.ExtTreeMap.size_insert, if_pos hmem]

theorem PrepareCheck.size {blockNum : Nat} {block : Block crypto} {scratch : BlockScratch crypto}
    (hcheck : PrepareCheck replica blockNum block scratch next)
    (hblock : replica.core.blocks[blockNum]? = some block) :
    next.core.blocks.size = replica.core.blocks.size := by
  cases hcheck with
  | waiting => rfl
  | prepared => exact size_insert_stored hblock _

theorem CommitCheck.size {blockNum : Nat} {block : Block crypto} {scratch : BlockScratch crypto}
    (hcheck : CommitCheck log replica blockNum block scratch next)
    (hblock : replica.core.blocks[blockNum]? = some block) :
    next.core.blocks.size = replica.core.blocks.size := by
  cases hcheck with
  | waiting => rfl
  | committed => exact size_insert_stored hblock _

/-- A PrePrepare brings a block or an answer, and a proposal brings a block. -/
theorem Effect.answered (heffect : Effect log replica event next) :
    (if event.isAnswer then 1 else 0) + next.core.blocks.size ≤ replica.core.blocks.size +
      ((event.delivered?.bind ToReplica.prePrepare?).toList.length +
        (event.performed?.bind proposal?).toList.length) := by
  cases heffect with
  | drop message =>
      have hnot : (Event.call (.receive message) []).isAnswer = false := by cases message <;> rfl
      simp [hnot]
  | request hcall => rcases hcall with rfl | rfl <;> simp [Event.isAnswer]
  | resend =>
      simp only [Event.delivered?, Option.bind_some, ToReplica.prePrepare?, Option.toList_some,
        List.length_singleton]
      split <;> omega
  | accept =>
      simp only [Event.isAnswer, Event.delivered?, Option.bind_some, ToReplica.prePrepare?,
        Option.toList_some, List.length_singleton, List.isEmpty_nil, Bool.not_true,
        Bool.false_eq_true, if_false, Nat.zero_add]
      exact Std.ExtTreeMap.size_insert_le.trans (Nat.add_le_add_left (Nat.le_add_right _ _) _)
  | keepPrepare | keepCommit | tick | finalize | forward => simp [Event.isAnswer]
  | countPrepare _ _ hblock _ hcheck => simp [hcheck.size hblock, Event.isAnswer]
  | countCommit _ _ hblock _ hcheck => simp [hcheck.size hblock, Event.isAnswer]
  | prepare _ hblock _ _ hcheck => simp [hcheck.size hblock, Event.isAnswer]
  | commit _ hblock _ hcheck => simp [hcheck.size hblock, Event.isAnswer]
  | propose =>
      simp only [Event.isAnswer, Event.performed?, Option.bind_some, proposal?,
        Option.toList_some, List.length_singleton, Bool.false_eq_true, if_false, Nat.zero_add]
      exact Std.ExtTreeMap.size_insert_le.trans (Nat.add_le_add_left (Nat.le_add_left _ _) _)

/-- A replica has no more blocks and answers than it has been sent and made proposals. -/
theorem CorrectRun.answered (hrun : CorrectRun config history replica) :
    history.countP Event.isAnswer + replica.core.blocks.size ≤
      ((delivered history).filterMap ToReplica.prePrepare?).length +
        (proposals (performedIn history)).length := by
  induction hrun with
  | @start replica hnew =>
      simp only [Replica.new, bind_eq_ok] at hnew
      obtain ⟨cryptoConfig, -, heq⟩ := hnew
      obtain rfl := Except.ok.inj heq
      simp [ReplicaCore.new]
  | @step history replica event next hprev hstep ih =>
      obtain ⟨lists, -, heffect⟩ := (accountable hprev).coherent.effect hstep.1
      have hanswered := heffect.answered
      have hdelivered : (delivered (history ++ [event])).filterMap ToReplica.prePrepare? =
          (delivered history).filterMap ToReplica.prePrepare? ++
            (event.delivered?.bind ToReplica.prePrepare?).toList := by
        rw [delivered_concat, List.filterMap_append]
        cases event.delivered? with
        | none => rfl
        | some message => cases hmessage : message.prePrepare? <;> simp [hmessage]
      unfold proposals at ih ⊢
      rw [hdelivered, filterMap_performed_concat, List.countP_append, List.countP_singleton,
        List.length_append, List.length_append]
      omega

/-- A request is sent when it is forwarded. -/
theorem CorrectRun.mem_forwardedIn (hrun : CorrectRun config history replica)
    (hevent : event ∈ history) {action : Action crypto} {command : Command}
    (haction : action ∈ event.actions) (hmessage : action.message? = some (.request command)) :
    ∃ id, action = .sendToReplica id (.request command) ∧ (id, command) ∈ forwardedIn history := by
  obtain ⟨before, log, current, next, -, -, heffect⟩ := effect_of_mem hrun hevent
  cases heffect with
  | drop | request | accept | keepPrepare | countPrepare | keepCommit | countCommit => cases haction
  | resend _ _ _ hactions =>
      rcases hactions _ haction with rfl | rfl <;> cases hmessage
  | tick hactions =>
      obtain ⟨-, blockNum, block, -, rfl⟩ := hactions _ haction
      cases hmessage
  | propose | prepare | commit | finalize =>
      obtain rfl := List.mem_singleton.mp haction
      cases hmessage
  | @forward id other rest =>
      obtain rfl := List.mem_singleton.mp haction
      obtain rfl : other = command := ToReplica.request.inj (Option.some.inj hmessage)
      exact ⟨id, rfl,
        List.mem_filterMap.mpr ⟨.forward id other, List.mem_filterMap.mpr ⟨_, hevent, rfl⟩, rfl⟩⟩

/-- Backups send what they are asked for, and to the primary only. -/
theorem CorrectRun.forwards (hrun : CorrectRun config history replica)
    (hevent : event ∈ history) {action : Action crypto} {command : Command}
    (haction : action ∈ event.actions) (hmessage : action.message? = some (.request command)) :
    action = .sendToReplica (config.spec.primary 0) (.request command) ∧
      config.spec.primary 0 ≠ config.id ∧ command ∈ requests history := by
  obtain ⟨id, rfl, hmem⟩ := mem_forwardedIn hrun hevent haction hmessage
  have hsent := (forwarded hrun).subset (List.mem_append_left _ hmem)
  split at hsent
  next => cases hsent
  next hbackup =>
    obtain ⟨other, hrequest, heq⟩ := List.mem_map.mp hsent
    obtain ⟨rfl, rfl⟩ := Prod.mk.inj heq
    exact ⟨rfl, hbackup, hrequest⟩

/-- A client's request is made here. -/
def Event.isRequest : Event crypto → Bool
  | .call (.request _) _ => true
  | .call (.receive _) _ | .call .tick _ | .perform _ _ => false

/-- What a replica is asked for comes from clients or from other replicas. -/
theorem length_requests (history : List (Event crypto)) : (requests history).length =
    history.countP Event.isRequest + ((delivered history).filterMap ToReplica.request?).length := by
  induction history with
  | nil => rfl
  | cons event rest ih =>
      unfold requests delivered at ih ⊢
      rw [List.filterMap_cons, List.filterMap_cons, List.countP_cons]
      cases event with
      | perform => exact ih
      | call call actions =>
          cases call with
          | tick => exact ih
          | request command =>
              simp only [Event.requested?, Event.delivered?, Event.isRequest, List.length_cons, ih,
                if_true]
              omega
          | receive message =>
              cases message with
              | request command =>
                  simp only [Event.requested?, Event.delivered?, Event.isRequest, List.length_cons,
                    ih, List.filterMap_cons, ToReplica.request?, Bool.false_eq_true, if_false]
                  omega
              | prePrepare | prepare | commit => exact ih

/-- There are no more blocks than numbers for them. -/
theorem size_le {blocks : Blocks crypto} {bound : Nat}
    (hbound : ∀ blockNum ∈ blocks, 1 ≤ blockNum ∧ blockNum ≤ bound) : blocks.size ≤ bound := by
  have hsub : blocks.keys ⊆ List.range' 1 bound := by
    intro blockNum hmem
    have h := hbound blockNum (Std.ExtTreeMap.mem_keys.mp hmem)
    rw [List.mem_range'_1]
    omega
  have hlength := (Std.ExtTreeMap.nodup_keys.subperm hsub).length_le
  rwa [Std.ExtTreeMap.length_keys, List.length_range'] at hlength

end Replica

end Pbft

end BftKit
