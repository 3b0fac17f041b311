import Mathlib.Data.Fintype.Card
import BftKit.Foundation.OrderedMap
import BftKit.Unreplicated.Client
import BftKit.Workload

/-! # Closed loops of the protocols

The tokens circulate whichever protocol the clients speak, and whatever is replied to them.
-/

namespace BftKit

open Foundation Transport

/-- A task in a closed loop has nothing inflight when it is invoked. -/
theorem Transport.ClientConfig.makeRoom_closeLoop {old new : SeqScratches}
    (hroom : ClientConfig.makeRoom .closeLoop old = .ok new) : old = ∅ ∧ new = ∅ := by
  simp only [ClientConfig.makeRoom] at hroom
  split at hroom
  next hempty =>
    obtain rfl := Except.ok.inj hroom
    have heq := Std.ExtTreeMap.isEmpty_iff.mp hempty
    exact ⟨heq, heq⟩
  next => cases hroom

namespace Transport.ClientTask

variable {Reply View : Type} {task : ClientTask Reply View} {state next : ClientState View}
  {actions : List ClientAction}

theorem invoke_inflight (hconfig : task.config = .closeLoop) {op : List UInt8}
    {expected : Option (List UInt8)}
    (hinvoke : task.invoke state op expected = (actions, .ok next)) :
    .commit ∉ actions ∧ state.seqScratch.size = 0 ∧ next.seqScratch.size = 1 := by
  obtain ⟨number, receivers, seqScratch, -, hroom, rfl, rfl⟩ := invoke_ok hinvoke
  rw [hconfig] at hroom
  obtain ⟨hold, rfl⟩ := ClientConfig.makeRoom_closeLoop hroom
  rw [hold]
  simp [Std.ExtTreeMap.size_insert]

theorem invoke_inflight_error (hconfig : task.config = .closeLoop)
    (hreceivers : ∀ view, task.receivers view ≠ .error .inflight) {op : List UInt8}
    {expected : Option (List UInt8)}
    (hinvoke : task.invoke state op expected = (actions, .error .inflight)) :
    state.seqScratch.size ≠ 0 := by
  intro hsize
  have hempty : state.seqScratch.isEmpty = true := by
    rw [Std.ExtTreeMap.isEmpty_eq_size_beq_zero, hsize]
    rfl
  rw [invoke] at hinvoke
  split at hinvoke
  · dsimp only at hinvoke
    split at hinvoke
    next stop hstop =>
      obtain rfl : stop = .inflight := Except.error.inj (Prod.mk.inj hinvoke).2
      exact hreceivers _ hstop
    next =>
      have hroom := (Prod.mk.inj hinvoke).2
      rw [hconfig, ClientConfig.makeRoom, if_pos hempty] at hroom
      cases hroom
  · cases hinvoke

variable [ToClient Reply]

open ToClient

theorem receive_inflight {reply : Reply} (hreceive : task.receive state reply = (actions, .ok next)) :
    state.seqScratch.size = next.seqScratch.size + if .commit ∈ actions then 1 else 0 := by
  rw [receive] at hreceive
  split at hreceive
  next =>
    obtain ⟨rfl, hnext⟩ := Prod.mk.inj hreceive
    obtain rfl := Except.ok.inj hnext
    rfl
  next scratch hscratch =>
    have hmem : seq reply ∈ state.seqScratch := by
      rw [Std.ExtTreeMap.mem_iff_isSome_getElem?, hscratch]
      rfl
    dsimp only at hreceive
    split at hreceive
    · cases hreceive
    split at hreceive
    · split at hreceive
      · obtain ⟨rfl, hnext⟩ := Prod.mk.inj hreceive
        obtain rfl := Except.ok.inj hnext
        simpa using size_eq_erase hmem
      · cases hreceive
    · obtain ⟨rfl, hnext⟩ := Prod.mk.inj hreceive
      obtain rfl := Except.ok.inj hnext
      simp [Std.ExtTreeMap.size_insert, hmem]

theorem receive_ne_inflight {reply : Reply} :
    task.receive state reply ≠ (actions, .error .inflight) := by
  intro hreceive
  rw [receive] at hreceive
  split at hreceive
  · cases hreceive
  dsimp only at hreceive
  split at hreceive
  · cases hreceive
  split at hreceive
  · split at hreceive <;> cases hreceive
  · cases hreceive

end Transport.ClientTask

namespace Workload

variable {Reply View : Type} [ToClient Reply]

/-- The tasks of a protocol with replicas, in a closed loop. -/
def ClientTask.replicated (task : ClientId → Transport.ClientTask Reply View)
    (hconfig : ∀ id, (task id).config = .closeLoop)
    (hreceivers : ∀ id view, (task id).receivers view ≠ .error .inflight) :
    ClientTask (ClientState View) Reply where
  new id := (task id).new
  step id := (task id).step
  inflight state := state.seqScratch.size
  inflight_new _ := Std.ExtTreeMap.size_empty
  invoke_ok hstep := Transport.ClientTask.invoke_inflight (hconfig _) hstep
  invoke_error hstep :=
    Transport.ClientTask.invoke_inflight_error (hconfig _) (hreceivers _) hstep
  receive_ok hselect hstep := by
    rename_i select actions next
    cases select with
    | invoke invoke =>
        obtain rfl : invoke = none := hselect
        cases hstep
    | message reply =>
        cases reply with
        | none => cases hstep
        | some reply => exact Transport.ClientTask.receive_inflight hstep
    | transportJoinNext => cases hstep
  receive_error hselect hstep := by
    rename_i select actions
    cases select with
    | invoke invoke =>
        obtain rfl : invoke = none := hselect
        cases hstep
    | message reply =>
        cases reply with
        | none => cases hstep
        | some reply => exact Transport.ClientTask.receive_ne_inflight hstep
    | transportJoinNext => cases hstep
  finish _ _ := rfl

end Workload

/-- `clients_task` of PBFT. -/
def Pbft.closeLoop (spec : Spec) (replicaEgresses : List Nat) :
    Workload.ClientTask (ClientState Nat) Reply :=
  .replicated (fun id => clientTask id spec .closeLoop replicaEgresses) (fun _ => rfl) (by
    intro id view
    simp only [clientTask]
    split_ifs <;> simp)

/-- `clients_task` of HotStuff. -/
def Hotstuff.closeLoop (spec : Spec) (replicaEgresses : List Nat) :
    Workload.ClientTask (ClientState Unit) Reply :=
  .replicated (fun id => clientTask id spec .closeLoop replicaEgresses) (fun _ => rfl)
    (fun _ _ h => by cases h)

namespace Unreplicated

theorem makeRoom_closeLoop {old new : SeqScratches} (hroom : makeRoom .closeLoop old = .ok new) :
    old = ∅ ∧ new = ∅ := by
  simp only [makeRoom] at hroom
  split at hroom
  next hempty =>
    obtain rfl := Except.ok.inj hroom
    have heq := Std.ExtTreeMap.isEmpty_iff.mp hempty
    exact ⟨heq, heq⟩
  next => cases hroom

theorem invoke_ne_inflight (task : ClientTask) {state : ClientState} (hsize : state.seqScratch = ∅)
    {op : List UInt8} {expected : Option (List UInt8)} {actions : List ClientAction} :
    ClientTask.invoke { task with config := .closeLoop } state op expected ≠
      (actions, .error .inflight) := by
  intro hinvoke
  rw [ClientTask.invoke] at hinvoke
  split at hinvoke
  · dsimp only at hinvoke
    split at hinvoke
    · rw [hsize] at hinvoke
      cases (Prod.mk.inj hinvoke).2
    · cases hinvoke
  · cases hinvoke

/-- `clients_task` of the unreplicated protocol. -/
def closeLoop (replicaEgresses : List Nat) : Workload.ClientTask ClientState Reply where
  new _ := ClientTask.new
  step id := ClientTask.step ⟨id, .closeLoop, replicaEgresses⟩
  inflight state := state.seqScratch.size
  inflight_new _ := Std.ExtTreeMap.size_empty
  invoke_ok hstep := by
    obtain ⟨number, seqScratch, -, hroom, rfl, rfl⟩ := ClientTask.invoke_ok hstep
    obtain ⟨hold, rfl⟩ := makeRoom_closeLoop hroom
    rw [hold]
    simp [Std.ExtTreeMap.size_insert]
  invoke_error {id} _ _ _ hstep hsize :=
    invoke_ne_inflight ⟨id, .closeLoop, replicaEgresses⟩
      (Std.ExtTreeMap.eq_empty_iff_size_eq_zero.mpr hsize) hstep
  receive_ok hselect hstep := by
    rename_i select actions next
    cases select with
    | invoke invoke =>
        obtain rfl : invoke = none := hselect
        cases hstep
    | message reply =>
        cases reply with
        | none => cases hstep
        | some reply =>
            rcases ClientTask.receive_ok hstep with ⟨-, rfl, rfl⟩ | ⟨hmem, rfl, rfl⟩
            · rfl
            · simpa using size_eq_erase hmem
    | transportJoinNext => cases hstep
  receive_error hselect hstep := by
    rename_i select actions
    cases select with
    | invoke invoke =>
        obtain rfl : invoke = none := hselect
        cases hstep
    | message reply =>
        cases reply with
        | none => cases hstep
        | some reply =>
            simp only [ClientTask.step, ClientTask.receive] at hstep
            split at hstep
            · cases hstep
            · split at hstep <;> cases hstep
    | transportJoinNext => cases hstep
  finish _ _ := rfl

end Unreplicated

/-! ## More clients than the commit channel has room for -/

namespace Workload

variable {Client Reply : Type} {task : ClientTask Client Reply}

/-- The clients are invoked for the first time, in any order. -/
theorem reaches_first (unsent : Finset ClientId) (state : ConcurrentClients Client)
    (hunsent : state.unsent = unsent) :
    ∃ final, Reaches task state final ∧ final.unsent = ∅ ∧ final.clients = state.clients ∧
      final.commits = state.commits ∧ final.sending = state.sending ∧
      ∀ id, final.invokes id = state.invokes id ++ if id ∈ unsent then [ping] else [] := by
  induction unsent using Finset.induction_on generalizing state with
  | empty => exact ⟨state, .refl, hunsent, rfl, rfl, rfl, by simp⟩
  | insert who rest hnot ih =>
      have hmem : who ∈ state.unsent := by
        rw [hunsent]
        exact Finset.mem_insert_self _ _
      have hstep : Step task state (.first who) { state with
          unsent := state.unsent.erase who
          invokes := Function.update state.invokes who (state.invokes who ++ [ping]) } :=
        .first hmem
      obtain ⟨final, hreaches, hnone, hclients, hcommits, hsending, hinvokes⟩ :=
        ih { state with
          unsent := state.unsent.erase who
          invokes := Function.update state.invokes who (state.invokes who ++ [ping]) }
          (by rw [hunsent, Finset.erase_insert hnot])
      refine ⟨final, .head ⟨_, hstep⟩ hreaches, hnone, hclients, hcommits, hsending, ?_⟩
      intro id
      rw [hinvokes]
      by_cases heq : id = who
      · subst heq
        simp [hnot]
      · simp [heq]

end Workload

namespace Unreplicated

open Workload

variable {replicaEgresses : List Nat} {state : ConcurrentClients ClientState} {id : ClientId}

attribute [local instance] transCmp_compare

/-- What a client is left with when it has been invoked, and when it commits. -/
def invoked : ClientState := ⟨1, Std.ExtTreeMap.insert ∅ 1 (some [])⟩

def replied : ClientState := ⟨1, Std.ExtTreeMap.erase (Std.ExtTreeMap.insert ∅ 1 (some [])) 1⟩

theorem step_ping (hegress : 0 ∈ replicaEgresses) : (closeLoop replicaEgresses).step id
    ((closeLoop replicaEgresses).new id) (.invoke (some ping)) =
      ([.write ⟨id, 1, []⟩ [0]], .ok invoked) := by
  have hstep : (closeLoop replicaEgresses).step id ((closeLoop replicaEgresses).new id)
      (.invoke (some ping)) = if 0 ∈ replicaEgresses then
        ([.write ⟨id, 1, []⟩ [0]], .ok invoked) else ([], .error .egress) := rfl
  rw [hstep, if_pos hegress]

theorem step_reply : (closeLoop replicaEgresses).step id invoked (.message (some ⟨1, []⟩)) =
    ([.commit], .ok replied) := by
  have hscratch : invoked.seqScratch[(1 : ClientSeq)]? = some (some []) :=
    Std.ExtTreeMap.getElem?_insert_self
  have hstep : (closeLoop replicaEgresses).step id invoked (.message (some ⟨1, []⟩)) =
    ClientTask.receive invoked ⟨1, []⟩ := rfl
  rw [hstep, ClientTask.receive, hscratch]
  rfl

/-- A client that has been invoked can get as far as to a commit. -/
theorem reaches_committing (hegress : 0 ∈ replicaEgresses)
    (hclient : state.clients id = .running ((closeLoop replicaEgresses).new id))
    (hinvokes : state.invokes id = [ping]) :
    Reaches (closeLoop replicaEgresses) state { state with
      invokes := Function.update state.invokes id []
      clients := Function.update state.clients id (.committing replied) } := by
  have hselects : Selects state id (.invoke (some ping) : ClientSelect Reply) [] :=
    ⟨hinvokes, fun hnone => by cases hnone⟩
  have hinvoked := Step.select hclient hselects (step_ping hegress)
  rw [if_neg (by simp)] at hinvoked
  have hselects' : Selects { state with
      invokes := Function.update state.invokes id []
      clients := Function.update state.clients id (.running invoked) } id
      (.message (some (⟨1, []⟩ : Reply))) [] :=
    ⟨Function.update_self .., fun hnone => by cases hnone⟩
  have hreplied := Step.select (Function.update_self ..) hselects'
    (@step_reply replicaEgresses id)
  rw [if_pos (by simp)] at hreplied
  simp only [Function.update_idem] at hreplied
  exact .head ⟨_, hinvoked⟩ (.single ⟨_, hreplied⟩)

/-- So can clients one after another, as long as there is room for their commits. -/
theorem reaches_commits (hegress : 0 ∈ replicaEgresses) (list : List ClientId)
    (hnodup : list.Nodup) (state : ConcurrentClients ClientState)
    (hroom : state.commits.length + list.length ≤ commitCapacity)
    (hclients : ∀ id ∈ list, state.clients id = .running ((closeLoop replicaEgresses).new id) ∧
      state.invokes id = [ping]) :
    ∃ final, Reaches (closeLoop replicaEgresses) state final ∧
      final.commits = state.commits ++ list ∧ final.unsent = state.unsent ∧
      ∀ id ∉ list, final.clients id = state.clients id ∧ final.invokes id = state.invokes id := by
  induction list generalizing state with
  | nil => exact ⟨state, .refl, (List.append_nil _).symm, rfl, fun _ _ => ⟨rfl, rfl⟩⟩
  | cons who rest ih =>
      obtain ⟨hnot, hrest⟩ := List.nodup_cons.mp hnodup
      obtain ⟨hclient, hinvokes⟩ := hclients who List.mem_cons_self
      rw [List.length_cons] at hroom
      have hcommitting := reaches_committing hegress hclient hinvokes
      have hcommit : Step (closeLoop replicaEgresses) { state with
          invokes := Function.update state.invokes who []
          clients := Function.update state.clients who (.committing replied) } (.commit who) _ :=
        .commit (Function.update_self ..) (by dsimp only; omega)
      obtain ⟨final, hreaches, hcommits, hunsent, hothers⟩ := ih hrest { state with
          invokes := Function.update state.invokes who []
          commits := state.commits ++ [who]
          clients := Function.update (Function.update state.clients who (.committing replied)) who
            (.running replied) }
        (by simp only [List.length_append, List.length_singleton]; omega) (by
          intro id hid
          have hne : id ≠ who := fun heq => hnot (heq ▸ hid)
          simpa only [Function.update_of_ne hne] using hclients id (List.mem_cons_of_mem _ hid))
      refine ⟨final, (hcommitting.tail ⟨_, hcommit⟩).trans hreaches, ?_, hunsent, ?_⟩
      · rw [hcommits, List.append_assoc]
        rfl
      · intro id hid
        rw [List.mem_cons, not_or] at hid
        simpa only [Function.update_of_ne hid.1] using hothers id hid.2

/-- With more clients than the commit channel has room for, one of them can be left waiting
for ever. -/
theorem exists_hung (hegress : 0 ∈ replicaEgresses) {ids : Finset ClientId}
    (hcard : commitCapacity < ids.card) :
    ∃ history state, CloseLoopRun (closeLoop replicaEgresses) ids history state ∧
      state.sending = false ∧ ∃ id, Hung state id := by
  have hlength : commitCapacity < ids.toList.length := by rwa [Finset.length_toList]
  obtain ⟨who, rest, hdrop⟩ : ∃ who rest, ids.toList.drop commitCapacity = who :: rest := by
    rw [← List.cons_getElem_drop_succ (h := hlength)]
    exact ⟨_, _, rfl⟩
  have hsplit := List.take_append_drop commitCapacity ids.toList
  have htaken : (ids.toList.take commitCapacity).length = commitCapacity :=
    List.length_take_of_le hlength.le
  generalize ids.toList.take commitCapacity = first at hsplit htaken
  rw [hdrop] at hsplit
  have hnodup := ids.nodup_toList
  rw [← hsplit] at hnodup
  have hnot : who ∉ first := fun hmem =>
    (List.nodup_append.mp hnodup).2.2 who hmem who List.mem_cons_self rfl
  have hmem : ∀ id, id ∈ first ∨ id = who → id ∈ ids := by
    intro id hid
    rw [← Finset.mem_toList, ← hsplit]
    rcases hid with hid | rfl
    · exact List.mem_append_left _ hid
    · exact List.mem_append_right _ List.mem_cons_self
  -- all are invoked, the first ones fill the channel, and one more gets as far as to a commit
  obtain ⟨state₁, hreaches₁, hunsent₁, hclients₁, hcommits₁, -, hinvokes₁⟩ :=
    reaches_first ids (new (closeLoop replicaEgresses) ids) rfl
  have hfresh : ∀ id, id ∈ first ∨ id = who →
      state₁.clients id = .running ((closeLoop replicaEgresses).new id) ∧
        state₁.invokes id = [ping] := by
    intro id hid
    rw [hclients₁, hinvokes₁, if_pos (hmem id hid)]
    exact ⟨if_pos (hmem id hid), rfl⟩
  obtain ⟨state₂, hreaches₂, hcommits₂, hunsent₂, hothers₂⟩ :=
    reaches_commits hegress first (List.nodup_append.mp hnodup).1 state₁
      (by rw [hcommits₁, htaken]; exact (Nat.zero_add _).le) fun id hid => hfresh id (.inl hid)
  obtain ⟨hclient, hinvokes⟩ := hothers₂ who hnot
  obtain ⟨hclient', hinvokes'⟩ := hfresh who (.inr rfl)
  have hreaches₃ := reaches_committing hegress (hclient.trans hclient') (hinvokes.trans hinvokes')
  have hdeadline : Step (closeLoop replicaEgresses) { state₂ with
      invokes := Function.update state₂.invokes who []
      clients := Function.update state₂.clients who (.committing replied) } .deadline _ :=
    .deadline (hunsent₂.trans hunsent₁)
  obtain ⟨history, hrun⟩ := CloseLoopRun.reaches (.start rfl)
    (((hreaches₁.trans hreaches₂).trans hreaches₃).tail ⟨_, hdeadline⟩)
  refine ⟨history, _, hrun, rfl, who, rfl, ?_, replied, Function.update_self ..⟩
  dsimp only
  rw [hcommits₂, hcommits₁, List.length_append, htaken]
  exact Nat.le_add_left _ _

/-- A closed loop of the unreplicated protocol is sure to be able to end after its deadline if
and only if the commit channel has room for all its clients. -/
theorem close_loop_ends_iff (hegress : 0 ∈ replicaEgresses) (ids : Finset ClientId) :
    (∀ history state, CloseLoopRun (closeLoop replicaEgresses) ids history state →
      state.sending = false → ∀ id, ∃ final, Reaches (closeLoop replicaEgresses) state final ∧
        (final.clients id).IsEnded) ↔ ids.card ≤ commitCapacity := by
  constructor
  · intro hends
    by_contra hcard
    obtain ⟨history, state, hrun, hsending, id, hhung⟩ :=
      exists_hung hegress (not_le.mp hcard)
    obtain ⟨final, hreaches, hended⟩ := hends history state hrun hsending id
    obtain ⟨client, hclient⟩ := (hhung.stays hreaches).committing
    rw [hclient] at hended
    exact hended
  · intro hcard history state hrun hsending
    exact hrun.circulates.ends hcard hsending

/-- One client can end, and all that there can be cannot. -/
theorem close_loop_ends_one :
    (∀ history state, CloseLoopRun (closeLoop [0]) {0} history state → state.sending = false →
      ∀ id, ∃ final, Reaches (closeLoop [0]) state final ∧ (final.clients id).IsEnded) ∧
    ¬∀ history state, CloseLoopRun (closeLoop [0]) Finset.univ history state →
      state.sending = false → ∀ id, ∃ final, Reaches (closeLoop [0]) state final ∧
        (final.clients id).IsEnded := by
  constructor
  · exact (close_loop_ends_iff (by decide) {0}).mpr (by decide)
  · rw [close_loop_ends_iff (by decide), Finset.card_fin, commitCapacity]
    omega

end Unreplicated

/-! ## In turn -/

/-- In the closed loops of the protocols every client is invoked in turn, whatever is replied
and in whichever order the clients and the loop take their steps. -/
theorem Workload.clients_in_turn :
    (∀ spec replicaEgresses, (Pbft.closeLoop spec replicaEgresses).InTurn) ∧
    (∀ spec replicaEgresses, (Hotstuff.closeLoop spec replicaEgresses).InTurn) ∧
    ∀ replicaEgresses, (Unreplicated.closeLoop replicaEgresses).InTurn :=
  ⟨fun _ _ => ClientTask.inTurn _, fun _ _ => ClientTask.inTurn _, fun _ => ClientTask.inTurn _⟩

/-- When the deadline passes, the first of two clients has committed and the second one has not
taken its invocation. Both of them can end then. -/
theorem Workload.clients_in_turn_two : ∃ history state,
    CloseLoopRun (Unreplicated.closeLoop [0]) {0, 1} history state ∧ state.commits = [0] ∧
    state.tokens (Unreplicated.closeLoop [0]) 1 = 1 ∧ (state.invokes 1).length ≤ 1 ∧
    state.sending = false ∧ ∀ id, ∃ final, Reaches (Unreplicated.closeLoop [0]) state final ∧
      (final.clients id).IsEnded := by
  have hegress : 0 ∈ [0] := List.mem_singleton_self _
  obtain ⟨state₁, hreaches₁, hunsent₁, hclients₁, hcommits₁, -, hinvokes₁⟩ :=
    reaches_first {0, 1} (Workload.new (Unreplicated.closeLoop [0]) {0, 1}) rfl
  obtain ⟨state₂, hreaches₂, hcommits₂, hunsent₂, hothers⟩ :=
    Unreplicated.reaches_commits hegress [0] (List.nodup_singleton 0) state₁
      (by rw [hcommits₁]; decide) (by
        intro id hid
        obtain rfl := List.mem_singleton.mp hid
        rw [hclients₁, hinvokes₁]
        exact ⟨rfl, rfl⟩)
  have hdeadline : Step (Unreplicated.closeLoop [0]) state₂ .deadline _ :=
    .deadline (hunsent₂.trans hunsent₁)
  obtain ⟨history, hrun⟩ := CloseLoopRun.reaches (.start rfl)
    ((hreaches₁.trans hreaches₂).tail ⟨_, hdeadline⟩)
  have hturn := clients_in_turn.2.2 [0]
  have hrunning : ¬(state₂.clients 1).IsEnded := by
    rw [(hothers 1 (by decide)).1, hclients₁]
    exact not_false
  exact ⟨history, _, hrun, by rw [hcommits₂, hcommits₁]; rfl,
    hturn.tokens_eq _ history _ hrun 1 (by decide) hrunning, hturn.invokes_le _ history _ hrun 1,
    rfl, hturn.ends _ history _ hrun (by decide) rfl⟩

end BftKit
