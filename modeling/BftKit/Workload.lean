import Mathlib.Data.Finset.Card
import Mathlib.Data.List.Count
import Mathlib.Logic.Relation
import BftKit.Transport.Client

/-! # Closed-loop workloads

Each client is invoked once to begin with, and again whenever it has committed. A token of its
own circulates for each client: as an invocation, in the client, and as a commit.
-/

namespace BftKit

/-- The invocation that `select!` yielded. -/
def Transport.ClientSelect.invoked? {Reply : Type} :
    Transport.ClientSelect Reply → Option Transport.Invoke
  | .invoke i => i
  | .message _ | .transportJoinNext => none

namespace Workload

open Foundation Transport

/-- `workload::ClientTask`, for clients that are to be invoked in a closed loop. -/
structure ClientTask (Client Reply : Type) where
  new : ClientId → Client
  step : ClientId → Client → ClientSelect Reply → List ClientAction × Except ClientEnd Client
  /-- How many invocations are to be committed. -/
  inflight : Client → Nat
  inflight_new : ∀ id, inflight (new id) = 0
  invoke_ok : ∀ {id client invoke actions next},
    step id client (.invoke (some invoke)) = (actions, .ok next) →
      .commit ∉ actions ∧ inflight client = 0 ∧ inflight next = 1
  invoke_error : ∀ {id client invoke actions},
    step id client (.invoke (some invoke)) = (actions, .error .inflight) → inflight client ≠ 0
  receive_ok : ∀ {id client select actions next}, select.invoked? = none →
    step id client select = (actions, .ok next) →
      inflight client = inflight next + if .commit ∈ actions then 1 else 0
  receive_error : ∀ {id client select actions}, select.invoked? = none →
    step id client select ≠ (actions, .error .inflight)
  finish : ∀ id client, step id client (.invoke none) = ([], .error .finished)

inductive Status (Client : Type) where
  | running (client : Client)
  /-- Waits for room in the commit channel. -/
  | committing (client : Client)
  | ended (stop : ClientEnd)

/-- `ConcurrentClients`, with its channels. -/
structure ConcurrentClients (Client : Type) where
  clients : ClientId → Status Client
  invokes : ClientId → List Invoke
  commits : List ClientId
  /-- Those that have not been invoked at all. -/
  unsent : Finset ClientId
  /-- The deadline has not passed. -/
  sending : Bool

/-- The capacity of the commit channel. -/
def commitCapacity : Nat := 100

/-- What the clients are invoked with. -/
def ping : Invoke := ([], some [])

inductive Label (Reply : Type) where
  | first (id : ClientId)
  | select (id : ClientId) (select : ClientSelect Reply)
  | commit (id : ClientId)
  | again (id : ClientId)
  | deadline

variable {Client Reply : Type}

/-- What a client may select. -/
structure Selects (state : ConcurrentClients Client) (id : ClientId) (select : ClientSelect Reply)
    (rest : List Invoke) : Prop where
  invoked : state.invokes id = select.invoked?.toList ++ rest
  /-- The channel is closed only when it has been drained. -/
  closed : select = .invoke none → state.sending = false ∧ state.invokes id = []

/-- One step of `close_loop` or of one of its clients. -/
inductive Step (task : ClientTask Client Reply) (state : ConcurrentClients Client) :
    Label Reply → ConcurrentClients Client → Prop
  | first {id} (hunsent : id ∈ state.unsent) : Step task state (.first id) { state with
      unsent := state.unsent.erase id
      invokes := Function.update state.invokes id (state.invokes id ++ [ping]) }
  | select {id client select rest actions next} (hclient : state.clients id = .running client)
      (hselects : Selects state id select rest)
      (hstep : task.step id client select = (actions, .ok next)) :
      Step task state (.select id select) { state with
        invokes := Function.update state.invokes id rest
        clients := Function.update state.clients id
          (if .commit ∈ actions then .committing next else .running next) }
  | stop {id client select rest actions stop} (hclient : state.clients id = .running client)
      (hselects : Selects state id select rest)
      (hstep : task.step id client select = (actions, .error stop)) :
      Step task state (.select id select) { state with
        invokes := Function.update state.invokes id rest
        clients := Function.update state.clients id (.ended stop) }
  | commit {id client} (hclient : state.clients id = .committing client)
      (hroom : state.commits.length < commitCapacity) : Step task state (.commit id) { state with
        commits := state.commits ++ [id]
        clients := Function.update state.clients id (.running client) }
  | again {id rest} (hsending : state.sending = true) (hunsent : state.unsent = ∅)
      (hcommits : state.commits = id :: rest) : Step task state (.again id) { state with
        commits := rest
        invokes := Function.update state.invokes id (state.invokes id ++ [ping]) }
  | deadline (hunsent : state.unsent = ∅) :
      Step task state .deadline { state with sending := false }

/-- `ConcurrentClients::run` with the given clients. -/
def new (task : ClientTask Client Reply) (ids : Finset ClientId) : ConcurrentClients Client where
  clients id := if id ∈ ids then .running (task.new id) else .ended .finished
  invokes _ := []
  commits := []
  unsent := ids
  sending := true

/-- The runs of a closed loop. -/
abbrev CloseLoopRun (task : ClientTask Client Reply) (ids : Finset ClientId) :
    List (Label Reply) → ConcurrentClients Client → Prop :=
  Run (· = new task ids) fun _ => Step task

/-! ## Tokens -/

section Tokens

variable {task : ClientTask Client Reply} {state next : ConcurrentClients Client}
  {label : Label Reply} {ids : Finset ClientId} {history : List (Label Reply)} {id : ClientId}

def ClientTask.tokens (task : ClientTask Client Reply) : Status Client → Nat
  | .running client => task.inflight client
  | .committing client => task.inflight client + 1
  | .ended _ => 0

/-- The tokens of a client, wherever they are. -/
def ConcurrentClients.tokens (task : ClientTask Client Reply) (state : ConcurrentClients Client)
    (id : ClientId) : Nat :=
  (if id ∈ state.unsent then 1 else 0) + (state.invokes id).length +
    task.tokens (state.clients id) + state.commits.count id

def Status.IsEnded : Status Client → Prop
  | .running _ | .committing _ => False
  | .ended _ => True

instance (status : Status Client) : Decidable status.IsEnded :=
  match status with
  | .running _ | .committing _ => .isFalse not_false
  | .ended _ => .isTrue trivial

theorem eq_invoke {select : ClientSelect Reply} {invoke : Invoke}
    (h : select.invoked? = some invoke) : select = .invoke (some invoke) := by
  cases select with
  | invoke => exact congrArg ClientSelect.invoke h
  | message | transportJoinNext => cases h

/-- An iteration of a client turns an invocation into one that is to be committed, and that
into a commit. -/
theorem ClientTask.tokens_step {client after : Client} {select : ClientSelect Reply}
    {actions : List ClientAction} (hstep : task.step id client select = (actions, .ok after)) :
    task.tokens (if .commit ∈ actions then .committing after else .running after) =
      select.invoked?.toList.length + task.inflight client := by
  cases hinvoked : select.invoked? with
  | none =>
      have hkeeps := task.receive_ok hinvoked hstep
      split at hkeeps <;> simp_all [ClientTask.tokens]
  | some invoke =>
      rw [eq_invoke hinvoked] at hstep
      obtain ⟨hcommit, hbefore, hafter⟩ := task.invoke_ok hstep
      simp [hcommit, ClientTask.tokens, hbefore, hafter]

/-- A step moves the tokens around. They are lost only with a client that ends. -/
theorem Step.tokens (hstep : Step task state label next) (id : ClientId) :
    next.tokens task id ≤ state.tokens task id ∧
      (¬(next.clients id).IsEnded → next.tokens task id = state.tokens task id) := by
  suffices h : next.tokens task id = state.tokens task id ∨
      next.tokens task id ≤ state.tokens task id ∧ (next.clients id).IsEnded by
    rcases h with heq | ⟨hle, hended⟩
    · exact ⟨heq.le, fun _ => heq⟩
    · exact ⟨hle, fun hnot => absurd hended hnot⟩
  cases hstep with
  | @first who hunsent =>
      refine .inl ?_
      by_cases heq : id = who
      · subst heq
        simp only [ConcurrentClients.tokens, Finset.mem_erase, ne_eq, not_true, false_and, if_false,
          hunsent, if_true, Function.update_self, List.length_append, List.length_singleton]
        omega
      · simp [ConcurrentClients.tokens, heq]
  | @select who client select rest actions after hclient hselects hstep =>
      refine .inl ?_
      by_cases heq : id = who
      · subst heq
        have hmoved := task.tokens_step hstep
        have hlength := congrArg List.length hselects.invoked
        rw [List.length_append] at hlength
        simp only [ConcurrentClients.tokens, Function.update_self, hclient, hmoved, hlength]
        simp only [ClientTask.tokens]
        omega
      · simp [ConcurrentClients.tokens, heq]
  | @stop who client select rest actions stop hclient hselects hstep =>
      by_cases heq : id = who
      · subst heq
        have hlength := congrArg List.length hselects.invoked
        rw [List.length_append] at hlength
        refine .inr ⟨?_, ?_⟩
        · simp only [ConcurrentClients.tokens, Function.update_self, ClientTask.tokens, hlength]
          omega
        · simp [Status.IsEnded]
      · refine .inl ?_
        simp [ConcurrentClients.tokens, heq]
  | @commit who client hclient hroom =>
      refine .inl ?_
      by_cases heq : id = who
      · subst heq
        simp only [ConcurrentClients.tokens, Function.update_self, hclient, ClientTask.tokens,
          List.count_append, List.count_singleton_self]
        omega
      · simp [ConcurrentClients.tokens, heq, List.count_append, Ne.symm heq]
  | @again who rest hsending hunsent hcommits =>
      refine .inl ?_
      by_cases heq : id = who
      · subst heq
        simp only [ConcurrentClients.tokens, Function.update_self, hcommits, List.count_cons_self,
          List.length_append, List.length_singleton]
        omega
      · simp [ConcurrentClients.tokens, heq, hcommits, Ne.symm heq]
  | deadline => exact .inl rfl

/-- What an iteration makes of a client. -/
inductive Outcome (task : ClientTask Client Reply) (id : ClientId) (client : Client)
    (select : ClientSelect Reply) : Status Client → Prop
  | ok {actions after} (hstep : task.step id client select = (actions, .ok after)) :
      Outcome task id client select
        (if .commit ∈ actions then .committing after else .running after)
  | stop {actions stop} (hstep : task.step id client select = (actions, .error stop)) :
      Outcome task id client select (.ended stop)

theorem Step.selected {select : ClientSelect Reply}
    (hstep : Step task state (.select id select) next) :
    ∃ client rest status, state.clients id = .running client ∧ Selects state id select rest ∧
      Outcome task id client select status ∧ next = { state with
        invokes := Function.update state.invokes id rest
        clients := Function.update state.clients id status } := by
  cases hstep with
  | select hclient hselects hstep => exact ⟨_, _, _, hclient, hselects, .ok hstep, rfl⟩
  | stop hclient hselects hstep => exact ⟨_, _, _, hclient, hselects, .stop hstep, rfl⟩

/-- A client ends in an iteration of its own. -/
theorem Step.stopped (hstep : Step task state label next) {stop : ClientEnd}
    (hstop : next.clients id = .ended stop) : state.clients id = .ended stop ∨
      ∃ client select rest actions, state.clients id = .running client ∧
        Selects state id select rest ∧ task.step id client select = (actions, .error stop) := by
  cases hstep with
  | first | again | deadline => exact .inl hstop
  | @select who client select rest actions after hclient hselects hstep =>
      by_cases heq : id = who
      · subst heq
        simp only [Function.update_self] at hstop
        split at hstop <;> cases hstop
      · simp only [Function.update_of_ne heq] at hstop
        exact .inl hstop
  | @stop who client select rest actions stop hclient hselects hstep =>
      by_cases heq : id = who
      · subst heq
        simp only [Function.update_self, Status.ended.injEq] at hstop
        subst hstop
        exact .inr ⟨client, select, rest, actions, hclient, hselects, hstep⟩
      · simp only [Function.update_of_ne heq] at hstop
        exact .inl hstop
  | @commit who client hclient hroom =>
      by_cases heq : id = who
      · subst heq
        simp at hstop
      · simp only [Function.update_of_ne heq] at hstop
        exact .inl hstop

theorem Step.ended (hstep : Step task state label next) (hended : (state.clients id).IsEnded) :
    (next.clients id).IsEnded := by
  cases hstep with
  | first | again | deadline => exact hended
  | @select who _ _ _ _ _ hclient | @stop who _ _ _ _ _ hclient | @commit who _ hclient =>
      have hne : id ≠ who := by
        rintro rfl
        rw [hclient] at hended
        exact hended
      simpa only [Function.update_of_ne hne] using hended

/-- What the tokens keep from going wrong. -/
structure Circulates (task : ClientTask Client Reply) (ids : Finset ClientId)
    (state : ConcurrentClients Client) : Prop where
  once : ∀ id, state.tokens task id ≤ 1
  members : ∀ id ∉ ids, state.tokens task id = 0
  kept : ∀ id ∈ ids, ¬(state.clients id).IsEnded → state.tokens task id = 1
  blameless : ∀ id, state.clients id ≠ .ended .inflight

theorem Circulates.new (task : ClientTask Client Reply) (ids : Finset ClientId) :
    Circulates task ids (new task ids) := by
  have htokens : ∀ id, (Workload.new task ids).tokens task id = if id ∈ ids then 1 else 0 := by
    intro id
    by_cases hid : id ∈ ids <;>
      simp [ConcurrentClients.tokens, Workload.new, hid, ClientTask.tokens, task.inflight_new]
  constructor
  · intro id
    rw [htokens]
    split <;> omega
  · intro id hid
    rw [htokens, if_neg hid]
  · intro id hid _
    rw [htokens, if_pos hid]
  · intro id
    unfold Workload.new
    dsimp only
    split <;> simp

theorem Circulates.step (h : Circulates task ids state) (hstep : Step task state label next) :
    Circulates task ids next := by
  constructor
  · intro id
    exact (hstep.tokens id).1.trans (h.once id)
  · intro id hid
    exact Nat.le_zero.mp ((hstep.tokens id).1.trans (h.members id hid).le)
  · intro id hid hnot
    rw [(hstep.tokens id).2 hnot]
    exact h.kept id hid fun hended => hnot (hstep.ended hended)
  · intro id hstop
    rcases hstep.stopped hstop with hended | ⟨client, select, rest, actions, hclient, hselects, hstep⟩
    · exact h.blameless id hended
    · cases hinvoked : select.invoked? with
      | none => exact task.receive_error hinvoked hstep
      | some invoke =>
          -- there would be a second token
          rw [eq_invoke hinvoked] at hstep
          have hinflight := task.invoke_error hstep
          have hlength := congrArg List.length hselects.invoked
          have hle := h.once id
          rw [List.length_append, hinvoked, Option.toList_some, List.length_singleton] at hlength
          rw [ConcurrentClients.tokens, hclient, ClientTask.tokens] at hle
          omega

theorem CloseLoopRun.circulates (hrun : CloseLoopRun task ids history state) :
    Circulates task ids state := by
  refine Run.invariant (P := fun _ state => Circulates task ids state) ?_ ?_ hrun
  · rintro _ rfl
    exact .new task ids
  · intro _ _ _ _ _ h hstep
    exact h.step hstep

namespace Circulates

variable (h : Circulates task ids state)

include h

theorem invokes_le (id : ClientId) : (state.invokes id).length ≤ 1 := by
  have hle := h.once id
  rw [ConcurrentClients.tokens] at hle
  omega

theorem commits_nodup : state.commits.Nodup := by
  rw [List.nodup_iff_count_le_one]
  intro id
  have hle := h.once id
  rw [ConcurrentClients.tokens] at hle
  omega

theorem mem_of_mem_commits (hid : id ∈ state.commits) : id ∈ ids := by
  by_contra hnot
  have hzero := h.members id hnot
  have hpos := List.count_pos_iff.mpr hid
  rw [ConcurrentClients.tokens] at hzero
  omega

theorem mem_of_mem_unsent (hid : id ∈ state.unsent) : id ∈ ids := by
  by_contra hnot
  have hzero := h.members id hnot
  rw [ConcurrentClients.tokens, if_pos hid] at hzero
  omega

/-- A client that is about to commit has left room in the channel. -/
theorem commits_lt {client : Client} (hclient : state.clients id = .committing client) :
    state.commits.length < ids.card := by
  have htokens : state.tokens task id = (if id ∈ state.unsent then 1 else 0) +
      (state.invokes id).length + (task.inflight client + 1) + state.commits.count id := by
    rw [ConcurrentClients.tokens, hclient, ClientTask.tokens]
  have hid : id ∈ ids := by
    by_contra hnot
    have hzero := h.members id hnot
    omega
  have hnot : id ∉ state.commits := by
    rw [← List.count_eq_zero]
    have hle := h.once id
    omega
  have hnodup : (id :: state.commits).Nodup := List.nodup_cons.mpr ⟨hnot, h.commits_nodup⟩
  have hsubset : (id :: state.commits).toFinset ⊆ ids := by
    intro other hother
    rcases List.mem_cons.mp (List.mem_toFinset.mp hother) with rfl | hmem
    · exact hid
    · exact h.mem_of_mem_commits hmem
  have hcard := Finset.card_le_card hsubset
  rwa [List.toFinset_card_of_nodup hnodup] at hcard

end Circulates

/-! ## The end of a closed loop -/

/-- What can happen next. -/
def Reaches (task : ClientTask Client Reply) :
    ConcurrentClients Client → ConcurrentClients Client → Prop :=
  Relation.ReflTransGen fun state next => ∃ label, Step task state label next

/-- The client waits for room that nobody makes: after the deadline nothing is received from
the commit channel. -/
structure Hung (state : ConcurrentClients Client) (id : ClientId) : Prop where
  sending : state.sending = false
  full : commitCapacity ≤ state.commits.length
  committing : ∃ client, state.clients id = .committing client

theorem Hung.step (h : Hung state id) (hstep : Step task state label next) : Hung next id := by
  obtain ⟨hsending, hfull, client, hclient⟩ := h
  cases hstep with
  | first => exact ⟨hsending, hfull, client, hclient⟩
  | @select who other _ _ _ _ hother | @stop who other _ _ _ _ hother =>
      refine ⟨hsending, hfull, client, ?_⟩
      have hne : id ≠ who := by
        rintro rfl
        cases hclient.symm.trans hother
      simpa only [Function.update_of_ne hne] using hclient
  | commit _ hroom => exact absurd hroom (not_lt.mpr hfull)
  | again hopen => cases hopen.symm.trans hsending
  | deadline => exact ⟨rfl, hfull, client, hclient⟩

/-- It never ends. -/
theorem Hung.stays (h : Hung state id) (hreaches : Reaches task state next) :
    Hung next id := by
  induction hreaches with
  | refl => exact h
  | tail _ hstep ih =>
      obtain ⟨label, hstep⟩ := hstep
      exact ih.step hstep

/-- After the deadline, a client that does not wait for room drains its channel and ends. -/
theorem running_ends (hsending : state.sending = false) {client : Client}
    (hclient : state.clients id = .running client) :
    ∃ final, Reaches task state final ∧ (final.clients id).IsEnded := by
  generalize hinvokes : state.invokes id = invokes
  induction invokes generalizing state client with
  | nil =>
      have hselects : Selects state id (.invoke none : ClientSelect Reply) [] :=
        ⟨hinvokes, fun _ => ⟨hsending, hinvokes⟩⟩
      refine ⟨_, .single ⟨_, .stop hclient hselects (task.finish id client)⟩, ?_⟩
      simp [Status.IsEnded]
  | cons invoke rest ih =>
      have hselects : Selects state id (.invoke (some invoke) : ClientSelect Reply) rest :=
        ⟨hinvokes, fun hnone => by cases hnone⟩
      cases hresult : task.step id client (.invoke (some invoke)) with
      | mk actions result =>
          cases result with
          | error stop =>
              refine ⟨_, .single ⟨_, .stop hclient hselects hresult⟩, ?_⟩
              simp [Status.IsEnded]
          | ok after =>
              have hstep := Step.select hclient hselects hresult
              rw [if_neg (task.invoke_ok hresult).1] at hstep
              obtain ⟨final, hreaches, hended⟩ :=
                @ih { state with
                  invokes := Function.update state.invokes id rest
                  clients := Function.update state.clients id (.running after) } hsending after
                  (Function.update_self ..) (Function.update_self ..)
              exact ⟨final, .head ⟨_, hstep⟩ hreaches, hended⟩

/-- With no more clients than the commit channel has room for, each of them can end. -/
theorem Circulates.ends (h : Circulates task ids state) (hcard : ids.card ≤ commitCapacity)
    (hsending : state.sending = false) (id : ClientId) :
    ∃ final, Reaches task state final ∧ (final.clients id).IsEnded := by
  cases hclient : state.clients id with
  | ended stop =>
      refine ⟨state, .refl, ?_⟩
      rw [hclient]
      trivial
  | running client => exact running_ends hsending hclient
  | committing client =>
      obtain ⟨after, hstep, hsending', hclient'⟩ : ∃ after, Step task state (.commit id) after ∧
          after.sending = false ∧ after.clients id = .running client :=
        ⟨_, .commit hclient ((h.commits_lt hclient).trans_le hcard), hsending,
          Function.update_self ..⟩
      obtain ⟨final, hreaches, hended⟩ := running_ends hsending' hclient'
      exact ⟨final, .head ⟨_, hstep⟩ hreaches, hended⟩

/-- A run goes on with what can happen next. -/
theorem CloseLoopRun.reaches (hrun : CloseLoopRun task ids history state)
    (hreaches : Reaches task state next) : ∃ more, CloseLoopRun task ids more next := by
  induction hreaches with
  | refl => exact ⟨history, hrun⟩
  | tail _ hstep ih =>
      obtain ⟨label, hstep⟩ := hstep
      obtain ⟨more, hmore⟩ := ih
      exact ⟨_, hmore.step hstep⟩

/-- What the tokens are good for. -/
structure ClientTask.InTurn (task : ClientTask Client Reply) : Prop where
  /-- A client is not invoked before it has committed. -/
  not_inflight : ∀ ids history state, CloseLoopRun task ids history state → ∀ id,
    state.clients id ≠ .ended .inflight
  /-- So the channels of the invocations do not fill up. -/
  invokes_le : ∀ ids history state, CloseLoopRun task ids history state → ∀ id,
    (state.invokes id).length ≤ 1
  /-- The commits in their channel are of different clients. -/
  commits_nodup : ∀ ids history state, CloseLoopRun task ids history state →
    state.commits.Nodup ∧ ∀ id ∈ state.commits, id ∈ ids
  /-- The token of a client that has not ended is not lost. -/
  tokens_eq : ∀ ids history state, CloseLoopRun task ids history state → ∀ id ∈ ids,
    ¬(state.clients id).IsEnded → state.tokens task id = 1
  /-- After the deadline all clients can end. -/
  ends : ∀ ids history state, CloseLoopRun task ids history state →
    ids.card ≤ commitCapacity → state.sending = false → ∀ id,
      ∃ final, Reaches task state final ∧ (final.clients id).IsEnded

theorem ClientTask.inTurn (task : ClientTask Client Reply) : task.InTurn where
  not_inflight _ _ _ hrun := hrun.circulates.blameless
  invokes_le _ _ _ hrun := hrun.circulates.invokes_le
  commits_nodup _ _ _ hrun :=
    ⟨hrun.circulates.commits_nodup, fun _ => hrun.circulates.mem_of_mem_commits⟩
  tokens_eq _ _ _ hrun := hrun.circulates.kept
  ends _ _ _ hrun hcard hsending := hrun.circulates.ends hcard hsending

end Tokens

end Workload

end BftKit
