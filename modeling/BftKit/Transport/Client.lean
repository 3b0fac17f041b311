import Mathlib.Data.List.TakeWhile
import BftKit.Foundation.Answers
import BftKit.Foundation.Run
import BftKit.Hotstuff.Core
import BftKit.Pbft.Core

/-! # Client tasks

A client numbers its invocations and commits one when enough replicas report the same
result. The tasks of the protocols differ in where a command is sent to, and in whether
a reply says something about the view.
-/

namespace BftKit

open Foundation

/-- What clients read from a reply. -/
class ToClient (Reply : Type) where
  seq : Reply → ClientSeq
  result : Reply → List UInt8
  replicaId : Reply → Nat

namespace Pbft

structure Reply where
  seq : ClientSeq
  viewNum : Nat
  result : List UInt8
  replicaId : Nat
deriving DecidableEq

instance : ToClient Reply := ⟨Reply.seq, Reply.result, Reply.replicaId⟩

end Pbft

namespace Hotstuff

structure Reply where
  seq : ClientSeq
  result : List UInt8
  replicaId : Nat
deriving DecidableEq

instance : ToClient Reply := ⟨Reply.seq, Reply.result, Reply.replicaId⟩

end Hotstuff

namespace Transport

/-- An iteration of the loop of a task: what `select!` yielded, and what was done with it. -/
structure Happening (Select Action : Type) where
  select : Select
  actions : List Action

/-- The iterations that a task goes through before it ends. -/
def TaskRun {State Select Action End : Type} (new : State)
    (step : State → Select → List Action × Except End State) :
    List (Happening Select Action) → State → Prop :=
  Run (· = new) fun _ state happening next =>
    step state happening.select = (happening.actions, .ok next)

/-- The iterations that selects lead to, if the task does not end. -/
def replay {State Select Action End : Type} (step : State → Select → List Action × Except End State) :
    State → List Select → Option (List (Happening Select Action) × State)
  | state, [] => some ([], state)
  | state, select :: rest =>
      match step state select with
      | (_, .error _) => none
      | (actions, .ok next) =>
          (replay step next rest).map fun (history, final) => (⟨select, actions⟩ :: history, final)

theorem replay_run {State Select Action End : Type} {new state : State}
    {step : State → Select → List Action × Except End State} {selects : List Select}
    {history more : List (Happening Select Action)} {final : State}
    (hrun : TaskRun new step history state)
    (hreplay : replay step state selects = some (more, final)) :
    TaskRun new step (history ++ more) final := by
  induction selects generalizing history more state with
  | nil =>
      obtain ⟨rfl, rfl⟩ := Prod.mk.inj (Option.some.inj hreplay)
      rwa [List.append_nil]
  | cons select rest ih =>
      unfold replay at hreplay
      split at hreplay
      next => cases hreplay
      next actions next hstep =>
        obtain ⟨⟨later, final⟩, hrest, heq⟩ := Option.map_eq_some_iff.mp hreplay
        obtain ⟨rfl, rfl⟩ := Prod.mk.inj heq
        have hnext : TaskRun new step (history ++ [⟨select, actions⟩]) next := .step hrun hstep
        have hlater := ih hnext hrest
        rwa [List.append_assoc] at hlater

structure SeqScratch where
  results : Quorum (List UInt8)
  expectedResult : Option (List UInt8)

abbrev SeqScratches := Std.ExtTreeMap ClientSeq SeqScratch

/-- Why a client task ends. -/
inductive ClientEnd where
  /-- There are no more invocations. -/
  | finished
  | messageChannelClosed
  | transport
  /-- There is no connection to the primary. -/
  | egress
  /-- A closed-loop client is invoked again before it has committed. -/
  | inflight
  | unexpectedResult
  /-- An addition overflows. -/
  | overflow
  | divisionByZero
deriving DecidableEq

inductive ClientConfig where
  | closeLoop
  | openLoop (numMaxInflight : Nat)

/-- Makes room for another invocation. -/
def ClientConfig.makeRoom (config : ClientConfig) (seqScratch : SeqScratches) :
    Except ClientEnd SeqScratches :=
  match config with
  | .closeLoop => if seqScratch.isEmpty then .ok seqScratch else .error .inflight
  | .openLoop numMaxInflight =>
      if seqScratch.size = numMaxInflight then
        match seqScratch.minKey? with
        | some seq => .ok (seqScratch.erase seq)
        | none => .ok seqScratch
      else .ok seqScratch

/-- A full window gives up its smallest number. -/
def ClientConfig.Evicts (config : ClientConfig) (seqScratch : SeqScratches)
    (number : ClientSeq) : Prop :=
  config = .openLoop seqScratch.size ∧ seqScratch.minKey? = some number

/-- An operation, with the result that it has to have. -/
abbrev Invoke := List UInt8 × Option (List UInt8)

inductive ClientSelect (Reply : Type) where
  | invoke (invoke : Option Invoke)
  | message (reply : Option Reply)
  | transportJoinNext

inductive ClientAction where
  | write (command : Command) (receivers : List Nat)
  | commit
deriving DecidableEq

abbrev ClientHappening (Reply : Type) := Happening (ClientSelect Reply) ClientAction

structure ClientTask (Reply View : Type) where
  id : ClientId
  numFaulty : Nat
  config : ClientConfig
  initialView : View
  /-- Whom a command is sent to. -/
  receivers : View → Except ClientEnd (List Nat)
  /-- The view after a reply has committed. -/
  enter : Reply → View → View

structure ClientState (View : Type) where
  seq : ClientSeq
  seqScratch : SeqScratches
  viewNum : View

namespace ClientTask

variable {Reply View : Type} (task : ClientTask Reply View)

def new : ClientState View where
  seq := 0
  seqScratch := ∅
  viewNum := task.initialView

def invoke (state : ClientState View) (op : List UInt8) (result : Option (List UInt8)) :
    List ClientAction × Except ClientEnd (ClientState View) :=
  if hseq : state.seq.val + 1 < 2 ^ 32 then
    let seq : ClientSeq := ⟨state.seq.val + 1, hseq⟩
    match task.receivers state.viewNum with
    | .error stop => ([], .error stop)
    | .ok receivers =>
        let command : Command := ⟨task.id, seq, op⟩
        let next := (task.config.makeRoom state.seqScratch).map fun seqScratch =>
          { state with seq := seq, seqScratch := seqScratch.insert seq ⟨∅, result⟩ }
        ([.write command receivers], next)
  else ([], .error .overflow)

variable [ToClient Reply]

open ToClient

def receive (state : ClientState View) (reply : Reply) :
    List ClientAction × Except ClientEnd (ClientState View) :=
  match state.seqScratch[seq reply]? with
  | none => ([], .ok state)
  | some scratch =>
      let results : Quorum (List UInt8) := scratch.results.insert (replicaId reply) (result reply)
      if 2 ^ 16 ≤ task.numFaulty + 1 then ([], .error .overflow)
      else if (Map.holders results (result reply)).card % 2 ^ 16 = task.numFaulty + 1 then
        if scratch.expectedResult.all (result reply = ·) then
          ([.commit], .ok { state with
            seqScratch := state.seqScratch.erase (seq reply)
            viewNum := task.enter reply state.viewNum })
        else ([], .error .unexpectedResult)
      else
        let seqScratch := state.seqScratch.insert (seq reply) { scratch with results := results }
        ([], .ok { state with seqScratch := seqScratch })

/-- One iteration of the loop of a client task. -/
def step (state : ClientState View) :
    ClientSelect Reply → List ClientAction × Except ClientEnd (ClientState View)
  | .invoke none => ([], .error .finished)
  | .invoke (some (op, result)) => task.invoke state op result
  | .message none => ([], .error .messageChannelClosed)
  | .message (some reply) => task.receive state reply
  | .transportJoinNext => ([], .error .transport)

/-! ## Runs -/

def Run : List (ClientHappening Reply) → ClientState View → Prop := TaskRun task.new task.step

end ClientTask

namespace Happening

variable {Reply : Type} [ToClient Reply]

open ToClient

/-- A command with the number was written. -/
def invokes (happening : ClientHappening Reply) (number : ClientSeq) : Bool :=
  happening.actions.any fun
    | .write command _ => command.seq = number
    | .commit => false

/-- Who replied what to the number. -/
def replyTo? (happening : ClientHappening Reply) (number : ClientSeq) : Option (Nat × List UInt8) :=
  match happening.select with
  | .message (some reply) =>
      if seq reply = number then some (replicaId reply, result reply) else none
  | .message none | .invoke _ | .transportJoinNext => none

/-- What was committed, and with which result. -/
def committed? (happening : ClientHappening Reply) : Option (ClientSeq × List UInt8) :=
  match happening.select with
  | .message (some reply) =>
      if .commit ∈ happening.actions then some (seq reply, result reply) else none
  | .message none | .invoke _ | .transportJoinNext => none

end Happening

namespace ClientTask

variable {Reply View : Type} [ToClient Reply]

open ToClient

/-- The replies to a number since it was invoked. -/
def repliesTo (number : ClientSeq) (history : List (ClientHappening Reply)) :
    List (Nat × List UInt8) :=
  (history.dropWhile fun happening => !happening.invokes number).filterMap
    fun happening => happening.replyTo? number

def committed (history : List (ClientHappening Reply)) : List (ClientSeq × List UInt8) :=
  history.filterMap Happening.committed?

/-- Where a result was expected of a number, it is the given one. -/
def Expects (history : List (ClientHappening Reply)) (number : ClientSeq)
    (result : List UInt8) : Prop :=
  ∀ happening ∈ history, happening.invokes number → ∀ op expected,
    happening.select = .invoke (some (op, some expected)) → result = expected

/-- An invocation along the history has evicted the number. -/
def Evicted (task : ClientTask Reply View) (history : List (ClientHappening Reply))
    (number : ClientSeq) : Prop :=
  ∃ before state invoke actions, before ++ [⟨.invoke (some invoke), actions⟩] <+: history ∧
    task.Run before state ∧ task.config.Evicts state.seqScratch number

/-! ## What one iteration does -/

section Iteration

omit [ToClient Reply]

variable {task : ClientTask Reply View} {state next : ClientState View}
  {actions : List ClientAction}

theorem getElem?_of_makeRoom {config : ClientConfig} {old new : SeqScratches}
    (hroom : config.makeRoom old = .ok new) {number : ClientSeq} {scratch : SeqScratch}
    (hnew : new[number]? = some scratch) : old[number]? = some scratch := by
  cases config with
  | closeLoop =>
      rw [ClientConfig.makeRoom] at hroom
      split at hroom
      · obtain rfl := Except.ok.inj hroom
        exact hnew
      · cases hroom
  | openLoop numMaxInflight =>
      simp only [ClientConfig.makeRoom] at hroom
      split at hroom
      · split at hroom
        · obtain rfl := Except.ok.inj hroom
          rw [Std.ExtTreeMap.getElem?_erase] at hnew
          split at hnew
          · cases hnew
          · exact hnew
        · obtain rfl := Except.ok.inj hroom
          exact hnew
      · obtain rfl := Except.ok.inj hroom
        exact hnew

/-- Room is made at the cost of an evicted number only. -/
theorem mem_or_evicts_of_makeRoom {config : ClientConfig} {old new : SeqScratches}
    (hroom : config.makeRoom old = .ok new) {number : ClientSeq} (hmem : number ∈ old) :
    number ∈ new ∨ config.Evicts old number := by
  cases config with
  | closeLoop =>
      rw [ClientConfig.makeRoom] at hroom
      split at hroom
      · obtain rfl := Except.ok.inj hroom
        exact .inl hmem
      · cases hroom
  | openLoop numMaxInflight =>
      simp only [ClientConfig.makeRoom] at hroom
      split at hroom
      next hfull =>
        split at hroom
        next smallest hmin =>
          obtain rfl := Except.ok.inj hroom
          by_cases heq : smallest = number
          · exact .inr ⟨by rw [hfull], heq ▸ hmin⟩
          · refine .inl (Std.ExtTreeMap.mem_erase.mpr ⟨?_, hmem⟩)
            exact fun hcompare => heq (Std.LawfulEqCmp.compare_eq_iff_eq.mp hcompare)
        next =>
          obtain rfl := Except.ok.inj hroom
          exact .inl hmem
      next =>
        obtain rfl := Except.ok.inj hroom
        exact .inl hmem

theorem invoke_ok {op : List UInt8} {expected : Option (List UInt8)}
    (hinvoke : task.invoke state op expected = (actions, .ok next)) :
    ∃ number receivers seqScratch, number.val = state.seq.val + 1 ∧
      task.config.makeRoom state.seqScratch = .ok seqScratch ∧
      actions = [.write ⟨task.id, number, op⟩ receivers] ∧
      next = { state with
        seq := number, seqScratch := seqScratch.insert number ⟨∅, expected⟩ } := by
  rw [invoke] at hinvoke
  split at hinvoke
  next hseq =>
    dsimp only at hinvoke
    split at hinvoke
    · cases hinvoke
    next receivers _ =>
      obtain ⟨hactions, hnext⟩ := Prod.mk.inj hinvoke
      cases hroom : task.config.makeRoom state.seqScratch with
      | error stop =>
          rw [hroom] at hnext
          cases hnext
      | ok seqScratch =>
          rw [hroom] at hnext
          exact ⟨_, receivers, seqScratch, rfl, rfl, hactions.symm, (Except.ok.inj hnext).symm⟩
  next => cases hinvoke

theorem commit_notMem_invoke (op : List UInt8) (expected : Option (List UInt8)) :
    ClientAction.commit ∉ (task.invoke state op expected).1 := by
  rw [invoke]
  split
  · dsimp only
    split <;> simp
  · simp

end Iteration

/-! ## What a history says about a number -/

section History

variable {history : List (ClientHappening Reply)} {happening : ClientHappening Reply}
  {number : ClientSeq}

theorem replyTo_toList (happening : ClientHappening Reply) (number : ClientSeq) :
    [happening].filterMap (fun happening => happening.replyTo? number) =
      (happening.replyTo? number).toList := by
  rw [List.filterMap_cons, List.filterMap_nil]
  cases happening.replyTo? number <;> rfl

theorem repliesTo_concat (hinvoked : ∃ happening ∈ history, happening.invokes number) :
    repliesTo number (history ++ [happening]) =
      repliesTo number history ++ (happening.replyTo? number).toList := by
  have hsome : (history.dropWhile fun happening => !happening.invokes number).isEmpty = false := by
    obtain ⟨earlier, hmem, hinvokes⟩ := hinvoked
    rw [List.isEmpty_eq_false_iff, ne_eq, List.dropWhile_eq_nil_iff]
    intro hnone
    have hnot := hnone earlier hmem
    rw [hinvokes] at hnot
    cases hnot
  rw [repliesTo, List.dropWhile_append, hsome, if_neg Bool.false_ne_true, List.filterMap_append,
    repliesTo, replyTo_toList]

theorem repliesTo_concat_first (hnone : ∀ happening ∈ history, happening.invokes number = false)
    (hreply : happening.replyTo? number = none) :
    repliesTo number (history ++ [happening]) = [] := by
  have hempty : history.dropWhile (fun happening => !happening.invokes number) = [] := by
    rw [List.dropWhile_eq_nil_iff]
    intro earlier hmem
    rw [hnone earlier hmem]
    rfl
  rw [repliesTo, List.dropWhile_append, hempty, List.isEmpty_nil, if_pos rfl]
  apply List.filterMap_eq_nil_iff.mpr
  intro other hother
  obtain rfl := List.mem_singleton.mp ((List.dropWhile_sublist _).mem hother)
  exact hreply

theorem committed_concat : committed (history ++ [happening]) =
    committed history ++ happening.committed?.toList := by
  rw [committed, List.filterMap_append, List.filterMap_cons, List.filterMap_nil]
  cases happening.committed? <;> rfl

end History

/-! ## The invariant -/

/-- A scratch holds what the history says about its number, and no result has been
agreed on. -/
structure Tracks (task : ClientTask Reply View) (history : List (ClientHappening Reply))
    (number : ClientSeq) (scratch : SeqScratch) : Prop where
  invoked : ∃ happening ∈ history, happening.invokes number
  expected : ∀ happening ∈ history, happening.invokes number →
    ∃ op, happening.select = .invoke (some (op, scratch.expectedResult))
  results : scratch.results = lastAnswers (repliesTo number history)
  undecided : Undecided task.numFaulty (repliesTo number history)
  uncommitted : number ∉ (committed history).map Prod.fst
  numFaulty_lt : repliesTo number history = [] ∨ task.numFaulty + 1 < 2 ^ 16

structure Inv (task : ClientTask Reply View) (history : List (ClientHappening Reply))
    (state : ClientState View) : Prop where
  invokes_le : ∀ happening ∈ history, ∀ number, happening.invokes number → number ≤ state.seq
  tracks : ∀ number scratch, state.seqScratch[number]? = some scratch →
    task.Tracks history number scratch
  committed_invoked : ∀ number ∈ (committed history).map Prod.fst,
    ∃ happening ∈ history, happening.invokes number
  nodup : ((committed history).map Prod.fst).Nodup

section Preservation

variable {task : ClientTask Reply View} {history : List (ClientHappening Reply)}
  {happening : ClientHappening Reply} {state : ClientState View} {number : ClientSeq}
  {scratch : SeqScratch} {reply : Reply}

/-- What is not about a number leaves its scratch alone. -/
theorem Tracks.concat (h : task.Tracks history number scratch)
    (hinvokes : happening.invokes number = false) (hreply : happening.replyTo? number = none)
    (hcommitted : ∀ entry ∈ happening.committed?, entry.1 ≠ number) :
    task.Tracks (history ++ [happening]) number scratch := by
  have hsame : repliesTo number (history ++ [happening]) = repliesTo number history := by
    rw [repliesTo_concat h.invoked, hreply, Option.toList_none, List.append_nil]
  constructor
  case invoked =>
    obtain ⟨earlier, hmem, hearlier⟩ := h.invoked
    exact ⟨earlier, List.mem_append_left _ hmem, hearlier⟩
  case expected =>
    intro other hother hinvoked
    rcases List.mem_append.mp hother with hold | hlast
    · exact h.expected other hold hinvoked
    · obtain rfl := List.mem_singleton.mp hlast
      rw [hinvokes] at hinvoked
      cases hinvoked
  case results => rw [hsame, h.results]
  case undecided => rw [hsame]; exact h.undecided
  case uncommitted =>
    intro hmem
    rw [committed_concat, List.map_append, List.mem_append] at hmem
    rcases hmem with hold | hlast
    · exact h.uncommitted hold
    · obtain ⟨entry, hentry, heq⟩ := List.mem_map.mp hlast
      exact hcommitted entry (Option.mem_toList.mp hentry) heq
  case numFaulty_lt => rw [hsame]; exact h.numFaulty_lt

/-- A reply that agrees with too few others. -/
theorem Tracks.insert (h : task.Tracks history (seq reply) scratch)
    (hlt : task.numFaulty + 1 < 2 ^ 16)
    (hfew : ¬FirstAgreed task.numFaulty (repliesTo (seq reply) history)
      (replicaId reply, result reply)) :
    task.Tracks (history ++ [⟨.message (some reply), []⟩]) (seq reply)
      { scratch with results := scratch.results.insert (replicaId reply) (result reply) } := by
  have hreplies : repliesTo (seq reply) (history ++ [⟨.message (some reply), []⟩]) =
      repliesTo (seq reply) history ++ [(replicaId reply, result reply)] := by
    rw [repliesTo_concat h.invoked]
    simp [Happening.replyTo?]
  constructor
  case invoked =>
    obtain ⟨earlier, hmem, hearlier⟩ := h.invoked
    exact ⟨earlier, List.mem_append_left _ hmem, hearlier⟩
  case expected =>
    intro other hother hinvoked
    rcases List.mem_append.mp hother with hold | hlast
    · exact h.expected other hold hinvoked
    · obtain rfl := List.mem_singleton.mp hlast
      cases hinvoked
  case results => rw [hreplies, lastAnswers_concat, h.results]
  case undecided =>
    rw [hreplies]
    exact undecided_concat.mpr ⟨h.undecided, fun hagreed => hfew ⟨h.undecided, hagreed⟩⟩
  case uncommitted =>
    rw [committed_concat]
    simpa [Happening.committed?] using h.uncommitted
  case numFaulty_lt => exact .inr hlt

theorem Tracks.expects_iff (h : task.Tracks history number scratch) (found : List UInt8) :
    Expects history number found ↔ scratch.expectedResult.all (found = ·) = true := by
  constructor
  · intro hexpects
    obtain ⟨happening, hmem, hinvokes⟩ := h.invoked
    obtain ⟨op, hselect⟩ := h.expected happening hmem hinvokes
    cases hexpected : scratch.expectedResult with
    | none => rfl
    | some expected =>
        rw [hexpected] at hselect
        exact decide_eq_true (hexpects happening hmem hinvokes op expected hselect)
  · intro hall happening hmem hinvokes op expected hselect
    obtain ⟨op', hselect'⟩ := h.expected happening hmem hinvokes
    rw [hselect] at hselect'
    simp only [ClientSelect.invoke.injEq, Option.some.injEq, Prod.mk.injEq] at hselect'
    rw [← hselect'.2] at hall
    exact of_decide_eq_true hall

/-- The count is compared for equality, with a sum that has to fit. -/
theorem Tracks.firstAgreed_iff (h : task.Tracks history (seq reply) scratch)
    (hlt : task.numFaulty + 1 < 2 ^ 16) :
    FirstAgreed task.numFaulty (repliesTo (seq reply) history) (replicaId reply, result reply) ↔
      (Map.holders (scratch.results.insert (replicaId reply) (result reply))
        (result reply)).card % 2 ^ 16 = task.numFaulty + 1 := by
  have hle := h.undecided.scattered.card_insert_le (replicaId reply) (result reply)
  rw [h.undecided.firstAgreed_iff, h.results, Nat.mod_eq_of_lt (hle.trans_lt hlt)]

theorem Tracks.not_firstAgreed (h : task.Tracks history (seq reply) scratch)
    (hle : 2 ^ 16 ≤ task.numFaulty + 1) : ¬FirstAgreed task.numFaulty
      (repliesTo (seq reply) history) (replicaId reply, result reply) := by
  have hempty := h.numFaulty_lt.resolve_right (Nat.not_lt.mpr hle)
  have hscattered : Map.Scattered 0 (lastAnswers (repliesTo (seq reply) history)) := by
    rw [hempty]
    exact Map.Scattered.empty
  have hcard := hscattered.card_insert_le (replicaId reply) (result reply)
  rw [h.undecided.firstAgreed_iff]
  dsimp only
  omega

/-- What a reply to a number that is tracked does. -/
theorem Tracks.receive_cases (h : task.Tracks history (seq reply) scratch)
    (hscratch : state.seqScratch[seq reply]? = some scratch) :
    let first := FirstAgreed task.numFaulty (repliesTo (seq reply) history)
      (replicaId reply, result reply)
    first ∧ Expects history (seq reply) (result reply) ∧
        task.receive state reply = ([.commit], .ok { state with
          seqScratch := state.seqScratch.erase (seq reply)
          viewNum := task.enter reply state.viewNum }) ∨
      first ∧ ¬Expects history (seq reply) (result reply) ∧
        task.receive state reply = ([], .error .unexpectedResult) ∨
      ¬first ∧ task.receive state reply = ([], .error .overflow) ∨
      ¬first ∧ task.numFaulty + 1 < 2 ^ 16 ∧
        task.receive state reply = ([], .ok { state with
          seqScratch := state.seqScratch.insert (seq reply) { scratch with
            results := scratch.results.insert (replicaId reply) (result reply) } }) := by
  intro first
  rw [receive, hscratch]
  dsimp only
  by_cases hle : 2 ^ 16 ≤ task.numFaulty + 1
  · rw [if_pos hle]
    exact .inr (.inr (.inl ⟨h.not_firstAgreed hle, rfl⟩))
  · have hlt := Nat.lt_of_not_le hle
    rw [if_neg hle]
    by_cases hfirst : first
    · rw [if_pos ((h.firstAgreed_iff hlt).mp hfirst)]
      by_cases hexpects : Expects history (seq reply) (result reply)
      · rw [if_pos ((h.expects_iff _).mp hexpects)]
        exact .inl ⟨hfirst, hexpects, rfl⟩
      · rw [if_neg (mt (h.expects_iff _).mpr hexpects)]
        exact .inr (.inl ⟨hfirst, hexpects, rfl⟩)
    · rw [if_neg (mt (h.firstAgreed_iff hlt).mpr hfirst)]
      exact .inr (.inr (.inr ⟨hfirst, hlt, rfl⟩))

theorem Inv.start : task.Inv [] task.new where
  invokes_le := by simp
  tracks number scratch hscratch := by simp [new] at hscratch
  committed_invoked := by simp [committed]
  nodup := List.nodup_nil

theorem committed_invoke (op : List UInt8) (expected : Option (List UInt8)) (command : Command)
    (receivers : List Nat) :
    committed (history ++ [⟨.invoke (some (op, expected)), [.write command receivers]⟩]) =
      committed history := by
  rw [committed_concat]
  exact List.append_nil _

/-- A number is tracked from its invocation on. -/
theorem Tracks.start (hfresh : ∀ happening ∈ history, happening.invokes number = false)
    (huncommitted : number ∉ (committed history).map Prod.fst) (op : List UInt8)
    (expected : Option (List UInt8)) (receivers : List Nat) :
    task.Tracks (history ++ [⟨.invoke (some (op, expected)),
      [.write ⟨task.id, number, op⟩ receivers]⟩]) number ⟨∅, expected⟩ := by
  have hreplies : repliesTo number (history ++ [⟨.invoke (some (op, expected)),
      [.write ⟨task.id, number, op⟩ receivers]⟩]) = [] :=
    repliesTo_concat_first hfresh rfl
  constructor
  case invoked =>
    refine ⟨_, List.mem_append_right _ List.mem_cons_self, ?_⟩
    simp [Happening.invokes]
  case expected =>
    intro happening hmem hinvokes
    rcases List.mem_append.mp hmem with hold | hlast
    · rw [hfresh happening hold] at hinvokes
      cases hinvokes
    · obtain rfl := List.mem_singleton.mp hlast
      exact ⟨op, rfl⟩
  case results =>
    rw [hreplies]
    rfl
  case undecided =>
    rw [hreplies]
    exact Undecided.nil
  case uncommitted =>
    rwa [committed_invoke]
  case numFaulty_lt => exact .inl hreplies

theorem Inv.invoke (h : task.Inv history state) {op : List UInt8}
    {expected : Option (List UInt8)} {actions : List ClientAction} {next : ClientState View}
    (hinvoke : task.invoke state op expected = (actions, .ok next)) :
    task.Inv (history ++ [⟨.invoke (some (op, expected)), actions⟩]) next := by
  obtain ⟨fresh, receivers, seqScratch, hfresh, hroom, rfl, rfl⟩ := invoke_ok hinvoke
  have hlt : state.seq < fresh := by
    rw [Fin.lt_def]
    omega
  -- the number is beyond all that have been given out
  have hnone : ∀ happening ∈ history, happening.invokes fresh = false := by
    intro happening hmem
    by_contra hinvokes
    rw [Bool.not_eq_false] at hinvokes
    exact (h.invokes_le happening hmem fresh hinvokes).not_gt hlt
  constructor
  case invokes_le =>
    intro happening hmem number hinvokes
    rcases List.mem_append.mp hmem with hold | hlast
    · exact (h.invokes_le happening hold number hinvokes).trans hlt.le
    · obtain rfl := List.mem_singleton.mp hlast
      simp only [Happening.invokes, List.any_cons, List.any_nil, Bool.or_false,
        decide_eq_true_eq] at hinvokes
      exact hinvokes.ge
  case tracks =>
    intro number scratch hscratch
    dsimp only at hscratch
    rw [Std.ExtTreeMap.getElem?_insert] at hscratch
    split at hscratch
    next heq =>
      obtain rfl := Std.LawfulEqCmp.compare_eq_iff_eq.mp heq
      obtain rfl := Option.some.inj hscratch
      apply Tracks.start hnone
      intro hcommitted
      obtain ⟨happening, hmem, hinvokes⟩ := h.committed_invoked fresh hcommitted
      rw [hnone happening hmem] at hinvokes
      cases hinvokes
    next hne =>
      apply (h.tracks number scratch (getElem?_of_makeRoom hroom hscratch)).concat
      · have hother : fresh ≠ number := by
          rintro rfl
          exact hne Std.ReflCmp.compare_self
        simp [Happening.invokes, hother]
      · rfl
      · intro entry hentry
        cases hentry
  case committed_invoked =>
    rw [committed_invoke]
    intro number hnumber
    obtain ⟨happening, hmem, hinvokes⟩ := h.committed_invoked number hnumber
    exact ⟨happening, List.mem_append_left _ hmem, hinvokes⟩
  case nodup =>
    rw [committed_invoke]
    exact h.nodup

/-- Messages invoke nothing, and change the scratch of one number at most. -/
theorem Inv.message (h : task.Inv history state) {actions : List ClientAction}
    (hactions : actions = [] ∨
      actions = [.commit] ∧ ∃ scratch, task.Tracks history (seq reply) scratch)
    (next : ClientState View) (hseq : next.seq = state.seq)
    (hself : ∀ scratch, next.seqScratch[seq reply]? = some scratch →
      task.Tracks (history ++ [⟨.message (some reply), actions⟩]) (seq reply) scratch)
    (hothers : ∀ number, number ≠ seq reply →
      next.seqScratch[number]? = state.seqScratch[number]?) :
    task.Inv (history ++ [⟨.message (some reply), actions⟩]) next := by
  have hinvokes : ∀ number, Happening.invokes
      (⟨.message (some reply), actions⟩ : ClientHappening Reply) number = false := by
    rcases hactions with rfl | ⟨rfl, -⟩ <;> exact fun _ => rfl
  have hcommitted : committed (history ++ [⟨.message (some reply), actions⟩]) =
      committed history ∨ committed (history ++ [⟨.message (some reply), actions⟩]) =
        committed history ++ [(seq reply, result reply)] ∧
          ∃ scratch, task.Tracks history (seq reply) scratch := by
    rw [committed_concat]
    rcases hactions with rfl | ⟨rfl, htracked⟩
    · exact .inl (List.append_nil _)
    · exact .inr ⟨rfl, htracked⟩
  constructor
  case invokes_le =>
    intro happening hmem number hinvoked
    rw [hseq]
    rcases List.mem_append.mp hmem with hold | hlast
    · exact h.invokes_le happening hold number hinvoked
    · obtain rfl := List.mem_singleton.mp hlast
      rw [hinvokes] at hinvoked
      cases hinvoked
  case tracks =>
    intro number scratch hscratch
    by_cases heq : number = seq reply
    · subst heq
      exact hself scratch hscratch
    · apply (h.tracks number scratch (hothers number heq ▸ hscratch)).concat (hinvokes number)
      · exact if_neg (Ne.symm heq)
      · intro entry hentry
        simp only [Happening.committed?, Option.mem_def, Option.ite_none_right_eq_some,
          Option.some.injEq] at hentry
        rw [← hentry.2]
        exact Ne.symm heq
  case committed_invoked =>
    intro number hnumber
    suffices hinvoked : ∃ happening ∈ history, happening.invokes number by
      obtain ⟨happening, hmem, hinvoked⟩ := hinvoked
      exact ⟨happening, List.mem_append_left _ hmem, hinvoked⟩
    rcases hcommitted with heq | ⟨heq, scratch, htracked⟩
    · exact h.committed_invoked number (heq ▸ hnumber)
    · rw [heq, List.map_append, List.mem_append] at hnumber
      rcases hnumber with hold | hlast
      · exact h.committed_invoked number hold
      · obtain rfl := List.mem_singleton.mp hlast
        exact htracked.invoked
  case nodup =>
    rcases hcommitted with heq | ⟨heq, scratch, htracked⟩
    · rw [heq]
      exact h.nodup
    · rw [heq, List.map_append]
      apply h.nodup.append (List.nodup_singleton _)
      exact List.disjoint_singleton.mpr htracked.uncommitted

theorem Inv.receive (h : task.Inv history state) {actions : List ClientAction}
    {next : ClientState View} (hreceive : task.receive state reply = (actions, .ok next)) :
    task.Inv (history ++ [⟨.message (some reply), actions⟩]) next := by
  have hcompare : ∀ number, number ≠ seq reply → compare (seq reply) number ≠ .eq :=
    fun number hne heq => hne (Std.LawfulEqCmp.compare_eq_iff_eq.mp heq).symm
  cases hscratch : state.seqScratch[seq reply]? with
  | none =>
      have heq : task.receive state reply = ([], .ok state) := by
        rw [ClientTask.receive, hscratch]
      rw [heq] at hreceive
      obtain ⟨rfl, hnext⟩ := Prod.mk.inj hreceive
      obtain rfl := Except.ok.inj hnext
      refine h.message (.inl rfl) _ rfl ?_ fun _ _ => rfl
      intro scratch hsome
      rw [hscratch] at hsome
      cases hsome
  | some scratch =>
      have htracked := h.tracks _ scratch hscratch
      rcases htracked.receive_cases hscratch with
        ⟨-, -, heq⟩ | ⟨-, -, heq⟩ | ⟨-, heq⟩ | ⟨hfew, hlt, heq⟩
      · rw [heq] at hreceive
        obtain ⟨rfl, hnext⟩ := Prod.mk.inj hreceive
        obtain rfl := Except.ok.inj hnext
        refine h.message (.inr ⟨rfl, scratch, htracked⟩) _ rfl ?_ ?_
        · intro other hsome
          simp at hsome
        · intro number hne
          simp [Std.ExtTreeMap.getElem?_erase, hcompare number hne]
      · rw [heq] at hreceive
        cases hreceive
      · rw [heq] at hreceive
        cases hreceive
      · rw [heq] at hreceive
        obtain ⟨rfl, hnext⟩ := Prod.mk.inj hreceive
        obtain rfl := Except.ok.inj hnext
        refine h.message (.inl rfl) _ rfl ?_ ?_
        · intro other hsome
          rw [Std.ExtTreeMap.getElem?_insert_self] at hsome
          obtain rfl := Option.some.inj hsome
          exact htracked.insert hlt hfew
        · intro number hne
          simp [Std.ExtTreeMap.getElem?_insert, hcompare number hne]

theorem Run.inv (hrun : task.Run history state) : task.Inv history state := by
  refine Foundation.Run.invariant ?_ ?_ hrun
  · rintro _ rfl
    exact Inv.start
  · rintro before current ⟨select, actions⟩ next - h hstep
    cases select with
    | invoke invoke =>
        cases invoke with
        | none => cases hstep
        | some invoke => exact h.invoke hstep
    | message reply =>
        cases reply with
        | none => cases hstep
        | some reply => exact h.receive hstep
    | transportJoinNext => cases hstep

/-- A reply is committed, or nothing is done. -/
theorem receive_actions (state : ClientState View) (reply : Reply) :
    (task.receive state reply).1 = [] ∨ (task.receive state reply).1 = [.commit] := by
  unfold receive
  split
  next => exact .inl rfl
  next =>
    dsimp only
    split
    · exact .inl rfl
    · split
      · split
        · exact .inr rfl
        · exact .inl rfl
      · exact .inl rfl

/-- What is tracked stays so until it is committed or evicted. -/
theorem step_kept {select : ClientSelect Reply} {actions : List ClientAction}
    {next : ClientState View} (hstep : task.step state select = (actions, .ok next))
    (hmem : number ∈ state.seqScratch) :
    number ∈ next.seqScratch ∨
      (∃ result, Happening.committed? ⟨select, actions⟩ = some (number, result)) ∨
      (∃ invoke, select = .invoke (some invoke)) ∧ task.config.Evicts state.seqScratch number := by
  cases select with
  | invoke invoke =>
      cases invoke with
      | none => cases hstep
      | some invoke =>
          obtain ⟨_, _, seqScratch, -, hroom, -, rfl⟩ := invoke_ok hstep
          rcases mem_or_evicts_of_makeRoom hroom hmem with hkept | hevicts
          · exact .inl (Std.ExtTreeMap.mem_insert.mpr (.inr hkept))
          · exact .inr (.inr ⟨⟨invoke, rfl⟩, hevicts⟩)
  | message reply =>
      cases reply with
      | none => cases hstep
      | some reply =>
          change task.receive state reply = (actions, .ok next) at hstep
          unfold receive at hstep
          split at hstep
          next =>
            obtain ⟨-, hnext⟩ := Prod.mk.inj hstep
            obtain rfl := Except.ok.inj hnext
            exact .inl hmem
          next =>
            dsimp only at hstep
            split at hstep
            · cases hstep
            · split at hstep
              · split at hstep
                next =>
                  obtain ⟨rfl, hnext⟩ := Prod.mk.inj hstep
                  obtain rfl := Except.ok.inj hnext
                  by_cases heq : seq reply = number
                  · exact .inr (.inl ⟨result reply, by simp [Happening.committed?, heq]⟩)
                  · refine .inl (Std.ExtTreeMap.mem_erase.mpr ⟨?_, hmem⟩)
                    exact fun hcompare => heq (Std.LawfulEqCmp.compare_eq_iff_eq.mp hcompare)
                next => cases hstep
              · obtain ⟨-, hnext⟩ := Prod.mk.inj hstep
                obtain rfl := Except.ok.inj hnext
                exact .inl (Std.ExtTreeMap.mem_insert.mpr (.inr hmem))
  | transportJoinNext => cases hstep

/-- What has been invoked is tracked, unless it has been committed or evicted. -/
theorem Run.tracked (hrun : task.Run history state)
    (hinvoked : ∃ happening ∈ history, happening.invokes number) :
    number ∈ state.seqScratch ∨ number ∈ (committed history).map Prod.fst ∨
      task.Evicted history number := by
  induction hrun with
  | start =>
      obtain ⟨_, hmem, -⟩ := hinvoked
      cases hmem
  | @step history state happening next hprev hstep ih =>
      obtain ⟨select, actions⟩ := happening
      obtain ⟨invoked, hmem, hinvokes⟩ := hinvoked
      rcases List.mem_append.mp hmem with hold | hlast
      · rcases ih ⟨invoked, hold, hinvokes⟩ with htracked | hcommitted | hevicted
        · rcases step_kept hstep htracked with hkept | ⟨result, hcommits⟩ | ⟨⟨invoke, rfl⟩, hevicts⟩
          · exact .inl hkept
          · refine .inr (.inl (List.mem_map.mpr ⟨(number, result), ?_, rfl⟩))
            rw [committed_concat, hcommits]
            exact List.mem_append_right _ (List.mem_singleton_self _)
          · exact .inr (.inr ⟨history, state, invoke, actions, List.prefix_rfl, hprev, hevicts⟩)
        · refine .inr (.inl ?_)
          rw [committed_concat, List.map_append]
          exact List.mem_append_left _ hcommitted
        · obtain ⟨before, earlier, invoke, actions, hprefix, hrest⟩ := hevicted
          exact .inr (.inr ⟨before, earlier, invoke, actions,
            hprefix.trans (List.prefix_append _ _), hrest⟩)
      · obtain rfl := List.mem_singleton.mp hlast
        cases select with
        | invoke invoke =>
            cases invoke with
            | none => cases hstep
            | some invoke =>
                obtain ⟨_, _, seqScratch, -, -, rfl, rfl⟩ := invoke_ok hstep
                obtain rfl : _ = number := by simpa [Happening.invokes] using hinvokes
                exact .inl (Std.ExtTreeMap.mem_insert_self)
        | message reply =>
            cases reply with
            | none => cases hstep
            | some reply =>
                have hactions := task.receive_actions state reply
                rw [show task.receive state reply = _ from hstep] at hactions
                rcases hactions with rfl | rfl <;> cases hinvokes
        | transportJoinNext => cases hstep

end Preservation

/-! ## The reply quorum -/

/-- A number is tracked from its invocation on until it is committed or evicted, and committed
by the first reply whose result more replicas than the faulty ones hold by then, unless another
result was expected. -/
structure CommitsAtQuorum (task : ClientTask Reply View) : Prop where
  once : ∀ history state, task.Run history state → ((committed history).map Prod.fst).Nodup
  invoked : ∀ history state, task.Run history state →
    ∀ number ∈ (committed history).map Prod.fst, ∃ happening ∈ history, happening.invokes number
  tracked : ∀ history state, task.Run history state → ∀ number,
    (∃ happening ∈ history, happening.invokes number) → number ∈ state.seqScratch ∨
      number ∈ (committed history).map Prod.fst ∨ task.Evicted history number
  commits_iff : ∀ history state, task.Run history state → ∀ select,
    .commit ∈ (task.step state select).1 ↔ ∃ reply, select = .message (some reply) ∧
      seq reply ∈ state.seqScratch ∧
      FirstAgreed task.numFaulty (repliesTo (seq reply) history) (replicaId reply, result reply) ∧
      Expects history (seq reply) (result reply)
  rejects_iff : ∀ history state, task.Run history state → ∀ reply,
    task.step state (.message (some reply)) = ([], .error .unexpectedResult) ↔
      seq reply ∈ state.seqScratch ∧
      FirstAgreed task.numFaulty (repliesTo (seq reply) history) (replicaId reply, result reply) ∧
      ¬Expects history (seq reply) (result reply)

section Quorum

variable {task : ClientTask Reply View} {history : List (ClientHappening Reply)}
  {state : ClientState View} {reply : Reply}

theorem Run.commit_mem_receive (hrun : task.Run history state) :
    .commit ∈ (task.receive state reply).1 ↔ seq reply ∈ state.seqScratch ∧
      FirstAgreed task.numFaulty (repliesTo (seq reply) history) (replicaId reply, result reply) ∧
      Expects history (seq reply) (result reply) := by
  rw [Std.ExtTreeMap.mem_iff_isSome_getElem?]
  cases hscratch : state.seqScratch[seq reply]? with
  | none => simp [receive, hscratch]
  | some scratch =>
      rcases (hrun.inv.tracks _ scratch hscratch).receive_cases hscratch with
        ⟨hfirst, hexpects, heq⟩ | ⟨hfirst, hexpects, heq⟩ | ⟨hfirst, heq⟩ | ⟨hfirst, -, heq⟩
      · simp [heq, hfirst, hexpects]
      · simp [heq, hexpects]
      · simp [heq, hfirst]
      · simp [heq, hfirst]

theorem Run.receive_eq_unexpected (hrun : task.Run history state) :
    task.receive state reply = ([], .error .unexpectedResult) ↔ seq reply ∈ state.seqScratch ∧
      FirstAgreed task.numFaulty (repliesTo (seq reply) history) (replicaId reply, result reply) ∧
      ¬Expects history (seq reply) (result reply) := by
  rw [Std.ExtTreeMap.mem_iff_isSome_getElem?]
  cases hscratch : state.seqScratch[seq reply]? with
  | none => simp [receive, hscratch]
  | some scratch =>
      rcases (hrun.inv.tracks _ scratch hscratch).receive_cases hscratch with
        ⟨hfirst, hexpects, heq⟩ | ⟨hfirst, hexpects, heq⟩ | ⟨hfirst, heq⟩ | ⟨hfirst, -, heq⟩
      · simp [heq, hexpects]
      · simp [heq, hfirst, hexpects]
      · simp [heq, hfirst]
      · simp [heq, hfirst]

theorem commits_at_quorum (task : ClientTask Reply View) : task.CommitsAtQuorum where
  once _ _ hrun := hrun.inv.nodup
  invoked _ _ hrun := hrun.inv.committed_invoked
  tracked _ _ hrun _ hinvoked := hrun.tracked hinvoked
  rejects_iff _ _ hrun _ := hrun.receive_eq_unexpected
  commits_iff history state hrun select := by
    cases select with
    | invoke invoke =>
        cases invoke with
        | none => simp [step]
        | some invoke => simpa [step] using commit_notMem_invoke invoke.1 invoke.2
    | message reply =>
        cases reply with
        | none => simp [step]
        | some reply => simpa [step] using hrun.commit_mem_receive
    | transportJoinNext => simp [step]

end Quorum

end ClientTask

end Transport

/-- `client_task_with_bootstrap`: sends to the primary. -/
def Pbft.clientTask (id : ClientId) (spec : Spec) (config : Transport.ClientConfig)
    (replicaEgresses : List Nat) : Transport.ClientTask Reply Nat where
  id := id
  numFaulty := spec.numFaulty
  config := config
  initialView := 0
  receivers viewNum :=
    if spec.numReplica = 0 then .error .divisionByZero
    else if spec.primary viewNum ∈ replicaEgresses then .ok [spec.primary viewNum]
    else .error .egress
  enter reply _ := reply.viewNum

/-- `ClientTask::run`: sends to every replica. -/
def Hotstuff.clientTask (id : ClientId) (spec : Spec) (config : Transport.ClientConfig)
    (replicaEgresses : List Nat) : Transport.ClientTask Reply Unit where
  id := id
  numFaulty := spec.numFaulty
  config := config
  initialView := ()
  receivers _ := .ok replicaEgresses
  enter _ view := view

open ToClient

/-- The client tasks commit at a quorum of replies, whatever they are invoked with and whatever
is replied under any ids. -/
theorem Transport.client_tasks_commit_at_quorum :
    (∀ id spec config replicaEgresses,
      (Pbft.clientTask id spec config replicaEgresses).CommitsAtQuorum) ∧
    ∀ id spec config replicaEgresses,
      (Hotstuff.clientTask id spec config replicaEgresses).CommitsAtQuorum :=
  ⟨fun _ _ _ _ => ClientTask.commits_at_quorum _, fun _ _ _ _ => ClientTask.commits_at_quorum _⟩

/-- Among four replicas the second reply with a result commits it, though another one is
replied in between, and though the next number has been committed before. -/
theorem Transport.client_tasks_commit_at_quorum_four :
    (∃ history state, (Pbft.clientTask 0 { numFaulty := 1, numReplica := 4 } .closeLoop
        [0, 1, 2, 3]).Run history state ∧ (ClientTask.repliesTo 1 history).length = 2 ∧
      FirstAgreed 1 (ClientTask.repliesTo 1 history) (2, [5])) ∧
    ∃ history state, (Hotstuff.clientTask 0 { numFaulty := 1, numReplica := 4 } (.openLoop 2)
        [0, 1, 2, 3]).Run history state ∧ (ClientTask.committed history).map Prod.fst = [2] ∧
      FirstAgreed 1 (ClientTask.repliesTo 1 history) (2, [5]) := by
  constructor
  · let task := Pbft.clientTask 0 { numFaulty := 1, numReplica := 4 } .closeLoop [0, 1, 2, 3]
    let selects : List (ClientSelect Pbft.Reply) := [.invoke (some ([], none)),
      .message (some ⟨1, 0, [5], 1⟩), .message (some ⟨1, 0, [6], 3⟩)]
    have hreplay : ∃ run ∈ replay task.step task.new selects,
        (ClientTask.repliesTo 1 run.1).length = 2 ∧
        .commit ∈ (task.step run.2 (.message (some ⟨1, 0, [5], 2⟩))).1 := by
      decide +kernel
    obtain ⟨⟨history, state⟩, hreplay, hlength, hcommit⟩ := hreplay
    have hrun : task.Run history state := replay_run (.start rfl) hreplay
    obtain ⟨reply, heq, -, hfirst, -⟩ :=
      ((client_tasks_commit_at_quorum.1 _ _ _ _).commits_iff history state hrun _).mp hcommit
    obtain rfl := Option.some.inj (ClientSelect.message.inj heq)
    exact ⟨history, state, hrun, hlength, hfirst⟩
  · let task := Hotstuff.clientTask 0 { numFaulty := 1, numReplica := 4 } (.openLoop 2) [0, 1, 2, 3]
    let selects : List (ClientSelect Hotstuff.Reply) := [.invoke (some ([], none)),
      .invoke (some ([], none)), .message (some ⟨2, [7], 1⟩), .message (some ⟨1, [5], 1⟩),
      .message (some ⟨2, [7], 3⟩), .message (some ⟨1, [6], 3⟩)]
    have hreplay : ∃ run ∈ replay task.step task.new selects,
        (ClientTask.committed run.1).map Prod.fst = [2] ∧
        .commit ∈ (task.step run.2 (.message (some ⟨1, [5], 2⟩))).1 := by
      decide +kernel
    obtain ⟨⟨history, state⟩, hreplay, hcommitted, hcommit⟩ := hreplay
    have hrun : task.Run history state := replay_run (.start rfl) hreplay
    obtain ⟨reply, heq, -, hfirst, -⟩ :=
      ((client_tasks_commit_at_quorum.2 _ _ _ _).commits_iff history state hrun _).mp hcommit
    obtain rfl := Option.some.inj (ClientSelect.message.inj heq)
    exact ⟨history, state, hrun, hcommitted, hfirst⟩

/-- A quorum for another result than the expected one ends the task instead. -/
theorem Transport.quorum_not_committed : ¬∀ id spec config replicaEgresses history state reply,
    (Pbft.clientTask id spec config replicaEgresses).Run history state →
      seq reply ∈ state.seqScratch →
      FirstAgreed spec.numFaulty (ClientTask.repliesTo (seq reply) history)
        (replicaId reply, result reply) →
      .commit ∈ ((Pbft.clientTask id spec config replicaEgresses).step state
        (.message (some reply))).1 := by
  intro hcommits
  let spec : Pbft.Spec := { numFaulty := 0, numReplica := 1 }
  let task := Pbft.clientTask 0 spec .closeLoop [0]
  let invoked : ClientHappening Pbft.Reply :=
    ⟨.invoke (some ([], some [])), [.write ⟨0, 1, []⟩ [0]]⟩
  let state : ClientState Nat := ⟨1, Std.ExtTreeMap.insert ∅ 1 ⟨∅, some []⟩, 0⟩
  have hstep : task.step task.new invoked.select = (invoked.actions, .ok state) := rfl
  have hrun : task.Run ([] ++ [invoked]) state := Foundation.Run.step (.start rfl) hstep
  have hreplies : ClientTask.repliesTo 1 ([] ++ [invoked]) = [] := rfl
  have hfirst : FirstAgreed 0 (ClientTask.repliesTo 1 ([] ++ [invoked])) (0, [1]) := by
    rw [hreplies]
    exact ⟨Undecided.nil, by decide⟩
  have hcommit := hcommits 0 spec .closeLoop [0] _ state ⟨1, 0, [1], 0⟩ hrun
    (Std.ExtTreeMap.mem_insert_self) hfirst
  revert hcommit
  decide +kernel

end BftKit
