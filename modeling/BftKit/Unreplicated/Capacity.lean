import BftKit.Unreplicated.Blocking
import BftKit.Unreplicated.Progress

/-! # Progress with bounded channels

A client in a closed loop has one command on its way at most, so the commands between the tasks
of the server are no more than there are clients. With too few of them to fill both channels and
leave one for each task to wait with, the tasks never wait for each other.
-/

namespace BftKit.Unreplicated

open Foundation Transport Workload

/-- The system, whose server has channels that can be full. -/
structure BoundedSystem where
  loop : ConcurrentClients ClientState
  server : BoundedServer Unit Reply Command
  uplinks : ClientId → List Command
  downlinks : ClientId → List Reply

inductive BoundedSystemLabel where
  | act (label : SystemLabel)
  | forward
  | finalize

namespace BoundedSystem

/-- What the system would be if the channels of its server took everything. -/
def unbounded (system : BoundedSystem) : System :=
  ⟨system.loop, system.server.unbounded, system.uplinks, system.downlinks⟩

def act? : BoundedSystemLabel → Option SystemLabel
  | .act label => some label
  | .forward | .finalize => none

/-- What happens, apart from the waiting. -/
def acts (history : List BoundedSystemLabel) : List SystemLabel := history.filterMap act?

/-- The steps of the system, with those of the server as its channels allow them. -/
inductive Step (capacities : Capacities) (ids : Finset ClientId) (system : BoundedSystem) :
    BoundedSystemLabel → BoundedSystem → Prop
  | loop {label next} (hstep : Workload.Step (closeLoop [0]) system.loop label next)
      (hlocal : ∀ id select, label ≠ .select id select) :
      Step capacities ids system (.act (.loop label)) { system with loop := next }
  | invoke {id invoke next}
      (hstep : Workload.Step (closeLoop [0]) system.loop (.select id (.invoke invoke)) next) :
      Step capacities ids system (.act (.client id (.invoke invoke))) { system with
        loop := next
        uplinks := Function.update system.uplinks id
          (system.uplinks id ++ system.unbounded.written id (.invoke invoke)) }
  | reply {id reply rest next}
      (hstep : Workload.Step (closeLoop [0]) system.loop (.select id (.message (some reply))) next)
      (hreply : system.downlinks id = reply :: rest) :
      Step capacities ids system (.act (.client id (.message (some reply)))) { system with
        loop := next
        downlinks := Function.update system.downlinks id rest }
  | order {command next} (hstep : BoundedServer.Step replicaTasks capacities 0 [] system.server
      (.act (.replica command)) next) :
      Step capacities ids system (.act (.server (.replica command))) { system with server := next }
  | accept {id task actions next} (htask : system.server.task = .ok task) (hid : id ∈ ids)
      (hnew : id ∉ task.writeSenders)
      (hstep : BoundedServer.Step replicaTasks capacities 0 [] system.server
        (.act (.service ⟨.accept (some id), actions⟩)) next) :
      Step capacities ids system (.act (.server (.service ⟨.accept (some id), actions⟩)))
        { system with server := next }
  | request {command task actions rest next} (htask : system.server.task = .ok task)
      (hconnected : command.clientId ∈ task.writeSenders)
      (huplink : system.uplinks command.clientId = command :: rest)
      (hstep : BoundedServer.Step replicaTasks capacities 0 [] system.server
        (.act (.service ⟨.message (some command), actions⟩)) next) :
      Step capacities ids system (.act (.server (.service ⟨.message (some command), actions⟩)))
        { system with
          server := next
          uplinks := Function.update system.uplinks command.clientId rest
          downlinks := fun id => system.downlinks id ++ actions.filterMap (replyTo? id) }
  | finalized {command actions next}
      (hstep : BoundedServer.Step replicaTasks capacities 0 [] system.server
        (.act (.service ⟨.finalized (some command), actions⟩)) next) :
      Step capacities ids system (.act (.server (.service ⟨.finalized (some command), actions⟩)))
        { system with
          server := next
          downlinks := fun id => system.downlinks id ++ actions.filterMap (replyTo? id) }
  | forward {next}
      (hstep : BoundedServer.Step replicaTasks capacities 0 [] system.server .forward next) :
      Step capacities ids system .forward { system with server := next }
  | finalize {next}
      (hstep : BoundedServer.Step replicaTasks capacities 0 [] system.server .finalize next) :
      Step capacities ids system .finalize { system with server := next }

def new (ids : Finset ClientId) : BoundedSystem where
  loop := Workload.new (closeLoop [0]) ids
  server := ⟨⟨(), [], [], .ok (Service.new 0)⟩, [], []⟩
  uplinks _ := []
  downlinks _ := []

/-- The runs of the system with the given clients. -/
abbrev BoundedSystemRun (capacities : Capacities) (ids : Finset ClientId) :
    List BoundedSystemLabel → BoundedSystem → Prop :=
  Run (· = new ids) fun _ => Step capacities ids

variable {capacities : Capacities} {ids : Finset ClientId} {system next : BoundedSystem}
  {label : BoundedSystemLabel} {history : List BoundedSystemLabel} {task : ServiceTask Reply}
  {id : ClientId}

/-! ## Without the bounds -/

theorem server_act {server after : BoundedServer Unit Reply Command}
    {label : ServerLabel Command Reply Command}
    (hstep : BoundedServer.Step replicaTasks capacities 0 [] server (.act label) after) :
    Server.Step replicaTasks 0 [] server.unbounded label after.unbounded := by
  rcases hstep.unbounded with ⟨action, hact, hstep'⟩ | ⟨hact, -⟩
  · obtain rfl := Option.some.inj hact
    exact hstep'
  · cases hact

theorem server_wait {server after : BoundedServer Unit Reply Command}
    {label : BoundedLabel Command Reply Command} (hwait : label.act? = none)
    (hstep : BoundedServer.Step replicaTasks capacities 0 [] server label after) :
    after.unbounded = server.unbounded := by
  rcases hstep.unbounded with ⟨action, hact, -⟩ | ⟨-, hsame⟩
  · cases hwait.symm.trans hact
  · exact hsame

theorem Step.unbounded (hstep : Step capacities ids system label next) :
    (∃ action, act? label = some action ∧
      SystemStep ids system.unbounded action next.unbounded) ∨
    act? label = none ∧ next.unbounded = system.unbounded := by
  cases hstep with
  | loop hstep hlocal => exact .inl ⟨_, rfl, .loop hstep hlocal⟩
  | invoke hstep => exact .inl ⟨_, rfl, .invoke hstep⟩
  | reply hstep hreply => exact .inl ⟨_, rfl, .reply hstep hreply⟩
  | order hstep => exact .inl ⟨_, rfl, .order (server_act hstep)⟩
  | accept htask hid hnew hstep => exact .inl ⟨_, rfl, .accept htask hid hnew (server_act hstep)⟩
  | request htask hconnected huplink hstep =>
      exact .inl ⟨_, rfl, .request htask hconnected huplink (server_act hstep)⟩
  | finalized hstep => exact .inl ⟨_, rfl, .finalized (server_act hstep)⟩
  | forward hstep | finalize hstep =>
      refine .inr ⟨rfl, ?_⟩
      simp only [BoundedSystem.unbounded, server_wait rfl hstep]

theorem BoundedSystemRun.unbounded (hrun : BoundedSystemRun capacities ids history system) :
    SystemRun ids (acts history) system.unbounded := by
  refine @Run.refine _ _ _ _ _ _ _ _ BoundedSystem.unbounded act? ?_ ?_ _ _ hrun
  · rintro _ rfl
    rfl
  · intro _ _ _ _ hstep
    exact hstep.unbounded

/-! ## Waiting ends -/

/-- What the tasks of the server wait with. -/
def waiting (server : BoundedServer Unit Reply Command) : Nat :=
  server.forwarding.length + server.finalizing.length

theorem waiting_step {server after : BoundedServer Unit Reply Command}
    {label : BoundedLabel Command Reply Command}
    (hstep : BoundedServer.Step replicaTasks capacities 0 [] server label after) :
    waiting after + 1 ≤ waiting server + 2 * label.act?.toList.length := by
  cases hstep with
  | replica hsent =>
      simp only [waiting, hsent, replicaTasks, BoundedLabel.act?, Option.toList_some,
        List.length_singleton, List.length_nil]
      omega
  | @service select rest task hsent htask hfinalized =>
      have hforwards := service.step_forwards task select
      have hle : select.message?.toList.length ≤ 1 := Option.length_toList_le
      simp only [waiting, hsent, BoundedLabel.act?, Option.toList_some, List.length_singleton,
        List.length_nil]
      omega
  | forward hforwarding =>
      simp only [waiting, hforwarding, BoundedLabel.act?, Option.toList_none, List.length_cons,
        List.length_nil]
      omega
  | finalize hfinalizing =>
      simp only [waiting, hfinalizing, BoundedLabel.act?, Option.toList_none, List.length_cons,
        List.length_nil]
      omega

/-- Each time that a task has to wait something has happened before. -/
theorem Step.waiting (hstep : Step capacities ids system label next) :
    waiting next.server + 1 ≤
      waiting system.server + 2 * (act? label).toList.length := by
  cases hstep with
  | loop | invoke | reply => exact Nat.add_le_add_left (Nat.le_succ 1) _
  | order hstep | accept _ _ _ hstep | request _ _ _ hstep | finalized hstep | forward hstep
  | finalize hstep => exact waiting_step hstep

theorem BoundedSystemRun.length_le (hrun : BoundedSystemRun capacities ids history system) :
    history.length + BoundedSystem.waiting system.server ≤ 2 * (acts history).length := by
  induction hrun with
  | start hinit =>
      subst hinit
      exact le_rfl
  | @step history system label next _ hstep ih =>
      have hnext := hstep.waiting
      have hacts : acts (history ++ [label]) = acts history ++ (act? label).toList := by
        rw [acts, List.filterMap_append]
        cases label <;> rfl
      rw [hacts, List.length_append, List.length_append, List.length_singleton]
      omega

/-! ## The commands on their way -/

theorem asked_length_le {system : System} (h : Serves ids system task) (id : ClientId) :
    (system.asked id).length ≤ 1 := by
  by_cases hid : id ∈ ids
  · obtain ⟨client, -, htrace⟩ := h.traces id hid
    cases htrace with
    | rest hasked | asked hasked | answered hasked => simp [hasked]
  · simp [h.strangers id hid]

/-- There are no more commands between the tasks of the server than there are clients. -/
theorem commands_le {system : System} (h : Serves ids system task) :
    system.server.requests.length + system.server.finalized.length ≤ ids.card := by
  let clients := (system.server.requests ++ system.server.finalized).map Command.clientId
  have hcount : ∀ id, clients.count id ≤ (system.asked id).length := by
    intro id
    have hfilter : clients.count id =
        ((system.server.requests ++ system.server.finalized).filter (·.clientId = id)).length := by
      rw [List.count_eq_countP, List.countP_map, List.countP_eq_length_filter]
      rfl
    rw [hfilter, System.asked, ← List.filter_append]
    exact (List.length_append ▸ Nat.le_add_left _ _)
  have hnodup : clients.Nodup :=
    List.nodup_iff_count_le_one.mpr fun id => (hcount id).trans (asked_length_le h id)
  have hsubset : clients.toFinset ⊆ ids := by
    intro id hid
    have hpos := List.count_pos_iff.mpr (List.mem_toFinset.mp hid)
    exact h.mem_of_asked (List.ne_nil_of_length_pos (hpos.trans_le (hcount id)))
  have hcard := Finset.card_le_card hsubset
  rw [List.toFinset_card_of_nodup hnodup, List.length_map, List.length_append] at hcard
  exact hcard

theorem load_eq (server : BoundedServer Unit Reply Command) :
    load server = server.unbounded.requests.length + server.unbounded.finalized.length := by
  simp only [load, BoundedServer.unbounded, List.length_append]
  omega

/-! ## There is a step to take -/

/-- Without anything to wait with the system does what it would do without the bounds. -/
theorem exists_step_of_idle {label : SystemLabel} {after : System}
    (hforwarding : system.server.forwarding = []) (hfinalizing : system.server.finalizing = [])
    (hstep : SystemStep ids system.unbounded label after) :
    ∃ next, Step capacities ids system (.act label) next ∧
      next.loop.sending = after.loop.sending := by
  have hrequests : system.unbounded.server.requests = system.server.requests :=
    (congrArg (system.server.requests ++ ·) hforwarding).trans (List.append_nil _)
  have hfinalized : system.unbounded.server.finalized = system.server.finalized :=
    (congrArg (system.server.finalized ++ ·) hfinalizing).trans (List.append_nil _)
  have hservice : ∀ {select actions} {server : Server Unit Reply Command},
      Server.Step replicaTasks 0 [] system.unbounded.server (.service ⟨select, actions⟩) server →
      ∃ server', BoundedServer.Step replicaTasks capacities 0 [] system.server
        (.act (.service ⟨select, actions⟩)) server' := by
    intro select actions server hstep
    cases hstep with
    | service htask htaken =>
        rw [hfinalized] at htaken
        exact ⟨_, .service hforwarding htask htaken⟩
  cases hstep with
  | loop hstep hlocal => exact ⟨_, .loop hstep hlocal, rfl⟩
  | invoke hstep => exact ⟨_, .invoke hstep, rfl⟩
  | reply hstep hreply => exact ⟨_, .reply hstep hreply, rfl⟩
  | order hstep =>
      cases hstep with
      | replica hstep htaken =>
          rw [hrequests] at htaken
          exact ⟨_, .order (.replica hfinalizing hstep htaken), rfl⟩
  | accept htask hid hnew hstep =>
      obtain ⟨_, hstep'⟩ := hservice hstep
      exact ⟨_, .accept htask hid hnew hstep', rfl⟩
  | request htask hconnected huplink hstep =>
      obtain ⟨_, hstep'⟩ := hservice hstep
      exact ⟨_, .request htask hconnected huplink hstep', rfl⟩
  | finalized hstep =>
      obtain ⟨_, hstep'⟩ := hservice hstep
      exact ⟨_, .finalized hstep', rfl⟩

/-- A task that waits is let go on, at the latest when the other one has made room. -/
theorem exists_step_of_waiting (htask : system.server.task = .ok task)
    (hload : load system.server < capacities.requests + capacities.finalized + 2)
    (hwaiting : system.server.forwarding = [] → system.server.finalizing ≠ []) :
    ∃ label next, Step capacities ids system label next ∧
      next.loop.sending = system.loop.sending := by
  by_cases hforwarding : system.server.forwarding = []
  · obtain ⟨command, rest, heq⟩ := List.exists_cons_of_ne_nil (hwaiting hforwarding)
    by_cases hroom : system.server.finalized.length < capacities.finalized
    · exact ⟨_, _, .finalize (.finalize heq hroom), rfl⟩
    · have hpos := capacities.finalized_pos.trans_le (not_lt.mp hroom)
      obtain ⟨finalized, others, hfinalized⟩ := List.exists_cons_of_length_pos hpos
      exact ⟨_, _, .finalized (.service hforwarding htask hfinalized), rfl⟩
  · obtain ⟨command, rest, heq⟩ := List.exists_cons_of_ne_nil hforwarding
    by_cases hroom : system.server.requests.length < capacities.requests
    · exact ⟨_, _, .forward (.forward heq hroom), rfl⟩
    by_cases hfinalizing : system.server.finalizing = []
    · have hpos := capacities.requests_pos.trans_le (not_lt.mp hroom)
      obtain ⟨request, others, hrequests⟩ := List.exists_cons_of_length_pos hpos
      have hreplica := @BoundedServer.Step.replica _ _ _ _ _ replicaTasks capacities 0 []
        system.server request () others hfinalizing trivial hrequests
      exact ⟨_, _, .order hreplica, rfl⟩
    by_cases hroom' : system.server.finalized.length < capacities.finalized
    · obtain ⟨finalized, others, hfinalized⟩ := List.exists_cons_of_ne_nil hfinalizing
      exact ⟨_, _, .finalize (.finalize hfinalized hroom'), rfl⟩
    -- both would wait, which takes more commands than there are
    have hone := List.length_pos_iff.mpr hforwarding
    have hother := List.length_pos_iff.mpr hfinalizing
    unfold load at hload
    omega

/-- Until the deadline the system does not stop as long as it has a client, and it does not go
on without commits, if it has too few clients for the tasks of the server to wait for each
other. In the code the channels hold a thousand commands each. -/
theorem bounded_progress (hcard : ids.card < capacities.requests + capacities.finalized + 2)
    (hrun : BoundedSystemRun capacities ids history system)
    (hsending : system.loop.sending = true) :
    history.length ≤ 14 * (commits (acts history)).length + 26 * ids.card ∧
      ∀ id ∈ ids, ¬(system.loop.clients id).IsEnded →
        ∃ label next, Step capacities ids system label next ∧ next.loop.sending = true := by
  obtain ⟨hacts, hmoves⟩ := progress hrun.unbounded hsending
  constructor
  · have hlength := hrun.length_le
    omega
  · intro id hid hnot
    obtain ⟨task, hserves, -⟩ := SystemRun.account hrun.unbounded
    by_cases hidle : system.server.forwarding = [] ∧ system.server.finalizing = []
    · obtain ⟨label, after, hstep, hafter⟩ := hmoves id hid hnot
      obtain ⟨next, hnext, hsame⟩ := exists_step_of_idle hidle.1 hidle.2 hstep
      exact ⟨_, next, hnext, hsame.trans hafter⟩
    · have hload : load system.server < capacities.requests + capacities.finalized + 2 := by
        rw [load_eq]
        exact (commands_le hserves).trans_lt hcard
      obtain ⟨label, next, hnext, hsame⟩ := exists_step_of_waiting hserves.task_eq hload
        fun hforwarding hfinalizing => hidle ⟨hforwarding, hfinalizing⟩
      exact ⟨label, next, hnext, hsame.trans hsending⟩

/-- With channels of the code's size one client goes on after its second command has been
executed, each command having waited in both tasks. -/
theorem bounded_progress_twice : ∃ history system,
    BoundedSystemRun ⟨1000, 1000, by decide, by decide⟩ {0} history system ∧
    executedFor 0 (acts history) = [1, 2] ∧
    (history.filter fun label => (act? label).isNone).length = 4 ∧
    history.length ≤ 14 * (commits (acts history)).length + 26 ∧
    ∃ label next, Step ⟨1000, 1000, by decide, by decide⟩ {0} system label next ∧
      next.loop.sending = true := by
  let capacities : Capacities := ⟨1000, 1000, by decide, by decide⟩
  have first := Run.step (.start rfl : BoundedSystemRun capacities {0} [] _)
    (.loop (.first (Finset.mem_singleton_self 0)) (by simp))
  have invoked := Run.step first
    (.invoke (.select rfl (⟨rfl, by simp⟩ : Selects _ 0 (.invoke (some ping)) []) rfl))
  have accepted := Run.step invoked (.accept rfl (Finset.mem_singleton_self 0)
    (Finset.notMem_empty 0) (.service rfl rfl rfl))
  have requested := Run.step accepted
    (.request rfl (Finset.mem_insert_self 0 ∅) (by decide : _ = (⟨0, 1, []⟩ : Command) :: [])
      (.service rfl rfl rfl))
  have forwarded := Run.step requested (.forward (.forward rfl (Nat.zero_lt_succ _)))
  have ordered := Run.step forwarded
    (.order (@BoundedServer.Step.replica _ _ _ _ _ replicaTasks _ 0 [] _ _ () _ rfl trivial rfl))
  have delivered := Run.step ordered (.finalize (.finalize rfl (Nat.zero_lt_succ _)))
  have finalized := Run.step delivered (.finalized (.service rfl rfl rfl))
  have replied := Run.step finalized (@Step.reply _ _ _ 0 ⟨1, []⟩ [] _
    (.select rfl (⟨rfl, by simp⟩ : Selects _ 0 (.message (some (⟨1, []⟩ : Reply))) []) rfl)
    (by decide))
  have committed := Run.step replied
    (.loop (.commit ((Function.update_self _ _ _).trans (if_pos (by decide)))
      (Nat.zero_lt_succ _)) (by simp))
  have again := Run.step committed (.loop (.again rfl (by decide) rfl) (by simp))
  have reinvoked := Run.step again
    (.invoke (.select rfl (⟨rfl, by simp⟩ : Selects _ 0 (.invoke (some ping)) []) rfl))
  have rerequested := Run.step reinvoked
    (.request rfl (Finset.mem_insert_self 0 ∅) (by decide : _ = (⟨0, 2, []⟩ : Command) :: [])
      (.service rfl rfl rfl))
  have reforwarded := Run.step rerequested (.forward (.forward rfl (Nat.zero_lt_succ _)))
  have reordered := Run.step reforwarded
    (.order (@BoundedServer.Step.replica _ _ _ _ _ replicaTasks _ 0 [] _ _ () _ rfl trivial rfl))
  have redelivered := Run.step reordered (.finalize (.finalize rfl (Nat.zero_lt_succ _)))
  have refinalized := Run.step redelivered (.finalized (.service rfl rfl rfl))
  obtain ⟨hlength, hmoves⟩ := bounded_progress (by decide) refinalized rfl
  exact ⟨_, _, refinalized, rfl, rfl, hlength,
    hmoves 0 (Finset.mem_singleton_self 0) (by decide +kernel)⟩

end BoundedSystem

end BftKit.Unreplicated
