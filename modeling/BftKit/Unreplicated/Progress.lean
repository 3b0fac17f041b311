import Mathlib.Algebra.BigOperators.Group.Finset.Basic
import Mathlib.Algebra.Order.BigOperators.Group.Finset
import BftKit.Unreplicated.Ledger

/-! # Progress of the unreplicated system

Until the deadline there is always a step to take, and the steps add up to commits.
-/

namespace BftKit.Unreplicated

open Foundation Transport Workload

/-- Those that the service is connected to. -/
def connected (server : Server Unit Reply Command) : Finset ClientId :=
  match server.task with
  | .ok task => task.writeSenders
  | .error _ => ∅

def standing : Status ClientState → Nat
  | .running _ => 0
  | .committing _ | .ended _ => 6

/-- How far a client has come since it committed. -/
def System.stage (system : System) (id : ClientId) : Nat :=
  (system.loop.invokes id).length + 2 * (system.uplinks id).length +
    3 * (system.server.requests.filter (·.clientId = id)).length +
    4 * (system.server.finalized.filter (·.clientId = id)).length +
    5 * (system.downlinks id).length + standing (system.loop.clients id) +
    if id ∈ connected system.server then 1 else 0

variable {ids : Finset ClientId} {system next : System} {label : SystemLabel}
  {history : List SystemLabel} {task task' : ServiceTask Reply} {id : ClientId}

/-- One client gets ahead, and the others do not fall back. -/
structure Advances (ids : Finset ClientId) (system next : System) (label : SystemLabel)
    (id : ClientId) : Prop where
  mem : id ∈ ids
  others : ∀ other, other ≠ id → next.stage other = system.stage other
  ahead : system.stage id < next.stage id + 7 * label.committed?.toList.length

theorem Advances.sum (h : Advances ids system next label id) :
    ids.sum system.stage < ids.sum next.stage + 7 * label.committed?.toList.length := by
  have hothers : (ids.erase id).sum next.stage = (ids.erase id).sum system.stage :=
    Finset.sum_congr rfl fun other hother => h.others other (Finset.ne_of_mem_erase hother)
  have hbefore : system.stage id + (ids.erase id).sum system.stage = ids.sum system.stage :=
    Finset.add_sum_erase ids system.stage h.mem
  have hafter : next.stage id + (ids.erase id).sum next.stage = ids.sum next.stage :=
    Finset.add_sum_erase ids next.stage h.mem
  have hahead := h.ahead
  omega

theorem sending_of_step (hstep : SystemStep ids system label next)
    (hsending : next.loop.sending = true) : system.loop.sending = true := by
  have hloop : ∀ {label : Workload.Label Reply} {loop next : ConcurrentClients ClientState},
      Step (closeLoop [0]) loop label next → next.sending = true → loop.sending = true := by
    intro label loop next hstep hsending
    cases hstep with
    | first | select | stop | commit | again => exact hsending
    | deadline => cases hsending
  cases hstep with
  | loop hstep | invoke hstep | reply hstep => exact hloop hstep hsending
  | order | accept | request | finalized => exact hsending

/-! ## Every step is one ahead -/

theorem server_eq_of_step {select : ServiceSelect Command} {actions : List (ServiceAction Reply)}
    {server after : Server Unit Reply Command} (hstep : Server.Step replicaTasks 0 [] server
      (.service ⟨select, actions⟩) after) :
    ∃ rest, server.finalized = select.finalized?.toList ++ rest ∧ after.finalized = rest ∧
      after.requests = server.requests ++ actions.filterMap ServiceAction.forwarded? := by
  cases hstep with
  | service htask hfinalized => exact ⟨_, hfinalized, rfl, rfl⟩

theorem Serves.connected_eq (h : Serves ids system task) :
    Unreplicated.connected system.server = task.writeSenders := by
  rw [Unreplicated.connected, h.task_eq]

section Advances

variable {actions : List (ServiceAction Reply)} {command : Command}
  {loop : ConcurrentClients ClientState} {server : Server Unit Reply Command}

theorem Serves.advances_loop (h : Serves ids system task) {label : Workload.Label Reply}
    (hstep : Step (closeLoop [0]) system.loop label loop)
    (hlocal : ∀ id select, label ≠ .select id select) (hsending : loop.sending = true) :
    ∃ id, Advances ids system { system with loop := loop } (.loop label) id := by
  cases hstep with
  | @first who hunsent =>
      refine ⟨who, h.circulates.mem_of_mem_unsent hunsent, ?_, ?_⟩
      · intro other hne
        simp [System.stage, hne]
      · simp [System.stage]
        omega
  | @again who rest _ _ hcommits =>
      have hmem : who ∈ system.loop.commits := by
        rw [hcommits]
        exact List.mem_cons_self
      refine ⟨who, h.circulates.mem_of_mem_commits hmem, ?_, ?_⟩
      · intro other hne
        simp [System.stage, hne]
      · simp [System.stage]
        omega
  | @commit who client hclient hroom =>
      refine ⟨who, ?_, ?_, ?_⟩
      · by_contra hid
        have hended := h.outside who hid
        rw [hclient] at hended
        exact hended
      · intro other hne
        simp [System.stage, hne]
      · simp [System.stage, hclient, standing, SystemLabel.committed?]
        omega
  | deadline => cases hsending
  | select | stop => exact absurd rfl (hlocal _ _)

/-- A client writes its command, or ends. -/
theorem Serves.advances_invoke (h : Serves ids system task) {invoke : Option Invoke}
    (hstep : Step (closeLoop [0]) system.loop (.select id (.invoke invoke)) loop)
    (hsending : loop.sending = true) :
    Advances ids system { system with
      loop := loop
      uplinks := Function.update system.uplinks id
        (system.uplinks id ++ system.written id (.invoke invoke)) }
      (.client id (.invoke invoke)) id := by
  obtain ⟨client, rest, status, hclient, hselects, rfl, hcases⟩ := h.invoked hstep
  have hlength := congrArg List.length hselects.invoked
  rw [List.length_append] at hlength
  refine ⟨h.mem_of_running hclient, ?_, ?_⟩
  · intro other hne
    simp [System.stage, hne]
  · cases invoke with
    | none => cases (hselects.closed rfl).1.symm.trans hsending
    | some invoke =>
        have hone : (ClientSelect.invoke (some invoke) : ClientSelect Reply).invoked?.toList.length =
            1 := rfl
        rcases hcases with ⟨hwritten, rfl | rfl⟩ | ⟨number, -, -, hwritten, rfl⟩ <;>
          simp [System.stage, hclient, hwritten, standing] <;> omega

/-- A client takes the reply that it has waited for, and is to commit it. -/
theorem Serves.advances_reply (h : Serves ids system task) {reply : Reply} {rest : List Reply}
    (hstep : Step (closeLoop [0]) system.loop (.select id (.message (some reply))) loop)
    (hreply : system.downlinks id = reply :: rest) :
    Advances ids system { system with
      loop := loop
      downlinks := Function.update system.downlinks id rest }
      (.client id (.message (some reply))) id := by
  obtain ⟨⟨client', hclient'⟩, -⟩ := h.reply hstep hreply
  obtain ⟨client, rest', status, hclient, hselects, -, rfl⟩ := hstep.selected
  have hinvokes : system.loop.invokes id = rest' := hselects.invoked
  simp only [Function.update_self] at hclient'
  subst hclient'
  refine ⟨h.mem_of_running hclient, ?_, ?_⟩
  · intro other hne
    simp [System.stage, hne]
  · simp [System.stage, hclient, standing, hreply, hinvokes]
    omega

/-- The replica turns a request into a finalized command. -/
theorem Serves.advances_order (h : Serves ids system task)
    (hstep : Server.Step replicaTasks 0 [] system.server (.replica command) server) :
    Advances ids system { system with server := server } (.server (.replica command))
      command.clientId := by
  have hconnected := (h.order hstep).connected_eq.trans h.connected_eq.symm
  cases hstep with
  | @replica _ _ rest _ hrequests =>
      replace hrequests : system.server.requests = command :: rest := hrequests
      have hmem : command ∈ system.asked command.clientId := by
        rw [System.asked, hrequests, List.filter_cons_of_pos (by simp)]
        simp
      refine ⟨h.mem_of_asked (List.ne_nil_of_mem hmem), ?_, ?_⟩
      · intro other hne
        have hclient : ¬command.clientId = other := Ne.symm hne
        simp only [System.stage, hconnected]
        simp [hrequests, replicaTasks, hclient]
      · simp only [System.stage, hconnected]
        simp [hrequests, replicaTasks]
        omega

theorem Serves.advances_accept (h : Serves ids system task) (hid : id ∈ ids)
    (hnew : id ∉ task.writeSenders) (hstep : Server.Step replicaTasks 0 [] system.server
      (.service ⟨.accept (some id), actions⟩) server) :
    Advances ids system { system with server := server }
      (.server (.service ⟨.accept (some id), actions⟩)) id := by
  obtain ⟨hnext, rfl⟩ := h.accept hid hnew hstep
  have hbefore := h.connected_eq
  have hafter : Unreplicated.connected server = insert id task.writeSenders := hnext.connected_eq
  obtain ⟨rest, hfinalized, hrest, hrequests⟩ := server_eq_of_step hstep
  replace hfinalized : system.server.finalized = rest := hfinalized
  refine ⟨hid, ?_, ?_⟩
  · intro other hne
    simp only [System.stage, hbefore, hafter]
    simp [hrequests, hrest, hfinalized, hne]
  · simp only [System.stage, hbefore, hafter]
    simp [hrequests, hrest, hfinalized, hnew]
    omega

/-- The service passes a command on. -/
theorem Serves.advances_request (h : Serves ids system task) {rest : List Command}
    (hconnected : command.clientId ∈ task.writeSenders)
    (huplink : system.uplinks command.clientId = command :: rest)
    (hstep : Server.Step replicaTasks 0 [] system.server
      (.service ⟨.message (some command), actions⟩) server) :
    Advances ids system { system with
      server := server
      uplinks := Function.update system.uplinks command.clientId rest
      downlinks := fun id => system.downlinks id ++ actions.filterMap (replyTo? id) }
      (.server (.service ⟨.message (some command), actions⟩)) command.clientId := by
  obtain ⟨rfl, hnext⟩ := h.request hconnected huplink hstep
  have hsame := hnext.connected_eq.trans h.connected_eq.symm
  obtain ⟨rest', hfinalized, hrest, hrequests⟩ := server_eq_of_step hstep
  replace hfinalized : system.server.finalized = rest' := hfinalized
  have hmem := mem_asked_of_uplink huplink
  refine ⟨h.mem_of_asked (List.ne_nil_of_mem hmem), ?_, ?_⟩
  · intro other hne
    have hclient : ¬command.clientId = other := Ne.symm hne
    simp only [System.stage, hsame]
    simp [hrequests, hrest, hfinalized, hne, hclient, ServiceAction.forwarded?, replyTo?]
  · simp only [System.stage, hsame]
    simp [hrequests, hrest, hfinalized, huplink, ServiceAction.forwarded?, replyTo?]
    omega

/-- The service executes a command and replies to it. -/
theorem Serves.advances_finalized (h : Serves ids system task)
    (hstep : Server.Step replicaTasks 0 [] system.server
      (.service ⟨.finalized (some command), actions⟩) server) :
    Advances ids system { system with
      server := server
      downlinks := fun id => system.downlinks id ++ actions.filterMap (replyTo? id) }
      (.server (.service ⟨.finalized (some command), actions⟩)) command.clientId := by
  obtain ⟨rfl, hnext⟩ := h.finalized hstep
  have hsame := hnext.connected_eq.trans h.connected_eq.symm
  obtain ⟨rest, hfinalized, hrest, hrequests⟩ := server_eq_of_step hstep
  replace hfinalized : system.server.finalized = command :: rest := hfinalized
  have hmem := mem_asked_of_finalized hfinalized
  refine ⟨h.mem_of_asked (List.ne_nil_of_mem hmem), ?_, ?_⟩
  · intro other hne
    have hclient : ¬command.clientId = other := Ne.symm hne
    simp only [System.stage, hsame]
    simp [hrequests, hrest, hfinalized, hclient, ServiceAction.forwarded?, replyTo?,
      List.filterMap_cons]
  · simp only [System.stage, hsame]
    simp [hrequests, hrest, hfinalized, ServiceAction.forwarded?, replyTo?, List.filterMap_cons]
    omega

theorem Serves.advances (h : Serves ids system task) (hstep : SystemStep ids system label next)
    (hsending : next.loop.sending = true) : ∃ id, Advances ids system next label id := by
  cases hstep with
  | loop hstep hlocal => exact h.advances_loop hstep hlocal hsending
  | invoke hstep => exact ⟨_, h.advances_invoke hstep hsending⟩
  | reply hstep hreply => exact ⟨_, h.advances_reply hstep hreply⟩
  | order hstep => exact ⟨_, h.advances_order hstep⟩
  | accept htask hid hnew hstep =>
      obtain rfl := Except.ok.inj (h.task_eq.symm.trans htask)
      exact ⟨_, h.advances_accept hid hnew hstep⟩
  | request htask hconnected huplink hstep =>
      obtain rfl := Except.ok.inj (h.task_eq.symm.trans htask)
      exact ⟨_, h.advances_request hconnected huplink hstep⟩
  | finalized hstep => exact ⟨_, h.advances_finalized hstep⟩

end Advances

theorem Serves.stage_le (h : Serves ids system task) (hid : id ∈ ids) : system.stage id ≤ 13 := by
  obtain ⟨client, -, htrace⟩ := h.traces id hid
  have hinvokes := h.circulates.invokes_le id
  have hstanding : standing (system.loop.clients id) ≤ 6 := by
    cases system.loop.clients id <;> simp [standing]
  have hconnected : (if id ∈ Unreplicated.connected system.server then 1 else 0) ≤ 1 := by
    split <;> omega
  have hasked : (system.asked id).length + (system.downlinks id).length ≤ 1 := by
    cases htrace with
    | rest hasked hdown | asked hasked hdown | answered hasked hdown => simp [hasked, hdown]
  rw [System.asked, List.length_append, List.length_append] at hasked
  rw [System.stage]
  omega

theorem SystemRun.length_le (hrun : SystemRun ids history system) (hsending :
    system.loop.sending = true) :
    history.length ≤ ids.sum system.stage + 7 * (commits history).length := by
  induction hrun with
  | start => exact Nat.zero_le _
  | @step history system label next hprev hstep ih =>
      obtain ⟨task, hserves, -⟩ := SystemRun.account hprev
      have hprevious := ih (sending_of_step hstep hsending)
      obtain ⟨id, hadvances⟩ := hserves.advances hstep hsending
      have hsum := hadvances.sum
      rw [commits_concat, List.length_append, List.length_append, List.length_singleton]
      omega

/-! ## There is a step to take -/

/-- The step that a client takes. -/
theorem exists_select {loop : ConcurrentClients ClientState} {client : ClientState}
    {select : ClientSelect Reply} {rest : List Invoke} (hclient : loop.clients id = .running client)
    (hselects : Selects loop id select rest) :
    ∃ next, Step (closeLoop [0]) loop (.select id select) next ∧ next.sending = loop.sending := by
  cases hresult : (closeLoop [0]).step id client select with
  | mk actions result =>
      cases result with
      | ok after => exact ⟨_, .select hclient hselects hresult, rfl⟩
      | error stop => exact ⟨_, .stop hclient hselects hresult, rfl⟩

/-- What is asked for is served. -/
theorem Serves.serves (h : Serves ids system task) {command : Command}
    (hmem : command ∈ system.asked id) : ∃ label next, SystemStep ids system label next ∧
      next.loop.sending = system.loop.sending := by
  have hid := h.mem_of_asked (List.ne_nil_of_mem hmem)
  cases hfinalized : system.server.finalized with
  | cons command rest => exact ⟨_, _, .finalized (.service h.task_eq hfinalized), rfl⟩
  | nil =>
      cases hrequests : system.server.requests with
      | cons command rest =>
          have hstep := @Server.Step.replica _ _ _ _ _ replicaTasks 0 [] system.server command ()
            rest trivial hrequests
          exact ⟨_, _, .order hstep, rfl⟩
      | nil =>
          obtain ⟨client, -, htrace⟩ := h.traces id hid
          obtain ⟨hasked, -, hcommand, -⟩ := htrace.of_asked hmem
          have huplink : system.uplinks id = [command] := by
            simpa [System.asked, hfinalized, hrequests] using hasked
          have heq : id = command.clientId :=
            congrArg (fun command : Command => command.clientId) hcommand.symm
          subst heq
          by_cases hconnected : command.clientId ∈ task.writeSenders
          · exact ⟨_, _, .request h.task_eq hconnected huplink (.service h.task_eq rfl), rfl⟩
          · exact ⟨_, _, .accept h.task_eq hid hconnected (.service h.task_eq rfl), rfl⟩

/-- The token of a client is somewhere, and can be moved on. -/
theorem Serves.moves (h : Serves ids system task) (hsending : system.loop.sending = true)
    (hid : id ∈ ids) (hnot : ¬(system.loop.clients id).IsEnded) :
    ∃ label next, SystemStep ids system label next ∧ next.loop.sending = true := by
  by_cases hunsent : system.loop.unsent = ∅
  swap
  · obtain ⟨other, hother⟩ := Finset.nonempty_iff_ne_empty.mpr hunsent
    exact ⟨_, _, .loop (.first hother) (by simp), hsending⟩
  cases hcommits : system.loop.commits with
  | cons other rest => exact ⟨_, _, .loop (.again hsending hunsent hcommits) (by simp), hsending⟩
  | nil =>
      have htoken := h.circulates.kept id hid hnot
      rw [ConcurrentClients.tokens, hunsent, hcommits] at htoken
      cases hclient : system.loop.clients id with
      | ended stop =>
          rw [hclient] at hnot
          exact absurd trivial hnot
      | committing client =>
          have hroom : system.loop.commits.length < commitCapacity := by
            rw [hcommits]
            exact Nat.zero_lt_succ _
          exact ⟨_, _, .loop (.commit hclient hroom) (by simp), hsending⟩
      | running client =>
          cases hinvokes : system.loop.invokes id with
          | cons invoke rest =>
              have hselects : Selects system.loop id
                  (.invoke (some invoke) : ClientSelect Reply) rest :=
                ⟨hinvokes, fun hnone => by cases hnone⟩
              obtain ⟨next, hstep, hsame⟩ := exists_select hclient hselects
              exact ⟨_, _, .invoke hstep, hsame.trans hsending⟩
          | nil =>
              -- the client has asked for something
              have hscratch : client.seqScratch ≠ ∅ := by
                intro hempty
                have hinflight : (closeLoop [0]).tokens (.running client) =
                  client.seqScratch.size := rfl
                rw [hclient, hinvokes, hinflight, hempty, Std.ExtTreeMap.size_empty] at htoken
                simp at htoken
              cases h.running hclient hid with
              | rest => exact absurd rfl hscratch
              | @asked seq hasked =>
                  obtain ⟨label, next, hstep, hsame⟩ :=
                    h.serves (by rw [hasked]; exact List.mem_singleton_self _)
                  exact ⟨label, next, hstep, hsame.trans hsending⟩
              | @answered seq _ hdown =>
                  have hselects : Selects system.loop id (.message (some (⟨seq, []⟩ : Reply)))
                      (system.loop.invokes id) := ⟨rfl, fun hnone => by cases hnone⟩
                  obtain ⟨next, hstep, hsame⟩ := exists_select hclient hselects
                  exact ⟨_, _, .reply hstep hdown, hsame.trans hsending⟩

/-- Until the deadline the system does not stop as long as it has a client, and it does not go
on without commits. The channels of the server are taken to have room. -/
theorem progress (hrun : SystemRun ids history system) (hsending : system.loop.sending = true) :
    history.length ≤ 7 * (commits history).length + 13 * ids.card ∧
      ∀ id ∈ ids, ¬(system.loop.clients id).IsEnded →
        ∃ label next, SystemStep ids system label next ∧ next.loop.sending = true := by
  obtain ⟨task, hserves, -⟩ := SystemRun.account hrun
  constructor
  · have hlength := SystemRun.length_le hrun hsending
    have hstages : ids.sum system.stage ≤ ids.card * 13 :=
      Finset.sum_le_card_nsmul ids _ 13 fun id hid => hserves.stage_le hid
    omega
  · intro id hid hnot
    exact hserves.moves hsending hid hnot

end BftKit.Unreplicated
