import BftKit.Transport.Server
import BftKit.Workload.CloseLoop

/-! # The unreplicated system

Clients in a closed loop, one server, and connections that keep the order of what they carry.
Wherever the token of a client is, it leaves one trace between the client and the server.
-/

namespace BftKit.Unreplicated

open Foundation Transport Workload

/-- `replica_task` finalizes what it gets from the request channel. -/
def replicaTasks : ReplicaTasks service Unit Command where
  start _ _ := True
  step _ _ _ _ _ := True
  requested? := some
  finalizes _ command := [command]
  log command := [command]
  flatMap_finalizes _ command := List.flatMap_singleton _ command

structure System where
  loop : ConcurrentClients ClientState
  server : Server Unit Reply Command
  /-- What a client has written and the service has not received. -/
  uplinks : ClientId → List Command
  /-- What the service has written and a client has not received. -/
  downlinks : ClientId → List Reply

inductive SystemLabel where
  | loop (label : Workload.Label Reply)
  | client (id : ClientId) (select : ClientSelect Reply)
  | server (label : ServerLabel Command Reply Command)

/-- The reply that `select!` yielded. -/
def reply? : ClientSelect Reply → Option Reply
  | .message reply => reply
  | .invoke _ | .transportJoinNext => none

def command? : ClientAction → Option Command
  | .write command _ => some command
  | .commit => none

/-- The replies to a client. -/
def replyTo? (id : ClientId) : ServiceAction Reply → Option Reply
  | .write clientId reply => if clientId = id then some reply else none
  | .execute _ _ | .forward _ => none

/-- What a client writes when it selects. -/
def System.written (system : System) (id : ClientId) (select : ClientSelect Reply) : List Command :=
  match system.loop.clients id with
  | .running client => ((closeLoop [0]).step id client select).1.filterMap command?
  | .committing _ | .ended _ => []

/-- The connections of the given clients to the server do not fail. -/
inductive SystemStep (ids : Finset ClientId) (system : System) : SystemLabel → System → Prop
  | loop {label next} (hstep : Step (closeLoop [0]) system.loop label next)
      (hlocal : ∀ id select, label ≠ .select id select) :
      SystemStep ids system (.loop label) { system with loop := next }
  | invoke {id invoke next}
      (hstep : Step (closeLoop [0]) system.loop (.select id (.invoke invoke)) next) :
      SystemStep ids system (.client id (.invoke invoke)) { system with
        loop := next
        uplinks := Function.update system.uplinks id
          (system.uplinks id ++ system.written id (.invoke invoke)) }
  | reply {id reply rest next}
      (hstep : Step (closeLoop [0]) system.loop (.select id (.message (some reply))) next)
      (hreply : system.downlinks id = reply :: rest) :
      SystemStep ids system (.client id (.message (some reply))) { system with
        loop := next
        downlinks := Function.update system.downlinks id rest }
  | order {command next}
      (hstep : Server.Step replicaTasks 0 [] system.server (.replica command) next) :
      SystemStep ids system (.server (.replica command)) { system with server := next }
  | accept {id task actions next} (htask : system.server.task = .ok task) (hid : id ∈ ids)
      (hnew : id ∉ task.writeSenders)
      (hstep : Server.Step replicaTasks 0 [] system.server
        (.service ⟨.accept (some id), actions⟩) next) :
      SystemStep ids system (.server (.service ⟨.accept (some id), actions⟩))
        { system with server := next }
  | request {command task actions rest next} (htask : system.server.task = .ok task)
      (hconnected : command.clientId ∈ task.writeSenders)
      (huplink : system.uplinks command.clientId = command :: rest)
      (hstep : Server.Step replicaTasks 0 [] system.server
        (.service ⟨.message (some command), actions⟩) next) :
      SystemStep ids system (.server (.service ⟨.message (some command), actions⟩)) { system with
        server := next
        uplinks := Function.update system.uplinks command.clientId rest
        downlinks := fun id => system.downlinks id ++ actions.filterMap (replyTo? id) }
  | finalized {command actions next}
      (hstep : Server.Step replicaTasks 0 [] system.server
        (.service ⟨.finalized (some command), actions⟩) next) :
      SystemStep ids system (.server (.service ⟨.finalized (some command), actions⟩)) { system with
        server := next
        downlinks := fun id => system.downlinks id ++ actions.filterMap (replyTo? id) }

def System.new (ids : Finset ClientId) : System where
  loop := Workload.new (closeLoop [0]) ids
  server := ⟨(), [], [], .ok (Service.new 0)⟩
  uplinks _ := []
  downlinks _ := []

/-- The runs of the unreplicated system with the given clients. -/
abbrev SystemRun (ids : Finset ClientId) : List SystemLabel → System → Prop :=
  Run (· = System.new ids) fun _ => SystemStep ids

/-! ## The trace of a client -/

/-- The commands of a client that have not been executed. -/
def System.asked (system : System) (id : ClientId) : List Command :=
  system.uplinks id ++ (system.server.requests.filter (·.clientId = id) ++
    system.server.finalized.filter (·.clientId = id))

/-- The number of the cached reply. -/
def last (task : ServiceTask Reply) (id : ClientId) : Nat :=
  ((task.replies.lookup id).map fun reply => reply.seq.val).getD 0

/-- What there is between a client and the server, by the state of the client. -/
inductive Trace (system : System) (task : ServiceTask Reply) (id : ClientId) :
    ClientState → Prop
  | rest {seq} (hasked : system.asked id = []) (hdown : system.downlinks id = [])
      (hlast : last task id = seq.val) : Trace system task id ⟨seq, ∅⟩
  | asked {seq} (hasked : system.asked id = [⟨id, seq, []⟩]) (hdown : system.downlinks id = [])
      (hlast : last task id + 1 = seq.val) :
      Trace system task id ⟨seq, Std.ExtTreeMap.insert ∅ seq (some [])⟩
  | answered {seq} (hasked : system.asked id = []) (hdown : system.downlinks id = [⟨seq, []⟩])
      (hlast : last task id = seq.val) :
      Trace system task id ⟨seq, Std.ExtTreeMap.insert ∅ seq (some [])⟩

variable {ids : Finset ClientId} {system next : System} {label : SystemLabel}
  {history : List SystemLabel} {task task' : ServiceTask Reply} {id : ClientId}
  {client : ClientState} {command : Command}

theorem Trace.congr (h : Trace system task id client) (hasked : next.asked id = system.asked id)
    (hdown : next.downlinks id = system.downlinks id) (hlast : last task' id = last task id) :
    Trace next task' id client := by
  cases h with
  | rest h hd hl => exact .rest (hasked.trans h) (hdown.trans hd) (hlast.trans hl)
  | asked h hd hl =>
      refine .asked (hasked.trans h) (hdown.trans hd) ?_
      rw [hlast, hl]
  | answered h hd hl => exact .answered (hasked.trans h) (hdown.trans hd) (hlast.trans hl)

theorem insert_ne_empty (seq : ClientSeq) (expected : Option (List UInt8)) :
    Std.ExtTreeMap.insert (∅ : SeqScratches) seq expected ≠ ∅ := by
  intro heq
  have hmem : seq ∈ Std.ExtTreeMap.insert (∅ : SeqScratches) seq expected :=
    Std.ExtTreeMap.mem_insert_self
  rw [heq] at hmem
  exact Std.ExtTreeMap.not_mem_empty hmem

theorem erase_insert (seq : ClientSeq) (expected : Option (List UInt8)) :
    (Std.ExtTreeMap.insert (∅ : SeqScratches) seq expected).erase seq = ∅ := by
  rw [Std.ExtTreeMap.eq_empty_iff_size_eq_zero]
  have hmem : seq ∈ Std.ExtTreeMap.insert (∅ : SeqScratches) seq expected :=
    Std.ExtTreeMap.mem_insert_self
  have hsize := size_eq_erase hmem
  rw [Std.ExtTreeMap.size_insert, Std.ExtTreeMap.size_empty] at hsize
  simpa using hsize

/-- A client that asks for nothing has nothing asked for. -/
theorem Trace.of_empty (h : Trace system task id client) (hempty : client.seqScratch = ∅) :
    system.asked id = [] ∧ system.downlinks id = [] ∧ last task id = client.seq.val := by
  cases h with
  | rest hasked hdown hlast => exact ⟨hasked, hdown, hlast⟩
  | asked => exact absurd hempty (insert_ne_empty _ _)
  | answered => exact absurd hempty (insert_ne_empty _ _)

theorem Trace.of_asked (h : Trace system task id client) (hmem : command ∈ system.asked id) :
    system.asked id = [command] ∧ system.downlinks id = [] ∧
      command = ⟨id, client.seq, []⟩ ∧ last task id + 1 = client.seq.val ∧
      client.seqScratch = Std.ExtTreeMap.insert ∅ client.seq (some []) := by
  cases h with
  | rest hasked | answered hasked =>
      rw [hasked] at hmem
      cases hmem
  | asked hasked hdown hlast =>
      rw [hasked] at hmem
      obtain rfl := List.mem_singleton.mp hmem
      exact ⟨hasked, hdown, rfl, hlast, rfl⟩

theorem Trace.of_downlink (h : Trace system task id client) {reply : Reply} {rest : List Reply}
    (hdown : system.downlinks id = reply :: rest) :
    rest = [] ∧ reply = ⟨client.seq, []⟩ ∧ system.asked id = [] ∧
      last task id = client.seq.val ∧
      client.seqScratch = Std.ExtTreeMap.insert ∅ client.seq (some []) := by
  cases h with
  | rest _ hnone | asked _ hnone => cases hnone.symm.trans hdown
  | answered hasked hsome hlast =>
      rw [hsome] at hdown
      obtain ⟨rfl, rfl⟩ := List.cons.inj hdown
      exact ⟨rfl, rfl, hasked, hlast, rfl⟩

/-! ## What the service does with a command that is due -/

theorem any_le_eq_false (hlast : last task command.clientId < command.seq.val) :
    (task.replies.lookup command.clientId).any (command.seq ≤ service.replySeq ·) = false := by
  cases hlookup : task.replies.lookup command.clientId with
  | none => rfl
  | some reply =>
      rw [last, hlookup] at hlast
      exact decide_eq_false (not_le.mpr hlast)

theorem step_message (hlast : last task command.clientId < command.seq.val) :
    service.step task (.message (some command)) = ([.forward command], .ok task) := by
  rw [Service.step, Service.receive]
  cases hlookup : task.replies.lookup command.clientId with
  | none => rfl
  | some reply =>
      rw [last, hlookup] at hlast
      have hlt : service.replySeq reply < command.seq := hlast
      dsimp only
      rw [if_neg hlt.not_gt, if_neg hlt.ne]

theorem step_finalized (hlast : last task command.clientId < command.seq.val)
    (hconnected : command.clientId ∈ task.writeSenders) :
    service.step task (.finalized (some command)) =
      ([.execute command ⟨command.seq, []⟩, .write command.clientId ⟨command.seq, []⟩],
        .ok { task with
          replies := task.replies.insert command.clientId ⟨command.seq, []⟩ }) := by
  have hvisit : service.visit command task command = some ⟨command.seq, []⟩ := by
    rw [Service.visit, any_le_eq_false hlast]
    rfl
  have hserve : service.step task (.finalized (some command)) =
      service.serve command [command] task := rfl
  rw [hserve, Service.serve, hvisit]
  dsimp only
  rw [if_pos hconnected]
  rfl

theorem last_insert (replies : Map ClientId Reply) (replicaId : Nat)
    (writeSenders : Finset ClientId) (other : ClientId) (reply : Reply) :
    last ⟨replies.insert id reply, replicaId, writeSenders⟩ other =
      if other = id then reply.seq.val else last ⟨replies, replicaId, writeSenders⟩ other := by
  rw [last, Map.lookup_insert]
  split <;> rfl

/-! ## The invariant -/

/-- The state of a client that has not ended. -/
def current? : Status ClientState → Option ClientState
  | .running client | .committing client => some client
  | .ended _ => none

/-- The system serves its clients. -/
structure Serves (ids : Finset ClientId) (system : System) (task : ServiceTask Reply) : Prop where
  circulates : Circulates (closeLoop [0]) ids system.loop
  pings : ∀ id, ∀ invoke ∈ system.loop.invokes id, invoke = ping
  outside : ∀ id ∉ ids, (system.loop.clients id).IsEnded
  unharmed : ∀ id stop, system.loop.clients id = .ended stop → stop = .finished ∨ stop = .overflow
  task_eq : system.server.task = .ok task
  connected : ∀ command ∈ system.server.requests ++ system.server.finalized,
    command.clientId ∈ task.writeSenders
  strangers : ∀ id ∉ ids, system.asked id = []
  traces : ∀ id ∈ ids, ∃ client, (∀ current ∈ current? (system.loop.clients id),
    current = client) ∧ Trace system task id client

/-- What is between a client and the server has not changed, nor has its state. -/
structure Same (system next : System) (task task' : ServiceTask Reply) (id : ClientId) : Prop where
  asked : next.asked id = system.asked id
  down : next.downlinks id = system.downlinks id
  last : last task' id = last task id
  current : ∀ current ∈ current? (next.loop.clients id), current ∈ current? (system.loop.clients id)

theorem Serves.keep (h : Serves ids system task) (hsame : Same system next task task' id)
    (hid : id ∈ ids) : ∃ client, (∀ current ∈ current? (next.loop.clients id),
      current = client) ∧ Trace next task' id client := by
  obtain ⟨client, hcurrent, htrace⟩ := h.traces id hid
  exact ⟨client, fun current hmem => hcurrent current (hsame.current current hmem),
    htrace.congr hsame.asked hsame.down hsame.last⟩

/-- The trace of a client that runs. -/
theorem Serves.running (h : Serves ids system task)
    (hclient : system.loop.clients id = .running client) (hid : id ∈ ids) :
    Trace system task id client := by
  obtain ⟨current, hcurrent, htrace⟩ := h.traces id hid
  obtain rfl := hcurrent client (by rw [hclient]; exact rfl)
  exact htrace

theorem Serves.mem_of_asked (h : Serves ids system task) (hasked : system.asked id ≠ []) :
    id ∈ ids := by
  by_contra hid
  exact hasked (h.strangers id hid)

theorem Serves.mem_of_running (h : Serves ids system task)
    (hclient : system.loop.clients id = .running client) : id ∈ ids := by
  by_contra hid
  have hended := h.outside id hid
  rw [hclient] at hended
  exact hended

/-- The system carries on like that when only the loop moves, and no client does. -/
theorem Serves.loop (h : Serves ids system task) {label : Workload.Label Reply}
    {loop : ConcurrentClients ClientState} (hstep : Step (closeLoop [0]) system.loop label loop)
    (hlocal : ∀ id select, label ≠ .select id select) :
    Serves ids { system with loop := loop } task := by
  have hloop : (∀ id, ∀ invoke ∈ loop.invokes id, invoke = ping) ∧
      (∀ id stop, loop.clients id = .ended stop → system.loop.clients id = .ended stop) ∧
      ∀ id, ∀ current ∈ current? (loop.clients id), current ∈ current? (system.loop.clients id) := by
    have hpings : ∀ who, ∀ id, ∀ invoke ∈ Function.update system.loop.invokes who
        (system.loop.invokes who ++ [ping]) id, invoke = ping := by
      intro who id invoke hinvoke
      by_cases heq : id = who
      · subst heq
        rw [Function.update_self] at hinvoke
        rcases List.mem_append.mp hinvoke with hold | hnew
        · exact h.pings id invoke hold
        · exact List.mem_singleton.mp hnew
      · rw [Function.update_of_ne heq] at hinvoke
        exact h.pings id invoke hinvoke
    cases hstep with
    | first => exact ⟨hpings _, fun _ _ h => h, fun _ _ h => h⟩
    | again => exact ⟨hpings _, fun _ _ h => h, fun _ _ h => h⟩
    | deadline => exact ⟨h.pings, fun _ _ h => h, fun _ _ h => h⟩
    | select | stop => exact absurd rfl (hlocal _ _)
    | @commit who client hclient hroom =>
        refine ⟨h.pings, ?_, ?_⟩
        · intro id stop hstop
          by_cases heq : id = who
          · subst heq
            simp at hstop
          · simpa only [Function.update_of_ne heq] using hstop
        · intro id current hcurrent
          by_cases heq : id = who
          · subst heq
            simp only [Function.update_self] at hcurrent
            rw [hclient]
            exact hcurrent
          · simpa only [Function.update_of_ne heq] using hcurrent
  exact {
    circulates := h.circulates.step hstep
    pings := hloop.1
    outside id hid := hstep.ended (h.outside id hid)
    unharmed id stop hstop := h.unharmed id stop (hloop.2.1 id stop hstop)
    task_eq := h.task_eq
    connected := h.connected
    strangers := h.strangers
    traces id hid := h.keep ⟨rfl, rfl, rfl, hloop.2.2 id⟩ hid }

theorem asked_eq_nil_iff : system.asked id = [] ↔ system.uplinks id = [] ∧
    system.server.requests.filter (·.clientId = id) = [] ∧
      system.server.finalized.filter (·.clientId = id) = [] := by
  rw [System.asked, List.append_eq_nil_iff, List.append_eq_nil_iff]

/-- What a client does on its own leaves the others alone. -/
theorem Serves.apart (h : Serves ids system task) {select : ClientSelect Reply}
    {loop : ConcurrentClients ClientState}
    (hstep : Step (closeLoop [0]) system.loop (.select id select) loop)
    {uplinks : ClientId → List Command} {downlinks : ClientId → List Reply}
    (huplinks : ∀ other, other ≠ id → uplinks other = system.uplinks other)
    (hdownlinks : ∀ other, other ≠ id → downlinks other = system.downlinks other)
    (hid : id ∈ ids) (hstop : ∀ stop, loop.clients id = .ended stop →
      stop = .finished ∨ stop = .overflow)
    (htrace : ∃ client, (∀ current ∈ current? (loop.clients id), current = client) ∧
      Trace ⟨loop, system.server, uplinks, downlinks⟩ task id client) :
    Serves ids ⟨loop, system.server, uplinks, downlinks⟩ task := by
  obtain ⟨client, rest, status, -, hselects, -, heq⟩ := hstep.selected
  have hclients : ∀ other, other ≠ id → loop.clients other = system.loop.clients other := by
    intro other hne
    rw [heq]
    exact Function.update_of_ne hne _ _
  have hinvokes : ∀ other, loop.invokes other ⊆ system.loop.invokes other := by
    intro other
    rw [heq]
    dsimp only
    by_cases hother : other = id
    · subst hother
      rw [Function.update_self, hselects.invoked]
      exact List.subset_append_right _ _
    · rw [Function.update_of_ne hother]
      exact List.Subset.refl _
  have hasked : ∀ other, other ≠ id →
      (⟨loop, system.server, uplinks, downlinks⟩ : System).asked other = system.asked other := by
    intro other hne
    have huplink := huplinks other hne
    simp only [System.asked, huplink]
  constructor
  · exact h.circulates.step hstep
  · intro other invoke hinvoke
    exact h.pings other invoke (hinvokes other hinvoke)
  · intro other hother
    exact hstep.ended (h.outside other hother)
  · intro other stop hended
    by_cases heq : other = id
    · subst heq
      exact hstop stop hended
    · rw [hclients other heq] at hended
      exact h.unharmed other stop hended
  · exact h.task_eq
  · exact h.connected
  · intro other hother
    have hne : other ≠ id := fun heq => hother (heq ▸ hid)
    rw [hasked other hne]
    exact h.strangers other hother
  · intro other hother
    by_cases heq : other = id
    · subst heq
      exact htrace
    · refine h.keep ⟨hasked other heq, hdownlinks other heq, rfl, ?_⟩ hother
      rw [hclients other heq]
      exact fun _ hmem => hmem

/-- A client is not asked for anything when it is invoked. -/
theorem Serves.scratch_eq_empty (h : Serves ids system task)
    (hclient : system.loop.clients id = .running client) {invoke : Invoke} {rest : List Invoke}
    (hinvokes : system.loop.invokes id = invoke :: rest) : client.seqScratch = ∅ := by
  have hle := h.circulates.once id
  rw [ConcurrentClients.tokens, hclient, hinvokes] at hle
  have hinflight : (closeLoop [0]).tokens (.running client) = client.seqScratch.size := rfl
  rw [List.length_cons] at hle
  rw [Std.ExtTreeMap.eq_empty_iff_size_eq_zero]
  omega

/-- What a ping does to a client. -/
theorem ping_cases (hscratch : client.seqScratch = ∅) {actions : List ClientAction}
    {result : Except ClientEnd ClientState}
    (hstep : (closeLoop [0]).step id client (.invoke (some ping)) = (actions, result)) :
    actions = [] ∧ result = .error .overflow ∨
      ∃ number : ClientSeq, number.val = client.seq.val + 1 ∧
        actions = [.write ⟨id, number, []⟩ [0]] ∧
        result = .ok ⟨number, Std.ExtTreeMap.insert ∅ number (some [])⟩ := by
  have hinvoke : ClientTask.invoke ⟨id, .closeLoop, [0]⟩ client [] (some []) = (actions, result) :=
    hstep
  cases result with
  | ok next =>
      obtain ⟨number, seqScratch, hnumber, hroom, rfl, rfl⟩ := ClientTask.invoke_ok hinvoke
      obtain ⟨-, rfl⟩ := makeRoom_closeLoop hroom
      exact .inr ⟨number, hnumber, rfl, rfl⟩
  | error stop =>
      rcases ClientTask.invoke_error hinvoke with ⟨rfl, rfl | ⟨-, hegress⟩⟩ | hroom
      · exact .inl ⟨rfl, rfl⟩
      · exact absurd (List.mem_singleton_self 0) hegress
      · rw [hscratch] at hroom
        cases hroom

/-- A client that is invoked goes on with a command of its next number, or ends. -/
theorem Serves.invoked (h : Serves ids system task) {invoke : Option Invoke}
    {loop : ConcurrentClients ClientState}
    (hstep : Step (closeLoop [0]) system.loop (.select id (.invoke invoke)) loop) :
    ∃ client rest status, system.loop.clients id = .running client ∧
      Selects system.loop id (.invoke invoke : ClientSelect Reply) rest ∧
      loop = { system.loop with
        invokes := Function.update system.loop.invokes id rest
        clients := Function.update system.loop.clients id status } ∧
      (system.written id (.invoke invoke) = [] ∧
          (status = .ended .finished ∨ status = .ended .overflow) ∨
        ∃ number : ClientSeq, client.seqScratch = ∅ ∧ number.val = client.seq.val + 1 ∧
          system.written id (.invoke invoke) = [⟨id, number, []⟩] ∧
          status = .running ⟨number, Std.ExtTreeMap.insert ∅ number (some [])⟩) := by
  obtain ⟨client, rest, status, hclient, hselects, houtcome, rfl⟩ := hstep.selected
  refine ⟨client, rest, status, hclient, hselects, rfl, ?_⟩
  have hwritten : system.written id (.invoke invoke) =
      ((closeLoop [0]).step id client (.invoke invoke)).1.filterMap command? := by
    rw [System.written, hclient]
  rw [hwritten]
  cases invoke with
  | none =>
      cases houtcome with
      | ok hresult => cases hresult
      | stop hresult =>
          rw [hresult]
          obtain ⟨rfl, hstop⟩ := Prod.mk.inj hresult
          obtain rfl := Except.error.inj hstop
          exact .inl ⟨rfl, .inl rfl⟩
  | some invoke =>
      have hinvokes : system.loop.invokes id = invoke :: rest := hselects.invoked
      obtain rfl : invoke = ping := h.pings id invoke (by rw [hinvokes]; exact List.mem_cons_self)
      have hscratch := h.scratch_eq_empty hclient hinvokes
      cases houtcome with
      | ok hresult =>
          rw [hresult]
          rcases ping_cases hscratch hresult with ⟨-, herror⟩ | ⟨number, hnumber, rfl, hok⟩
          · cases herror
          · obtain rfl := Except.ok.inj hok
            exact .inr ⟨number, hscratch, hnumber, rfl, if_neg (by simp)⟩
      | stop hresult =>
          rw [hresult]
          rcases ping_cases hscratch hresult with ⟨rfl, herror⟩ | ⟨number, -, -, hok⟩
          · obtain rfl := Except.error.inj herror
            exact .inl ⟨rfl, .inr rfl⟩
          · cases hok

theorem Serves.invoke (h : Serves ids system task) {invoke : Option Invoke}
    {loop : ConcurrentClients ClientState}
    (hstep : Step (closeLoop [0]) system.loop (.select id (.invoke invoke)) loop) :
    Serves ids { system with
      loop := loop
      uplinks := Function.update system.uplinks id
        (system.uplinks id ++ system.written id (.invoke invoke)) } task := by
  obtain ⟨client, rest, status, hclient, -, rfl, hcases⟩ := h.invoked hstep
  have hid := h.mem_of_running hclient
  have htrace := h.running hclient hid
  apply h.apart hstep (fun other hne => Function.update_of_ne hne _ _) (fun _ _ => rfl) hid
  · intro stop hstop
    simp only [Function.update_self] at hstop
    rcases hcases with ⟨-, rfl | rfl⟩ | ⟨_, -, -, -, rfl⟩
    · exact .inl (Status.ended.inj hstop).symm
    · exact .inr (Status.ended.inj hstop).symm
    · cases hstop
  · simp only [Function.update_self]
    rcases hcases with ⟨hnone, hstatus⟩ | ⟨number, hscratch, hnumber, hsome, rfl⟩
    · refine ⟨client, ?_, htrace.congr ?_ rfl rfl⟩
      · rcases hstatus with rfl | rfl <;> exact fun _ hmem => by cases hmem
      · simp only [System.asked, Function.update_self, hnone, List.append_nil]
    · obtain ⟨hasked, hdown, hlast⟩ := htrace.of_empty hscratch
      obtain ⟨huplink, hrequests, hfinalized⟩ := asked_eq_nil_iff.mp hasked
      refine ⟨_, fun current hmem => (Option.some.inj hmem).symm, .asked ?_ hdown ?_⟩
      · simp only [System.asked, Function.update_self, hsome, huplink, hrequests, hfinalized]
        rfl
      · rw [hlast, hnumber]

/-- A client commits on the reply that is due to it. -/
theorem Serves.reply (h : Serves ids system task) {reply : Reply} {rest : List Reply}
    {loop : ConcurrentClients ClientState}
    (hstep : Step (closeLoop [0]) system.loop (.select id (.message (some reply))) loop)
    (hreply : system.downlinks id = reply :: rest) :
    (∃ client, loop.clients id = .committing client) ∧ Serves ids { system with
      loop := loop
      downlinks := Function.update system.downlinks id rest } task := by
  obtain ⟨client, rest', status, hclient, hselects, houtcome, rfl⟩ := hstep.selected
  have hid := h.mem_of_running hclient
  obtain ⟨rfl, rfl, hasked, hlast, hscratch⟩ := (h.running hclient hid).of_downlink hreply
  have hstep' : (closeLoop [0]).step id client (.message (some ⟨client.seq, []⟩)) =
      ([.commit], .ok ⟨client.seq, ∅⟩) := by
    have hreceive : (closeLoop [0]).step id client (.message (some ⟨client.seq, []⟩)) =
      ClientTask.receive client ⟨client.seq, []⟩ := rfl
    rw [hreceive, ClientTask.receive, hscratch, Std.ExtTreeMap.getElem?_insert_self, erase_insert]
    rfl
  obtain rfl : status = .committing ⟨client.seq, ∅⟩ := by
    cases houtcome with
    | ok hresult =>
        obtain ⟨rfl, hafter⟩ := Prod.mk.inj (hstep'.symm.trans hresult)
        obtain rfl := Except.ok.inj hafter
        exact if_pos (List.mem_singleton_self _)
    | stop hresult => cases (Prod.mk.inj (hstep'.symm.trans hresult)).2
  refine ⟨⟨_, Function.update_self ..⟩, ?_⟩
  apply h.apart hstep (fun _ _ => rfl) (fun other hne => Function.update_of_ne hne _ _) hid
  · intro stop hstop
    simp only [Function.update_self] at hstop
    cases hstop
  · simp only [Function.update_self]
    exact ⟨_, fun current hmem => (Option.some.inj hmem).symm,
      .rest hasked (Function.update_self ..) hlast⟩

/-- What the server does for one client leaves the others alone. -/
theorem Serves.served (h : Serves ids system task) {server : Server Unit Reply Command}
    {uplinks : ClientId → List Command} {downlinks : ClientId → List Reply}
    (htask : server.task = .ok task')
    (hconnected : ∀ command ∈ server.requests ++ server.finalized,
      command.clientId ∈ task'.writeSenders)
    (hid : id ∈ ids) (hothers : ∀ other, other ≠ id →
      Same system ⟨system.loop, server, uplinks, downlinks⟩ task task' other)
    (htrace : ∀ client, Trace system task id client →
      Trace ⟨system.loop, server, uplinks, downlinks⟩ task' id client) :
    Serves ids ⟨system.loop, server, uplinks, downlinks⟩ task' where
  circulates := h.circulates
  pings := h.pings
  outside := h.outside
  unharmed := h.unharmed
  task_eq := htask
  connected := hconnected
  strangers other hother := by
    have hne : other ≠ id := fun heq => hother (heq ▸ hid)
    rw [(hothers other hne).asked]
    exact h.strangers other hother
  traces other hother := by
    by_cases heq : other = id
    · subst heq
      obtain ⟨client, hcurrent, hold⟩ := h.traces other hother
      exact ⟨client, hcurrent, htrace client hold⟩
    · exact h.keep (hothers other heq) hother

theorem Serves.accept (h : Serves ids system task) (hid : id ∈ ids)
    {actions : List (ServiceAction Reply)} {server : Server Unit Reply Command}
    (hnew : id ∉ task.writeSenders) (hstep : Server.Step replicaTasks 0 [] system.server
      (.service ⟨.accept (some id), actions⟩) server) :
    Serves ids { system with server := server }
        { task with writeSenders := insert id task.writeSenders } ∧ actions = [] := by
  cases hstep with
  | @service select rest task' htask hfinalized =>
      obtain rfl := Except.ok.inj (h.task_eq.symm.trans htask)
      replace hfinalized : system.server.finalized = rest := hfinalized
      have hresult : service.step task (.accept (some id)) =
          ([], .ok { task with writeSenders := insert id task.writeSenders }) := if_neg hnew
      have hasked : ∀ other, ({ system with server := { system.server with
          requests := system.server.requests ++ (service.step task
            (.accept (some id))).1.filterMap ServiceAction.forwarded?
          finalized := rest
          task := (service.step task (.accept (some id))).2 } } : System).asked other =
            system.asked other := by
        intro other
        simp only [System.asked, hresult, hfinalized, List.filterMap_nil, List.append_nil]
      refine ⟨h.served ?_ ?_ hid (fun other _ => ⟨hasked other, rfl, rfl, fun _ hmem => hmem⟩)
        (fun client htrace => htrace.congr (hasked id) rfl rfl), ?_⟩
      · rw [hresult]
      · intro command hcommand
        apply Finset.mem_insert_of_mem
        apply h.connected command
        rw [hfinalized]
        simpa only [hresult, List.filterMap_nil, List.append_nil] using hcommand
      · rw [hresult]

/-- The first request of a client is all that it asks for. -/
theorem asked_cons {rest : List Command} (hrequests : system.server.requests = command :: rest)
    (hasked : system.asked command.clientId = [command]) :
    system.uplinks command.clientId = [] ∧
      rest.filter (·.clientId = command.clientId) = [] ∧
        system.server.finalized.filter (·.clientId = command.clientId) = [] := by
  rw [System.asked, hrequests, List.filter_cons_of_pos (by simp)] at hasked
  have hlength := congrArg List.length hasked
  simp only [List.length_append, List.length_cons, List.length_nil] at hlength
  refine ⟨?_, ?_, ?_⟩ <;> apply List.eq_nil_of_length_eq_zero <;> omega

theorem Serves.order (h : Serves ids system task) {server : Server Unit Reply Command}
    (hstep : Server.Step replicaTasks 0 [] system.server (.replica command) server) :
    Serves ids { system with server := server } task := by
  cases hstep with
  | @replica _ _ rest _ hrequests =>
      replace hrequests : system.server.requests = command :: rest := hrequests
      have hmem : command ∈ system.asked command.clientId := by
        rw [System.asked, hrequests, List.filter_cons_of_pos (by simp)]
        simp
      refine h.served h.task_eq ?_ (h.mem_of_asked (List.ne_nil_of_mem hmem)) ?_ ?_
      · intro other hother
        apply h.connected other
        rw [hrequests]
        rcases List.mem_append.mp hother with hrest | hmore
        · exact List.mem_append_left _ (List.mem_cons_of_mem _ hrest)
        · rcases List.mem_append.mp hmore with hfinalized | hnew
          · exact List.mem_append_right _ hfinalized
          · obtain rfl := List.mem_singleton.mp hnew
            exact List.mem_append_left _ List.mem_cons_self
      · intro other hne
        refine ⟨?_, rfl, rfl, fun _ hmem => hmem⟩
        have hclient : ¬command.clientId = other := Ne.symm hne
        simp [System.asked, hrequests, replicaTasks, hclient]
      · intro client htrace
        refine htrace.congr ?_ rfl rfl
        obtain ⟨hasked, -⟩ := htrace.of_asked hmem
        obtain ⟨huplink, hrest, hfinalized⟩ := asked_cons hrequests hasked
        rw [hasked]
        simp only [System.asked, huplink, hrest, List.filter_append, hfinalized]
        simp [replicaTasks]

theorem mem_asked_of_uplink {rest : List Command} (huplink : system.uplinks id = command :: rest) :
    command ∈ system.asked id := by
  rw [System.asked, huplink]
  exact List.mem_append_left _ List.mem_cons_self

theorem mem_asked_of_finalized {rest : List Command}
    (hfinalized : system.server.finalized = command :: rest) :
    command ∈ system.asked command.clientId := by
  rw [System.asked, hfinalized, List.filter_cons_of_pos (by simp)]
  exact List.mem_append_right _ (List.mem_append_right _ List.mem_cons_self)

/-- A command that is asked for is due. -/
theorem Serves.due (h : Serves ids system task) (hmem : command ∈ system.asked command.clientId) :
    last task command.clientId + 1 = command.seq.val := by
  obtain ⟨client, -, htrace⟩ := h.traces _ (h.mem_of_asked (List.ne_nil_of_mem hmem))
  obtain ⟨-, -, hcommand, hlast, -⟩ := htrace.of_asked hmem
  rw [hlast]
  exact congrArg (fun command : Command => command.seq.val) hcommand.symm

/-- The service forwards what it receives. -/
theorem Serves.request (h : Serves ids system task) {actions : List (ServiceAction Reply)}
    {rest : List Command} {server : Server Unit Reply Command}
    (hconnected : command.clientId ∈ task.writeSenders)
    (huplink : system.uplinks command.clientId = command :: rest)
    (hstep : Server.Step replicaTasks 0 [] system.server
      (.service ⟨.message (some command), actions⟩) server) :
    actions = [.forward command] ∧ Serves ids { system with
      server := server
      uplinks := Function.update system.uplinks command.clientId rest
      downlinks := fun id => system.downlinks id ++ actions.filterMap (replyTo? id) } task := by
  cases hstep with
  | @service select rest' task' htask hfinalized =>
      obtain rfl := Except.ok.inj (h.task_eq.symm.trans htask)
      replace hfinalized : system.server.finalized = rest' := hfinalized
      have hmem := mem_asked_of_uplink huplink
      have hdue := h.due hmem
      rw [step_message (by omega)]
      refine ⟨rfl, h.served rfl ?_ (h.mem_of_asked (List.ne_nil_of_mem hmem)) ?_ ?_⟩
      · intro other hother
        rcases List.mem_append.mp hother with hrequests | hrest
        · rcases List.mem_append.mp hrequests with hold | hnew
          · exact h.connected other (List.mem_append_left _ hold)
          · obtain rfl := List.mem_singleton.mp hnew
            exact hconnected
        · exact h.connected other (List.mem_append_right _ (hfinalized ▸ hrest))
      · intro other hne
        refine ⟨?_, List.append_nil _, rfl, fun _ hmem => hmem⟩
        have hclient : ¬command.clientId = other := Ne.symm hne
        simp [System.asked, hfinalized, hne, hclient, ServiceAction.forwarded?]
      · intro client htrace
        refine htrace.congr ?_ (List.append_nil _) rfl
        obtain ⟨hasked, -⟩ := htrace.of_asked hmem
        rw [hasked]
        rw [System.asked, huplink, hfinalized] at hasked
        obtain ⟨rfl, hrequests, hrest⟩ : rest = [] ∧
            system.server.requests.filter (·.clientId = command.clientId) = [] ∧
              rest'.filter (·.clientId = command.clientId) = [] := by
          simpa using hasked
        simp only [System.asked, Function.update_self, List.filter_append, hrequests, hrest]
        simp [ServiceAction.forwarded?]

/-- The service executes what is finalized, and replies to the client. -/
theorem Serves.finalized (h : Serves ids system task) {actions : List (ServiceAction Reply)}
    {server : Server Unit Reply Command}
    (hstep : Server.Step replicaTasks 0 [] system.server
      (.service ⟨.finalized (some command), actions⟩) server) :
    actions = [.execute command ⟨command.seq, []⟩, .write command.clientId ⟨command.seq, []⟩] ∧
      Serves ids { system with
        server := server
        downlinks := fun id => system.downlinks id ++ actions.filterMap (replyTo? id) }
        { task with replies := task.replies.insert command.clientId ⟨command.seq, []⟩ } := by
  cases hstep with
  | @service select rest task' htask hfinalized =>
      obtain rfl := Except.ok.inj (h.task_eq.symm.trans htask)
      replace hfinalized : system.server.finalized = command :: rest := hfinalized
      have hmem := mem_asked_of_finalized hfinalized
      have hdue := h.due hmem
      have hconnected : command.clientId ∈ task.writeSenders := by
        apply h.connected
        rw [hfinalized]
        exact List.mem_append_right _ List.mem_cons_self
      rw [step_finalized (by omega) hconnected]
      refine ⟨rfl, h.served rfl ?_ (h.mem_of_asked (List.ne_nil_of_mem hmem)) ?_ ?_⟩
      · intro other hother
        apply h.connected other
        rw [hfinalized]
        rcases List.mem_append.mp hother with hrequests | hrest
        · exact List.mem_append_left _ (by simpa [ServiceAction.forwarded?] using hrequests)
        · exact List.mem_append_right _ (List.mem_cons_of_mem _ hrest)
      · intro other hne
        have hclient : ¬command.clientId = other := Ne.symm hne
        refine ⟨?_, ?_, ?_, fun _ hmem => hmem⟩
        · simp [System.asked, hfinalized, hclient, ServiceAction.forwarded?]
        · simp [replyTo?, hclient]
        · rw [last_insert, if_neg hne]
      · intro client htrace
        obtain ⟨hasked, hdown, hcommand, -, hscratch⟩ := htrace.of_asked hmem
        have hseq : command.seq = client.seq := congrArg Command.seq hcommand
        obtain ⟨seq, seqScratch⟩ := client
        dsimp only at hseq hscratch
        subst hseq hscratch
        refine .answered ?_ ?_ ?_
        · rw [System.asked, hfinalized, List.filter_cons_of_pos (by simp)] at hasked
          have hlength := congrArg List.length hasked
          simp only [List.length_append, List.length_cons, List.length_nil] at hlength
          rw [asked_eq_nil_iff]
          refine ⟨?_, ?_, ?_⟩ <;> apply List.eq_nil_of_length_eq_zero
          · dsimp only
            omega
          · simp only [ServiceAction.forwarded?, List.filterMap_cons, List.filterMap_nil,
              List.append_nil]
            omega
          · dsimp only
            omega
        · simp [hdown, replyTo?, List.filterMap_cons]
        · rw [last_insert, if_pos rfl]

theorem Serves.new (ids : Finset ClientId) : Serves ids (System.new ids) (Service.new 0) where
  circulates := .new _ ids
  pings _ _ hinvoke := by cases hinvoke
  outside id hid := by
    simp only [System.new, Workload.new, if_neg hid]
    trivial
  unharmed id stop hstop := by
    simp only [System.new, Workload.new] at hstop
    split at hstop
    · cases hstop
    · exact .inl (Status.ended.inj hstop).symm
  task_eq := rfl
  connected _ hcommand := by cases hcommand
  strangers _ _ := rfl
  traces id hid := by
    refine ⟨ClientTask.new, ?_, .rest rfl rfl rfl⟩
    simp only [System.new, Workload.new, if_pos hid]
    exact fun current hmem => (Option.some.inj hmem).symm

end BftKit.Unreplicated
