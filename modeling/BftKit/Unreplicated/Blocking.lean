import BftKit.Transport.Bounded
import BftKit.Unreplicated.System

/-! # When the server blocks

With enough commands between them the two tasks of a server wait for each other for ever: the
service to pass on a request, the replica to pass on what it has finalized.
-/

namespace BftKit

open Foundation Transport

namespace Unreplicated

/-- The runs of the server, whatever the clients send. -/
abbrev ServerRun (capacities : Capacities) : List (BoundedLabel Command Reply Command) →
    BoundedServer Unit Reply Command → Prop :=
  Run (BoundedServer.Start replicaTasks 0) fun _ => BoundedServer.Step replicaTasks capacities 0 []

def received? : BoundedLabel Command Reply Command → Option Command
  | .act (.service happening) => happening.select.message?
  | .act (.replica _) | .forward | .finalize => none

/-- The commands that the service has received, also those that it drops. -/
def received (history : List (BoundedLabel Command Reply Command)) : List Command :=
  history.filterMap received?

/-- How many commands are on their way from the service to the replica and back. -/
def load (server : BoundedServer Unit Reply Command) : Nat :=
  server.forwarding.length + server.requests.length + server.finalizing.length +
    server.finalized.length

/-- The server is up, but neither of its tasks can go on. -/
def Stuck (capacities : Capacities) (server : BoundedServer Unit Reply Command) : Prop :=
  (∃ task, server.task = .ok task) ∧
    ∀ label next, ¬BoundedServer.Step replicaTasks capacities 0 [] server label next

variable {capacities : Capacities} {history : List (BoundedLabel Command Reply Command)}
  {server next : BoundedServer Unit Reply Command} {label : BoundedLabel Command Reply Command}

/-- The server gets stuck just when both its tasks wait. -/
theorem stuck_iff_blocked :
    Stuck capacities server ↔ (∃ task, server.task = .ok task) ∧ server.Blocked capacities := by
  constructor
  · rintro ⟨⟨task, htask⟩, hnot⟩
    have hforwarding : server.forwarding ≠ [] := by
      intro hsent
      exact hnot _ _ (@BoundedServer.Step.service _ _ _ _ _ replicaTasks capacities 0 [] server
        .transportError server.finalized task hsent htask rfl)
    have hrequests : capacities.requests ≤ server.requests.length := by
      by_contra hroom
      obtain ⟨command, rest, heq⟩ := List.exists_cons_of_ne_nil hforwarding
      exact hnot _ _ (.forward heq (not_le.mp hroom))
    have hfinalizing : server.finalizing ≠ [] := by
      intro hsent
      have hpos := capacities.requests_pos.trans_le hrequests
      obtain ⟨command, rest, heq⟩ := List.exists_cons_of_length_pos hpos
      exact hnot _ _ (@BoundedServer.Step.replica _ _ _ _ _ replicaTasks capacities 0 [] server
        command () rest hsent trivial heq)
    have hfinalized : capacities.finalized ≤ server.finalized.length := by
      by_contra hroom
      obtain ⟨command, rest, heq⟩ := List.exists_cons_of_ne_nil hfinalizing
      exact hnot _ _ (.finalize heq (not_le.mp hroom))
    exact ⟨⟨task, htask⟩, hforwarding, hrequests, hfinalizing, hfinalized⟩
  · rintro ⟨hup, hblocked⟩
    exact ⟨hup, fun label next => hblocked.not_step⟩

theorem Stuck.load_ge (h : Stuck capacities server) :
    capacities.requests + capacities.finalized + 2 ≤ load server := by
  obtain ⟨-, hforwarding, hrequests, hfinalizing, hfinalized⟩ := stuck_iff_blocked.mp h
  have hone := List.length_pos_iff.mpr hforwarding
  have hother := List.length_pos_iff.mpr hfinalizing
  unfold load
  omega

/-! ## What is needed -/

theorem received_concat (history : List (BoundedLabel Command Reply Command))
    (label : BoundedLabel Command Reply Command) :
    received (history ++ [label]) = received history ++ (received? label).toList := by
  rw [received, List.filterMap_append, received]
  cases hlabel : received? label <;> simp [hlabel]

/-- Only messages add to the load. -/
theorem Step.load_le (h : BoundedServer.Step replicaTasks capacities 0 [] server label next) :
    load next ≤ load server + (received? label).toList.length := by
  cases h with
  | replica hsent _ hrequests =>
      have hlength : server.requests.length = _ := congrArg List.length hrequests
      simp only [load, hsent, hlength, replicaTasks, List.length_append, Option.toList_some,
        List.length_singleton, List.length_nil]
      omega
  | @service select rest task hsent htask hfinalized =>
      have hforwards := service.step_forwards task select
      have hlength : server.finalized.length = _ := congrArg List.length hfinalized
      simp only [load, hsent, hlength, received?, List.length_append, List.length_nil]
      omega
  | forward hforwarding =>
      have hlength : server.forwarding.length = _ := congrArg List.length hforwarding
      simp only [load, hlength, received?, List.length_append, List.length_cons, List.length_nil,
        Option.toList_none]
      omega
  | finalize hfinalizing =>
      have hlength : server.finalizing.length = _ := congrArg List.length hfinalizing
      simp only [load, hlength, received?, List.length_append, List.length_cons, List.length_nil,
        Option.toList_none]
      omega

theorem ServerRun.load_le (hrun : ServerRun capacities history server) :
    load server ≤ (received history).length := by
  induction hrun with
  | start hinit =>
      obtain ⟨⟨-, hrequests, hfinalized, -⟩, hforwarding, hfinalizing⟩ := hinit
      simp [load, hrequests, hfinalized, hforwarding, hfinalizing]
  | @step history server label next hprev hstep ih =>
      rw [received_concat, List.length_append]
      exact (Step.load_le hstep).trans (Nat.add_le_add_right ih _)

/-! ## What is enough -/

/-- A server that has executed nothing. -/
def holding (requests finalized forwarding finalizing : List Command) :
    BoundedServer Unit Reply Command :=
  ⟨⟨(), requests, finalized, .ok (Service.new 0)⟩, forwarding, finalizing⟩

/-- The server can get there by receiving the commands. -/
def Gets (capacities : Capacities) (commands : List Command)
    (server : BoundedServer Unit Reply Command) : Prop :=
  ∃ history, ServerRun capacities history server ∧ received history = commands

variable {commands requests finalized forwarding finalizing : List Command} {command : Command}

theorem Gets.step (h : Gets capacities commands server)
    (hstep : BoundedServer.Step replicaTasks capacities 0 [] server label next) :
    Gets capacities (commands ++ (received? label).toList) next := by
  obtain ⟨history, hrun, rfl⟩ := h
  exact ⟨history ++ [label], hrun.step hstep, received_concat _ _⟩

theorem Gets.receives (h : Gets capacities commands (holding requests finalized [] finalizing)) :
    Gets capacities (commands ++ [command]) (holding requests finalized [command] finalizing) := by
  have hreceive : service.step (Service.new 0) (.message (some command)) =
      ([.forward command], .ok (Service.new 0)) := by
    rw [Service.step, Service.receive, Service.new, Finmap.lookup_empty]
  have hstep := @BoundedServer.Step.service _ _ _ _ _ replicaTasks capacities 0 []
    (holding requests finalized [] finalizing) (.message (some command)) finalized (Service.new 0)
    rfl rfl rfl
  rw [hreceive] at hstep
  exact h.step hstep

theorem Gets.forwards
    (h : Gets capacities commands (holding requests finalized [command] finalizing))
    (hroom : requests.length < capacities.requests) :
    Gets capacities commands (holding (requests ++ [command]) finalized [] finalizing) := by
  have hnext := h.step (.forward rfl hroom)
  rwa [received?, Option.toList_none, List.append_nil] at hnext

/-- A command passes through an idle server. -/
theorem Gets.passes (h : Gets capacities commands (holding [] finalized [] [])) :
    Gets capacities (commands ++ [command]) (holding [] finalized [] [command]) := by
  have hreceived : Gets capacities (commands ++ [command]) (holding [] finalized [command] []) :=
    h.receives
  have hnext := (hreceived.forwards capacities.requests_pos).step
    (@BoundedServer.Step.replica _ _ _ _ _ replicaTasks capacities 0 [] _ command () [] rfl trivial
      rfl)
  rwa [received?, Option.toList_none, List.append_nil] at hnext

theorem Gets.fill_finalized (more : List Command)
    (hroom : finalized.length + more.length ≤ capacities.finalized)
    (h : Gets capacities commands (holding [] finalized [] [])) :
    Gets capacities (commands ++ more) (holding [] (finalized ++ more) [] []) := by
  induction more generalizing commands finalized with
  | nil => simpa using h
  | cons command rest ih =>
      rw [List.length_cons] at hroom
      have hpassed : Gets capacities (commands ++ [command])
          (holding [] finalized [] [command]) := h.passes
      have hlt : finalized.length < capacities.finalized := by omega
      have hfinalized := hpassed.step (.finalize rfl hlt)
      rw [received?, Option.toList_none, List.append_nil] at hfinalized
      have hnext : Gets capacities (commands ++ [command])
          (holding [] (finalized ++ [command]) [] []) := hfinalized
      have hrest := ih (by rw [List.length_append, List.length_singleton]; omega) hnext
      rwa [List.append_assoc, List.append_assoc] at hrest

theorem Gets.fill_requests (more : List Command)
    (hroom : requests.length + more.length ≤ capacities.requests)
    (h : Gets capacities commands (holding requests finalized [] finalizing)) :
    Gets capacities (commands ++ more) (holding (requests ++ more) finalized [] finalizing) := by
  induction more generalizing commands requests with
  | nil => simpa using h
  | cons command rest ih =>
      rw [List.length_cons] at hroom
      have hnext : Gets capacities (commands ++ [command])
          (holding (requests ++ [command]) finalized [] finalizing) := h.receives.forwards (by omega)
      have hrest := ih (by rw [List.length_append, List.length_singleton]; omega) hnext
      rwa [List.append_assoc, List.append_assoc] at hrest

/-- When clients send these commands, in this order, the server can get stuck if and only if they
fill both channels and leave a command for each of the tasks to wait with. -/
theorem gets_stuck_iff (capacities : Capacities) (commands : List Command) :
    (∃ history server, ServerRun capacities history server ∧ received history <+: commands ∧
      Stuck capacities server) ↔
    capacities.requests + capacities.finalized + 2 ≤ commands.length := by
  constructor
  · rintro ⟨history, server, hrun, hreceived, hstuck⟩
    exact hstuck.load_ge.trans ((ServerRun.load_le hrun).trans hreceived.length_le)
  · intro hmany
    have hstart : Gets capacities [] (holding [] [] [] []) :=
      ⟨[], .start ⟨⟨trivial, rfl, rfl, rfl⟩, rfl, rfl⟩, rfl⟩
    -- fill the one channel, then the replica, then the other channel, and then the service
    obtain ⟨first, later, rfl, hfirst⟩ :
        ∃ first later, commands = first ++ later ∧ first.length = capacities.finalized :=
      ⟨commands.take capacities.finalized, commands.drop capacities.finalized,
        (List.take_append_drop _ _).symm, List.length_take_of_le (by omega)⟩
    rw [List.length_append] at hmany
    obtain ⟨finalizing, later, rfl⟩ :=
      List.exists_cons_of_length_pos (show 0 < later.length by omega)
    rw [List.length_cons] at hmany
    obtain ⟨second, later, rfl, hsecond⟩ :
        ∃ second later', later = second ++ later' ∧ second.length = capacities.requests :=
      ⟨later.take capacities.requests, later.drop capacities.requests,
        (List.take_append_drop _ _).symm, List.length_take_of_le (by omega)⟩
    rw [List.length_append] at hmany
    obtain ⟨forwarding, later, rfl⟩ :=
      List.exists_cons_of_length_pos (show 0 < later.length by omega)
    have hfinalized := hstart.fill_finalized first (by rw [hfirst]; exact (Nat.zero_add _).le)
    have hfinalizing : Gets capacities ([] ++ first ++ [finalizing])
        (holding [] ([] ++ first) [] [finalizing]) := hfinalized.passes
    have hrequests := hfinalizing.fill_requests second (by rw [hsecond]; exact (Nat.zero_add _).le)
    have hforwarding : Gets capacities ([] ++ first ++ [finalizing] ++ second ++ [forwarding])
        (holding ([] ++ second) ([] ++ first) [forwarding] [finalizing]) := hrequests.receives
    obtain ⟨history, hrun, hreceived⟩ := hforwarding
    refine ⟨history, _, hrun, ⟨later, ?_⟩, stuck_iff_blocked.mpr ⟨⟨_, rfl⟩, ?_⟩⟩
    · rw [hreceived]
      simp
    · exact ⟨List.cons_ne_nil _ _, hsecond.ge, List.cons_ne_nil _ _, hfirst.ge⟩

end Unreplicated

end BftKit
