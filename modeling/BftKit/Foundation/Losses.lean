import BftKit.Foundation.Network

/-! # Losses

A network may lose messages in flight, and its history tells which. A lossy run is a run
of the network that never delivers what is lost. What can be reached from a state on by
steps of some kind and without further losses is put together goal by goal, where no step
undoes a goal.
-/

namespace BftKit.Foundation

universe u v w x

/-- What happens in a lossy network: a party steps, or a message to it is lost. -/
inductive Incident (Party : Type u) (Label : Type w) (Message : Type x) where
  | step (who : Party) (label : Label)
  | lose (who : Party) (message : Message)

variable {Party : Type u} {State : Type v} {Label : Type w} {Message : Type x}

namespace Incident

def step? : Incident Party Label Message → Option (Party × Label)
  | .step who label => some (who, label)
  | .lose _ _ => none

def lost? : Incident Party Label Message → Option (Party × Message)
  | .step _ _ => none
  | .lose who message => some (who, message)

end Incident

/-- The steps of a lossy history. -/
def steps (history : List (Incident Party Label Message)) : List (Party × Label) :=
  history.filterMap Incident.step?

/-- The messages lost along a history, with their receivers. -/
def lost (history : List (Incident Party Label Message)) : List (Party × Message) :=
  history.filterMap Incident.lost?

variable {history : List (Incident Party Label Message)} {who : Party} {message : Message}

@[simp] theorem steps_concat_step (label : Label) :
    steps (history ++ [.step who label]) = steps history ++ [(who, label)] := by
  simp [steps, Incident.step?]

@[simp] theorem steps_concat_lose :
    steps (history ++ [.lose who message]) = steps history := by
  simp [steps, Incident.step?]

@[simp] theorem lost_concat_step (label : Label) :
    lost (history ++ [.step who label]) = lost history := by
  simp [lost, Incident.lost?]

@[simp] theorem lost_concat_lose :
    lost (history ++ [.lose who message]) = lost history ++ [(who, message)] := by
  simp [lost, Incident.lost?]

namespace Protocol

variable [DecidableEq Party] (protocol : Protocol Party State Label Message)

inductive LossyStep (network : Network Party State Message) :
    Incident Party Label Message → Network Party State Message → Prop
  | step {who label next} (hstep : protocol.Step network (who, label) next) :
      LossyStep network (.step who label) next
  | lose {who message before after}
      (hflight : network.flight = before ++ (who, message) :: after) :
      LossyStep network (.lose who message) ⟨network.states, before ++ after⟩

/-- The runs of a network that may lose any message in flight at any time. -/
abbrev LossyRun : List (Incident Party Label Message) → Network Party State Message → Prop :=
  Run (· = ⟨protocol.start, []⟩) fun _ network incident next =>
    protocol.LossyStep network incident next

/-- The runs from a network on in which nothing is lost and all steps are of one kind. -/
abbrev Repair (allowed : Party → Label → Prop) (network : Network Party State Message) :
    List (Party × Label) → Network Party State Message → Prop :=
  Run (· = network) fun _ network entry next =>
    allowed entry.1 entry.2 ∧ protocol.Step network entry next

/-- A message is in flight or has been received. -/
def Arrives (history : List (Incident Party Label Message))
    (network : Network Party State Message) (item : Party × Message) : Prop :=
  item ∈ network.flight ∨ item ∈ protocol.received (steps history)

/-- Statements on a run so far, and its end. -/
abbrev Goal (_protocol : Protocol Party State Label Message) :=
  List (Incident Party Label Message) → Network Party State Message → Prop

/-- No step of a lossy run undoes the goal. -/
def Stable (goal : protocol.Goal) : Prop :=
  ∀ ⦃history network who label next⦄, protocol.LossyRun history network → goal history network →
    protocol.Step network (who, label) next → goal (history ++ [.step who label]) next

/-- The goal can be reached by steps of one kind, without losses. -/
def Reaches (allowed : Party → Label → Prop) (goal : protocol.Goal) : protocol.Goal :=
  fun history network => ∃ entries next, protocol.Repair allowed network entries next ∧
    goal (history ++ entries.map fun entry => .step entry.1 entry.2) next

variable {protocol} {network next : Network Party State Message} {label : Label}
  {allowed : Party → Label → Prop} {goal goal' : protocol.Goal} {entries : List (Party × Label)}

/-! ## Lossy runs are runs -/

/-- What is lost could as well be in flight forever. -/
theorem LossyRun.networkRun (hrun : protocol.LossyRun history network) :
    ∃ flight, protocol.NetworkRun (steps history) ⟨network.states, flight⟩ ∧
      flight.Perm (network.flight ++ lost history) := by
  induction hrun with
  | start hinit =>
      subst hinit
      exact ⟨[], .start rfl, .refl _⟩
  | @step history network incident next hprev hstep ih =>
      obtain ⟨flight, hrun, hperm⟩ := ih
      cases hstep with
      | @step who label next hstep =>
          rw [steps_concat_step, lost_concat_step]
          cases hstep with
          | @deliver _ _ message before after state hreceives hflight hlocal =>
              rw [hflight] at hperm
              obtain ⟨before', after', rfl⟩ := List.append_of_mem
                (hperm.mem_iff.mpr (by simp : (who, message) ∈ _))
              refine ⟨before' ++ after' ++ protocol.sends who label,
                .step hrun (.deliver hreceives rfl hlocal), ?_⟩
              have hrest : (before' ++ after').Perm (before ++ after ++ lost history) := by
                apply List.Perm.cons_inv (a := (who, message))
                refine List.perm_middle.symm.trans (hperm.trans ?_)
                rw [List.append_assoc, List.append_assoc, List.cons_append]
                exact List.perm_middle
              refine (hrest.append_right _).trans ?_
              rw [List.append_assoc, List.append_assoc (before ++ after)]
              exact List.perm_append_comm.append_left _
          | @act _ _ state hreceives hlocal =>
              refine ⟨flight ++ protocol.sends who label, .step hrun (.act hreceives hlocal), ?_⟩
              refine (hperm.append_right _).trans ?_
              rw [List.append_assoc, List.append_assoc]
              exact List.perm_append_comm.append_left _
      | @lose who message before after hflight =>
          rw [steps_concat_lose, lost_concat_lose]
          refine ⟨flight, hrun, hperm.trans ?_⟩
          rw [hflight, List.append_assoc, List.append_assoc, List.cons_append]
          refine List.Perm.append_left before (List.perm_middle.symm.trans ?_)
          exact List.Perm.append_left after (List.perm_append_singleton _ _).symm

/-- A run of the network is one that loses nothing. -/
theorem NetworkRun.lossyRun {history : List (Party × Label)}
    (hrun : protocol.NetworkRun history network) :
    ∃ incidents, protocol.LossyRun incidents network ∧ steps incidents = history ∧
      lost incidents = [] := by
  induction hrun with
  | start hinit => exact ⟨[], .start hinit, rfl, rfl⟩
  | @step history network entry next hprev hstep ih =>
      obtain ⟨incidents, hlossy, rfl, hnone⟩ := ih
      refine ⟨incidents ++ [.step entry.1 entry.2], .step hlossy (.step hstep), ?_, ?_⟩
      · rw [steps_concat_step]
      · rw [lost_concat_step, hnone]

/-- A message that has been sent arrives, unless it has been lost. -/
theorem LossyRun.sent_cases (hrun : protocol.LossyRun history network) {item : Party × Message}
    (hsent : item ∈ protocol.sent (steps history)) :
    protocol.Arrives history network item ∨ item ∈ lost history := by
  obtain ⟨flight, hrun, hperm⟩ := LossyRun.networkRun hrun
  rcases List.mem_append.mp ((NetworkRun.account hrun).mem_iff.mpr hsent) with hflight | hreceived
  · rcases List.mem_append.mp (hperm.mem_iff.mp hflight) with hflight | hlost
    · exact .inl (.inl hflight)
    · exact .inr hlost
  · exact .inl (.inr hreceived)

theorem LossyRun.sent_of_lost (hrun : protocol.LossyRun history network) {item : Party × Message}
    (hlost : item ∈ lost history) : item ∈ protocol.sent (steps history) := by
  obtain ⟨flight, hrun, hperm⟩ := LossyRun.networkRun hrun
  exact (NetworkRun.account hrun).mem_iff.mp
    (List.mem_append_left _ (hperm.mem_iff.mpr (List.mem_append_right _ hlost)))

theorem LossyRun.sent_of_arrives (hrun : protocol.LossyRun history network)
    {item : Party × Message} (harrives : protocol.Arrives history network item) :
    item ∈ protocol.sent (steps history) := by
  obtain ⟨flight, hrun, hperm⟩ := LossyRun.networkRun hrun
  refine (NetworkRun.account hrun).mem_iff.mp ?_
  rcases harrives with hflight | hreceived
  · exact List.mem_append_left _ (hperm.mem_iff.mpr (List.mem_append_left _ hflight))
  · exact List.mem_append_right _ hreceived

/-! ## Stable goals -/

theorem Stable.and (h : protocol.Stable goal) (h' : protocol.Stable goal') :
    protocol.Stable fun history network => goal history network ∧ goal' history network := by
  intro history network who label next hrun hgoal hstep
  exact ⟨h hrun hgoal.1 hstep, h' hrun hgoal.2 hstep⟩

theorem Stable.or (h : protocol.Stable goal) (h' : protocol.Stable goal') :
    protocol.Stable fun history network => goal history network ∨ goal' history network := by
  intro history network who label next hrun hgoal hstep
  exact hgoal.imp (h hrun · hstep) (h' hrun · hstep)

theorem Stable.imp {condition : Prop} (h : protocol.Stable goal) :
    protocol.Stable fun history network => condition → goal history network := by
  intro history network who label next hrun hgoal hstep hcondition
  exact h hrun (hgoal hcondition) hstep

theorem Stable.all {Item : Type*} {goals : Item → protocol.Goal}
    (h : ∀ item, protocol.Stable (goals item)) :
    protocol.Stable fun history network => ∀ item, goals item history network := by
  intro history network who label next hrun hgoals hstep item
  exact h item hrun (hgoals item) hstep

theorem stable_lost (missing : List (Party × Message)) :
    protocol.Stable fun history _ => lost history = missing := by
  intro history network who label next _ hlost _
  rw [lost_concat_step]
  exact hlost

theorem stable_received (item : Party × Message) :
    protocol.Stable fun history _ => item ∈ protocol.received (steps history) := by
  intro history network who label next _ hitem _
  rw [steps_concat_step, received_concat]
  exact List.mem_append_left _ hitem

/-- What leaves the flight is received. -/
theorem stable_arrives (item : Party × Message) :
    protocol.Stable fun history network => protocol.Arrives history network item := by
  intro history network who label next hrun harrives hstep
  rcases harrives with hflight | hreceived
  · have hmem := hstep.flight.mem_iff.mpr (List.mem_append_left _ hflight)
    rcases List.mem_append.mp hmem with hflight | hnew
    · exact .inl hflight
    · right
      rw [steps_concat_step, received_concat]
      exact List.mem_append_right _ hnew
  · exact .inr (stable_received item hrun hreceived hstep)

theorem LossyRun.repair (hrun : protocol.LossyRun history network)
    (hrepair : protocol.Repair allowed network entries next) :
    protocol.LossyRun (history ++ entries.map fun entry => .step entry.1 entry.2) next := by
  induction hrepair with
  | start hinit =>
      subst hinit
      simpa using hrun
  | step _ hstep ih =>
      rw [List.map_append, ← List.append_assoc]
      exact .step ih (.step hstep.2)

theorem Stable.repair (h : protocol.Stable goal) (hrun : protocol.LossyRun history network)
    (hrepair : protocol.Repair allowed network entries next) (hgoal : goal history network) :
    goal (history ++ entries.map fun entry => .step entry.1 entry.2) next := by
  induction hrepair with
  | start hinit =>
      subst hinit
      simpa using hgoal
  | step hprev hstep ih =>
      rw [List.map_append, ← List.append_assoc]
      exact h (LossyRun.repair hrun hprev) ih hstep.2

/-! ## What can be reached -/

theorem Repair.trans {entries' : List (Party × Label)} {final : Network Party State Message}
    (h : protocol.Repair allowed network entries next)
    (h' : protocol.Repair allowed next entries' final) :
    protocol.Repair allowed network (entries ++ entries') final := by
  induction h' with
  | start hinit =>
      subst hinit
      simpa using h
  | step _ hstep ih =>
      rw [← List.append_assoc]
      exact .step ih hstep

theorem Reaches.of_goal (h : goal history network) :
    protocol.Reaches allowed goal history network :=
  ⟨[], network, .start rfl, by simpa using h⟩

/-- Goals are reached one after another. -/
theorem Reaches.bind (h : protocol.Reaches allowed goal history network)
    (hrun : protocol.LossyRun history network)
    (hnext : ∀ history network, protocol.LossyRun history network → goal history network →
      protocol.Reaches allowed goal' history network) :
    protocol.Reaches allowed goal' history network := by
  obtain ⟨entries, next, hrepair, hgoal⟩ := h
  obtain ⟨entries', final, hrepair', hgoal'⟩ := hnext _ _ (LossyRun.repair hrun hrepair) hgoal
  refine ⟨entries ++ entries', final, Repair.trans hrepair hrepair', ?_⟩
  rwa [List.map_append, ← List.append_assoc]

theorem Reaches.mono (h : protocol.Reaches allowed goal history network)
    (hrun : protocol.LossyRun history network)
    (hgoal : ∀ history network, protocol.LossyRun history network → goal history network →
      goal' history network) :
    protocol.Reaches allowed goal' history network := by
  apply h.bind hrun
  intro history network hrun hreached
  exact .of_goal (hgoal history network hrun hreached)

theorem Reaches.step (hallowed : allowed who label)
    (hstep : protocol.Step network (who, label) next)
    (h : protocol.Reaches allowed goal (history ++ [.step who label]) next) :
    protocol.Reaches allowed goal history network := by
  obtain ⟨entries, final, hrepair, hgoal⟩ := h
  have hstart : protocol.Repair allowed network [] network := .start rfl
  refine ⟨(who, label) :: entries, final, ?_, ?_⟩
  · exact Repair.trans (.step hstart ⟨hallowed, hstep⟩) hrepair
  · rwa [List.map_cons, List.append_cons]

/-- What is stable is still there where a goal is reached. -/
theorem Reaches.keep {context : protocol.Goal}
    (h : protocol.Reaches allowed goal history network)
    (hrun : protocol.LossyRun history network) (hstable : protocol.Stable context)
    (hcontext : context history network) :
    protocol.Reaches allowed (fun history network => context history network ∧
      goal history network) history network := by
  obtain ⟨entries, next, hrepair, hgoal⟩ := h
  exact ⟨entries, next, hrepair, hstable.repair hrun hrepair hcontext, hgoal⟩

/-- Each of several stable goals can be reached from every state of a stable kind, so all
of them can. -/
theorem Reaches.all {Item : Type*} {context : protocol.Goal} {goals : Item → protocol.Goal}
    (hcontext : protocol.Stable context) (hgoals : ∀ item, protocol.Stable (goals item))
    (items : List Item) (hreach : ∀ item ∈ items, ∀ history network,
      protocol.LossyRun history network → context history network →
      protocol.Reaches allowed (goals item) history network)
    (hrun : protocol.LossyRun history network) (h : context history network) :
    protocol.Reaches allowed (fun history network => context history network ∧
      ∀ item ∈ items, goals item history network) history network := by
  induction items generalizing history network with
  | nil => exact .of_goal ⟨h, by simp⟩
  | cons item rest ih =>
      have hfirst := hreach item List.mem_cons_self history network hrun h
      apply (hfirst.keep hrun hcontext h).bind hrun
      intro history network hrun ⟨hnext, hitem⟩
      have hrest := ih (fun other hother => hreach other (List.mem_cons_of_mem _ hother)) hrun hnext
      apply (hrest.keep hrun (hgoals item) hitem).mono hrun
      intro history network _ ⟨hhead, hall, htail⟩
      exact ⟨hall, List.forall_mem_cons.mpr ⟨hhead, htail⟩⟩

/-- Several stable goals can be reached, unless there is a way out on the way to them. -/
theorem Reaches.all_or {Item : Type*} {out context : protocol.Goal} {goals : Item → protocol.Goal}
    (hout : protocol.Stable out) (hcontext : protocol.Stable context)
    (hgoals : ∀ item, protocol.Stable (goals item)) (items : List Item)
    (hreach : ∀ item ∈ items, ∀ history network, protocol.LossyRun history network →
      context history network → ¬ out history network →
      protocol.Reaches allowed (goals item) history network)
    (hrun : protocol.LossyRun history network) (h : context history network) :
    protocol.Reaches allowed (fun history network => out history network ∨
      context history network ∧ ∀ item ∈ items, goals item history network) history network := by
  have hitem : ∀ item ∈ items, ∀ history network, protocol.LossyRun history network →
      context history network → protocol.Reaches allowed (fun history network =>
        out history network ∨ goals item history network) history network := by
    intro item hmem history network hrun hcontext
    by_cases hnow : out history network
    · exact .of_goal (.inl hnow)
    · exact (hreach item hmem history network hrun hcontext hnow).mono hrun
        fun _ _ _ hgoal => .inr hgoal
  have hall := Reaches.all hcontext (fun item => hout.or (hgoals item)) items hitem hrun h
  apply hall.mono hrun
  intro history network _ ⟨hcontext, hitems⟩
  by_cases hnow : out history network
  · exact .inl hnow
  · exact .inr ⟨hcontext, fun item hmem => (hitems item hmem).resolve_left hnow⟩

end Protocol

end BftKit.Foundation
