import Mathlib.Data.List.Basic
import Mathlib.Logic.Function.Basic

/-! # Runs of labelled transition systems

A run records the labels of its steps, oldest first. The step relation may
inspect the labels so far, which is how an assumption on the environment (a
signature that has to have been made before it can be shown, say) becomes part
of the transition system. Interleaving composes many local systems; each party's
own labels form a run of its local system.
-/

namespace BftKit.Foundation

universe u v w

variable {State : Type u} {Label : Type v}

/-- Histories and end states of the finite runs from an initial state. -/
inductive Run (init : State → Prop) (step : List Label → State → Label → State → Prop) :
    List Label → State → Prop
  | start {state} (hinit : init state) : Run init step [] state
  | step {history state label next} (hrun : Run init step history state)
      (hstep : step history state label next) : Run init step (history ++ [label]) next

namespace Run

variable {init : State → Prop} {step : List Label → State → Label → State → Prop}

/-- What holds initially and is preserved by every step of a run holds at its end. -/
theorem invariant {P : List Label → State → Prop}
    (hinit : ∀ state, init state → P [] state)
    (hstep : ∀ history state label next, Run init step history state →
      P history state → step history state label next → P (history ++ [label]) next)
    {history : List Label} {state : State} (hrun : Run init step history state) :
    P history state := by
  induction hrun with
  | start h => exact hinit _ h
  | step hprev h ih => exact hstep _ _ _ _ hprev ih h

/-- Each label of a run was a step, of the run up to it. -/
theorem of_mem {history : List Label} {state : State} (hrun : Run init step history state)
    {label : Label} (hlabel : label ∈ history) :
    ∃ before current next, Run init step before current ∧ step before current label next ∧
      before ++ [label] <+: history := by
  induction hrun with
  | start => cases hlabel
  | @step history state last next hprev hstep ih =>
      rcases List.mem_append.mp hlabel with hold | hlast
      · obtain ⟨before, current, next', hcurrent, hstep', hprefix⟩ := ih hold
        exact ⟨before, current, next', hcurrent, hstep', hprefix.trans (List.prefix_append _ _)⟩
      · obtain rfl := List.mem_singleton.mp hlast
        exact ⟨history, state, next, hprev, hstep, List.prefix_rfl⟩

theorem of_nil {state : State} (hrun : Run init step [] state) : init state := by
  generalize hnil : ([] : List Label) = history at hrun
  cases hrun with
  | start hinit => exact hinit
  | step => simp at hnil

/-- A run ends with the step of its last label. -/
theorem concat_iff {history : List Label} {label : Label} {state : State} :
    Run init step (history ++ [label]) state ↔
      ∃ before, Run init step history before ∧ step history before label state := by
  constructor
  · intro hrun
    generalize heq : history ++ [label] = whole at hrun
    cases hrun with
    | start => simp at heq
    | step hprev hstep =>
        obtain ⟨rfl, hlast⟩ := List.append_inj' heq rfl
        obtain rfl := List.singleton_inj.mp hlast
        exact ⟨_, hprev, hstep⟩
  · rintro ⟨before, hprev, hstep⟩
    exact hprev.step hstep

/-- A run goes on where another one has ended. -/
theorem append {next : State → Label → State → Prop} {history more : List Label}
    {state final : State} (hrun : Run init (fun _ => next) history state)
    (hmore : Run (· = state) (fun _ => next) more final) :
    Run init (fun _ => next) (history ++ more) final := by
  induction hmore with
  | start hinit =>
      subst hinit
      rwa [List.append_nil]
  | step _ hstep ih =>
      rw [← List.append_assoc]
      exact ih.step hstep

/-- A run stays a run when more may start and more may step. -/
theorem mono {init' : State → Prop} {step' : List Label → State → Label → State → Prop}
    (hinit : ∀ state, init state → init' state)
    (hstep : ∀ history state label next, step history state label next →
      step' history state label next)
    {history : List Label} {state : State} (hrun : Run init step history state) :
    Run init' step' history state := by
  induction hrun with
  | start h => exact .start (hinit _ h)
  | step _ h ih => exact .step ih (hstep _ _ _ _ h)

/-- A system refines another one when each of its steps is a step of that one or nothing to it. -/
theorem refine {State' : Type*} {Label' : Type*} {init' : State' → Prop}
    {step' : List Label' → State' → Label' → State' → Prop} {seen : State → State'}
    {act? : Label → Option Label'} (hinit : ∀ state, init state → init' (seen state))
    (hstep : ∀ history state label next, step history state label next →
      (∃ action, act? label = some action ∧
        step' (history.filterMap act?) (seen state) action (seen next)) ∨
      act? label = none ∧ seen next = seen state)
    {history : List Label} {state : State} (hrun : Run init step history state) :
    Run init' step' (history.filterMap act?) (seen state) := by
  induction hrun with
  | start h => exact .start (hinit _ h)
  | @step history state label next _ h ih =>
      rcases hstep history state label next h with ⟨action, hact, hnext⟩ | ⟨hact, hsame⟩
      · rw [List.filterMap_append, List.filterMap_cons_some hact, List.filterMap_nil]
        exact ih.step hnext
      · rw [List.filterMap_append, List.filterMap_cons_none hact, List.filterMap_nil,
          List.append_nil, hsame]
        exact ih

end Run

section Interleaving

variable {Party : Type w} [DecidableEq Party]

/-- The labels of one party. -/
def view (who : Party) (history : List (Party × Label)) : List Label :=
  history.filterMap fun entry => if entry.1 = who then some entry.2 else none

@[simp] theorem view_nil (who : Party) : view who ([] : List (Party × Label)) = [] := rfl

@[simp] theorem view_append (who : Party) (first second : List (Party × Label)) :
    view who (first ++ second) = view who first ++ view who second :=
  List.filterMap_append

@[simp] theorem view_singleton_self (who : Party) (label : Label) :
    view who [(who, label)] = [label] := by
  simp [view]

theorem view_singleton_of_ne {who other : Party} (hne : other ≠ who) (label : Label) :
    view who [(other, label)] = [] := by
  simp [view, hne]

theorem mem_view {who : Party} {history : List (Party × Label)} {label : Label} :
    label ∈ view who history ↔ (who, label) ∈ history := by
  simp only [view, List.mem_filterMap, Option.ite_none_right_eq_some, Option.some.injEq]
  constructor
  · rintro ⟨⟨other, label'⟩, hmem, rfl, rfl⟩
    exact hmem
  · intro hmem
    exact ⟨_, hmem, rfl, rfl⟩

/-- What the labels of one party yield, when those of the others yield nothing. -/
theorem flatMap_view {Item : Type*} {who : Party} {history : List (Party × Label)}
    {items : Party × Label → List Item}
    (hothers : ∀ entry ∈ history, entry.1 ≠ who → items entry = []) :
    history.flatMap items = (view who history).flatMap fun label => items (who, label) := by
  induction history with
  | nil => rfl
  | cons entry rest ih =>
      obtain ⟨party, label⟩ := entry
      have hsplit : view who ((party, label) :: rest) = view who [(party, label)] ++ view who rest :=
        view_append who [(party, label)] rest
      rw [List.flatMap_cons, ih fun other hother => hothers other (List.mem_cons_of_mem _ hother),
        hsplit, List.flatMap_append]
      by_cases heq : party = who
      · subst heq
        rw [view_singleton_self, List.flatMap_singleton]
      · rw [view_singleton_of_ne heq, hothers _ List.mem_cons_self heq, List.flatMap_nil]

/-- Marks that no party leaves twice, and no two parties leave, are left once. -/
theorem nodup_filterMap_view {Mark : Type*} {history : List (Party × Label)}
    {mark : Label → Option Mark} (hown : ∀ who, ((view who history).filterMap mark).Nodup)
    (hothers : ∀ who label who' label' found, (who, label) ∈ history → (who', label') ∈ history →
      mark label = some found → mark label' = some found → who = who') :
    (history.filterMap fun entry => mark entry.2).Nodup := by
  induction history with
  | nil => exact List.nodup_nil
  | cons entry rest ih =>
      obtain ⟨party, label⟩ := entry
      have hsplit : ∀ who, view who ((party, label) :: rest) =
          view who [(party, label)] ++ view who rest :=
        fun who => view_append who [(party, label)] rest
      have hrest := ih
        (fun who => by
          have hnodup := hown who
          rw [hsplit, List.filterMap_append] at hnodup
          exact (List.nodup_append.mp hnodup).2.1)
        (fun who label who' label' found hmem hmem' =>
          hothers who label who' label' found (List.mem_cons_of_mem _ hmem)
            (List.mem_cons_of_mem _ hmem'))
      rw [List.filterMap_cons]
      cases hmark : mark label with
      | none => exact hrest
      | some found =>
          refine List.nodup_cons.mpr ⟨?_, hrest⟩
          intro hfound
          obtain ⟨⟨party', label'⟩, hmem, hmark'⟩ := List.mem_filterMap.mp hfound
          obtain rfl := hothers party label party' label' found List.mem_cons_self
            (List.mem_cons_of_mem _ hmem) hmark hmark'
          have hnodup := hown party
          rw [hsplit, view_singleton_self, List.singleton_append, List.filterMap_cons, hmark]
            at hnodup
          refine (List.nodup_cons.mp hnodup).1 ?_
          exact List.mem_filterMap.mpr ⟨label', mem_view.mpr hmem, hmark'⟩

/-- One party steps, seeing the whole history; the others keep their states. -/
def interleave (step : Party → List (Party × Label) → State → Label → State → Prop)
    (history : List (Party × Label)) (states : Party → State) (entry : Party × Label)
    (next : Party → State) : Prop :=
  ∃ target, step entry.1 history (states entry.1) entry.2 target ∧
    next = Function.update states entry.1 target

variable {init : Party → State → Prop}
  {step : Party → List (Party × Label) → State → Label → State → Prop}

/-- A composed run, seen by one party, is a run of that party alone. -/
theorem Run.view {who : Party} {localStep : List Label → State → Label → State → Prop}
    (hlocal : ∀ history state label next, step who history state label next →
      localStep (Foundation.view who history) state label next)
    {history : List (Party × Label)} {states : Party → State}
    (hrun : Run (fun states => ∀ who, init who (states who)) (interleave step) history states) :
    Run (init who) localStep (Foundation.view who history) (states who) := by
  induction hrun with
  | start h => exact .start (h who)
  | @step history states entry next hprev h ih =>
      obtain ⟨party, label⟩ := entry
      obtain ⟨target, hstep, rfl⟩ := h
      rw [view_append]
      by_cases heq : party = who
      · subst heq
        rw [view_singleton_self, Function.update_self]
        exact .step ih (hlocal _ _ _ _ hstep)
      · rw [view_singleton_of_ne heq, List.append_nil, Function.update_of_ne (Ne.symm heq)]
        exact ih

end Interleaving

end BftKit.Foundation
