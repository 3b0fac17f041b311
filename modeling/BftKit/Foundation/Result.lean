import Mathlib.Logic.Basic

/-! # Fallible computations

Inversion of sequencing in `Except`, so that a proof about a fallible function
peels its steps apart instead of unfolding the monad.
-/

namespace BftKit.Foundation

universe u v w

variable {Error : Type u} {Value : Type v} {Result : Type v}

theorem bind_eq_ok {first : Except Error Value} {rest : Value → Except Error Result}
    {result : Result} :
    first >>= rest = .ok result ↔ ∃ value, first = .ok value ∧ rest value = .ok result := by
  cases first <;> simp [bind, Except.bind]

theorem bind_eq_error {first : Except Error Value} {rest : Value → Except Error Result}
    {err : Error} :
    first >>= rest = .error err ↔
      first = .error err ∨ ∃ value, first = .ok value ∧ rest value = .error err := by
  cases first <;> simp [bind, Except.bind]

@[simp] theorem ok_bind (value : Value) (rest : Value → Except Error Result) :
    (Except.ok value >>= rest) = rest value := rfl

@[simp] theorem error_bind (err : Error) (rest : Value → Except Error Result) :
    (Except.error err >>= rest) = .error err := rfl

/-- A fallible fold whose steps succeed under their own invariant succeeds. -/
theorem foldlM_ok {Item : Type w} (Inv : Value → Prop) {step : Value → Item → Except Error Value}
    {items : List Item}
    (hstep : ∀ value item, item ∈ items → Inv value → ∃ next, step value item = .ok next ∧ Inv next)
    {start : Value} (hstart : Inv start) :
    ∃ final, items.foldlM step start = .ok final ∧ Inv final := by
  induction items generalizing start with
  | nil => exact ⟨start, rfl, hstart⟩
  | cons item rest ih =>
      obtain ⟨middle, hitem, hmiddle⟩ := hstep start item List.mem_cons_self hstart
      obtain ⟨final, hrest, hfinal⟩ :=
        ih (fun value item' hmem => hstep value item' (List.mem_cons_of_mem _ hmem)) hmiddle
      exact ⟨final, by rw [List.foldlM_cons, hitem, ok_bind, hrest], hfinal⟩

/-- A traversal whose items all succeed collects what they return. -/
theorem mapM_ok {Item : Type w} {f : Item → Except Error Value} {Good : Value → Prop}
    {items : List Item} (hitem : ∀ item ∈ items, ∃ value, f item = .ok value ∧ Good value) :
    ∃ values, items.mapM f = .ok values ∧ ∀ value ∈ values, Good value := by
  induction items with
  | nil => exact ⟨[], rfl, by simp⟩
  | cons item rest ih =>
      obtain ⟨value, hvalue, hgood⟩ := hitem item List.mem_cons_self
      obtain ⟨values, hvalues, hall⟩ := ih fun item hmem => hitem item (List.mem_cons_of_mem _ hmem)
      refine ⟨value :: values, ?_, List.forall_mem_cons.mpr ⟨hgood, hall⟩⟩
      rw [List.mapM_cons, hvalue, ok_bind, hvalues, ok_bind]
      rfl

/-- What a traversal collects, it has for each item. -/
theorem mapM_mem {Item : Type w} {f : Item → Except Error Value} {items : List Item}
    {values : List Value} (hmap : items.mapM f = .ok values) {item : Item} (hitem : item ∈ items) :
    ∃ value ∈ values, f item = .ok value := by
  induction items generalizing values with
  | nil => cases hitem
  | cons first rest ih =>
      rw [List.mapM_cons, bind_eq_ok] at hmap
      obtain ⟨value, hvalue, hmap⟩ := hmap
      rw [bind_eq_ok] at hmap
      obtain ⟨others, hothers, heq⟩ := hmap
      obtain rfl : value :: others = values := Except.ok.inj heq
      rcases List.mem_cons.mp hitem with rfl | hrest
      · exact ⟨value, List.mem_cons_self, hvalue⟩
      · obtain ⟨other, hmem, hother⟩ := ih hothers hrest
        exact ⟨other, List.mem_cons_of_mem _ hmem, hother⟩

/-- What a traversal collects, it has from an item. -/
theorem mapM_of_mem {Item : Type w} {f : Item → Except Error Value} {items : List Item}
    {values : List Value} (hmap : items.mapM f = .ok values) {value : Value}
    (hvalue : value ∈ values) : ∃ item ∈ items, f item = .ok value := by
  induction items generalizing values with
  | nil =>
      obtain rfl : [] = values := Except.ok.inj hmap
      cases hvalue
  | cons first rest ih =>
      rw [List.mapM_cons, bind_eq_ok] at hmap
      obtain ⟨found, hfound, hmap⟩ := hmap
      rw [bind_eq_ok] at hmap
      obtain ⟨others, hothers, heq⟩ := hmap
      obtain rfl : found :: others = values := Except.ok.inj heq
      rcases List.mem_cons.mp hvalue with rfl | hrest
      · exact ⟨first, List.mem_cons_self, hfound⟩
      · obtain ⟨item, hitem, hother⟩ := ih hothers hrest
        exact ⟨item, List.mem_cons_of_mem _ hitem, hother⟩

/-- From a bound on, more fuel changes nothing, and the result is not that of having run out. -/
def Ends (stuck : Error) (bound : Nat) (attempt : Nat → Except Error Value) : Prop :=
  ∃ result, result ≠ .error stuck ∧ ∀ fuel, bound ≤ fuel → attempt fuel = result

/-- A recursion that more fuel continues ends if it ends with some fuel. -/
theorem Ends.of_continues {stuck : Error} {bound : Nat} {attempt : Nat → Except Error Value}
    (hmore : ∀ fuel, attempt fuel ≠ .error stuck → attempt (fuel + 1) = attempt fuel)
    (hbound : attempt bound ≠ .error stuck) : Ends stuck bound attempt := by
  refine ⟨attempt bound, hbound, fun fuel hfuel => ?_⟩
  induction hfuel with
  | refl => rfl
  | @step fuel _ ih => rw [hmore fuel (by rwa [ih]), ih]

end BftKit.Foundation
