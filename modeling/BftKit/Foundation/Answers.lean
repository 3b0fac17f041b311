import BftKit.Foundation.Map

/-! # Counting equal answers

Voters answer, possibly more than once, and only the last answer of each counts.
The count of an answer grows by one at most, so a threshold that is watched from
the start is met before it is exceeded.
-/

namespace BftKit.Foundation

variable {Voter Answer : Type*} [DecidableEq Voter]

/-- What each voter answered last. -/
def lastAnswers (answers : List (Voter × Answer)) : Map Voter Answer := Map.extend ∅ answers

theorem lastAnswers_concat (answers : List (Voter × Answer)) (last : Voter × Answer) :
    lastAnswers (answers ++ [last]) = (lastAnswers answers).insert last.1 last.2 := by
  rw [lastAnswers, Map.extend, List.foldl_append]
  rfl

theorem mem_of_lookup_lastAnswers {answers : List (Voter × Answer)} {voter : Voter}
    {answer : Answer} (h : (lastAnswers answers).lookup voter = some answer) :
    (voter, answer) ∈ answers := by
  induction answers using List.reverseRecOn with
  | nil => cases h
  | append_singleton answers last ih =>
      rw [lastAnswers_concat, Map.lookup_insert] at h
      split at h
      next heq =>
        obtain rfl := Option.some.inj h
        rw [heq]
        exact List.mem_append_right _ (List.mem_singleton_self _)
      next => exact List.mem_append_left _ (ih h)

variable [DecidableEq Answer]

/-- The voters whose current answer is the given one. -/
def Map.holders (answers : Map Voter Answer) (answer : Answer) : Finset Voter :=
  answers.keys.filter fun voter => answers.lookup voter = some answer

namespace Map

variable {answers : Map Voter Answer} {answer other : Answer} {voter : Voter} {bound : Nat}

@[simp] theorem mem_holders :
    voter ∈ answers.holders answer ↔ answers.lookup voter = some answer := by
  rw [holders, Finset.mem_filter, mem_keys_iff_lookup]
  constructor
  · exact And.right
  · intro hlookup
    exact ⟨⟨answer, hlookup⟩, hlookup⟩

theorem holders_insert_self :
    holders (answers.insert voter answer) answer = insert voter (answers.holders answer) := by
  ext who
  rw [mem_holders, lookup_insert, Finset.mem_insert, mem_holders]
  by_cases heq : who = voter
  · simp [heq]
  · simp [heq]

theorem holders_insert_subset (hne : other ≠ answer) :
    holders (answers.insert voter answer) other ⊆ answers.holders other := by
  intro who hwho
  rw [mem_holders, lookup_insert] at hwho
  split at hwho
  · exact absurd (Option.some.inj hwho).symm hne
  · exact mem_holders.mpr hwho

/-- No answer is held by more than the given number of voters. -/
def Scattered (bound : Nat) (answers : Map Voter Answer) : Prop :=
  ∀ answer, (answers.holders answer).card ≤ bound

theorem Scattered.empty : Scattered bound (∅ : Map Voter Answer) := by
  intro answer
  have hempty : holders (∅ : Map Voter Answer) answer = ∅ := by
    apply Finset.eq_empty_of_forall_notMem
    intro who hwho
    rw [mem_holders, Finmap.lookup_empty] at hwho
    cases hwho
  rw [hempty, Finset.card_empty]
  exact Nat.zero_le bound

theorem Scattered.card_insert_le (h : Scattered bound answers) (voter : Voter) (answer : Answer) :
    (holders (answers.insert voter answer) answer).card ≤ bound + 1 := by
  rw [holders_insert_self]
  exact (Finset.card_insert_le _ _).trans (Nat.succ_le_succ (h answer))

theorem Scattered.insert (h : Scattered bound answers)
    (hfew : (holders (answers.insert voter answer) answer).card ≤ bound) :
    Scattered bound (answers.insert voter answer) := by
  intro other
  by_cases heq : other = answer
  · rw [heq]
    exact hfew
  · exact (Finset.card_le_card (holders_insert_subset heq)).trans (h other)

end Map

variable {bound : Nat} {answers : List (Voter × Answer)} {last : Voter × Answer}

/-- More voters than the bound hold the answer. -/
def Agreed (bound : Nat) (answers : List (Voter × Answer)) (answer : Answer) : Prop :=
  bound < ((lastAnswers answers).holders answer).card

instance (answer : Answer) : Decidable (Agreed bound answers answer) :=
  inferInstanceAs (Decidable (_ < _))

/-- At no time did the answer just given become one that the voters agree on. -/
def Undecided (bound : Nat) (answers : List (Voter × Answer)) : Prop :=
  ∀ earlier answer, earlier ++ [answer] <+: answers → ¬Agreed bound (earlier ++ [answer]) answer.2

theorem Undecided.nil : Undecided bound ([] : List (Voter × Answer)) := by
  intro earlier answer hprefix
  have hlength := hprefix.length_le
  simp at hlength

theorem undecided_concat : Undecided bound (answers ++ [last]) ↔
    Undecided bound answers ∧ ¬Agreed bound (answers ++ [last]) last.2 := by
  constructor
  · intro h
    refine ⟨?_, h answers last List.prefix_rfl⟩
    intro earlier answer hprefix
    exact h earlier answer (List.IsPrefix.trans hprefix (List.prefix_append _ _))
  · rintro ⟨h, hlast⟩ earlier answer hprefix
    rcases List.prefix_concat_iff.mp hprefix with heq | hold
    · obtain ⟨rfl, hsame⟩ := List.append_inj' heq rfl
      obtain rfl := List.singleton_inj.mp hsame
      exact hlast
    · exact h earlier answer hold

theorem Undecided.scattered (h : Undecided bound answers) :
    (lastAnswers answers).Scattered bound := by
  induction answers using List.reverseRecOn with
  | nil => exact Map.Scattered.empty
  | append_singleton answers last ih =>
      obtain ⟨hrest, hlast⟩ := undecided_concat.mp h
      rw [Agreed, lastAnswers_concat, not_lt] at hlast
      rw [lastAnswers_concat]
      exact (ih hrest).insert hlast

/-- The last answer is the first that the voters agree on at the time it is given. -/
def FirstAgreed (bound : Nat) (answers : List (Voter × Answer)) (last : Voter × Answer) : Prop :=
  Undecided bound answers ∧ Agreed bound (answers ++ [last]) last.2

/-- The first agreement is met exactly, not exceeded. -/
theorem Undecided.firstAgreed_iff (h : Undecided bound answers) : FirstAgreed bound answers last ↔
    (Map.holders ((lastAnswers answers).insert last.1 last.2) last.2).card = bound + 1 := by
  have hle := h.scattered.card_insert_le last.1 last.2
  rw [FirstAgreed, and_iff_right h, Agreed, lastAnswers_concat]
  omega

end BftKit.Foundation
