import Mathlib.Data.List.Infix
import Mathlib.Order.Lattice

/-! # Records

The records of a log are the entries that are beyond all earlier ones with their key, as a
high-water mark for each key lets them through.
-/

namespace BftKit.Foundation

variable {Entry Key Number : Type*} [LinearOrder Number]

/-- An entry with the key is at least as high. -/
def Reached (key : Entry → Key) (number : Entry → Number) (log : List Entry) (entry : Entry) :
    Prop :=
  ∃ other ∈ log, key other = key entry ∧ number entry ≤ number other

variable {key : Entry → Key} {number : Entry → Number}

theorem Reached.mono {log log' : List Entry} {entry : Entry} (h : Reached key number log entry)
    (hsub : log ⊆ log') : Reached key number log' entry := by
  obtain ⟨other, hother, hreached⟩ := h
  exact ⟨other, hsub hother, hreached⟩

theorem Reached.trans {log : List Entry} {first second : Entry}
    (h : Reached key number log first) (hkey : key first = key second)
    (hnumber : number second ≤ number first) : Reached key number log second := by
  obtain ⟨other, hother, hsame, hle⟩ := h
  exact ⟨other, hother, hsame.trans hkey, hnumber.trans hle⟩

variable [DecidableEq Key]

instance (log : List Entry) (entry : Entry) : Decidable (Reached key number log entry) :=
  inferInstanceAs (Decidable (∃ other ∈ log, _))

/-- An entry joins the records unless one of them has reached it. -/
def record (key : Entry → Key) (number : Entry → Number) (kept : List Entry) (entry : Entry) :
    List Entry :=
  if Reached key number kept entry then kept else kept ++ [entry]

def records (key : Entry → Key) (number : Entry → Number) (log : List Entry) : List Entry :=
  log.foldl (record key number) []

@[simp] theorem records_nil : records key number [] = [] := rfl

theorem records_concat (log : List Entry) (entry : Entry) :
    records key number (log ++ [entry]) = record key number (records key number log) entry := by
  rw [records, List.foldl_append]
  rfl

theorem prefix_record (kept : List Entry) (entry : Entry) :
    kept <+: record key number kept entry := by
  unfold record
  split
  · exact List.prefix_rfl
  · exact List.prefix_append _ _

theorem records_prefix {log log' : List Entry} (h : log <+: log') :
    records key number log <+: records key number log' := by
  obtain ⟨rest, rfl⟩ := h
  induction rest using List.reverseRecOn with
  | nil => rw [List.append_nil]
  | append_singleton rest entry ih =>
      rw [← List.append_assoc, records_concat]
      exact ih.trans (prefix_record _ _)

theorem records_sublist (log : List Entry) : (records key number log).Sublist log := by
  induction log using List.reverseRecOn with
  | nil => exact List.Sublist.slnil
  | append_singleton log entry ih =>
      rw [records_concat, record]
      split
      · exact ih.trans (List.sublist_append_left _ _)
      · exact ih.append_right [entry]

/-- The records reach what the log does. -/
theorem reached_records_iff {log : List Entry} {entry : Entry} :
    Reached key number (records key number log) entry ↔ Reached key number log entry := by
  constructor
  · intro h
    exact h.mono (records_sublist log).subset
  · rintro ⟨other, hother, hkey, hnumber⟩
    induction log using List.reverseRecOn with
    | nil => cases hother
    | append_singleton log last ih =>
        rw [records_concat]
        rcases List.mem_append.mp hother with hold | hlast
        · exact (ih hold).mono (prefix_record _ _).subset
        · obtain rfl := List.mem_singleton.mp hlast
          rw [record]
          split
          next hreached => exact hreached.trans hkey hnumber
          next => exact ⟨other, by simp, hkey, hnumber⟩

/-- In the order of the records, the entries with a key are increasing. -/
theorem records_increasing (log : List Entry) :
    (records key number log).Pairwise fun earlier later =>
      key earlier = key later → number earlier < number later := by
  induction log using List.reverseRecOn with
  | nil => exact List.Pairwise.nil
  | append_singleton log entry ih =>
      rw [records_concat, record]
      split
      · exact ih
      next hnot =>
        rw [List.pairwise_append]
        refine ⟨ih, List.pairwise_singleton _ _, ?_⟩
        intro earlier hearlier later hlater hkey
        obtain rfl := List.mem_singleton.mp hlater
        exact lt_of_not_ge fun hle => hnot ⟨earlier, hearlier, hkey, hle⟩

end BftKit.Foundation
