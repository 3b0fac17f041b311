import Mathlib.Algebra.GroupWithZero.Nat
import Mathlib.Data.List.Pairwise
import Mathlib.Order.Fin.Basic

/-! # Vocabulary shared by the protocols

Identifiers, client commands, replica actions, and the ways a call can panic.
Client numbers are hashed and heights are chosen by whoever sends a block, so both
keep their width. Counters that only ever count up by one (views, block numbers)
and replica ids are naturals; a check that adds in the width of the ids says so.
-/

namespace BftKit

/-- Unsigned 32-bit integers. -/
abbrev U32 := Fin (2 ^ 32)

instance U32.neZero : NeZero (2 ^ 32) := inferInstance

abbrev ClientId := U32

abbrev ClientSeq := U32

structure Command where
  clientId : ClientId
  seq : ClientSeq
  op : List UInt8
deriving DecidableEq

/-- What a replica asks its environment to do. -/
inductive ReplicaAction (Message : Type) where
  | sendToReplica (id : Nat) (message : Message)
  /-- Except loopback. -/
  | sendToAllReplicas (message : Message)
  | finalize (commands : List Command)
deriving DecidableEq

namespace ReplicaAction

variable {Message : Type}

/-- The message that an action sends. -/
def message? : ReplicaAction Message → Option Message
  | .sendToReplica _ message | .sendToAllReplicas message => some message
  | .finalize _ => none

/-- The commands that an action finalizes. -/
def finalized? : ReplicaAction Message → Option (List Command)
  | .sendToReplica _ _ | .sendToAllReplicas _ => none
  | .finalize commands => some commands

/-- The messages of an action, with their receivers. -/
def deliveries (numReplica sender : Nat) : ReplicaAction Message → List (Nat × Message)
  | .sendToReplica id message => [(id, message)]
  | .sendToAllReplicas message =>
      ((List.range numReplica).filter (· ≠ sender)).map fun id => (id, message)
  | .finalize _ => []

theorem mem_deliveries {numReplica sender who : Nat} {action : ReplicaAction Message}
    {message : Message} : (who, message) ∈ action.deliveries numReplica sender ↔
      action = .sendToReplica who message ∨
        action = .sendToAllReplicas message ∧ who < numReplica ∧ who ≠ sender := by
  cases action with
  | sendToReplica id other => simp [deliveries, eq_comm]
  | sendToAllReplicas other =>
      simp only [deliveries, List.mem_map, List.mem_filter, List.mem_range, decide_eq_true_eq,
        Prod.mk.injEq, reduceCtorEq, sendToAllReplicas.injEq, false_or]
      constructor
      · rintro ⟨id, hid, rfl, rfl⟩
        exact ⟨rfl, hid⟩
      · rintro ⟨rfl, hid⟩
        exact ⟨who, hid, rfl, rfl⟩
  | finalize commands => simp [deliveries]

/-- What one receiver picks from a broadcast it is among the receivers of. -/
theorem deliveries_pick {Item : Type*} {numReplica sender who : Nat} (hwho : who < numReplica)
    (hne : who ≠ sender) (pick : Message → Option Item) (message : Message) :
    (deliveries numReplica sender (.sendToAllReplicas message)).filterMap
      (fun entry => if entry.1 = who then pick entry.2 else none) = (pick message).toList := by
  have hmem : who ∈ (List.range numReplica).filter (· ≠ sender) := by
    simpa using ⟨hwho, hne⟩
  have hnodup := List.nodup_range.filter (l := List.range numReplica) (· ≠ sender)
  rw [deliveries, List.filterMap_map]
  generalize (List.range numReplica).filter (· ≠ sender) = others at hmem hnodup
  induction others with
  | nil => cases hmem
  | cons id rest ih =>
      obtain ⟨hid, hrest⟩ := List.nodup_cons.mp hnodup
      rw [List.filterMap_cons, Function.comp_apply]
      by_cases heq : id = who
      · subst heq
        have hnone : rest.filterMap ((fun entry => if entry.1 = id then pick entry.2 else none) ∘
            fun id => (id, message)) = [] := by
          apply List.filterMap_eq_nil_iff.mpr
          intro other hother
          rw [Function.comp_apply, if_neg]
          rintro rfl
          exact hid hother
        rw [if_pos rfl, hnone]
        cases pick message <;> rfl
      · rw [if_neg heq]
        exact ih ((List.mem_cons.mp hmem).resolve_left (Ne.symm heq)) hrest

end ReplicaAction

/-- The `todo!` placeholders that a replica can run into. -/
inductive Todo where
  | viewChange
  | newView
  /-- `handle_vote_generic`, when the aggregation fails. -/
  | aggregateFallback
  /-- `Propose`, when too few commitments are left. -/
  | commitmentFallback
  | fetchJustified
deriving DecidableEq

/-- Ways in which a call ends without returning. -/
inductive Panic where
  /-- An unsigned subtraction below zero. -/
  | underflow
  /-- An unsigned addition past the width. -/
  | overflow
  /-- A vector or map index that is not there. -/
  | index
  /-- `public_keys[replica_id]` for an id from a message. -/
  | publicKeyIndex
  | unwrap
  | assert
  /-- The bound on batches that `close_batch` of the open-loop pool asserts. -/
  | batchSize
  /-- A recursion that does not end. -/
  | recursion
  | todo (what : Todo)
deriving DecidableEq

/-- The sequence numbers of each client strictly increase along the list. -/
def SeqIncreasing (commands : List Command) : Prop :=
  commands.Pairwise fun earlier later => earlier.clientId = later.clientId → earlier.seq < later.seq

namespace SeqIncreasing

theorem nil : SeqIncreasing [] := List.Pairwise.nil

theorem append_iff {first second : List Command} :
    SeqIncreasing (first ++ second) ↔ SeqIncreasing first ∧ SeqIncreasing second ∧
      ∀ earlier ∈ first, ∀ later ∈ second,
        earlier.clientId = later.clientId → earlier.seq < later.seq :=
  List.pairwise_append

theorem sublog {first second : List Command} (hpre : first <+: second)
    (hsecond : SeqIncreasing second) : SeqIncreasing first :=
  List.Pairwise.sublist hpre.sublist hsecond

/-- No client has a sequence number twice. -/
theorem nodup {commands : List Command} (h : SeqIncreasing commands) :
    (commands.map fun command => (command.clientId, command.seq)).Nodup := by
  rw [List.Nodup, List.pairwise_map]
  refine h.imp fun hlt heq => ?_
  obtain ⟨hclient, hseq⟩ := Prod.mk.inj heq
  exact (hlt hclient).ne hseq

end SeqIncreasing

end BftKit
