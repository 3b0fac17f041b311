import BftKit.Pbft.CoreLaws
import BftKit.Pbft.Replica

/-! # Progress along a history

What the performed core actions say about block numbers, and which block numbers
wait for an action in the queue.
-/

namespace BftKit.Pbft

variable {crypto : Crypto}

/-! ## Performed actions -/

/-- What happens to a block number on the main path. On the primary, proposing
takes the place of preparing. -/
inductive Phase where
  | prepare
  | commit
  | finalize
deriving DecidableEq

namespace ReplicaCoreAction

def phaseOf (blockNum : Nat) : ReplicaCoreAction crypto → Option Phase
  | .propose other _ | .prepare other _ => if other = blockNum then some .prepare else none
  | .commit other => if other = blockNum then some .commit else none
  | .finalize other => if other = blockNum then some .finalize else none
  | .forward _ _ | .viewChange _ _ | .newView _ _ _ | .enterView => none

def finalized? : ReplicaCoreAction crypto → Option Nat
  | .finalize blockNum => some blockNum
  | _ => none

def proposal? : ReplicaCoreAction crypto → Option (List Command)
  | .propose _ commands => some commands
  | _ => none

/-- Prepares a block number. -/
@[simp] def prepares (blockNum : Nat) : ReplicaCoreAction crypto → Bool
  | .prepare other _ => other == blockNum
  | _ => false

/-- Commits a block number. -/
@[simp] def commits (blockNum : Nat) : ReplicaCoreAction crypto → Bool
  | .commit other => other == blockNum
  | _ => false

/-- Actions that are queued alone. -/
def Solo : ReplicaCoreAction crypto → Prop
  | .prepare _ _ | .commit _ | .forward _ _ => True
  | _ => False

end ReplicaCoreAction

open ReplicaCoreAction

/-- The phases that performed actions take a block number through. -/
def phases (blockNum : Nat) (performed : ReplicaCoreActions crypto) : List Phase :=
  performed.filterMap (phaseOf blockNum)

def finalizeNums (performed : ReplicaCoreActions crypto) : List Nat :=
  performed.filterMap finalized?

def proposals (performed : ReplicaCoreActions crypto) : List (List Command) :=
  performed.filterMap proposal?

section

variable (performed : ReplicaCoreActions crypto) (action : ReplicaCoreAction crypto)

theorem phases_concat (blockNum : Nat) : phases blockNum (performed ++ [action]) =
    phases blockNum performed ++ (phaseOf blockNum action).toList := by
  rw [phases, List.filterMap_append]
  cases h : phaseOf blockNum action <;> simp [phases, h]

theorem finalizeNums_concat : finalizeNums (performed ++ [action]) =
    finalizeNums performed ++ (finalized? action).toList := by
  rw [finalizeNums, List.filterMap_append]
  cases h : finalized? action <;> simp [finalizeNums, h]

theorem proposals_concat : proposals (performed ++ [action]) =
    proposals performed ++ (proposal? action).toList := by
  rw [proposals, List.filterMap_append]
  cases h : proposal? action <;> simp [proposals, h]

theorem concat_solo {action : ReplicaCoreAction crypto} (hsolo : action.Solo) :
    finalizeNums (performed ++ [action]) = finalizeNums performed ∧
      proposals (performed ++ [action]) = proposals performed := by
  rw [finalizeNums_concat, proposals_concat]
  cases action with
  | prepare _ _ | commit _ | forward _ _ => simp [finalized?, proposal?]
  | propose _ _ | finalize _ | viewChange _ _ | newView _ _ _ | enterView => exact False.elim hsolo

end

namespace Replica

/-- The core action that an event performs. -/
def Event.performed? : Event crypto → Option (ReplicaCoreAction crypto)
  | .call _ _ => none
  | .perform action _ => some action

/-- The core actions performed along a history. -/
def performedIn (history : List (Event crypto)) : ReplicaCoreActions crypto :=
  history.filterMap Event.performed?

@[simp] theorem performedIn_nil : performedIn ([] : List (Event crypto)) = [] := rfl

@[simp] theorem performedIn_call (history : List (Event crypto)) (call : Call crypto)
    (actions : List (Action crypto)) :
    performedIn (history ++ [.call call actions]) = performedIn history := by
  simp [performedIn, Event.performed?]

theorem performedIn_concat (history : List (Event crypto)) (event : Event crypto) :
    performedIn (history ++ [event]) = performedIn history ++ event.performed?.toList := by
  cases event <;> simp [performedIn, Event.performed?]

@[simp] theorem performedIn_perform (history : List (Event crypto))
    (action : ReplicaCoreAction crypto) (actions : List (Action crypto)) :
    performedIn (history ++ [.perform action actions]) = performedIn history ++ [action] := by
  simp [performedIn, Event.performed?]

end Replica

/-! ## The queue -/

/-- A block number waits for its queued Prepare. -/
def preparing (blockNum : Nat) (queue : ReplicaCoreActions crypto) : Bool :=
  queue.any (prepares blockNum)

/-- A block number waits for its queued Commit. -/
def committing (blockNum : Nat) (queue : ReplicaCoreActions crypto) : Bool :=
  queue.any (commits blockNum)

section

variable (blockNum : Nat)

@[simp] theorem preparing_nil : preparing blockNum ([] : ReplicaCoreActions crypto) = false := rfl

@[simp] theorem committing_nil : committing blockNum ([] : ReplicaCoreActions crypto) = false := rfl

@[simp] theorem preparing_cons (action : ReplicaCoreAction crypto)
    (rest : ReplicaCoreActions crypto) :
    preparing blockNum (action :: rest) = (prepares blockNum action || preparing blockNum rest) :=
  rfl

@[simp] theorem committing_cons (action : ReplicaCoreAction crypto)
    (rest : ReplicaCoreActions crypto) :
    committing blockNum (action :: rest) = (commits blockNum action || committing blockNum rest) :=
  rfl

@[simp] theorem preparing_append (first second : ReplicaCoreActions crypto) :
    preparing blockNum (first ++ second) =
      (preparing blockNum first || preparing blockNum second) :=
  List.any_append

@[simp] theorem committing_append (first second : ReplicaCoreActions crypto) :
    committing blockNum (first ++ second) =
      (committing blockNum first || committing blockNum second) :=
  List.any_append

@[simp] theorem preparing_finalizeActions (done count : Nat) :
    preparing blockNum (finalizeActions crypto done count) = false := by
  simp [preparing, finalizeActions]

@[simp] theorem committing_finalizeActions (done count : Nat) :
    committing blockNum (finalizeActions crypto done count) = false := by
  simp [committing, finalizeActions]

@[simp] theorem preparing_proposeActions (stored : Nat) (lists : List (List Command)) :
    preparing blockNum (proposeActions crypto stored lists) = false := by
  simp [preparing, proposeActions]

@[simp] theorem committing_proposeActions (stored : Nat) (lists : List (List Command)) :
    committing blockNum (proposeActions crypto stored lists) = false := by
  simp [committing, proposeActions]

end

end BftKit.Pbft
