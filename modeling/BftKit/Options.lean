import BftKit.Basic
import BftKit.Foundation.Map
import BftKit.Foundation.Result

/-! # Options

Keys with the values given for them, the later ones over the earlier ones. A value stays
text until a configuration reads it at a type. Cutting the option text into keys and
values is left out.
-/

namespace BftKit

open Foundation

inductive OptionsError where
  | missing (key : String)
  /-- The last value of the key is no text of the type. -/
  | invalid
deriving DecidableEq

/-- A key has one value at least. -/
structure Options where
  entries : Map String { values : List String // values ≠ [] }

/-- The digits of a number, after a sign that may be there. -/
def unsignedDigits (text : String) : List Char :=
  if text.toList.head? = some '+' then text.toList.tail else text.toList

def decimal (digits : List Char) : Nat :=
  digits.foldl (fun value char => value * 10 + (char.toNat - 48)) 0

/-- `FromStr` of the unsigned integers of a width. -/
def parseUnsigned (width : Nat) (text : String) : Option Nat :=
  if unsignedDigits text = [] ∨ (unsignedDigits text).any (fun char => !char.isDigit) then none
  else if decimal (unsignedDigits text) < 2 ^ width then some (decimal (unsignedDigits text))
  else none

/-- `FromStr` of `bool`. -/
def parseBool (text : String) : Option Bool :=
  if text = "true" then some true else if text = "false" then some false else none

example : parseUnsigned 8 "+25" = some 25 ∧ parseUnsigned 8 "256" = none ∧
    parseUnsigned 8 "-2" = none := by decide +kernel

namespace Options

variable {Value : Type}

def new : Options := ⟨∅⟩

/-- One line of `parse`. -/
def push (options : Options) (key value : String) : Options where
  entries := match options.entries.lookup key with
    | none => options.entries.insert key ⟨[value], List.cons_ne_nil _ _⟩
    | some values => options.entries.insert key ⟨values.1 ++ [value], by simp⟩

def tryGet (options : Options) (fromStr : String → Option Value) (key : String) :
    Except OptionsError (Option Value) :=
  match options.entries.lookup key with
  | none => .ok none
  | some values =>
      match fromStr (values.1.getLast values.2) with
      | none => .error .invalid
      | some value => .ok (some value)

def get (options : Options) (fromStr : String → Option Value) (key : String) :
    Except OptionsError Value :=
  match options.entries.lookup key with
  | none => .error (.missing key)
  | some values =>
      match fromStr (values.1.getLast values.2) with
      | none => .error .invalid
      | some value => .ok value

end Options

end BftKit
