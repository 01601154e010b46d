import StagedDecoding.Json.Fault

/-! Documents as trees.

A tree keeps the order of its text, repeated keys included. Where the text stops being well formed
the tree has a fault, and nothing of the text after that point. Whoever walks a tree in the order
of the text therefore meets the fault exactly when everything before it has been accepted.
-/

set_option autoImplicit false

namespace StagedDecoding.Json

inductive Number where
  /-- An integer from zero, below `2^64`. -/
  | natural (n : Nat)
  /-- The negative of an integer from one to `2^63`. -/
  | negative (n : Nat)
  /-- Anything else: with a fraction or an exponent, out of range, or minus zero. -/
  | real (x : Float)
  deriving Repr

mutual

inductive Tree where
  | null
  | boolean (value : Bool)
  | number (value : Number)
  | text (value : String)
  | list (elements : Elements)
  | record (members : Members)
  | fault (cause : Fault)
  deriving Repr

inductive Elements where
  | done
  | fault (cause : Fault)
  | more (value : Tree) (rest : Elements)
  deriving Repr

inductive Members where
  | done
  | fault (cause : Fault)
  | more (key : String) (value : Tree) (rest : Members)
  deriving Repr

end

mutual

def Tree.firstFault : Tree → Option Fault
  | .list elements => elements.firstFault
  | .record members => members.firstFault
  | .fault cause => some cause
  | _ => none

def Elements.firstFault : Elements → Option Fault
  | .done => none
  | .fault cause => some cause
  | .more value rest => value.firstFault.or rest.firstFault

def Members.firstFault : Members → Option Fault
  | .done => none
  | .fault cause => some cause
  | .more _ value rest => value.firstFault.or rest.firstFault

end

end StagedDecoding.Json
