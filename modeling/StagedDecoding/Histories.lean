import StagedDecoding.Failure
import StagedDecoding.Scores.Basic

/-! Token histories of equal length.

Every batch entry owns consecutive rows. Rows start as copies of the entry's prompt and grow
together up to a fixed capacity. A refused operation leaves them as they were.
-/

set_option autoImplicit false

namespace StagedDecoding

structure Histories where
  rows : List (List Token)
  /-- The length of every row. -/
  length : Nat
  promptLength : Nat
  capacity : Nat
  deriving DecidableEq, Repr

namespace Histories

def start (inputIds : List Token) (batch beams capacity : Nat) : Except Failure Histories :=
  if batch = 0 || inputIds.length % batch ≠ 0 then
    .error (.shape (.inputMultiple batch) (.count inputIds.length))
  else
    let promptLength := inputIds.length / batch
    if capacity < promptLength then .error (.overflow capacity)
    else .ok {
      rows := (Tensor.blocks promptLength batch inputIds).flatMap (List.replicate beams)
      length := promptLength
      promptLength := promptLength
      capacity := capacity }

def rowCount (h : Histories) : Nat := h.rows.length

def isFull (h : Histories) : Bool := h.capacity ≤ h.length

def row (h : Histories) (i : Nat) : Except Failure (List Token) :=
  fetch h.rows i

def promptKept (h : Histories) : Nat := min h.promptLength h.length

def generatedPart (h : Histories) (row : List Token) : List Token :=
  row.drop h.promptKept

def generated (h : Histories) (i : Nat) : Except Failure (List Token) :=
  h.generatedPart <$> h.row i

/-- Row lengths without padding in the prompt. Generated tokens count whatever they are. -/
def realLengths (pad : Token) (h : Histories) : List Nat :=
  h.rows.map fun row =>
    (row.take h.promptKept).countP (· != pad) + (row.length - h.promptKept)

def checkRowCount (h : Histories) (count : Nat) : Except Failure Unit :=
  if count = h.rowCount then .ok () else .error (.shape (.rowCount h.rowCount) (.count count))

def checkCapacity (h : Histories) (extra : Nat) : Except Failure Unit :=
  if h.capacity < h.length + extra then .error (.overflow h.capacity) else .ok ()

def append (tokens : List Token) (h : Histories) : Except Failure Histories := do
  h.checkRowCount tokens.length
  h.checkCapacity 1
  return { h with
    rows := List.zipWith (fun row token => row ++ [token]) h.rows tokens
    length := h.length + 1 }

def parent (h : Histories) (i : Nat) : Except Failure (List Token) :=
  match h.rows[i]? with
  | some row => .ok row
  | none => .error (.shape (.parentBelow h.rowCount) (.count i))

/-- Replace every row by a copy of its parent, then append one token to each. -/
def descend (parents : List Nat) (tokens : List Token) (h : Histories) :
    Except Failure Histories := do
  h.checkRowCount parents.length
  h.checkRowCount tokens.length
  h.checkCapacity 1
  let ancestors ← parents.mapM h.parent
  return { h with
    rows := List.zipWith (fun row token => row ++ [token]) ancestors tokens
    length := h.length + 1 }

def appendRun (tokens : List Token) (h : Histories) : Except Failure Histories := do
  if h.rowCount ≠ 1 then throw (.shape .singleRow (.count h.rowCount))
  h.checkCapacity tokens.length
  return { h with rows := h.rows.map (· ++ tokens), length := h.length + tokens.length }

def dropLast (count : Nat) (h : Histories) : Except Failure Histories :=
  if h.length < count then .error (.rollback count h.length)
  else .ok { h with
    rows := h.rows.map (·.take (h.length - count))
    length := h.length - count }

end Histories

end StagedDecoding
