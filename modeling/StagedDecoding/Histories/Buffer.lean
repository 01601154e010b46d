import StagedDecoding.Histories

/-! Token histories in flat storage.

All rows lie in one buffer, each at a multiple of the capacity. Cells behind the current length keep
whatever was written there last. Rows that move are copied into a second buffer, and then the two
change places. Every access is checked against the size of its buffer.
-/

set_option autoImplicit false

namespace StagedDecoding

abbrev Cells := List Token

namespace Cells

def read (start count : Nat) (cells : Cells) : Except Failure (List Token) :=
  if start + count ≤ cells.length then .ok ((cells.drop start).take count)
  else .error (.defect .index)

def write (start : Nat) (run : List Token) (cells : Cells) : Except Failure Cells :=
  if start + run.length ≤ cells.length then
    .ok (cells.take start ++ run ++ cells.drop (start + run.length))
  else .error (.defect .index)

def writeRows (capacity offset : Nat) : Nat → List (List Token) → Cells → Except Failure Cells
  | _, [], cells => .ok cells
  | row, run :: rest, cells => do
    let written ← cells.write (row * capacity + offset) run
    writeRows capacity offset (row + 1) rest written

end Cells

structure HistoryBuffer where
  tokens : Cells
  /-- Where rows are copied to when they move. -/
  scratch : Cells
  rowCount : Nat
  capacity : Nat
  promptLength : Nat
  /-- The length of every row. -/
  length : Nat
  deriving DecidableEq, Repr

namespace HistoryBuffer

def copyPrompts (capacity beams : Nat) : Nat → List (List Token) → Cells → Except Failure Cells
  | _, [], cells => .ok cells
  | row, prompt :: rest, cells => do
    let written ← cells.writeRows capacity 0 row (List.replicate beams prompt)
    copyPrompts capacity beams (row + beams) rest written

def start (inputIds : List Token) (batch beams capacity : Nat) : Except Failure HistoryBuffer := do
  if batch = 0 || inputIds.length % batch ≠ 0 then
    throw (.shape (.inputMultiple batch) (.count inputIds.length))
  let promptLength := inputIds.length / batch
  if capacity < promptLength then throw (.overflow capacity)
  let blank := List.replicate (batch * beams * capacity) 0
  let prompts := (List.range batch).map fun entry =>
    (inputIds.drop (entry * promptLength)).take promptLength
  let tokens ← copyPrompts capacity beams 0 prompts blank
  return {
    tokens := tokens
    scratch := blank
    rowCount := batch * beams
    capacity := capacity
    promptLength := promptLength
    length := promptLength }

def isFull (b : HistoryBuffer) : Bool := b.capacity ≤ b.length

def sequence (b : HistoryBuffer) (row : Nat) : Except Failure (List Token) :=
  b.tokens.read (row * b.capacity) b.length

def promptKept (b : HistoryBuffer) : Nat := min b.promptLength b.length

def generated (b : HistoryBuffer) (row : Nat) : Except Failure (List Token) := do
  return (← b.sequence row).drop b.promptKept

def realLengths (pad : Token) (b : HistoryBuffer) : Except Failure (List Nat) :=
  (List.range b.rowCount).mapM fun row => do
    let tokens ← b.sequence row
    return (tokens.take b.promptKept).countP (· != pad) + (tokens.length - b.promptKept)

def checkRowCount (b : HistoryBuffer) (count : Nat) : Except Failure Unit :=
  if count = b.rowCount then .ok () else .error (.shape (.rowCount b.rowCount) (.count count))

def checkCapacity (b : HistoryBuffer) (extra : Nat) : Except Failure Unit :=
  if b.capacity < b.length + extra then .error (.overflow b.capacity) else .ok ()

def append (tokens : List Token) : Step HistoryBuffer Unit :=
  .attempt fun b => do
    b.checkRowCount tokens.length
    b.checkCapacity 1
    let cells ← b.tokens.writeRows b.capacity b.length 0 (tokens.map fun token => [token])
    return { b with tokens := cells, length := b.length + 1 }

/-- Copy the row of each parent, with a token behind it, into the scratch rows from `row` on. Rows
copied before a parent that does not exist stay copied. -/
def copyParents (b : HistoryBuffer) : Nat → List (Nat × Token) → Step Cells Unit
  | _, [] => return
  | row, (parent, token) :: rest => do
    if b.rowCount ≤ parent then throw (.shape (.parentBelow b.rowCount) (.count parent))
    let history ← b.sequence parent
    let written ← (← get).write (row * b.capacity) (history ++ [token])
    set written
    copyParents b (row + 1) rest

/-- Copy the rows of some parents, each with a token behind it, and let the buffers change places. -/
def moveRows (pairs : List (Nat × Token)) : Step HistoryBuffer Unit := do
  let b ← get
  Step.within HistoryBuffer.scratch (fun scratch b => { b with scratch := scratch })
    (copyParents b 0 pairs)
  modify fun b => { b with tokens := b.scratch, scratch := b.tokens, length := b.length + 1 }

def descend (parents : List Nat) (tokens : List Token) : Step HistoryBuffer Unit := do
  let b ← get
  b.checkRowCount parents.length
  b.checkRowCount tokens.length
  b.checkCapacity 1
  moveRows (parents.zip tokens)

def appendRun (tokens : List Token) : Step HistoryBuffer Unit :=
  .attempt fun b => do
    if b.rowCount ≠ 1 then throw (.shape .singleRow (.count b.rowCount))
    b.checkCapacity tokens.length
    let cells ← b.tokens.write b.length tokens
    return { b with tokens := cells, length := b.length + tokens.length }

/-- Forget the last tokens of every row. Their cells are not touched. -/
def dropLast (count : Nat) : Step HistoryBuffer Unit :=
  .attempt fun b =>
    if b.length < count then .error (.rollback count b.length)
    else .ok { b with length := b.length - count }

end HistoryBuffer

end StagedDecoding
