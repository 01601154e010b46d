import StagedDecoding.Scores.Draw
import StagedDecoding.Strategy.LoadedScores
import StagedDecoding.Strategy.Settings

/-! One row per batch entry; each step takes the best token or samples one.

A row that has produced an end token goes on with the pad token, so that rows keep one length. The
search is over when every row has ended, or for good once the histories were full. End marks are
set before the tokens are appended, and a refused append leaves them set.
-/

set_option autoImplicit false

namespace StagedDecoding

structure Greedy where
  settings : Settings
  histories : Histories
  scores : LoadedScores
  /-- Whether scores of every position are kept, not only of the last. -/
  everyPosition : Bool
  nextTokens : List Token
  /-- For each row, whether it has produced an end token. -/
  ended : List Bool
  /-- The number of rows that have not ended. -/
  running : Nat
  reachedCapacity : Bool
  done : Bool
  words : WordStream
  deriving Repr

namespace Greedy

def start (settings : Settings) (inputIds : List Token) (everyPosition : Bool) :
    Except Failure Greedy := do
  let rows := settings.batchSize
  let histories ← Histories.start inputIds rows 1 settings.maxLength
  return {
    settings := { settings with beams := 1 }
    histories := histories
    scores := .empty
    everyPosition := everyPosition
    nextTokens := List.replicate rows settings.pad
    ended := List.replicate rows false
    running := rows
    reachedCapacity := histories.isFull
    done := histories.isFull
    words := .ofSeed? settings.seed }

def setScores (tensor : Tensor) : Step Greedy Unit :=
  .attempt fun g => do
    let scores ← LoadedScores.load g.settings.batchSize g.settings.vocabulary g.everyPosition tensor
    return { g with scores := scores }

def constrainLength (minLength : Nat) : Step Greedy Unit :=
  .attempt fun g => do
    let scores ← g.scores.constrainLength minLength g.settings.endTokens g.histories
    return { g with scores := scores }

def penalize (penalty : Float32) : Step Greedy Unit :=
  .attempt fun g => do
    let scores ← g.scores.penalize penalty g.histories
    return { g with scores := scores }

/-- Decide anew whether the search is over. Full histories end it for good; end tokens may be
taken back later. -/
def refreshDone (g : Greedy) : Greedy :=
  let reached := g.reachedCapacity || g.histories.isFull
  { g with reachedCapacity := reached, done := reached || g.running = 0 }

/-- For each row with its end mark and chosen token, the token to append and the new mark, along
with the number of rows still running. -/
def settle (settings : Settings) :
    List (Bool × Token) → Nat → Except Failure (List (Token × Bool) × Nat)
  | [], running => .ok ([], running)
  | (true, _) :: rest, running => do
    let (settled, running) ← settle settings rest running
    return ((settings.pad, true) :: settled, running)
  | (false, token) :: rest, running => do
    if settings.isEnd token then
      match running with
      | 0 => throw (.defect .underflow)
      | running + 1 =>
        let (settled, running) ← settle settings rest running
        return ((token, true) :: settled, running)
    else
      let (settled, running) ← settle settings rest running
      return ((token, false) :: settled, running)

/-- One slot per row with the token chosen for it, whatever the latest selection has left. -/
def fillSlots (settings : Settings) (tokens : List Token) : Except Failure (List Token) :=
  (List.range settings.batchSize).foldlM (fun slots row => do
    store slots row (← fetch tokens row)) (List.replicate settings.batchSize settings.pad)

def markedSlots (settings : Settings) (ended : List Bool) (slots : List Token) :
    Except Failure (List (Bool × Token)) :=
  (List.range settings.batchSize).mapM fun row =>
    return (← fetch ended row, ← fetch slots row)

def commit (tokens : List Token) : Step Greedy Unit := do
  let g ← get
  let slots ← fillSlots g.settings tokens
  let marked ← markedSlots g.settings g.ended slots
  let settled : List (Token × Bool) × Nat ← settle g.settings marked g.running
  let next := settled.1.map Prod.fst
  let marked : Greedy := { g with
    nextTokens := next
    ended := settled.1.map Prod.snd
    running := settled.2 }
  set marked
  let histories ← marked.histories.append next
  set { marked with histories := histories, scores := marked.scores.consume }.refreshDone

def bestTokens (scores : LoadedScores) : List Nat → Except Failure (List Token)
  | [] => .ok []
  | row :: rest => do
    let token := Scores.argmax (← scores.last row)
    return token :: (← bestTokens scores rest)

def selectTop : Step Greedy Unit := do
  let g ← get
  g.scores.requireFresh
  commit (← bestTokens g.scores (List.range g.settings.batchSize))

def drawRows (sampling : Scores.Sampling) (scores : LoadedScores) (rows : List Nat)
    (words : WordStream) (elementary : Elementary := .native) :
    Except Failure (List Token × WordStream) :=
  match rows with
  | [] => .ok ([], words)
  | row :: rest => do
    let (token, words) := Scores.sample sampling (← scores.last row) words elementary
    let (tokens, words) ← drawRows sampling scores rest words elementary
    return (token :: tokens, words)

/-- Sample a token for every row. Rows that have ended take their draw, too. -/
def sample (sampling : Scores.Sampling) (elementary : Elementary := .native) :
    Step Greedy Unit := do
  let g ← get
  g.scores.requireFresh
  let drawn : List Token × WordStream ←
    drawRows sampling g.scores (List.range g.settings.batchSize) g.words elementary
  set { g with words := drawn.2 }
  commit drawn.1

def markAnew (settings : Settings) (histories : Histories) (ended : List Bool) :
    Except Failure (List Bool) :=
  (List.range settings.batchSize).foldlM (fun ended row => do
    store ended row ((← histories.generated row).any settings.isEnd)) ended

/-- Forget the last tokens of every row. A row whose end token is dropped runs again. -/
def dropLast (count : Nat) : Step Greedy Unit :=
  .attempt fun g => do
    let histories ← g.histories.dropLast count
    let ended ← markAnew g.settings histories g.ended
    return { g with
      histories := histories
      ended := ended
      running := ended.count false }.refreshDone

def cutAtEnd (settings : Settings) (tokens : List Token) : List Token × Bool :=
  match tokens.findIdx? settings.isEnd with
  | some i => (tokens.take (i + 1), true)
  | none => (tokens, false)

def markEnd (ends : Bool) (g : Greedy) : Except Failure Greedy := do
  if ends then return { g with ended := ← store g.ended 0 true, running := 0 }
  return g

def setNextTokens (tokens : List Token) : Step Greedy Unit := do
  let g ← get
  if g.settings.batchSize ≠ 1 then
    throw (.shape .singleRow (.count g.settings.batchSize))
  if ← fetch g.ended 0 then return
  let (run, ends) := cutAtEnd g.settings tokens
  let marked ← g.markEnd ends
  set marked
  let histories ← marked.histories.appendRun run
  set { marked with
    histories := histories
    nextTokens := run
    scores := marked.scores.consume }.refreshDone

def sequence (index : Nat) : Step Greedy (List Token) :=
  .inspect fun g =>
    if g.histories.rowCount ≤ index then
      .error (.shape (.indexBelow g.histories.rowCount) (.count index))
    else g.histories.row index

end Greedy

end StagedDecoding
