import StagedDecoding.Strategy.Greedy

/-! Greedy search that can also verify a draft against scores of several positions.

Position `i` predicts the token after the first `i` draft tokens, and the position after the whole
draft predicts the one that follows it. A position takes each constraint at most once per load.
-/

set_option autoImplicit false

namespace StagedDecoding

structure Marks where
  length : Bool
  penalty : Bool
  deriving DecidableEq, Repr

structure Verdict where
  /-- The longest prefix of the draft that the scores agree with. -/
  accepted : List Token
  /-- The token that the scores put after the accepted prefix, if they tell. -/
  correction : Option Token
  deriving DecidableEq, Repr

def Verdict.empty : Verdict := ⟨[], none⟩

def Verdict.committed (verdict : Verdict) : List Token :=
  verdict.accepted ++ verdict.correction.toList

structure Speculative where
  inner : Greedy
  marks : List Marks
  deriving Repr

namespace Speculative

def start (settings : Settings) (inputIds : List Token) : Except Failure Speculative := do
  if settings.rowCount ≠ 1 then throw (.config .severalSequences)
  return ⟨← Greedy.start settings inputIds true, []⟩

def inside {α : Type} (step : Step Greedy α) : Step Speculative α :=
  .within Speculative.inner (fun inner s => { s with inner := inner }) step

def positions (s : Speculative) : Nat := s.inner.scores.positions

def setScores (tensor : Tensor) : Step Speculative Unit := do
  inside (Greedy.setScores tensor)
  modify fun s => { s with marks := List.replicate s.positions ⟨false, false⟩ }

/-- Rule out end tokens at a position whose token would follow too short a history. -/
def constrainLength (historyLength minLength position : Nat) (s : Speculative) :
    Except Failure Speculative := do
  let mark ← fetch s.marks position
  if mark.length then return s
  let marks ← store s.marks position { mark with length := true }
  if minLength ≤ historyLength then return { s with marks := marks }
  let scores ← s.inner.scores.adjust 0 position (Scores.suppress s.inner.settings.endTokens)
  return { s with marks := marks, inner := { s.inner with scores := scores } }

def penalize (history : List Token) (penalty : Float32) (position : Nat) (s : Speculative) :
    Except Failure Speculative := do
  let mark ← fetch s.marks position
  if mark.penalty then return s
  let marks ← store s.marks position { mark with penalty := true }
  if penalty == 1 then return { s with marks := marks }
  let scores ← s.inner.scores.adjust 0 position (Scores.penalize penalty history)
  return { s with marks := marks, inner := { s.inner with scores := scores } }

def predict (history : List Token) (position : Nat) : Step Speculative Token := do
  let settings := (← get).inner.settings
  .attempt (constrainLength history.length settings.minLength position)
  .attempt (penalize history settings.repetitionPenalty position)
  let scores ← (← get).inner.scores.scoresAt 0 position
  return Scores.argmax scores

def verify (history : List Token) (position : Nat) :
    List Token → Step Speculative Verdict
  | [] => do
    if position < (← get).positions then
      return ⟨[], some (← predict history position)⟩
    else return .empty
  | token :: rest => do
    let target ← predict history position
    if target ≠ token then return ⟨[], some target⟩
    if (← get).inner.settings.isEnd token then return ⟨[token], none⟩
    let verdict ← verify (history ++ [token]) (position + 1) rest
    return { verdict with accepted := token :: verdict.accepted }

/-- Verify the last `count` tokens of a sequence. Acceptance stops at the first disagreement,
whose prediction is the correction, or right after an accepted end token. When all are accepted
and one more position is there, its prediction is the correction. -/
def checkCandidates (tokens : List Token) (count : Nat) : Step Speculative Verdict := do
  let s ← get
  s.inner.scores.requireFresh
  if tokens.length < count || s.positions < count then
    throw (.shape (.candidatesUpTo (min s.positions tokens.length)) (.count count))
  let committed := tokens.length - count
  verify (tokens.take committed) 0 (tokens.drop committed)

def checkPosition (position : Nat) (s : Speculative) : Except Failure Unit := do
  s.inner.scores.requireFresh
  if s.positions ≤ position then
    throw (.shape (.positionBelow s.positions) (.count position))

/-- Rule out end tokens at a position, counting the committed tokens and one draft token per
earlier position. -/
def constrainLengthAt (minLength position : Nat) : Step Speculative Unit :=
  .attempt fun s => do
    s.checkPosition position
    s.constrainLength (s.inner.histories.length + position) minLength position

def penalizeAt (penalty : Float32) (position : Nat) : Step Speculative Unit :=
  .attempt fun s => do
    s.checkPosition position
    s.penalize (← s.inner.histories.row 0) penalty position

end Speculative

end StagedDecoding
