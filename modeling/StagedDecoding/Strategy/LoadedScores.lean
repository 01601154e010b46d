import StagedDecoding.Histories
import StagedDecoding.Scores.Constraint

/-! The latest scores of a model, by row and position.

Scores are fresh from the moment they are loaded until a selection uses them up. Selections and
constraints work on the last position of every row. Every access is checked against the rows, the
positions and the vocabulary of the latest load.
-/

set_option autoImplicit false

namespace StagedDecoding

structure LoadedScores where
  rows : List (List Scores)
  /-- The number of positions in every row. -/
  positions : Nat
  /-- The number of scores at every position. -/
  vocabulary : Nat
  fresh : Bool
  deriving Repr

namespace LoadedScores

def empty : LoadedScores := ⟨[], 0, 0, false⟩

def layOut (rows positions vocabulary : Nat) (values : List Float32) : List (List Scores) :=
  (Tensor.blocks (positions * vocabulary) rows values).map (Tensor.blocks vocabulary positions)

/-- Scores from a tensor of rows and tokens, or of rows, positions and tokens. Unless every
position is wanted, only the last one is kept. -/
def load (rows vocabulary : Nat) (everyPosition : Bool) (tensor : Tensor) :
    Except Failure LoadedScores :=
  match tensor.shape with
  | [r, v] => accept r 1 v (layOut r 1 v tensor.floats)
  | [r, n, v] =>
    let all := layOut r n v tensor.floats
    if everyPosition || n ≤ 1 then accept r n v all
    else accept r 1 v (all.map fun positions => positions.drop (n - 1))
  | shape => .error (.shape .scoreRank (.extents shape))
where
  accept (r n v : Nat) (scores : List (List Scores)) : Except Failure LoadedScores :=
    if r ≠ rows || (0 < vocabulary && v ≠ vocabulary) || n = 0 then
      .error (.shape (.scoreShape rows vocabulary) (.extents [r, n, v]))
    else if tensor.values.length ≠ Tensor.volume tensor.shape then .error (.tensor .elementCount)
    else .ok ⟨scores, n, v, true⟩

def consume (scores : LoadedScores) : LoadedScores := { scores with fresh := false }

def requireFresh (scores : LoadedScores) : Except Failure Unit :=
  if scores.fresh then .ok () else .error .scoresMissing

def scoresAt (scores : LoadedScores) (row position : Nat) : Except Failure Scores := do
  let own ← fetch (← fetch scores.rows row) position
  if own.length = scores.vocabulary then return own else throw (.defect .index)

def last (scores : LoadedScores) (row : Nat) : Except Failure Scores :=
  scores.scoresAt row (scores.positions - 1)

def adjust (row position : Nat) (change : Scores → Scores) (scores : LoadedScores) :
    Except Failure LoadedScores := do
  let own ← scores.scoresAt row position
  let positions ← store (← fetch scores.rows row) position (change own)
  return { scores with rows := ← store scores.rows row positions }

def adjustLast (change : Nat → Except Failure (Scores → Scores)) (scores : LoadedScores) :
    Except Failure LoadedScores :=
  (List.range scores.rows.length).foldlM (fun scores row => do
    scores.adjust row (scores.positions - 1) (← change row)) scores

def constrainLength (minLength : Nat) (endTokens : List Token) (histories : Histories)
    (scores : LoadedScores) : Except Failure LoadedScores := do
  scores.requireFresh
  if minLength ≤ histories.length then return scores
  scores.adjustLast fun _ => return Scores.suppress endTokens

def penalize (penalty : Float32) (histories : Histories) (scores : LoadedScores) :
    Except Failure LoadedScores := do
  scores.requireFresh
  if penalty == 1 then return scores
  scores.adjustLast fun row => return Scores.penalize penalty (← histories.row row)

end LoadedScores

end StagedDecoding
