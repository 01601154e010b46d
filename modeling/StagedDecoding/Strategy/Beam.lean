import StagedDecoding.Strategy.Hypotheses
import StagedDecoding.Strategy.LoadedScores
import StagedDecoding.Strategy.Settings

/-! Beam search.

Every batch entry owns consecutive rows. A step expands all of them by all tokens, ranks the
expansions by cumulative log probability and keeps as many as there are beams. End tokens among
the very best expansions finish a hypothesis instead of surviving. Survivors may descend from any
row of their entry, and their parents are kept so that other buffers can follow.
-/

set_option autoImplicit false

namespace StagedDecoding

structure Expansion where
  score : Float32
  token : Token
  beam : Nat
  deriving Repr

structure Survivor where
  score : Float32
  token : Token
  parent : Nat
  deriving Repr

structure BeamEntry where
  finished : Hypotheses
  done : Bool
  deriving Repr

structure Beam where
  settings : Settings
  histories : Histories
  scores : LoadedScores
  /-- The cumulative log probability of every row. -/
  beamScores : List Float32
  entries : List BeamEntry
  nextTokens : List Token
  nextIndices : List Nat
  done : Bool
  /-- The results, once they are fixed. -/
  finals : Option (List Scored)
  deriving Repr

namespace Beam

/-- The first score of every beam but the first of an entry, so that the first step expands one
row only. -/
def inactiveScore : Float32 := -1e9

def start (settings : Settings) (inputIds : List Token) : Except Failure Beam := do
  if settings.beams = 0 then throw (.config .settingsWithoutBeams)
  let rows := settings.rowCount
  let histories ← Histories.start inputIds settings.batchSize settings.beams settings.maxLength
  return {
    settings := settings
    histories := histories
    scores := .empty
    beamScores := (List.replicate settings.batchSize
      (0 :: List.replicate (settings.beams - 1) inactiveScore)).flatten
    entries := List.replicate settings.batchSize
      ⟨.empty settings.beams settings.lengthPenalty settings.earlyStopping, false⟩
    nextTokens := List.replicate rows settings.pad
    nextIndices := List.range rows
    done := histories.isFull
    finals := none }

def setScores (tensor : Tensor) : Step Beam Unit :=
  .attempt fun b => do
    let scores ← LoadedScores.load b.settings.rowCount b.settings.vocabulary false tensor
    return { b with scores := scores }

def constrainLength (minLength : Nat) : Step Beam Unit :=
  .attempt fun b => do
    let scores ← b.scores.constrainLength minLength b.settings.endTokens b.histories
    return { b with scores := scores }

def penalize (penalty : Float32) : Step Beam Unit :=
  .attempt fun b => do
    let scores ← b.scores.penalize penalty b.histories
    return { b with scores := scores }

def expand (elementary : Elementary) (b : Beam) (entry beam : Nat) :
    Except Failure (List Float32) := do
  let row := entry * b.settings.beams + beam
  let base ← fetch b.beamScores row
  let scores ← b.scores.last row
  return (scores.logSoftmaxBy elementary).map (· + base)

/-- How many of the best expansions of an entry are looked at: enough to leave a survivor for
every beam when each end token appears once per beam. -/
def rankDepth (settings : Settings) : Nat :=
  settings.beams * (1 + max settings.endTokens.length 1)

def expansionAt (vocabulary : Nat) (placed : Float32 × Nat) : Except Failure Expansion := do
  let (beam, token) ← divide placed.2 vocabulary
  return ⟨placed.1, token, beam⟩

/-- The best expansions of an entry, best first. Equal scores keep the order of beam and token. -/
def rank (elementary : Elementary) (b : Beam) (entry : Nat) :
    Except Failure (List Expansion) := do
  let totals ← (List.range b.settings.beams).mapM (b.expand elementary entry)
  let ordered := totals.flatten.zipIdx.mergeSort fun x y => !(x.1 < y.1)
  (ordered.take (rankDepth b.settings)).mapM (expansionAt b.scores.vocabulary)

def rankEntries (elementary : Elementary) (b : Beam) :
    List Nat → Except Failure (List (List Expansion))
  | [] => .ok []
  | entry :: rest => do
    let ranked ← b.rank elementary entry
    return ranked :: (← rankEntries elementary b rest)

def place (settings : Settings) (survivors : List Survivor) (next : Survivor) :
    Except Failure (List Survivor) :=
  if survivors.length < settings.beams then .ok (survivors ++ [next])
  else .error (.defect .index)

/-- Walk through ranked expansions until every beam has a survivor. An end token finishes a
hypothesis when it ranks among the first `beams` expansions, and is passed over otherwise. -/
def choose (settings : Settings) (histories : Histories) (entry : Nat) :
    Nat → List Expansion → List Survivor → Hypotheses →
      Except Failure (List Survivor × Hypotheses)
  | _, [], survivors, finished => .ok (survivors, finished)
  | rank, expansion :: rest, survivors, finished => do
    let row := entry * settings.beams + expansion.beam
    if settings.isEnd expansion.token then
      if settings.beams ≤ rank then
        choose settings histories entry (rank + 1) rest survivors finished
      else
        let history ← histories.row row
        choose settings histories entry (rank + 1) rest survivors
          (finished.add (history ++ [expansion.token]) expansion.score)
    else
      let survivors ← place settings survivors ⟨expansion.score, expansion.token, row⟩
      if survivors.length = settings.beams then return (survivors, finished)
      choose settings histories entry (rank + 1) rest survivors finished

def idleRows (settings : Settings) (entry : Nat) : List Survivor :=
  (List.range settings.beams).map fun beam => ⟨0, settings.pad, entry * settings.beams + beam⟩

/-- One step of an entry. Hypotheses finished on the way are kept even if too few survive. -/
def stepEntry (settings : Settings) (histories : Histories) (entry : Nat)
    (expansions : List Expansion) : Step BeamEntry (List Survivor) := do
  let state ← get
  if state.done then return idleRows settings entry
  let (survivors, finished) ← choose settings histories entry 0 expansions [] state.finished
  set { state with finished := finished }
  if survivors.length < settings.beams then
    throw (.shape (.survivors settings.beams) (.count survivors.length))
  let best := match expansions with
    | [] => Scores.negativeInfinity
    | first :: _ => first.score
  set { state with
    finished := finished
    done := finished.isDone best (histories.length + 1) }
  return survivors

/-- One step of all entries in order. Entries before one that fails have taken theirs. -/
def stepEntries (settings : Settings) (histories : Histories) :
    Nat → List (List Expansion) → Step (List BeamEntry) (List Survivor)
  | entry, expansions :: others => fun states =>
    match states with
    | [] => (.error (.defect .index), [])
    | state :: rest =>
      match stepEntry settings histories entry expansions state with
      | (.error failure, state) => (.error failure, state :: rest)
      | (.ok survivors, state) =>
        match stepEntries settings histories (entry + 1) others rest with
        | (.error failure, rest) => (.error failure, state :: rest)
        | (.ok more, rest) => (.ok (survivors ++ more), state :: rest)
  | _, [] => pure []

def selectTop (elementary : Elementary) : Step Beam Unit := do
  let b ← get
  b.scores.requireFresh
  if b.finals.isSome then throw (.unsupportedOperation .beam .selectAfterFinalize)
  let expansions : List (List Expansion) ←
    b.rankEntries elementary (List.range b.settings.batchSize)
  let survivors ← Step.within Beam.entries (fun entries b => { b with entries := entries })
    (stepEntries b.settings b.histories 0 expansions)
  let parents := survivors.map (·.parent)
  let tokens := survivors.map (·.token)
  let histories ← b.histories.descend parents tokens
  modify fun b => { b with
    histories := histories
    beamScores := survivors.map (·.score)
    nextTokens := tokens
    nextIndices := parents
    scores := b.scores.consume
    done := b.entries.all (·.done) || histories.isFull }

def offerRows (histories : Histories) (beamScores : List Float32) :
    List Nat → Hypotheses → Except Failure Hypotheses
  | [], finished => .ok finished
  | row :: rest, finished => do
    let history ← histories.row row
    let score ← fetch beamScores row
    offerRows histories beamScores rest (finished.add history score)

/-- The final hypotheses of an entry. Live rows of one that is not over compete with the finished
ones. -/
def closeEntry (settings : Settings) (histories : Histories) (beamScores : List Float32)
    (entry : Nat) (state : BeamEntry) : Except Failure BeamEntry := do
  if state.done then return state
  let rows := (List.range settings.beams).map (entry * settings.beams + ·)
  return { state with finished := ← offerRows histories beamScores rows state.finished }

def closeEntries (settings : Settings) (histories : Histories) (beamScores : List Float32)
    (states : List BeamEntry) : Except Failure (List BeamEntry) :=
  (List.range settings.batchSize).mapM fun entry => do
    closeEntry settings histories beamScores entry (← fetch states entry)

/-- Fix the results: the best `count` hypotheses of every entry. Later calls return the same. -/
def finalize (count : Nat) : Step Beam (List Scored) := do
  let b ← get
  match b.finals with
  | some finals => return finals
  | none =>
    if count = 0 || b.settings.beams < count then
      throw (.config (.resultCount b.settings.beams))
    let entries ← closeEntries b.settings b.histories b.beamScores b.entries
    let finals := entries.flatMap fun entry => entry.finished.ranked.take count
    set { b with entries := entries, finals := some finals, done := true }
    return finals

def sequence (index : Nat) : Step Beam (List Token) := do
  let b ← get
  let finals ← finalize b.settings.returnCount
  match finals[index]? with
  | some final => return final.tokens
  | none => throw (.shape (.indexBelow finals.length) (.count index))

end Beam

end StagedDecoding
