import StagedDecoding.Session.Basic
import StagedDecoding.Strategy.Basic

/-! The generation loop.

A generator alternates between its session, which computes scores for the tokens chosen last, and
its strategy, which chooses tokens from them. Draft verification replaces this pair: it feeds the
last token with a whole draft, keeps what the scores agree with and rolls the session back over
the rest.
-/

set_option autoImplicit false

namespace StagedDecoding

structure Generator (β : Type) where
  session : Session β
  strategy : Strategy
  config : SearchConfig
  /-- Whether scores are computed that no selection has used. -/
  pendingScores : Bool
  /-- Tokens committed but not yet fed, where they are not those of the latest selection. -/
  pendingFeed : Option (List Token)
  deriving Repr

namespace Generator

variable {β : Type}

def create (config : Config) (request : Request) (model : β) (device : Device)
    (registry : DeviceRegistry) : Except Failure (Generator β) := do
  request.validate
  let strategy ← Strategy.create request.settings request.inputIds request.speculative
  let session ← Session.create config request model device registry
  return ⟨session, strategy, request.search, false, none⟩

def isDone (g : Generator β) : Bool := g.strategy.isDone

def onStrategy {α : Type} (step : Step Strategy α) : Step (Generator β) α :=
  .within Generator.strategy (fun strategy g => { g with strategy := strategy }) step

def onSession {α : Type} (step : Step (Session β) α) : Step (Generator β) α :=
  .within Generator.session (fun session g => { g with session := session }) step

def takeFeed : Step (Generator β) (List Token) := do
  let g ← get
  set { g with pendingFeed := none }
  return g.pendingFeed.getD g.strategy.nextTokens

def computeScores (model : Model β) : Step (Generator β) Unit := do
  let feed ← takeFeed
  let strategy := (← get).strategy
  let scores ← onSession (Session.run model strategy.length feed strategy.nextIndices)
  onStrategy (Strategy.setScores scores)
  modify fun g => { g with pendingScores := true }

def choose (config : SearchConfig) : Step Strategy Unit :=
  let truncates := config.topP > 0 && config.topP < 1
  if !config.sample || config.topK = 1 then Strategy.selectTop
  else if 1 < config.topK then
    if truncates then Strategy.sampleTopShare config.topK config.topP config.temperature
    else Strategy.sampleTop config.topK config.temperature
  else Strategy.sampleShare (if truncates then config.topP else 1) config.temperature

def generateNextToken : Step (Generator β) Unit := do
  let g ← get
  if !g.pendingScores then throw .scoresMissing
  set { g with pendingScores := false }
  if 0 < g.config.minLength then onStrategy (Strategy.constrainLength g.config.minLength)
  if g.config.repetitionPenalty != 1 then
    onStrategy (Strategy.penalize g.config.repetitionPenalty)
  onStrategy (choose g.config)

def sequence (index : Nat) : Step (Generator β) (List Token) :=
  onStrategy (Strategy.sequence index)

def sequences : List Nat → Step (Generator β) (List (List Token))
  | [] => return []
  | index :: rest => do
    let first ← sequence index
    return first :: (← sequences rest)

def resultCount (g : Generator β) : Nat :=
  let rows := g.strategy.histories.rowCount
  match g.strategy with
  | .beam _ => rows / max g.config.beams 1 * g.config.returnCount
  | _ => rows

def runToEnd (model : Model β) : Nat → Step (Generator β) Unit
  | 0 => return
  | bound + 1 => do
    if (← get).isDone then return
    computeScores model
    generateNextToken
    runToEnd model bound

/-- Run to the end and return every result. Each step makes the histories longer, so their
remaining capacity bounds the number of steps. -/
def generate (model : Model β) : Step (Generator β) (List (List Token)) := do
  let histories := (← get).strategy.histories
  runToEnd model (histories.capacity - histories.length + 1)
  sequences (List.range (← get).resultCount)

/-- Verify a draft and commit the part that the scores agree with, along with the token they put
after it. The prompt step runs first if it has not yet. The draft is cut so that everything fits
into the histories. -/
def verifyCandidates (model : Model β) (draft : List Token) : Step (Generator β) Verdict := do
  let g ← get
  let kind := g.strategy.kind
  if kind ≠ .speculative then throw (.unsupportedOperation kind .checkCandidates)
  if g.pendingScores then throw (.unsupportedOperation kind .verifyWithPendingScores)
  if g.session.first then
    computeScores model
    generateNextToken
  let g ← get
  if g.isDone then return .empty
  let length := g.strategy.length
  let draft := draft.take (g.strategy.histories.capacity - (length + 1))
  let feed ← takeFeed
  let scores ← onSession (Session.run model (length + draft.length) (feed ++ draft) [])
  onStrategy (Strategy.setScores scores)
  let committed ← sequence 0
  let verdict ← onStrategy (Strategy.checkCandidates (committed ++ draft) draft.length)
  onStrategy (Strategy.setNextTokens verdict.committed)
  onSession (Session.rollback (draft.length - verdict.accepted.length))
  modify fun g => { g with pendingFeed := verdict.correction.map fun token => [token] }
  return verdict

end Generator

end StagedDecoding
