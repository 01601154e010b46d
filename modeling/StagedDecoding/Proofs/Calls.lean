import StagedDecoding.Proofs.Lineage

/-! The calls on a generator, taken apart.

A call that returns is a run of its session between two operations on its strategy. The lemmas here
name the states in between.
-/

set_option autoImplicit false

namespace StagedDecoding

def Strategy.selectTopBy (elementary : Elementary) : Step Strategy Unit :=
  byCases Greedy.selectTop (Beam.selectTop elementary) (Speculative.inside Greedy.selectTop)

namespace Generator

variable {β : Type} {model : Model β} {before after : Generator β}

def feed (g : Generator β) : List Token :=
  g.pendingFeed.getD g.strategy.nextTokens

/-- The part of a draft that fits into the histories, with one more token. -/
def clip (g : Generator β) (draft : List Token) : List Token :=
  draft.take (g.strategy.histories.capacity - (g.strategy.length + 1))

theorem takeFeed_returns {tokens : List Token} :
    Step.Returns takeFeed before tokens after ↔
      before.feed = tokens ∧ { before with pendingFeed := none } = after := by
  simp only [takeFeed, Step.returns_bind, Step.returns_get, Step.returns_set, Step.returns_pure]
  constructor
  · rintro ⟨_, _, ⟨rfl, rfl⟩, _, _, rfl, rfl, rfl⟩
    exact ⟨rfl, rfl⟩
  · rintro ⟨rfl, rfl⟩
    exact ⟨_, _, ⟨rfl, rfl⟩, (), _, rfl, rfl, rfl⟩

theorem onStrategy_returns {α : Type} {step : Step Strategy α} {a : α} :
    Step.Returns (onStrategy step) before a after ↔
      ∃ strategy, Step.Returns step before.strategy a strategy ∧
        { before with strategy := strategy } = after :=
  Step.returns_within

theorem onSession_returns {α : Type} {step : Step (Session β) α} {a : α} :
    Step.Returns (onSession step) before a after ↔
      ∃ session, Step.Returns step before.session a session ∧
        { before with session := session } = after :=
  Step.returns_within

theorem computeScores_returns {u : Unit} :
    Step.Returns (computeScores model) before u after ↔
      ∃ tensor session strategy,
        Step.Returns (Session.run model before.strategy.length before.feed
          before.strategy.nextIndices) before.session tensor session ∧
        Step.Returns (Strategy.setScores tensor) before.strategy () strategy ∧
        after = { before with
          session := session
          strategy := strategy
          pendingScores := true
          pendingFeed := none } := by
  simp only [computeScores, Step.returns_bind, takeFeed_returns, Step.returns_get,
    onSession_returns, onStrategy_returns, Step.returns_modify]
  constructor
  · rintro ⟨_, _, ⟨rfl, rfl⟩, _, _, ⟨rfl, rfl⟩, tensor, _, ⟨session, ran, rfl⟩, _, _,
      ⟨strategy, loaded, rfl⟩, rfl⟩
    exact ⟨tensor, session, strategy, ran, loaded, rfl⟩
  · rintro ⟨tensor, session, strategy, ran, loaded, rfl⟩
    exact ⟨_, _, ⟨rfl, rfl⟩, _, _, ⟨rfl, rfl⟩, tensor, _, ⟨session, ran, rfl⟩, (), _,
      ⟨strategy, loaded, rfl⟩, rfl⟩

theorem onStrategy_when {condition : Prop} [Decidable condition] {step : Step Strategy Unit} :
    (if condition then Step.Returns (onStrategy step) before () after else after = before) ↔
      ∃ strategy,
        (if condition then Step.Returns step before.strategy () strategy
        else strategy = before.strategy) ∧ { before with strategy := strategy } = after := by
  by_cases holds : condition
  · simp only [holds, if_true, onStrategy_returns]
  · simp only [holds, if_false, exists_eq_left]
    exact eq_comm

def chooseBy (elementary : Elementary) (config : SearchConfig) : Step Strategy Unit :=
  if !config.sample || config.topK = 1 then Strategy.selectTopBy elementary else choose config

def generateBy (elementary : Elementary) : Step (Generator β) Unit := do
  let g ← get
  if !g.pendingScores then throw .scoresMissing
  set { g with pendingScores := false }
  if 0 < g.config.minLength then onStrategy (Strategy.constrainLength g.config.minLength)
  if g.config.repetitionPenalty != 1 then
    onStrategy (Strategy.penalize g.config.repetitionPenalty)
  onStrategy (chooseBy elementary g.config)

theorem chooseBy_native : chooseBy .native = choose := by
  funext config
  unfold chooseBy
  split
  · next picks =>
    rw [choose, if_pos picks]
    rfl
  · rfl

theorem generateBy_native : generateBy .native = (generateNextToken : Step (Generator β) Unit) := by
  rw [generateBy, chooseBy_native]
  rfl

def runToEndBy (elementary : Elementary) (model : Model β) : Nat → Step (Generator β) Unit
  | 0 => return
  | bound + 1 => do
    if (← get).isDone then return
    computeScores model
    generateBy elementary
    runToEndBy elementary model bound

theorem runToEndBy_native (model : Model β) (bound : Nat) :
    runToEndBy .native model bound = runToEnd model bound := by
  induction bound with
  | zero => rfl
  | succ bound ih =>
    rw [runToEndBy, generateBy_native, ih]
    rfl

def completeBy (elementary : Elementary) (model : Model β) :
    Step (Generator β) (List (List Token)) := do
  let histories := (← get).strategy.histories
  runToEndBy elementary model (histories.capacity - histories.length + 1)
  sequences (List.range (← get).resultCount)

theorem completeBy_native (model : Model β) : completeBy .native model = generate model := by
  simp only [completeBy, runToEndBy_native]
  rfl

theorem generateBy_returns {elementary : Elementary} {u : Unit}
    (ran : Step.Returns (generateBy elementary) before u after) :
    before.pendingScores = true ∧ ∃ lengthened penalized chosen,
      (if 0 < before.config.minLength then
        Step.Returns (Strategy.constrainLength before.config.minLength) before.strategy ()
          lengthened
      else lengthened = before.strategy) ∧
      (if before.config.repetitionPenalty != 1 then
        Step.Returns (Strategy.penalize before.config.repetitionPenalty) lengthened () penalized
      else penalized = lengthened) ∧
      Step.Returns (chooseBy elementary before.config) penalized () chosen ∧
      after = { before with strategy := chosen, pendingScores := false } := by
  simp only [generateBy, Step.returns_bind, Step.returns_get, Step.throw_bind,
    Step.returns_guard, Step.returns_set, Step.returns_when] at ran
  obtain ⟨_, _, ⟨rfl, rfl⟩, pending, _, _, rfl, _, first, _, second, last⟩ := ran
  obtain ⟨lengthened, longer, rfl⟩ := onStrategy_when.mp first
  obtain ⟨penalized, fewer, rfl⟩ := onStrategy_when.mp second
  obtain ⟨chosen, passed, rfl⟩ := onStrategy_returns.mp last
  exact ⟨by simpa using pending, lengthened, penalized, chosen, longer, fewer, passed, rfl⟩

theorem generateNextToken_returns {u : Unit}
    (ran : Step.Returns generateNextToken before u after) :
    before.pendingScores = true ∧ ∃ lengthened penalized chosen,
      (if 0 < before.config.minLength then
        Step.Returns (Strategy.constrainLength before.config.minLength) before.strategy ()
          lengthened
      else lengthened = before.strategy) ∧
      (if before.config.repetitionPenalty != 1 then
        Step.Returns (Strategy.penalize before.config.repetitionPenalty) lengthened () penalized
      else penalized = lengthened) ∧
      Step.Returns (choose before.config) penalized () chosen ∧
      after = { before with strategy := chosen, pendingScores := false } := by
  rw [← generateBy_native] at ran
  rw [← chooseBy_native]
  exact generateBy_returns ran

/-- Draft verification proper, on a search that goes on: one run over the draft, the verdict on
it, and the way back over what was not accepted. -/
structure Verifies (model : Model β) (draft : List Token) (before : Generator β)
    (verdict : Verdict) (after : Generator β) : Prop where
  steps : ∃ tensor session loaded committed asked checked kept rolled,
    Step.Returns (Session.run model (before.strategy.length + (before.clip draft).length)
      (before.feed ++ before.clip draft) []) before.session tensor session ∧
    Step.Returns (Strategy.setScores tensor) before.strategy () loaded ∧
    Step.Returns (Strategy.sequence 0) loaded committed asked ∧
    Step.Returns (Strategy.checkCandidates (committed ++ before.clip draft)
      (before.clip draft).length) asked verdict checked ∧
    Step.Returns (Strategy.setNextTokens verdict.committed) checked () kept ∧
    Step.Returns (Session.rollback ((before.clip draft).length - verdict.accepted.length)) session
      () rolled ∧
    after = { before with
      session := rolled
      strategy := kept
      pendingFeed := verdict.correction.map fun token => [token] }

theorem verifyCandidates_returns {draft : List Token} {verdict : Verdict}
    (ran : Step.Returns (verifyCandidates model draft) before verdict after) :
    before.strategy.kind = .speculative ∧ before.pendingScores = false ∧ ∃ middle,
      (if before.session.first then
        ∃ computed, Step.Returns (computeScores model) before () computed ∧
          Step.Returns generateNextToken computed () middle
      else middle = before) ∧
      (if middle.isDone then verdict = .empty ∧ after = middle
      else Verifies model draft middle verdict after) := by
  simp only [verifyCandidates, Step.returns_bind, Step.returns_get, Step.throw_bind,
    Step.returns_guard, Step.returns_whenBoth] at ran
  obtain ⟨_, _, ⟨rfl, rfl⟩, kind, pending, middle, prompt, _, _, ⟨rfl, rfl⟩, ran⟩ := ran
  refine ⟨Decidable.not_not.mp kind, by simpa using pending, _, prompt, ?_⟩
  split at ran
  case isTrue done =>
    obtain ⟨rfl, rfl⟩ := Step.returns_pure.mp ran
    exact if_pos done ▸ ⟨rfl, rfl⟩
  case isFalse runs =>
    rw [if_neg runs]
    simp only [Step.returns_bind, takeFeed_returns, onSession_returns, onStrategy_returns,
      sequence, Step.returns_modify, Step.returns_pure] at ran
    obtain ⟨_, _, ⟨rfl, rfl⟩, tensor, _, ⟨session, ran', rfl⟩, _, _, ⟨loaded, scores, rfl⟩,
      committed, _, ⟨loaded', asked, rfl⟩, verdict', _, ⟨checked, decided, rfl⟩, _, _,
      ⟨kept, set, rfl⟩, _, _, ⟨rolled, back, rfl⟩, _, _, rfl, rfl, rfl⟩ := ran
    exact ⟨tensor, session, loaded, committed, loaded', checked, kept, rolled, ran', scores, asked,
      decided, set, back, rfl⟩

/-- A successful call. Scores are computed only when none are waiting. -/
inductive Call (model : Model β) : Generator β → Generator β → Prop where
  | compute {g g' : Generator β} : g.pendingScores = false →
      Step.Returns (computeScores model) g () g' → Call model g g'
  | generate {g g' : Generator β} : Step.Returns generateNextToken g () g' → Call model g g'
  | verify {g g' : Generator β} {draft : List Token} {verdict : Verdict} :
      Step.Returns (verifyCandidates model draft) g verdict g' → Call model g g'

end Generator

end StagedDecoding
