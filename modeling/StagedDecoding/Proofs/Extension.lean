import StagedDecoding.Proofs.Committing
import StagedDecoding.Proofs.Predictions
import StagedDecoding.Proofs.Synchrony

/-! One step of a row-based search under a causal model.

Scores are loaded, constrained and used up by a choice. When the best token is chosen and the model
is causal, every row is extended as if it were decoded alone from its whole history.
-/

set_option autoImplicit false

namespace StagedDecoding

namespace Strategy

variable {before after : Strategy} {u : Unit} {g : Greedy}

def greedy? : Strategy → Option Greedy
  | .greedy g => some g
  | .beam _ => none
  | .speculative s => some s.inner

theorem exists_greedy? (kind : before.kind ≠ .beam) : ∃ g, before.greedy? = some g := by
  cases before with
  | greedy g => exact ⟨g, rfl⟩
  | beam _ => exact absurd rfl kind
  | speculative s => exact ⟨s.inner, rfl⟩

theorem of_greedy? (searches : before.greedy? = some g) :
    before.histories = g.histories ∧ before.settings = g.settings ∧ before.isDone = g.done ∧
      (before.Marked → g.Marked) := by
  cases before with
  | greedy own =>
    obtain rfl := Option.some.inj searches
    exact ⟨rfl, rfl, rfl, id⟩
  | beam _ => simp [greedy?] at searches
  | speculative s =>
    obtain rfl := Option.some.inj searches
    exact ⟨rfl, rfl, rfl, id⟩

theorem SameCourse.greedy? (same : SameCourse before after) (searches : before.greedy? = some g) :
    before.scores = g.scores ∧ after.greedy? = some { g with scores := after.scores } := by
  cases same with
  | greedy own _ =>
    obtain rfl := Option.some.inj searches
    exact ⟨rfl, rfl⟩
  | beam _ _ => simp [Strategy.greedy?] at searches
  | speculative s _ _ =>
    obtain rfl := Option.some.inj searches
    exact ⟨rfl, rfl⟩

theorem rowSearch_returns {α : Type} {step : Step Greedy α} {beam : Step Beam α} {a : α}
    (searches : before.greedy? = some g)
    (ran : Step.Returns (byCases step beam (Speculative.inside step)) before a after) :
    ∃ g', Step.Returns step g a g' ∧ after.greedy? = some g' := by
  rcases byCases_returns ran with ⟨own, g', rfl, rfl, passed⟩ | ⟨b, b', rfl, rfl, -⟩ |
    ⟨s, s', rfl, rfl, passed⟩
  · obtain rfl := Option.some.inj searches
    exact ⟨g', passed, rfl⟩
  · simp [greedy?] at searches
  · obtain rfl := Option.some.inj searches
    obtain ⟨inner, passed', rfl⟩ := Step.returns_within.mp passed
    exact ⟨inner, passed', rfl⟩

theorem setScores_greedy {tensor : Tensor} (searches : before.greedy? = some g)
    (ran : Step.Returns (setScores tensor) before u after) :
    ∃ scores, LoadedScores.load g.settings.batchSize g.settings.vocabulary g.everyPosition
        tensor = .ok scores ∧ after.greedy? = some { g with scores := scores } := by
  rcases byCases_returns ran with ⟨own, g', rfl, rfl, passed⟩ | ⟨b, b', rfl, rfl, -⟩ |
    ⟨s, s', rfl, rfl, passed⟩
  · obtain rfl := Option.some.inj searches
    simp only [Greedy.setScores, Step.returns_attempt, Outcome.bind_eq_ok,
      Outcome.pure_eq_ok] at passed
    obtain ⟨scores, loaded, rfl⟩ := passed
    exact ⟨scores, loaded, rfl⟩
  · simp [greedy?] at searches
  · obtain rfl := Option.some.inj searches
    obtain ⟨scores, loaded, inner, -⟩ := Speculative.setScores_returns passed
    exact ⟨scores, loaded, congrArg some inner⟩

theorem constrained_scores {minLength : Nat} {penalty : Float32} {lengthened : Strategy}
    (level : ∀ row ∈ before.histories.rows, row.length = before.histories.length)
    (longer : if 0 < minLength then
        Step.Returns (constrainLength minLength) before () lengthened
      else lengthened = before)
    (fewer : if penalty != 1 then Step.Returns (penalize penalty) lengthened () after
      else after = lengthened)
    {i : Nat} {row : List Token} (found : before.histories.rows[i]? = some row) :
    after.scores.last i =
      Scores.constrained minLength penalty before.settings.endTokens row <$>
        before.scores.last i := by
  obtain ⟨histories, suppressed⟩ : lengthened.histories = before.histories ∧
      lengthened.scores.last i = (fun own => if minLength ≤ row.length then own
        else Scores.suppress before.settings.endTokens own) <$> before.scores.last i := by
    split at longer
    · have changed := scores_of_rescore (fun settings histories scores =>
        scores.constrainLength minLength settings.endTokens histories) longer
      rw [LoadedScores.constrainLength_last changed, level row (List.mem_of_getElem? found)]
      exact ⟨(constrainLength_returns longer).histories, rfl⟩
    · next none =>
      have long : minLength ≤ row.length := by omega
      simp [longer, long]
  have penalized : after.scores.last i = (fun own => if penalty == 1 then own
      else Scores.penalize penalty row own) <$> lengthened.scores.last i := by
    split at fewer
    · exact LoadedScores.penalize_last (histories ▸ found) (scores_of_rescore
        (fun _ histories scores => scores.penalize penalty histories) fewer)
    · next neutral =>
      have neutral : (penalty == 1) = true := by simpa [bne] using neutral
      simp [fewer, neutral]
  rw [penalized, suppressed, Functor.map_map]
  -- both constraints, one after the other, are the constraint by the history
  congr 1
  funext own
  exact Scores.constrained_eq minLength penalty before.settings.endTokens row own

theorem constrained_last {minLength : Nat} {penalty : Float32} {lengthened : Strategy}
    {f : List Token → Scores} (searches : before.greedy? = some g)
    (long : ∀ row ∈ g.histories.rows, row.length = g.histories.length)
    (scored : ∀ (i : Nat) row, g.histories.rows[i]? = some row → g.scores.last i = .ok (f row))
    (longer : if 0 < minLength then
        Step.Returns (constrainLength minLength) before () lengthened
      else lengthened = before)
    (fewer : if penalty != 1 then Step.Returns (penalize penalty) lengthened () after
      else after = lengthened) :
    ∃ scores, after.greedy? = some { g with scores := scores } ∧
      ∀ (i : Nat) row, g.histories.rows[i]? = some row → scores.last i =
        .ok (Scores.constrained minLength penalty g.settings.endTokens row (f row)) := by
  obtain ⟨histories, settings, -⟩ := of_greedy? searches
  obtain ⟨scores, searches'⟩ := (constraints_returns longer fewer).greedy? searches
  refine ⟨after.scores, searches', fun i row found => ?_⟩
  rw [constrained_scores (histories ▸ long) longer fewer (histories ▸ found), scores,
    scored i row found, settings]
  rfl

end Strategy

namespace Request

variable (request : Request) (next : List Token → Scores)

def hasEnded (row : List Token) : Bool :=
  Greedy.hasEnded request.settings request.promptLength row

/-- A row one token longer: by the best token after its whole history, or by the pad token if it
has ended. -/
def extend (row : List Token) : List Token :=
  row ++ [if request.hasEnded row then request.pad else request.settings.best row (next row)]

end Request

namespace Greedy

variable {g g' : Greedy} {u : Unit} {f : List Token → Scores}

theorem selectTop_rows (marked : g.Marked)
    (scored : ∀ (i : Nat) row, g.histories.rows[i]? = some row → g.scores.last i = .ok (f row))
    (ran : Step.Returns selectTop g u g') :
    g'.everyPosition = g.everyPosition ∧
      g'.histories.rows = g.histories.rows.map fun row =>
        row ++ [if hasEnded g.settings g.histories.promptLength row then g.settings.pad
          else Scores.argmax (f row)] := by
  obtain ⟨tokens, best, committed⟩ := selectTop_returns ran
  have marks : g.ended.length = g.histories.rows.length := by rw [marked.ended, List.length_map]
  obtain ⟨-, -, running, -, rfl⟩ := commit_returns marks committed
  refine ⟨rfl, ?_⟩
  have each := bestTokens_eq_ok.mp best
  have tokens : tokens = g.histories.rows.map fun row => Scores.argmax (f row) := by
    have count : g.histories.rows.length = tokens.length := by
      rw [marked.rows.count, ← each.length_eq, List.length_range]
    refine List.ext_getElem (by simp [count]) fun i here there => ?_
    rw [List.length_map] at there
    obtain ⟨own, found, same⟩ := each.get (by simpa [← marked.rows.count] using there) here
    simp only [List.get_eq_getElem, List.getElem_range] at found same
    rw [scored i _ (List.getElem?_eq_getElem there)] at found
    rw [same, ← Except.ok.inj found, List.getElem_map]
  simp only [refreshDone, marked.ended, tokens]
  refine List.ext_getElem (by simp) fun i here there => ?_
  simp [settleOne]
  split <;> rfl

end Greedy

theorem Strategy.Rooted.isDone_iff {request : Request} {strategy : Strategy} {g : Greedy}
    (rooted : strategy.Rooted request) (marked : strategy.Marked)
    (searches : strategy.greedy? = some g) :
    strategy.isDone = true ↔ request.settings.maxLength ≤ strategy.length ∨
      ∀ row ∈ strategy.histories.rows, request.hasEnded row = true := by
  obtain ⟨histories, settings, done, marks⟩ := of_greedy? searches
  have marked := marks marked
  have own : g.settings = request.settings := settings ▸ rooted.settings
  have prompt : g.histories.promptLength = request.promptLength := histories ▸ rooted.promptLength
  have capacity : g.histories.capacity = request.settings.maxLength := histories ▸ rooted.capacity
  rw [done, marked.done, marked.running, marked.ended, Bool.or_eq_true, Histories.isFull,
    decide_eq_true_eq, decide_eq_true_eq, List.count_eq_zero, capacity, length, histories, own,
    prompt]
  simp [Request.hasEnded]

namespace Generator

variable {β : Type} {model : Model β} {reading : Reading} {g middle g' : Generator β} {u : Unit}
  {next : List Token → Scores} {everyPosition : Bool}

/-- Computing scores and choosing the best token extends every row of a row-based search. -/
theorem InStep.extend_rows (inStep : InStep reading g) (honours : reading.Honours model)
    (causal : reading.ScoresBy next everyPosition) (idle : g.pendingScores = false)
    (config : g.config = reading.request.search) (picks : reading.request.search.sample = false)
    {s : Greedy} (searches : g.strategy.greedy? = some s)
    (computed : Step.Returns (computeScores model) g () middle)
    (generated : Step.Returns generateNextToken middle u g') :
    (∃ s', g'.strategy.greedy? = some s' ∧ s'.everyPosition = s.everyPosition) ∧
      g'.strategy.histories.rows = g.strategy.histories.rows.map (reading.request.extend next) := by
  obtain ⟨inStep', -, config', view, tensor, ran, whole, loading⟩ :=
    inStep.compute honours idle computed
  obtain ⟨kept, -, predicts⟩ := causal _ _ _ ran.scored
  obtain ⟨scores, loaded, now⟩ := Strategy.setScores_greedy searches loading
  obtain ⟨-, lengthened, penalized, chosen, longer, fewer, chose, rfl⟩ :=
    generateNextToken_returns generated
  obtain ⟨histories, settings, -, marks⟩ := Strategy.of_greedy? searches
  have rows := inStep.rooted.rows
  rw [histories] at rows whole
  obtain ⟨constrained, searches', best⟩ := Strategy.constrained_last now rows.width
    (fun i row found => LoadedScores.last_predicts predicts loaded (whole ▸ found)) longer fewer
  -- without sampling, the choice is the best token
  have top : choose middle.config = Strategy.selectTop := by simp [choose, config', config, picks]
  rw [top] at chose
  obtain ⟨s', selected, searches''⟩ := Strategy.rowSearch_returns searches' chose
  have marked : Greedy.Marked { s with scores := constrained } :=
    (marks inStep.marked).rescore constrained s.words
  obtain ⟨every, extended⟩ := Greedy.selectTop_rows marked best selected
  refine ⟨⟨s', searches'', every⟩, ?_⟩
  rw [(Strategy.of_greedy? searches'').1, histories, extended]
  have own : s.settings = reading.request.settings := settings ▸ inStep.rooted.settings
  have prompt : s.histories.promptLength = reading.request.promptLength :=
    histories ▸ inStep.rooted.promptLength
  simp only [own, prompt, config', config]
  rfl

end Generator

end StagedDecoding
