import StagedDecoding.Proofs.Choices
import StagedDecoding.Proofs.Finals

/-! Searches that can go on.

A search is open as long as its results are not fixed. An open search takes scores of the right
shape, constrains them and chooses from them without fail while its histories have room, and it is
still open then.
-/

set_option autoImplicit false

namespace StagedDecoding.Strategy

variable {before after : Strategy} {vocab n : Nat} {u : Unit}

/-- The search can go on: its end marks or beams are sound and no results are fixed. Beams are done
when they are full, and a search that verifies drafts keeps the scores of every position. -/
def Open : Strategy → Prop
  | .greedy g => g.Marked
  | .beam b => b.Sound ∧ b.finals = none ∧ (b.histories.isFull = true → b.done = true)
  | .speculative s => s.inner.Marked ∧ s.inner.everyPosition = true

structure Scored (vocab : Nat) (strategy : Strategy) : Prop where
  filled : strategy.scores.Filled strategy.histories.rows.length vocab
  single : strategy.kind = .beam → strategy.scores.positions = 1

theorem Open.marked (opened : before.Open) : before.Marked := by
  cases before with
  | greedy g => exact opened
  | beam b => trivial
  | speculative s => exact opened.1

theorem Open.of_same (opened : before.Open) (same : SameCourse before after)
    (scored : after.Scored vocab) : after.Open := by
  cases same with
  | greedy g scores => exact Greedy.Marked.rescore (g := g) opened scores g.words
  | beam b scores =>
    have rows : b.histories.rows.length = b.settings.rowCount := opened.1.rows
    exact ⟨opened.1.rescore ⟨vocab, rows ▸ scored.filled.single (scored.single rfl)⟩, opened.2⟩
  | speculative s scores marks =>
    exact ⟨Greedy.Marked.rescore (g := s.inner) opened.1 scores s.inner.words, opened.2⟩

theorem Open.of_chosen (opened : before.Open) (chosen : Chosen before after) : after.Open := by
  have marked := opened.marked.of_chosen chosen
  cases chosen with
  | greedy _ => exact marked
  | @beam b b' stepped =>
    refine ⟨opened.1.selectTop stepped, ?_⟩
    obtain ⟨-, -, _, _, _, _, -, -, -, rfl⟩ := Beam.selectTop_returns.mp stepped
    exact ⟨opened.2.1, fun full => by simp [full]⟩
  | speculative committed =>
    obtain ⟨-, -, -, _, _, -, -, rfl⟩ := Greedy.commit_appends committed
    exact ⟨marked, opened.2⟩

theorem Open.room (opened : before.Open) (goes : before.isDone = false) :
    before.histories.isFull = false := by
  cases before with
  | greedy g =>
    have done : g.done = _ := opened.done
    rw [show g.done = false from goes] at done
    simp only [Bool.false_eq, Bool.or_eq_false_iff] at done
    exact done.1
  | beam b =>
    rw [← Bool.not_eq_true]
    intro full
    have done : b.done = true := opened.2.2 full
    rw [show b.done = false from goes] at done
    cases done
  | speculative s =>
    have done : s.inner.done = _ := opened.1.done
    rw [show s.inner.done = false from goes] at done
    simp only [Bool.false_eq, Bool.or_eq_false_iff] at done
    exact done.1

theorem create_open {request : Request} (prompted : request.Prompted)
    (created : create request.settings request.inputIds request.speculative = .ok before) :
    before.Open := by
  have marked := create_marked prompted created
  cases created_of_create created with
  | speculative _ started =>
    obtain ⟨_, -, rfl⟩ := Greedy.start_eq_ok started
    exact ⟨marked, rfl⟩
  | beam _ started =>
    refine ⟨Beam.start_sound started, ?_⟩
    obtain ⟨-, histories, -, rfl⟩ := Beam.start_eq_ok started
    exact ⟨rfl, id⟩
  | greedy _ _ => exact marked

theorem Open.setScores_total {tensor : Tensor} (opened : before.Open)
    (shape : tensor.shape = [before.histories.rows.length, n, vocab])
    (filled : tensor.values.length = Tensor.volume tensor.shape) (some : 0 < n)
    (fits : before.settings.vocabulary = 0 ∨ vocab = before.settings.vocabulary) :
    ∃ after, Step.Returns (setScores tensor) before () after ∧ after.Scored vocab ∧
      ∀ s, after = .speculative s → s.positions = n ∧ s.marks.length = n := by
  cases before with
  | greedy g =>
    have rows : g.histories.rows.length = g.settings.batchSize := opened.rows.count
    change tensor.shape = [g.histories.rows.length, n, vocab] at shape
    obtain ⟨scores, loaded, full, -⟩ :=
      LoadedScores.load_total g.everyPosition (rows ▸ shape) filled some fits
    refine ⟨.greedy { g with scores := scores }, returns_greedy ?_, ⟨rows ▸ full, by simp [kind]⟩,
      by simp⟩
    simp only [Greedy.setScores, Step.returns_attempt, Outcome.bind_eq_ok, Outcome.pure_eq_ok]
    exact ⟨scores, loaded, rfl⟩
  | beam b =>
    have rows : b.histories.rows.length = b.settings.rowCount := opened.1.rows
    change tensor.shape = [b.histories.rows.length, n, vocab] at shape
    obtain ⟨scores, loaded, full, single⟩ :=
      LoadedScores.load_total false (rows ▸ shape) filled some fits
    refine ⟨.beam { b with scores := scores }, returns_beam ?_, ⟨rows ▸ full, fun _ => single⟩,
      by simp⟩
    simp only [Beam.setScores, Step.returns_attempt, Outcome.bind_eq_ok, Outcome.pure_eq_ok]
    exact ⟨scores, loaded, rfl⟩
  | speculative s =>
    have rows : s.inner.histories.rows.length = s.inner.settings.batchSize := opened.1.rows.count
    change tensor.shape = [s.inner.histories.rows.length, n, vocab] at shape
    obtain ⟨scores, loaded, full, positions⟩ :=
      LoadedScores.load_total true (rows ▸ shape) filled some fits
    let inner : Greedy := { s.inner with scores := scores }
    -- drafts are verified against the scores at every position
    have every : s.inner.everyPosition = true := opened.2
    refine ⟨.speculative ⟨inner, List.replicate scores.positions ⟨false, false⟩⟩,
      returns_speculative ?_, ⟨rows ▸ full, by simp [kind]⟩, fun _ equal => ?_⟩
    · simp only [Speculative.setScores, Step.returns_bind, Step.returns_modify]
      refine ⟨(), { s with inner := inner }, returns_inside ?_, rfl⟩
      simp only [Greedy.setScores, Step.returns_attempt, Outcome.bind_eq_ok, Outcome.pure_eq_ok]
      exact ⟨scores, every.symm ▸ loaded, rfl⟩
    · obtain rfl := Strategy.speculative.inj equal
      exact ⟨positions, (List.length_replicate ..).trans positions⟩

theorem Open.of_loaded {tensor : Tensor} (opened : before.Open)
    (shape : tensor.shape = [before.histories.rows.length, n, vocab])
    (filled : tensor.values.length = Tensor.volume tensor.shape) (some : 0 < n)
    (fits : before.settings.vocabulary = 0 ∨ vocab = before.settings.vocabulary)
    (ran : Step.Returns (setScores tensor) before u after) : after.Open ∧ after.Scored vocab := by
  obtain ⟨_, total, scored, -⟩ := opened.setScores_total shape filled some fits
  obtain rfl := (Step.returns_unique ran total).2
  exact ⟨opened.of_same (setScores_returns ran) scored, scored⟩

theorem rescore_total
    (change : Settings → Histories → LoadedScores → Except Failure LoadedScores)
    {changed : LoadedScores}
    (possible : change before.settings before.histories before.scores = .ok changed) :
    ∃ after, Step.Returns
      (byCases
        (.attempt fun g => do
          let scores ← change g.settings g.histories g.scores
          return { g with scores := scores })
        (.attempt fun b => do
          let scores ← change b.settings b.histories b.scores
          return { b with scores := scores })
        (Speculative.inside (.attempt fun g => do
          let scores ← change g.settings g.histories g.scores
          return { g with scores := scores })))
      before () after ∧ SameCourse before after ∧ after.scores = changed := by
  cases before with
  | greedy g =>
    refine ⟨.greedy { g with scores := changed }, returns_greedy ?_, .greedy g changed, rfl⟩
    simp only [Step.returns_attempt, Outcome.bind_eq_ok, Outcome.pure_eq_ok]
    exact ⟨changed, possible, rfl⟩
  | beam b =>
    refine ⟨.beam { b with scores := changed }, returns_beam ?_, .beam b changed, rfl⟩
    simp only [Step.returns_attempt, Outcome.bind_eq_ok, Outcome.pure_eq_ok]
    exact ⟨changed, possible, rfl⟩
  | speculative s =>
    refine ⟨.speculative { s with inner := { s.inner with scores := changed } },
      returns_speculative (returns_inside ?_), .speculative s changed s.marks, rfl⟩
    simp only [Step.returns_attempt, Outcome.bind_eq_ok, Outcome.pure_eq_ok]
    exact ⟨changed, possible, rfl⟩

theorem Scored.of_same {changed : LoadedScores} (scored : before.Scored vocab)
    (same : SameCourse before after) (equal : after.scores = changed)
    (filled : changed.Filled before.histories.rows.length vocab)
    (positions : changed.positions = before.scores.positions) : after.Scored vocab := by
  rw [← equal] at filled positions
  exact ⟨same.histories ▸ filled, fun kind => positions.trans (scored.single (same.kind ▸ kind))⟩

theorem Scored.constrainLength_total (scored : before.Scored vocab) (minLength : Nat) :
    ∃ after, Step.Returns (constrainLength minLength) before () after ∧
      SameCourse before after ∧ after.Scored vocab := by
  obtain ⟨changed, possible, filled, positions⟩ :=
    scored.filled.constrainLength_total minLength before.settings.endTokens before.histories
  obtain ⟨after, ran, same, equal⟩ := rescore_total
    (fun settings histories scores => scores.constrainLength minLength settings.endTokens histories)
    possible
  exact ⟨after, ran, same, scored.of_same same equal filled positions⟩

theorem Scored.penalize_total (scored : before.Scored vocab) (penalty : Float32) :
    ∃ after, Step.Returns (penalize penalty) before () after ∧
      SameCourse before after ∧ after.Scored vocab := by
  obtain ⟨changed, possible, filled, positions⟩ :=
    scored.filled.penalize_total penalty (Nat.le_refl before.histories.rows.length)
  obtain ⟨after, ran, same, equal⟩ := rescore_total
    (fun _ histories scores => scores.penalize penalty histories) possible
  exact ⟨after, ran, same, scored.of_same same equal filled positions⟩

/-- Beam search needs a token that does not end a history. -/
theorem Open.selectTop_total {elementary : Elementary} (opened : before.Open) (scored : before.Scored vocab)
    (some : 0 < before.histories.rows.length) (room : before.histories.isFull = false)
    (goes : before.kind = .beam → ∃ token < vocab, before.settings.isEnd token = false) :
    ∃ after, Step.Returns (selectTopBy elementary) before () after := by
  cases before with
  | greedy g =>
    have rows : g.histories.rows.length = g.settings.batchSize := opened.rows.count
    obtain ⟨g', ran⟩ := Greedy.Marked.selectTop_total opened room (rows ▸ scored.filled)
    exact ⟨.greedy g', returns_greedy ran⟩
  | beam b =>
    -- the vocabulary of beams is read off the scores, so there has to be a row
    obtain ⟨sound, going, -⟩ := opened
    have filled : b.scores.Filled b.settings.rowCount vocab := sound.rows ▸ scored.filled
    have same : b.scores.vocabulary = vocab :=
      (filled.single (scored.single rfl)).vocabulary
    obtain ⟨b', ran⟩ := @Beam.Sound.selectTop_total elementary b sound filled.fresh going room
      (same.symm ▸ goes rfl)
    exact ⟨.beam b', returns_beam ran⟩
  | speculative s =>
    have rows : s.inner.histories.rows.length = s.inner.settings.batchSize := opened.1.rows.count
    obtain ⟨g', ran⟩ := Greedy.Marked.selectTop_total opened.1 room (rows ▸ scored.filled)
    exact ⟨.speculative { s with inner := g' }, returns_speculative (returns_inside ran)⟩

theorem Open.sample_total (opened : before.Open) (scored : before.Scored vocab)
    (room : before.histories.isFull = false) (kind : before.kind ≠ .beam) (operation : Operation)
    (sampling : Scores.Sampling) :
    ∃ after, Step.Returns (rowBased operation (Greedy.sample sampling)) before () after := by
  cases before with
  | greedy g =>
    have rows : g.histories.rows.length = g.settings.batchSize := opened.rows.count
    obtain ⟨g', ran⟩ := Greedy.Marked.sample_total opened room (rows ▸ scored.filled) sampling
    exact ⟨.greedy g', returns_greedy ran⟩
  | beam b => exact absurd rfl kind
  | speculative s =>
    have rows : s.inner.histories.rows.length = s.inner.settings.batchSize := opened.1.rows.count
    obtain ⟨g', ran⟩ := Greedy.Marked.sample_total opened.1 room (rows ▸ scored.filled) sampling
    exact ⟨.speculative { s with inner := g' }, returns_speculative (returns_inside ran)⟩

theorem Open.choose_total {elementary : Elementary} {config : SearchConfig} (opened : before.Open)
    (scored : before.Scored vocab) (some : 0 < before.histories.rows.length)
    (room : before.histories.isFull = false)
    (picks : before.kind = .beam →
      config.sample = false ∧ ∃ token < vocab, before.settings.isEnd token = false) :
    ∃ after, Step.Returns (Generator.chooseBy elementary config) before () after := by
  unfold Generator.chooseBy
  split
  · exact opened.selectTop_total scored some room fun kind => (picks kind).2
  · next samples =>
    -- only row-based searches come here, for beams are never sampled
    have kind : before.kind ≠ .beam := by
      intro kind
      simp [(picks kind).1] at samples
    have sampled := opened.sample_total scored room kind
    rw [Generator.choose, if_neg samples]
    split
    · split
      · exact sampled .sampleTopShare _
      · exact sampled .sampleTop _
    · exact sampled .sampleShare _

end StagedDecoding.Strategy

namespace StagedDecoding.Generator

variable {β : Type} {model : Model β} {g : Generator β} {vocab : Nat}

theorem returns_generateBy {elementary : Elementary} {lengthened penalized chosen : Strategy}
    (pending : g.pendingScores = true)
    (longer : if 0 < g.config.minLength then
        Step.Returns (Strategy.constrainLength g.config.minLength) g.strategy () lengthened
      else lengthened = g.strategy)
    (fewer : if g.config.repetitionPenalty != 1 then
        Step.Returns (Strategy.penalize g.config.repetitionPenalty) lengthened () penalized
      else penalized = lengthened)
    (passed : Step.Returns (chooseBy elementary g.config) penalized () chosen) :
    Step.Returns (generateBy elementary) g ()
      { g with strategy := chosen, pendingScores := false } := by
  simp only [generateBy, Step.returns_bind, Step.returns_get, Step.throw_bind,
    Step.returns_guard, Step.returns_set, Step.returns_when]
  refine ⟨g, g, ⟨rfl, rfl⟩, by simp [pending], (), { g with pendingScores := false }, rfl,
    { g with strategy := lengthened, pendingScores := false }, onStrategy_when.mpr ⟨_, longer, rfl⟩,
    { g with strategy := penalized, pendingScores := false }, onStrategy_when.mpr ⟨_, fewer, rfl⟩,
    onStrategy_returns.mpr ⟨chosen, passed, rfl⟩⟩

theorem constrained_total (scored : g.strategy.Scored vocab) :
    ∃ lengthened penalized,
      (if 0 < g.config.minLength then
        Step.Returns (Strategy.constrainLength g.config.minLength) g.strategy () lengthened
      else lengthened = g.strategy) ∧
      (if g.config.repetitionPenalty != 1 then
        Step.Returns (Strategy.penalize g.config.repetitionPenalty) lengthened () penalized
      else penalized = lengthened) ∧
      Strategy.SameCourse g.strategy penalized ∧ penalized.Scored vocab := by
  obtain ⟨lengthened, longer, same, scored⟩ : ∃ lengthened,
      (if 0 < g.config.minLength then
        Step.Returns (Strategy.constrainLength g.config.minLength) g.strategy () lengthened
      else lengthened = g.strategy) ∧ Strategy.SameCourse g.strategy lengthened ∧
        lengthened.Scored vocab := by
    split
    · exact scored.constrainLength_total g.config.minLength
    · exact ⟨g.strategy, rfl, .refl g.strategy, scored⟩
  by_cases wanted : (g.config.repetitionPenalty != 1) = true
  · obtain ⟨penalized, fewer, same', scored'⟩ := scored.penalize_total g.config.repetitionPenalty
    exact ⟨lengthened, penalized, longer, (if_pos wanted).symm ▸ fewer, same.trans same', scored'⟩
  · exact ⟨lengthened, lengthened, longer, (if_neg wanted).symm ▸ rfl, same, scored⟩

theorem generateBy_total {elementary : Elementary} (pending : g.pendingScores = true)
    (opened : g.strategy.Open) (scored : g.strategy.Scored vocab)
    (some : 0 < g.strategy.histories.rows.length) (room : g.strategy.histories.isFull = false)
    (picks : g.strategy.kind = .beam →
      g.config.sample = false ∧ ∃ token < vocab, g.strategy.settings.isEnd token = false) :
    ∃ g', Step.Returns (generateBy elementary) g () g' := by
  obtain ⟨lengthened, penalized, longer, fewer, same, scored⟩ := constrained_total scored
  have histories := same.histories
  obtain ⟨chosen, passed⟩ := @Strategy.Open.choose_total penalized vocab elementary g.config
    (opened.of_same same scored) scored (histories ▸ some) (histories ▸ room)
    (by rw [same.kind, same.settings]; exact picks)
  exact ⟨_, returns_generateBy pending longer fewer passed⟩

theorem generateNextToken_total (pending : g.pendingScores = true) (opened : g.strategy.Open)
    (scored : g.strategy.Scored vocab) (some : 0 < g.strategy.histories.rows.length)
    (room : g.strategy.histories.isFull = false)
    (picks : g.strategy.kind = .beam →
      g.config.sample = false ∧ ∃ token < vocab, g.strategy.settings.isEnd token = false) :
    ∃ g', Step.Returns generateNextToken g () g' := by
  rw [← generateBy_native]
  exact generateBy_total pending opened scored some room picks

theorem open_of_generateNextToken {g' : Generator β} {u : Unit} (opened : g.strategy.Open)
    (scored : g.strategy.Scored vocab) (ran : Step.Returns generateNextToken g u g') :
    g'.strategy.Open := by
  obtain ⟨-, lengthened', penalized', chosen, longer', fewer', chose, rfl⟩ :=
    generateNextToken_returns ran
  obtain ⟨lengthened, penalized, longer, fewer, same, scored⟩ := constrained_total scored
  -- the constraints have one outcome, which is the one that keeps the shape
  obtain rfl := Step.when_unique longer' longer
  obtain rfl := Step.when_unique fewer' fewer
  exact (opened.of_same same scored).of_chosen (Strategy.chosen_of_choose chose)

end StagedDecoding.Generator
