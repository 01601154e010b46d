import StagedDecoding.Proofs.Extension
import StagedDecoding.Proofs.LateBeams

/-! Searches that wait for the minimum length.

Whatever the strategy, its scores are constrained before it chooses. As long as the constrained scores
leave a choice that ends nothing, what is chosen ends late, and so do the results. The beams need the
elementary functions of the platform for this, the row-based searches need nothing.
-/

set_option autoImplicit false

namespace StagedDecoding

structure Greedy.Patient (g : Greedy) : Prop where
  marked : g.Marked
  late : ∀ row ∈ g.histories.rows, g.settings.Late g.histories.promptLength row

theorem Greedy.Patient.rescore {g : Greedy} (patient : g.Patient) (scores : LoadedScores) :
    Patient { g with scores := scores } :=
  ⟨patient.marked.rescore scores g.words, patient.late⟩

theorem Greedy.Patient.selectTop {g g' : Greedy} {u : Unit} (patient : g.Patient)
    (going : ∀ (i : Nat) row own, g.histories.rows[i]? = some row → g.scores.last i = .ok own →
      row.length < g.settings.minLength → g.settings.isEnd own.argmax = false)
    (ran : Step.Returns Greedy.selectTop g u g') :
    g'.Patient ∧ g'.settings = g.settings ∧
      g'.histories.promptLength = g.histories.promptLength := by
  obtain ⟨settings, prompt, late⟩ := patient.marked.selectTop_late patient.late going ran
  obtain ⟨tokens, -, committed⟩ := selectTop_returns ran
  exact ⟨⟨patient.marked.commit committed, by rwa [settings, prompt]⟩, settings, prompt⟩

namespace Strategy

variable {before after lengthened : Strategy} {elementary : Elementary} {config : SearchConfig}
  {u : Unit}

def seen (config : SearchConfig) (s : Strategy) (i : Nat) : Option Scores := do
  let row ← s.histories.rows[i]?
  let raw ← (s.scores.last i).toOption
  return Scores.constrained config.minLength config.repetitionPenalty s.settings.endTokens row raw

theorem seen_eq_some {i : Nat} {own : Scores} : before.seen config i = some own ↔
    ∃ row raw, before.histories.rows[i]? = some row ∧ before.scores.last i = .ok raw ∧
      Scores.constrained config.minLength config.repetitionPenalty before.settings.endTokens row raw =
        own := by
  simp [seen, Option.bind_eq_some_iff, Outcome.toOption_eq_some]

def Clear (config : SearchConfig) (s : Strategy) : Prop :=
  ∀ i own, s.seen config i = some own → Scores.Clear s.settings.endTokens own

def bases : Strategy → Scores
  | .beam b => b.beamScores
  | .greedy _ => []
  | .speculative _ => []

/-- The constrained scores of every row leave a choice, and no sum with the score of a beam
overflows. -/
structure Orderly (elementary : Elementary) (config : SearchConfig) (s : Strategy) : Prop where
  clear : s.Clear config
  bounded : ∀ (i : Nat) base own logProbability, s.bases[i]? = some base →
    s.seen config i = some own → logProbability ∈ own.logSoftmaxBy elementary →
      logProbability.isFinite = true → (logProbability + base).isFinite = true

theorem orderly_of_seen {own : Scores}
    (seen : ∀ i < before.histories.rows.length, before.seen config i = some own)
    (clear : own.Clear before.settings.endTokens)
    (bounded : ∀ base ∈ before.bases, ∀ logProbability ∈ own.logSoftmaxBy elementary,
      logProbability.isFinite = true → (logProbability + base).isFinite = true) :
    before.Orderly elementary config := by
  have same : ∀ i other, before.seen config i = some other → own = other := by
    intro i other found
    obtain ⟨row, raw, here, -⟩ := seen_eq_some.mp found
    rw [seen i (List.getElem?_eq_some_iff.mp here).1] at found
    exact Option.some.inj found
  refine ⟨fun i other found => same i other found ▸ clear, ?_⟩
  intro i base other logProbability graded found member
  exact bounded base (List.mem_of_getElem? graded) _ ((same i other found).symm ▸ member)

def Patient : Strategy → Prop
  | .greedy g => g.Patient
  | .beam b => b.Patient
  | .speculative s => s.inner.Patient

structure Goes (before after : Strategy) : Prop where
  patient : after.Patient
  kind : after.kind = before.kind
  settings : after.settings = before.settings
  promptLength : after.histories.promptLength = before.histories.promptLength

theorem byCases_beam {α : Type} {greedy : Step Greedy α} {beam : Step Beam α}
    {speculative : Step Speculative α} {a : α} {b' : Beam}
    (ran : Step.Returns (byCases greedy beam speculative) before a (.beam b')) :
    ∃ b, before = .beam b ∧ Step.Returns beam b a b' := by
  rcases byCases_returns ran with ⟨_, _, _, ⟨⟩, _⟩ | ⟨b, _, rfl, ⟨⟩, passed⟩ | ⟨_, _, _, ⟨⟩, _⟩
  exact ⟨b, rfl, passed⟩

theorem Patient.level (patient : before.Patient) :
    ∀ row ∈ before.histories.rows, row.length = before.histories.length := by
  cases before with
  | greedy g => exact Greedy.Patient.marked patient |>.rows.width
  | beam b => exact Beam.Patient.level patient
  | speculative s => exact Greedy.Patient.marked patient |>.rows.width

theorem Patient.late (patient : before.Patient) : ∀ row ∈ before.histories.rows,
    before.settings.Late before.histories.promptLength row := by
  cases before with
  | greedy g => exact Greedy.Patient.late patient
  | beam b => exact Beam.Patient.late patient
  | speculative s => exact Greedy.Patient.late patient

theorem Patient.of_same (patient : before.Patient) (same : SameCourse before after)
    (sound : ∀ b, after = .beam b → b.Sound) : after.Patient := by
  cases same with
  | greedy g scores => exact Greedy.Patient.rescore (g := g) patient scores
  | beam b scores => exact Beam.Patient.rescore (b := b) patient (sound _ rfl).scores
  | speculative s scores marks => exact Greedy.Patient.rescore (g := s.inner) patient scores

theorem Patient.sound (patient : before.Patient) : ∀ b, before = .beam b → b.Sound := by
  rintro b rfl
  exact Beam.Patient.sound patient

theorem Patient.setScores {tensor : Tensor} (patient : before.Patient)
    (ran : Step.Returns (setScores tensor) before u after) : before.Goes after := by
  have same := setScores_returns ran
  refine ⟨patient.of_same same ?_, same.kind, same.settings, by rw [same.histories]⟩
  rintro b' rfl
  obtain ⟨b, rfl, passed⟩ := byCases_beam ran
  exact (patient.sound b rfl).setScores passed

theorem Patient.constrained {minLength : Nat} {penalty : Float32} (patient : before.Patient)
    (longer : if 0 < minLength then
        Step.Returns (constrainLength minLength) before () lengthened
      else lengthened = before)
    (fewer : if penalty != 1 then Step.Returns (penalize penalty) lengthened () after
      else after = lengthened) : after.Patient := by
  apply patient.of_same (constraints_returns longer fewer)
  have sound : ∀ b, lengthened = .beam b → b.Sound := by
    split at longer
    · rintro b' rfl
      obtain ⟨b, rfl, passed⟩ := byCases_beam longer
      exact (patient.sound b rfl).constrainLength passed
    · rw [longer]
      exact patient.sound
  split at fewer
  · rintro b' rfl
    obtain ⟨b, rfl, passed⟩ := byCases_beam fewer
    exact (sound b rfl).penalize passed
  · rw [fewer]
    exact sound

theorem Clear.choice {i : Nat} {row : List Token} {own : Scores} (clear : before.Clear config)
    (pos : 0 < config.repetitionPenalty) (finite : config.repetitionPenalty.isFinite = true)
    (found : before.histories.rows[i]? = some row)
    (seen : before.seen config i = some own) : Scores.Clear before.settings.endTokens own ∧
      (row.length < config.minLength → ∀ token ∈ before.settings.endTokens, ∀ score,
        own[token]? = some score → score = Scores.negativeInfinity) := by
  refine ⟨clear i own seen, fun short => ?_⟩
  obtain ⟨row', raw, found', -, rfl⟩ := seen_eq_some.mp seen
  obtain rfl := Option.some.inj (found'.symm.trans found)
  exact Scores.constrained_out pos finite short

/-- Scores that were constrained in short histories hold the beams back. -/
theorem Orderly.holding {b : Beam} {scores : LoadedScores}
    (orderly : (Strategy.beam b).Orderly elementary config)
    (pos : 0 < config.repetitionPenalty) (finite : config.repetitionPenalty.isFinite = true)
    (patient : b.Patient) (sound : Beam.Sound { b with scores := scores })
    (going : b.finals = none) (fresh : scores.fresh = true)
    (same : b.settings.minLength = config.minLength)
    (short : b.histories.length < b.settings.minLength)
    (sees : ∀ (i : Nat) row own, b.histories.rows[i]? = some row → scores.last i = .ok own →
      (Strategy.beam b).seen config i = some own) : Beam.Holding elementary { b with scores := scores } := by
  have listed : ∀ (i : Nat) own, scores.last i = .ok own → ∃ row, b.histories.rows[i]? = some row := by
    intro i own last
    obtain ⟨vocabulary, single⟩ := sound.scores fresh
    obtain ⟨_, there, -⟩ := LoadedScores.scoresAt_eq_ok.mp last
    have bound := (List.getElem?_eq_some_iff.mp there).1
    rw [single.count, ← patient.sound.rows] at bound
    exact ⟨_, List.getElem?_eq_getElem bound⟩
  refine ⟨fun i own last => ?_, fun i own last => ?_, (patient.waiting going short.le).2,
    fun i base own logProbability graded last member small => ?_⟩
  all_goals
    obtain ⟨row, found⟩ := listed i own last
    have seen := sees i row own found last
    obtain ⟨clear, out⟩ := orderly.clear.choice pos finite found seen
  · exact clear
  · refine out ?_
    rwa [patient.level row (List.mem_of_getElem? found), ← same]
  · exact orderly.bounded i base own logProbability graded seen member small

theorem Patient.choose {penalized : Strategy} (patient : before.Patient)
    (regular : before.kind = .beam → elementary.Regular)
    (pos : 0 < config.repetitionPenalty) (finite : config.repetitionPenalty.isFinite = true)
    (own : before.settings.minLength = config.minLength)
    (clear : before.Clear config)
    (orderly : before.kind = .beam → before.Orderly elementary config)
    (longer : if 0 < config.minLength then
        Step.Returns (constrainLength config.minLength) before () lengthened
      else lengthened = before)
    (fewer : if config.repetitionPenalty != 1 then
        Step.Returns (penalize config.repetitionPenalty) lengthened () penalized
      else penalized = lengthened)
    (chose : Step.Returns (selectTopBy elementary) penalized u after) : before.Goes after := by
  have same := constraints_returns longer fewer
  have waits := patient.constrained longer fewer
  have sees : ∀ (i : Nat) row own, before.histories.rows[i]? = some row →
      penalized.scores.last i = .ok own → before.seen config i = some own := by
    intro i row own found last
    rw [constrained_scores patient.level longer fewer found] at last
    obtain ⟨raw, there, equal⟩ := Outcome.map_eq_ok.mp last
    exact seen_eq_some.mpr ⟨row, raw, found, there, equal⟩
  -- constrained scores of a short row have no end token for their best
  have going : ∀ (i : Nat) row own, before.histories.rows[i]? = some row →
      penalized.scores.last i = .ok own → row.length < before.settings.minLength →
        before.settings.isEnd own.argmax = false := by
    intro i row scores found last short
    obtain ⟨leaves, out⟩ := clear.choice pos finite found (sees i row scores found last)
    simpa [Settings.isEnd] using leaves.argmax_going (out (own ▸ short))
  rcases byCases_returns chose with ⟨g, g', rfl, rfl, passed⟩ | ⟨b, b', rfl, rfl, passed⟩ |
    ⟨s, s', rfl, rfl, passed⟩
  · cases same with | greedy g scores =>
    obtain ⟨patient, settings, prompt⟩ := Greedy.Patient.selectTop waits going passed
    exact ⟨patient, rfl, settings, prompt⟩
  · cases same with | beam b scores =>
    obtain ⟨settings, -, descended, -⟩ :=
      Beam.selectTop_descends (Beam.Patient.sound waits).some passed
    obtain ⟨-, -, -, -, histories⟩ := Histories.descend_eq_ok.mp descended
    obtain ⟨-, unfixed, -⟩ := Beam.selectTop_returns.mp passed
    refine ⟨Beam.Patient.selectTop waits (regular rfl) (fun short => ?_) passed, rfl,
      settings, ?_⟩
    · exact (orderly rfl).holding pos finite patient (Beam.Patient.sound waits) (by simpa using unfixed)
        (Beam.fresh_of_selectTop passed) own short sees
    · change b'.histories.promptLength = b.histories.promptLength
      rw [histories]
  · cases same with | speculative s scores marks =>
    obtain ⟨g', inner, rfl⟩ := Step.returns_within.mp passed
    obtain ⟨patient, settings, prompt⟩ := Greedy.Patient.selectTop waits going inner
    exact ⟨patient, rfl, settings, prompt⟩

theorem Patient.sequence {index : Nat} {tokens : List Token} (patient : before.Patient)
    (ran : Step.Returns (sequence index) before tokens after) :
    before.Goes after ∧ before.settings.Late before.histories.promptLength tokens := by
  rcases byCases_returns ran with ⟨g, g', rfl, rfl, passed⟩ | ⟨b, b', rfl, rfl, passed⟩ |
    ⟨s, s', rfl, rfl, passed⟩
  · obtain ⟨found, rfl⟩ := Greedy.row_of_sequence passed
    exact ⟨⟨patient, rfl, rfl, rfl⟩, Greedy.Patient.late patient _ (List.mem_of_getElem? found)⟩
  · simp only [Beam.sequence, Step.returns_bind, Step.returns_get] at passed
    obtain ⟨_, _, ⟨rfl, rfl⟩, finals, middle, finalized, passed⟩ := passed
    obtain ⟨waits, fixed, settings, histories⟩ := Beam.Patient.finalize patient finalized
    split at passed
    · next final found =>
      obtain ⟨rfl, rfl⟩ := Step.returns_pure.mp passed
      have late := waits.results finals fixed final (List.mem_of_getElem? found)
      exact ⟨⟨waits, rfl, settings, congrArg Histories.promptLength histories⟩,
        by rwa [settings, histories] at late⟩
    · exact (Step.returns_throw.mp passed).elim
  · obtain ⟨g', looked, rfl⟩ := Step.returns_within.mp passed
    obtain ⟨found, rfl⟩ := Greedy.row_of_sequence looked
    exact ⟨⟨patient, rfl, rfl, rfl⟩, Greedy.Patient.late patient _ (List.mem_of_getElem? found)⟩

theorem Patient.verify {s : Speculative} {tensor : Tensor} {loaded asked checked : Strategy}
    {row draft : List Token} {verdict : Verdict} (patient : (Strategy.speculative s).Patient)
    (goes : s.inner.done = false) (pos : 0 < s.inner.settings.repetitionPenalty)
    (finite : s.inner.settings.repetitionPenalty.isFinite = true)
    (clear : s.inner.histories.rows = [row] → ∀ i raw, i ≤ verdict.accepted.length →
      loaded.scores.scoresAt 0 i = .ok raw → Scores.Clear s.inner.settings.endTokens
        (Scores.constrained s.inner.settings.minLength s.inner.settings.repetitionPenalty
          s.inner.settings.endTokens (row ++ draft.take i) raw))
    (scored : Step.Returns (Strategy.setScores tensor) (.speculative s) u loaded)
    (looked : Step.Returns (Strategy.sequence 0) loaded row asked)
    (decided : Step.Returns (checkCandidates (row ++ draft) draft.length) asked verdict checked)
    (settled : Step.Returns (setNextTokens verdict.committed) checked u after) :
    (Strategy.speculative s).Goes after := by
  have patient : s.inner.Patient := patient
  obtain ⟨s', rfl, verified⟩ :=
    verify_returns patient.marked goes scored looked decided settled
  obtain ⟨scores, load, judged⟩ := verified.judged
  obtain ⟨s₁, rfl, loading⟩ := byCases_speculative scored
  obtain ⟨_, load', inner, -⟩ := Speculative.setScores_returns loading
  obtain rfl := Except.ok.inj (load.symm.trans load')
  have same : (Strategy.speculative s₁).scores = scores := congrArg Greedy.scores inner
  have late := patient.late row (by rw [verified.only]; exact List.mem_singleton_self row)
  -- the verdict follows constrained scores, by which no short history ends
  have grown := judged.late (fun i token inside predicted short => by
    obtain ⟨raw, there, rfl⟩ := predicted
    rw [Nat.zero_add, ← same] at there
    have long : (row ++ draft.take i).length < s.inner.settings.minLength := by
      have := List.length_take_le i draft
      rw [List.length_append]
      omega
    simpa [Settings.isEnd, Settings.best] using (clear verified.only i raw inside there).argmax_going
      (Scores.constrained_out pos finite long)) late
  have prompt : s'.inner.histories.promptLength = s.inner.histories.promptLength := by
    rw [verified.histories]
  refine ⟨⟨verified.marked, fun longer member => ?_⟩, rfl, verified.settings, prompt⟩
  rw [verified.histories] at member
  rw [List.mem_singleton.mp member, verified.settings, prompt]
  exact grown

end Strategy

end StagedDecoding
