import StagedDecoding.Proofs.BestHypotheses

/-! The results of a beam search are the best of all that it ever completed.

What an entry keeps on the way is what it was offered, in the order of the steps, and closing it
offers its live rows as well. So its results are the front of a stable sort of everything that ever
competed. Fixing them is the last thing that happens to a search.
-/

set_option autoImplicit false

namespace StagedDecoding.Beam

variable {elementary : Elementary} {settings : Settings} {inputIds : List Token}
  {selections : List Beam} {b b' : Beam} {entry : Nat}

/-- The histories that a selection completes in an entry, with their scores: the expansions that
end, among as many of the best as there are beams. -/
def completions (elementary : Elementary) (b : Beam) (entry : Nat) :
    List (List Token × Float32) :=
  offers b.settings b.histories entry (completing b.settings
    ((b.candidates elementary entry).mergeSort fun x y => !(x.score < y.score)))

def goesOn (b : Beam) (entry : Nat) : Bool :=
  (b.entries[entry]?).any (!·.done)

/-- Everything that an entry ever completed, in the order of completion, over selections of which
the latest is first. -/
def completed (elementary : Elementary) (entry : Nat) : List Beam → List (List Token × Float32)
  | [] => []
  | b :: earlier => completed elementary entry earlier ++
      if b.goesOn entry then b.completions elementary entry else []

/-- Everything that competes for the results of an entry: what it ever completed, and its live rows
if it is not over. -/
def competing (elementary : Elementary) (selections : List Beam) (b : Beam) (entry : Nat) :
    List Scored :=
  (completed elementary entry selections ++ if b.goesOn entry then b.liveOffers entry else []).map
    (Hypotheses.graded b.settings.lengthPenalty)

theorem goesOn_eq {state : BeamEntry} (found : b.entries[entry]? = some state) :
    b.goesOn entry = !state.done := by
  rw [goesOn, found, Option.any_some]

theorem offerAll_append (first second : List (List Token × Float32)) (finished : Hypotheses) :
    offerAll (first ++ second) finished = offerAll second (offerAll first finished) :=
  List.foldl_append

/-- A step looks deep enough to find all that it completes. -/
theorem completing_take (settings : Settings) (ranked : List Expansion) :
    completing settings (ranked.take (rankDepth settings)) = completing settings ranked := by
  have deep : settings.beams ≤ rankDepth settings := by
    rw [rankDepth, Nat.mul_add, Nat.mul_one]
    exact Nat.le_add_right _ _
  rw [completing, completing, List.take_take, Nat.min_eq_left deep]

theorem completions_eq (sound : b.Sound) (fresh : b.scores.fresh = true)
    (inside : entry < b.settings.batchSize) {ranked : List Expansion}
    (ranks : b.rank elementary entry = .ok ranked) : b.completions elementary entry =
      offers b.settings b.histories entry (completing b.settings ranked) := by
  obtain rfl := Except.ok.inj ((sound.rank_eq fresh inside).symm.trans ranks)
  rw [completing_take, completions]

/-- What an entry keeps is what is left of everything it completed. -/
theorem Run.finished_eq (run : Run elementary settings inputIds selections b) {state : BeamEntry}
    (found : b.entries[entry]? = some state) :
    state.finished = offerAll (completed elementary entry selections)
      (.empty settings.beams settings.lengthPenalty settings.earlyStopping) := by
  induction run generalizing state with
  | start started =>
    obtain ⟨-, rfl⟩ := Beam.entry_of_start started found
    rfl
  | prepare _ ran ih =>
    obtain ⟨scores, rfl⟩ := prepare_rescores ran
    exact ih found
  | @selectTop selections b b' run ran ih =>
    obtain ⟨inside, before, there, stays, goes⟩ := run.sound.advanced ran found
    rw [completed, goesOn_eq there]
    -- an entry that is over completes nothing more
    cases stopped : before.done with
    | true =>
      rw [stays stopped, ih there, Bool.not_true, if_neg Bool.false_ne_true, List.append_nil]
    | false =>
      obtain ⟨ranked, advances⟩ := goes stopped
      rw [advances.finished, offer_eq, ih there, Bool.not_false, if_pos rfl, offerAll_append,
        completions_eq run.sound (fresh_of_selectTop ran) inside advances.ranks]

theorem Run.closing_eq (run : Run elementary settings inputIds selections b) {state : BeamEntry}
    (found : b.closing[entry]? = some state) :
    state.finished = offerAll (completed elementary entry selections ++
        if b.goesOn entry then b.liveOffers entry else [])
      (.empty settings.beams settings.lengthPenalty settings.earlyStopping) := by
  rw [getElem?_closing] at found
  obtain ⟨before, there, rfl⟩ := Option.map_eq_some_iff.mp found
  rw [offerAll_append, ← run.finished_eq there, goesOn_eq there]
  cases before.done <;> rfl

theorem Run.results_eq (run : Run elementary settings inputIds selections b) {count : Nat}
    (fits : count ≤ settings.beams)
    (clean : ∀ entry < settings.batchSize,
      settings.beams < (competing elementary selections b entry).length →
        Numbers (competing elementary selections b entry)) :
    b.results count = (List.range settings.batchSize).flatMap fun entry =>
      (bestFirst (competing elementary selections b entry)).take count := by
  have counted : b.closing.length = settings.batchSize := by
    rw [closing, List.length_mapIdx, run.sound.entries, run.settings_eq]
  rw [results, List.flatMap_def, List.flatMap_def]
  refine congrArg List.flatten (List.ext_getElem (by simp [counted]) fun entry bound _ => ?_)
  rw [List.length_map] at bound
  have inside : entry < settings.batchSize := counted ▸ bound
  rw [List.getElem_map, List.getElem_map, List.getElem_range,
    run.closing_eq (List.getElem?_eq_getElem bound)]
  have numbers := clean entry inside
  rw [competing, run.settings_eq, List.length_map] at numbers
  rw [competing, run.settings_eq]
  exact Hypotheses.ranked_offerAll _ fits numbers

inductive Leads (elementary : Elementary) (b : Beam) : Beam → Prop where
  | refl : Leads elementary b b
  | prepare {later : Beam} (preparation : Preparation) : Leads elementary b later →
      Leads elementary b (Beam.prepare preparation later).2
  | selectTop {later : Beam} : Leads elementary b later →
      Leads elementary b (Beam.selectTop elementary later).2
  | finalize {later : Beam} (count : Nat) : Leads elementary b later →
      Leads elementary b (Beam.finalize count later).2
  | sequence {later : Beam} (index : Nat) : Leads elementary b later →
      Leads elementary b (Beam.sequence index later).2

/-- What a search answers once its results are fixed. No answer changes it, and no selection is
made. -/
structure Fixed (elementary : Elementary) (finals : List Scored) (b : Beam) : Prop where
  finalize : ∀ count, Step.Returns (Beam.finalize count) b finals b
  sequence : ∀ index final, finals[index]? = some final →
    Step.Returns (Beam.sequence index) b final.tokens b
  beyond : ∀ index, finals.length ≤ index → Step.Fails (Beam.sequence index) b
    (.shape (.indexBelow finals.length) (.count index)) b
  done : (Strategy.beam b).isDone = true
  refused : Step.Fails (Beam.selectTop elementary) b
    (if b.scores.fresh then .unsupportedOperation .beam .selectAfterFinalize else .scoresMissing) b

variable {finals : List Scored}

theorem sequence_fixed (fixed : b.finals = some finals) {index : Nat} {final : Scored}
    (found : finals[index]? = some final) :
    Step.Returns (Beam.sequence index) b final.tokens b := by
  simp only [Beam.sequence, Step.returns_bind, Step.returns_get]
  refine ⟨_, _, ⟨rfl, rfl⟩, finals, b, finalize_fixed fixed _, ?_⟩
  rw [found]
  exact Step.returns_pure.mpr ⟨rfl, rfl⟩

theorem sequence_beyond (fixed : b.finals = some finals) {index : Nat}
    (beyond : finals.length ≤ index) : Step.Fails (Beam.sequence index) b
      (.shape (.indexBelow finals.length) (.count index)) b := by
  simp only [Beam.sequence, Step.fails_bind, Step.returns_get]
  refine .inr ⟨_, _, ⟨rfl, rfl⟩, .inr ⟨finals, b, finalize_fixed fixed _, ?_⟩⟩
  rw [List.getElem?_eq_none beyond]
  exact Step.fails_throw.mpr ⟨rfl, rfl⟩

theorem selectTop_refused (fixed : b.finals = some finals) :
    Step.Fails (Beam.selectTop elementary) b
      (if b.scores.fresh then .unsupportedOperation .beam .selectAfterFinalize
        else .scoresMissing) b := by
  simp only [Beam.selectTop, Step.throw_bind, Step.fails_bind, Step.fails_get, Step.fails_lift,
    Step.returns_get, Step.returns_lift, false_or]
  refine ⟨_, _, ⟨rfl, rfl⟩, ?_⟩
  cases fresh : b.scores.fresh with
  | false => exact .inl ⟨LoadedScores.requireFresh_eq_error.mpr ⟨fresh, rfl⟩, rfl⟩
  | true =>
    refine .inr ⟨(), b, ⟨LoadedScores.requireFresh_eq_ok.mpr fresh, rfl⟩, ?_⟩
    simp only [fixed, Option.isSome_some, if_true]
    exact Step.fails_throw.mpr ⟨rfl, rfl⟩

theorem fixed_of_finals (fixed : b.finals = some finals) (done : b.done = true) :
    Fixed elementary finals b := by
  exact ⟨finalize_fixed fixed, fun _ _ => sequence_fixed fixed, fun _ => sequence_beyond fixed, done,
    selectTop_refused fixed⟩

/-- Fixed results stay, whatever is asked of the search. -/
theorem Leads.fixed (leads : Leads elementary b b') (fixed : b.finals = some finals)
    (done : b.done = true) : b'.finals = some finals ∧ b'.done = true := by
  -- nothing but the scores can still change, selections being refused
  induction leads with
  | refl => exact ⟨fixed, done⟩
  | @prepare later preparation _ ih =>
    obtain ⟨_, ran⟩ | ⟨_, failed⟩ := Step.returns_or_fails (Beam.prepare preparation) later
    · obtain ⟨scores, same⟩ := prepare_rescores ran
      rw [same]
      exact ih
    · have same : later = (Beam.prepare preparation later).2 := by
        cases preparation <;> exact (Step.fails_attempt.mp failed).2
      exact same ▸ ih
  | selectTop _ ih =>
    rw [selectTop_refused ih.1]
    exact ih
  | finalize count _ ih =>
    rw [finalize_fixed ih.1 count]
    exact ih
  | @sequence later index _ ih =>
    cases found : finals[index]? with
    | some final =>
      rw [sequence_fixed ih.1 found]
      exact ih
    | none =>
      rw [sequence_beyond ih.1 (List.getElem?_eq_none_iff.mp found)]
      exact ih

/-- The first results that are asked for are the best of everything that competes, as many for
every entry as were asked for, and stay the results for ever. Scores have to be numbers only where
more compete than there are beams. -/
theorem finalize_best (run : Run elementary settings inputIds selections b) {count : Nat}
    (asked : 0 < count) (fits : count ≤ settings.beams)
    (clean : ∀ entry < settings.batchSize,
      settings.beams < (competing elementary selections b entry).length →
        Numbers (competing elementary selections b entry)) :
    ∃ finals fixed, Step.Returns (finalize count) b finals fixed ∧
      (finals = (List.range settings.batchSize).flatMap fun entry =>
        (bestFirst (competing elementary selections b entry)).take count) ∧
      (∀ entry < settings.batchSize,
        ((bestFirst (competing elementary selections b entry)).take count).length = count) ∧
      ∀ later, Leads elementary fixed later → Fixed elementary finals later := by
  have same := run.settings_eq
  refine ⟨_, _, run.sound.counted.finalize_returns run.going asked (same ▸ fits),
    run.results_eq fits clean, fun entry inside => ?_, fun later leads => ?_⟩
  · -- an entry that is over has completed enough, any other one has enough rows
    have bound : entry < b.closing.length := by
      rw [closing, List.length_mapIdx, run.sound.entries, same]
      exact inside
    have found := List.getElem?_eq_getElem bound
    have long := run.capped.closing found
    have numbers := clean entry inside
    rw [competing, same, List.length_map] at numbers
    rw [competing, same, ← Hypotheses.ranked_offerAll _ fits numbers, ← run.closing_eq found,
      List.length_take, Hypotheses.length_ranked, long, same]
    exact Nat.min_eq_left fits
  · obtain ⟨finals, done⟩ := leads.fixed rfl rfl
    exact fixed_of_finals finals done

def endingPair : Beam := { pair with settings := { pair.settings with endTokens := [2, 3] } }

def endingScores : Tensor :=
  .packed .f32 [2, 4] ([-200, -300, 0, 0, 0, -200, -300, -200].map .real)

theorem endingPair_finalize_best : ∃ selections b finals fixed, b.goesOn 0 = false ∧
    (completed exactElementary 0 selections).length = 2 ∧
    Step.Returns (finalize 1) b finals fixed ∧
    (finals = (List.range 1).flatMap fun entry =>
      (bestFirst (competing exactElementary selections b entry)).take 1) ∧
    (∀ entry < 1,
      ((bestFirst (competing exactElementary selections b entry)).take 1).length = 1) ∧
    ∀ later, Leads exactElementary fixed later → Fixed exactElementary finals later := by
  let first := (prepare (.load endingScores) endingPair).2
  have started : start endingPair.settings [1] = .ok endingPair := rfl
  have load : Step.Returns (prepare (.load endingScores)) endingPair () first := rfl
  have run : Run exactElementary endingPair.settings [1] [] first :=
    .prepare (.start started) load
  have goes : ∃ token < first.scores.vocabulary, first.settings.isEnd token = false :=
    ⟨0, by decide +kernel, by decide +kernel⟩
  have clean : ∀ x ∈ first.candidates exactElementary 0, x.score.isNaN = false := by
    decide +kernel
  obtain ⟨last, ran⟩ := @Sound.selectTop_total exactElementary _ run.sound rfl rfl rfl goes
  obtain ⟨after, left, -, advances⟩ := run.sound.advances ran
    (show first.entries[0]? = some ⟨.empty 2 1 true, false⟩ from rfl)
  obtain ⟨ranked, advances⟩ := advances rfl
  -- the two best expansions are those of the first beam that end
  obtain ⟨ranked', ranks, -, lead⟩ := run.sound.rank_best rfl Nat.one_pos goes clean
  obtain rfl := Except.ok.inj (advances.ranks.symm.trans ranks)
  have ends := lead.none_of_above (fun x => x.beam == 0 && first.settings.isEnd x.token)
    (fun x => !(x.beam == 0 && first.settings.isEnd x.token)) clean (by decide +kernel)
    (by decide +kernel)
  have closing : (completing first.settings ranked).length = 2 := by
    rw [completing, List.filter_eq_self.mpr fun x member => ?_]
    · exact lead.counted
    · have own := ends x member
      rw [Bool.not_eq_false', Bool.and_eq_true] at own
      exact own.2
  have closed : after.done = true := by
    have kept := (run.capped.finished 0 _ rfl).offerAll
      (offers first.settings first.histories 0 (completing first.settings ranked))
    rw [← offer_eq, ← advances.finished] at kept
    have count : after.finished.kept.length = 2 := by
      rw [kept.2, offers, List.length_map, closing]
      rfl
    have early : after.finished.earlyStopping = true := by
      rw [advances.finished, offer_eq, Hypotheses.earlyStopping_offerAll]
      rfl
    rw [advances.done, Hypotheses.isDone, if_neg (by rw [kept.1.sized, count]; decide), early,
      Bool.true_or]
  have still : last.goesOn 0 = false := by
    rw [goesOn_eq left, closed]
    rfl
  have counted : (completed exactElementary 0 [first]).length = 2 := by
    have live : first.goesOn 0 = true := rfl
    rw [completed, completed, live, if_pos rfl, List.nil_append,
      completions_eq run.sound rfl Nat.one_pos advances.ranks, offers, List.length_map, closing]
  have few : ∀ entry < endingPair.settings.batchSize,
      ¬ endingPair.settings.beams < (competing exactElementary [first] last entry).length := by
    intro entry inside
    obtain rfl : entry = 0 := Nat.lt_one_iff.mp inside
    rw [competing, still, List.length_map, if_neg Bool.false_ne_true, List.append_nil, counted]
    decide
  obtain ⟨finals, fixed, results⟩ := finalize_best (run.selectTop ran) Nat.one_pos
    (Nat.le_succ 1) fun entry inside many => absurd many (few entry inside)
  exact ⟨_, _, finals, fixed, still, counted, results⟩

end StagedDecoding.Beam
