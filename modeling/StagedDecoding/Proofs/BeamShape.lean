import StagedDecoding.Proofs.Constraints
import StagedDecoding.Proofs.Drafts
import StagedDecoding.Proofs.Rooting

/-! The shape of a beam search.

A beam search holds one history and one score for every row, and one entry for every prompt. While
its scores are fresh, they hold one position for every row, over one vocabulary. All operations keep
this up, also those that fail on the way.
-/

set_option autoImplicit false

namespace StagedDecoding

namespace LoadedScores

/-- One position for each of the rows, with scores over one vocabulary. -/
structure Single (rows vocab : Nat) (scores : LoadedScores) : Prop where
  positions : scores.positions = 1
  count : scores.rows.length = rows
  vocabulary : scores.vocabulary = vocab
  wide : ∀ row ∈ scores.rows, row.map List.length = [vocab]

variable {rows vocab : Nat} {scores changed : LoadedScores}

theorem Single.last_eq (single : Single rows vocab scores) {row : Nat} (bound : row < rows) :
    ∃ own, scores.rows[row]? = some [own] ∧ own.length = vocab ∧ scores.last row = .ok own := by
  have inside : row < scores.rows.length := single.count.symm ▸ bound
  have wide := single.wide _ (List.getElem_mem inside)
  obtain ⟨own, alone, long⟩ := List.map_eq_singleton_iff.mp wide
  have found : scores.rows[row]? = some [own] := by rw [List.getElem?_eq_getElem inside, alone]
  refine ⟨own, found, long, ?_⟩
  rw [last, scoresAt_eq_ok, single.positions, single.vocabulary]
  exact ⟨[own], found, rfl, long⟩

theorem map_length_modify {change : Scores → Scores}
    (kept : ∀ own, (change own).length = own.length) (row : List Scores) (position : Nat) :
    (row.modify position change).map List.length = row.map List.length := by
  refine List.ext_getElem (by simp) fun i _ _ => ?_
  rw [List.getElem_map, List.getElem_map, List.getElem_modify]
  split <;> simp [kept]

theorem load_single {vocabulary : Nat} {tensor : Tensor}
    (loaded : load rows vocabulary false tensor = .ok scores) :
    ∃ vocab, Single rows vocab scores := by
  obtain ⟨n, v, shape, -, some, filled, last⟩ := load_eq_ok.mp loaded
  rw [if_neg Bool.false_ne_true] at last
  subst last
  have filled : tensor.floats.length = rows * (n * v) := by
    rcases shape with shape | ⟨rfl, shape⟩ <;>
      simpa [Tensor.floats, Tensor.volume, shape] using filled
  refine ⟨v, rfl, by simp [layOut], rfl, ?_⟩
  dsimp only
  rw [List.forall_mem_map]
  intro row member
  have one : n - (n - 1) = 1 := by omega
  rw [List.map_drop, layOut_wide filled row member, List.drop_replicate, one]
  rfl

theorem Single.changeLast (single : Single rows vocab scores) {change : Nat → Scores → Scores}
    (keeps : ∀ row own, (change row own).length = own.length) :
    Single rows vocab (scores.changeLast change) := by
  refine ⟨single.positions, (List.length_mapIdx).trans single.count, single.vocabulary,
    fun row member => ?_⟩
  obtain ⟨i, inside, rfl⟩ := List.exists_of_mem_mapIdx member
  rw [map_length_modify (keeps i), single.wide _ (List.getElem_mem inside)]

theorem Single.constrainLength {minLength : Nat} {endTokens : List Token} {histories : Histories}
    (single : Single rows vocab scores)
    (constrained : scores.constrainLength minLength endTokens histories = .ok changed) :
    Single rows vocab changed := by
  obtain ⟨-, constrained⟩ := constrainLength_eq_ok.mp constrained
  split at constrained
  · exact constrained ▸ single
  · exact constrained.2 ▸ single.changeLast fun _ => Scores.length_suppress _

theorem Single.penalize {penalty : Float32} {histories : Histories}
    (single : Single rows vocab scores)
    (penalized : scores.penalize penalty histories = .ok changed) :
    Single rows vocab changed := by
  obtain ⟨-, penalized⟩ := penalize_eq_ok.mp penalized
  split at penalized
  · exact penalized ▸ single
  · exact penalized.2 ▸ single.changeLast fun _ => Scores.length_penalize _ _

end LoadedScores

namespace Beam

/-- One history and one score for every row, one entry for every prompt, and the shape of the
scores that a selection finds. -/
structure Sound (b : Beam) : Prop where
  some : 0 < b.settings.beams
  rows : b.histories.rows.length = b.settings.rowCount
  graded : b.beamScores.length = b.settings.rowCount
  entries : b.entries.length = b.settings.batchSize
  scores : b.scores.fresh = true → ∃ vocabulary, b.scores.Single b.settings.rowCount vocabulary

variable {elementary : Elementary} {before after b b' : Beam} {u : Unit}

theorem start_sound {settings : Settings} {inputIds : List Token}
    (started : start settings inputIds = .ok b) : b.Sound := by
  obtain ⟨some, histories, began, rfl⟩ := start_eq_ok started
  obtain ⟨-, rfl⟩ := Histories.start_eq_ok began
  refine ⟨some, ?_, ?_, List.length_replicate, by simp [LoadedScores.empty]⟩
  · simp [Settings.rowCount, List.length_flatMap]
  · have one : settings.beams - 1 + 1 = settings.beams := by omega
    simp [Settings.rowCount, one]

theorem Sound.rescore (sound : b.Sound) {scores : LoadedScores}
    (single : ∃ vocabulary, scores.Single b.settings.rowCount vocabulary) :
    Sound { b with scores := scores } :=
  ⟨sound.some, sound.rows, sound.graded, sound.entries, fun _ => single⟩

theorem Sound.setScores (sound : b.Sound) {tensor : Tensor}
    (ran : Step.Returns (setScores tensor) b u b') : b'.Sound := by
  simp only [Beam.setScores, Step.returns_attempt, Outcome.bind_eq_ok, Outcome.pure_eq_ok] at ran
  obtain ⟨scores, loaded, rfl⟩ := ran
  exact sound.rescore (LoadedScores.load_single loaded)

theorem Sound.constrainLength (sound : b.Sound) {minLength : Nat}
    (ran : Step.Returns (constrainLength minLength) b u b') : b'.Sound := by
  simp only [Beam.constrainLength, Step.returns_attempt, Outcome.bind_eq_ok,
    Outcome.pure_eq_ok] at ran
  obtain ⟨scores, constrained, rfl⟩ := ran
  obtain ⟨vocabulary, single⟩ := sound.scores (LoadedScores.constrainLength_eq_ok.mp constrained).1
  exact sound.rescore ⟨vocabulary, single.constrainLength constrained⟩

theorem Sound.penalize (sound : b.Sound) {penalty : Float32}
    (ran : Step.Returns (penalize penalty) b u b') : b'.Sound := by
  simp only [Beam.penalize, Step.returns_attempt, Outcome.bind_eq_ok, Outcome.pure_eq_ok] at ran
  obtain ⟨scores, penalized, rfl⟩ := ran
  obtain ⟨vocabulary, single⟩ := sound.scores (LoadedScores.penalize_eq_ok.mp penalized).1
  exact sound.rescore ⟨vocabulary, single.penalize penalized⟩

theorem stepEntries_length (settings : Settings) (histories : Histories) (entry : Nat)
    (expansions : List (List Expansion)) (states : List BeamEntry) :
    (stepEntries settings histories entry expansions states).2.length = states.length := by
  induction expansions generalizing entry states with
  | nil => cases entry <;> rfl
  | cons own rest ih =>
    cases states with
    | nil => rfl
    | cons state states =>
      have later := ih (entry + 1) states
      rcases stepped : stepEntry settings histories entry own state with ⟨_ | _, state'⟩
      · simp only [stepEntries, stepped, List.length_cons]
      · rcases walked : stepEntries settings histories (entry + 1) rest states with ⟨_ | _, rest'⟩
        · rw [walked] at later
          simp only [stepEntries, stepped, walked, List.length_cons, later]
        · rw [walked] at later
          simp only [stepEntries, stepped, walked, List.length_cons, later]

theorem selectTop_fails {failure : Failure}
    (failed : Step.Fails (selectTop elementary) before failure after) :
    ∃ entries, entries.length = before.entries.length ∧
      after = { before with entries := entries } := by
  have whole : before = { before with entries := before.entries } := rfl
  simp only [selectTop, Step.throw_bind, Step.fails_bind, Step.fails_get, Step.fails_lift,
    Step.returns_get, Step.returns_lift, false_or] at failed
  obtain ⟨_, _, ⟨rfl, rfl⟩, ⟨-, rfl⟩ | ⟨_, _, ⟨-, rfl⟩, failed⟩⟩ := failed
  · exact ⟨_, rfl, whole⟩
  split at failed
  · obtain ⟨-, rfl⟩ := Step.fails_throw.mp failed
    exact ⟨_, rfl, whole⟩
  · simp only [Step.fails_bind, Step.fails_lift, Step.fails_modify, Step.fails_within,
      Step.returns_lift, Step.returns_within, and_false, exists_false, or_false] at failed
    obtain ⟨-, rfl⟩ | ⟨expansions, _, ⟨-, rfl⟩, failed⟩ := failed
    · exact ⟨_, rfl, whole⟩
    have kept := stepEntries_length before.settings before.histories 0 expansions before.entries
    obtain ⟨entries, stepped, rfl⟩ | ⟨survivors, _, ⟨entries, stepped, rfl⟩, -, rfl⟩ := failed
    · exact ⟨entries, by rw [← kept, stepped], rfl⟩
    · exact ⟨entries, by rw [← kept, stepped], rfl⟩

/-- The entries and what becomes of them do not matter as long as there are as many. -/
theorem Sound.reenter (sound : b.Sound) {entries : List BeamEntry}
    (kept : entries.length = b.entries.length) (finals : Option (List Scored)) (done : Bool) :
    Sound { b with entries := entries, finals := finals, done := done } :=
  ⟨sound.some, sound.rows, sound.graded, kept.trans sound.entries, sound.scores⟩

theorem Sound.selectTop (sound : b.Sound) (ran : Step.Returns (selectTop elementary) b u b') :
    b'.Sound := by
  obtain ⟨-, -, expansions, survivors, entries, histories, -, stepped, descended, rfl⟩ :=
    selectTop_returns.mp ran
  obtain ⟨counted, tokens, -, -, rfl⟩ := Histories.descend_eq_ok.mp descended
  have kept := stepEntries_length b.settings b.histories 0 expansions b.entries
  rw [stepped] at kept
  rw [List.length_map, sound.rows] at counted
  refine ⟨sound.some, ?_, ?_, kept.trans sound.entries, by simp [LoadedScores.consume]⟩
  · simpa using counted
  · simpa using counted

theorem closeEntries_length {settings : Settings} {histories : Histories}
    {beamScores : List Float32} {states closed : List BeamEntry}
    (ran : closeEntries settings histories beamScores states = .ok closed) :
    closed.length = settings.batchSize := by
  simpa using (Outcome.mapM_eq_ok.mp ran).length_eq.symm

theorem Sound.finalize (sound : b.Sound) {count : Nat} {finals : List Scored}
    (ran : Step.Returns (finalize count) b finals b') : b'.Sound := by
  simp only [Beam.finalize, Step.returns_bind, Step.returns_get] at ran
  obtain ⟨_, _, ⟨rfl, rfl⟩, ran⟩ := ran
  split at ran
  · obtain ⟨-, rfl⟩ := Step.returns_pure.mp ran
    exact sound
  · simp only [Step.throw_bind, Step.returns_guard, Step.returns_bind, Step.returns_lift,
      Step.returns_set, Step.returns_pure] at ran
    obtain ⟨-, entries, _, ⟨closed, rfl⟩, _, _, rfl, -, rfl⟩ := ran
    exact sound.reenter ((closeEntries_length closed).trans sound.entries.symm) _ _

theorem finalize_fails {count : Nat} {failure : Failure}
    (failed : Step.Fails (finalize count) before failure after) : after = before := by
  simp only [finalize, Step.fails_bind, Step.fails_get, Step.returns_get, false_or] at failed
  obtain ⟨_, _, ⟨rfl, rfl⟩, failed⟩ := failed
  split at failed
  · exact (Step.fails_pure.mp failed).elim
  · split at failed
    · exact (Step.fails_throw.mp failed).2.symm
    · simp only [Step.fails_bind, Step.fails_lift, Step.fails_set, Step.fails_pure, and_false,
        exists_false, or_false] at failed
      exact failed.2.symm

/-- The states of a beam search. Whatever an operation comes to, what it leaves is one of them. -/
inductive Reachable (elementary : Elementary) : Beam → Prop where
  | start {b : Beam} {settings : Settings} {inputIds : List Token} :
      Beam.start settings inputIds = .ok b → Reachable elementary b
  | setScores {b : Beam} (tensor : Tensor) : Reachable elementary b →
      Reachable elementary (Beam.setScores tensor b).2
  | constrainLength {b : Beam} (minLength : Nat) : Reachable elementary b →
      Reachable elementary (Beam.constrainLength minLength b).2
  | penalize {b : Beam} (penalty : Float32) : Reachable elementary b →
      Reachable elementary (Beam.penalize penalty b).2
  | selectTop {b : Beam} : Reachable elementary b →
      Reachable elementary (Beam.selectTop elementary b).2
  | finalize {b : Beam} (count : Nat) : Reachable elementary b →
      Reachable elementary (Beam.finalize count b).2
  | sequence {b : Beam} (index : Nat) : Reachable elementary b →
      Reachable elementary (Beam.sequence index b).2

theorem Reachable.sound (reachable : Reachable elementary b) : b.Sound := by
  induction reachable with
  | start started => exact start_sound started
  -- what fails leaves the search as it was, but for entries that have stepped
  | @setScores b tensor _ ih =>
    obtain ⟨_, ran⟩ | ⟨_, failed⟩ := Step.returns_or_fails (Beam.setScores tensor) b
    · exact ih.setScores ran
    · exact (Step.fails_attempt.mp failed).2 ▸ ih
  | @constrainLength b minLength _ ih =>
    obtain ⟨_, ran⟩ | ⟨_, failed⟩ := Step.returns_or_fails (Beam.constrainLength minLength) b
    · exact ih.constrainLength ran
    · exact (Step.fails_attempt.mp failed).2 ▸ ih
  | @penalize b penalty _ ih =>
    obtain ⟨_, ran⟩ | ⟨_, failed⟩ := Step.returns_or_fails (Beam.penalize penalty) b
    · exact ih.penalize ran
    · exact (Step.fails_attempt.mp failed).2 ▸ ih
  | @selectTop b _ ih =>
    obtain ⟨_, ran⟩ | ⟨_, failed⟩ := Step.returns_or_fails (Beam.selectTop elementary) b
    · exact ih.selectTop ran
    · obtain ⟨entries, kept, same⟩ := selectTop_fails failed
      exact same ▸ ih.reenter kept _ _
  | @finalize b count _ ih =>
    obtain ⟨_, ran⟩ | ⟨_, failed⟩ := Step.returns_or_fails (Beam.finalize count) b
    · exact ih.finalize ran
    · exact (finalize_fails failed).symm ▸ ih
  | @sequence b index _ ih =>
    obtain ⟨_, ran⟩ | ⟨_, failed⟩ := Step.returns_or_fails (Beam.sequence index) b
    · simp only [Beam.sequence, Step.returns_bind, Step.returns_get] at ran
      obtain ⟨_, _, ⟨rfl, rfl⟩, finals, state, finalized, ran⟩ := ran
      split at ran
      · exact (Step.returns_pure.mp ran).2 ▸ ih.finalize finalized
      · exact (Step.returns_throw.mp ran).elim
    · -- the hypotheses may be final by the time that there is none with this index
      simp only [Beam.sequence, Step.fails_bind, Step.fails_get, Step.returns_get,
        false_or] at failed
      obtain ⟨_, _, ⟨rfl, rfl⟩, failed | ⟨finals, state, finalized, failed⟩⟩ := failed
      · exact (finalize_fails failed).symm ▸ ih
      · split at failed
        · exact (Step.fails_pure.mp failed).elim
        · exact (Step.fails_throw.mp failed).2 ▸ ih.finalize finalized

end Beam

end StagedDecoding
