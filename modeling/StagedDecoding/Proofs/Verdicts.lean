import StagedDecoding.Proofs.EndMarks
import StagedDecoding.Proofs.OpenSearch

/-! Verdicts on every draft.

With scores at one position more than a draft has tokens, there is a prediction wherever the
verification reads one. So every draft gets a verdict, and what it commits fits if the draft does
with one more token.
-/

set_option autoImplicit false

namespace StagedDecoding

namespace Speculative

variable {s s' : Speculative} {rows vocab position : Nat} {history : List Token}

/-- There are scores at every position, and marks that tell how they were constrained. -/
structure Readable (rows vocab : Nat) (s : Speculative) : Prop where
  filled : s.inner.scores.Filled rows vocab
  marks : s.marks.length = s.positions

/-- Scores can still be read at as many positions, and nothing but scores and marks has changed. -/
structure Reread (rows vocab : Nat) (s s' : Speculative) : Prop where
  readable : s'.Readable rows vocab
  positions : s'.positions = s.positions
  same : SameBut s s'

theorem Readable.reread (readable : s.Readable rows vocab) : Reread rows vocab s s :=
  ⟨readable, rfl, rfl⟩

theorem Reread.trans {middle : Speculative} (first : Reread rows vocab s middle)
    (second : Reread rows vocab middle s') : Reread rows vocab s s' :=
  ⟨second.readable, second.positions.trans first.positions, first.same.trans second.same⟩

theorem Readable.constrainLength_total (readable : s.Readable rows vocab) (some : 0 < rows)
    (below : position < s.positions) (length minLength : Nat) :
    ∃ s', s.constrainLength length minLength position = .ok s' ∧ Reread rows vocab s s' := by
  have listed : position < s.marks.length := readable.marks.symm ▸ below
  have read := Outcome.fetch_eq_ok.mpr (List.getElem?_eq_getElem listed)
  have stored : ∀ mark, store s.marks position mark = .ok (s.marks.set position mark) :=
    fun _ => Outcome.store_eq_ok.mpr ⟨listed, rfl⟩
  have adjusted := readable.filled.adjust_total
    (Scores.suppress s.inner.settings.endTokens) some below
  have suppressed := readable.filled.changeAt
    (Scores.length_suppress s.inner.settings.endTokens) 0 position
  have marks : ∀ mark, (s.marks.set position mark).length = s.positions :=
    fun _ => List.length_set.trans readable.marks
  simp only [constrainLength, read, stored, adjusted, bind, Except.bind]
  split
  · exact ⟨s, rfl, readable.reread⟩
  · split
    · exact ⟨_, rfl, ⟨readable.filled, marks _⟩, rfl, rfl⟩
    · exact ⟨_, rfl, ⟨suppressed, marks _⟩, rfl, rfl⟩

theorem Readable.penalize_total (readable : s.Readable rows vocab) (some : 0 < rows)
    (below : position < s.positions) (history : List Token) (penalty : Float32) :
    ∃ s', s.penalize history penalty position = .ok s' ∧ Reread rows vocab s s' := by
  have listed : position < s.marks.length := readable.marks.symm ▸ below
  have read := Outcome.fetch_eq_ok.mpr (List.getElem?_eq_getElem listed)
  have stored : ∀ mark, store s.marks position mark = .ok (s.marks.set position mark) :=
    fun _ => Outcome.store_eq_ok.mpr ⟨listed, rfl⟩
  have adjusted := readable.filled.adjust_total (Scores.penalize penalty history) some below
  have penalized := readable.filled.changeAt (Scores.length_penalize penalty history) 0 position
  have marks : ∀ mark, (s.marks.set position mark).length = s.positions :=
    fun _ => List.length_set.trans readable.marks
  simp only [penalize, read, stored, adjusted, bind, Except.bind]
  split
  · exact ⟨s, rfl, readable.reread⟩
  · split
    · exact ⟨_, rfl, ⟨readable.filled, marks _⟩, rfl, rfl⟩
    · exact ⟨_, rfl, ⟨penalized, marks _⟩, rfl, rfl⟩

theorem Readable.predict_total (readable : s.Readable rows vocab) (some : 0 < rows)
    (below : position < s.positions) (history : List Token) :
    ∃ token s', Step.Returns (predict history position) s token s' ∧ Reread rows vocab s s' := by
  obtain ⟨first, lengthened, kept⟩ := readable.constrainLength_total some below
    history.length s.inner.settings.minLength
  obtain ⟨second, penalized, kept'⟩ := kept.readable.penalize_total some
    (kept.positions.symm ▸ below) history s.inner.settings.repetitionPenalty
  have kept := kept.trans kept'
  obtain ⟨own, found⟩ := kept.readable.filled.scoresAt_total some (kept.positions.symm ▸ below)
  refine ⟨own.argmax, second, ?_, kept⟩
  simp only [predict, Step.returns_bind, Step.returns_get, Step.returns_attempt,
    Step.returns_lift, Step.returns_pure]
  exact ⟨s, s, ⟨rfl, rfl⟩, (), first, lengthened, (), second, penalized, second, second,
    ⟨rfl, rfl⟩, own, second, ⟨found, rfl⟩, rfl, rfl⟩

theorem Readable.verify_total (readable : s.Readable rows vocab) (some : 0 < rows)
    {draft : List Token} (enough : position + draft.length ≤ s.positions) :
    ∃ verdict s', Step.Returns (verify history position draft) s verdict s' ∧
      Reread rows vocab s s' := by
  induction draft generalizing s position history with
  | nil =>
    simp only [verify, Step.returns_bind, Step.returns_get]
    -- a draft that is accepted whole gets one more token if there are scores for it
    by_cases below : position < s.positions
    · obtain ⟨token, s', predicted, kept⟩ := readable.predict_total some below history
      refine ⟨⟨[], Option.some token⟩, s', ⟨s, s, ⟨rfl, rfl⟩, ?_⟩, kept⟩
      rw [if_pos below]
      simp only [Step.returns_bind, Step.returns_pure]
      exact ⟨token, s', predicted, rfl, rfl⟩
    · refine ⟨.empty, s, ⟨s, s, ⟨rfl, rfl⟩, ?_⟩, readable.reread⟩
      rw [if_neg below]
      exact Step.returns_pure.mpr ⟨rfl, rfl⟩
  | cons token rest ih =>
    rw [List.length_cons] at enough
    obtain ⟨target, middle, predicted, kept⟩ :=
      readable.predict_total some (show position < s.positions by omega) history
    simp only [verify, Step.returns_bind]
    by_cases differs : target ≠ token
    · refine ⟨⟨[], Option.some target⟩, middle, ⟨target, middle, predicted, ?_⟩, kept⟩
      rw [if_pos differs]
      exact Step.returns_pure.mpr ⟨rfl, rfl⟩
    · rw [not_not] at differs
      -- nothing is looked at after an end token
      by_cases ends : middle.inner.settings.isEnd token = true
      · refine ⟨⟨[token], none⟩, middle, ⟨target, middle, predicted, ?_⟩, kept⟩
        rw [if_neg (not_not.mpr differs), Step.returns_bind]
        refine ⟨middle, middle, Step.returns_get.mpr ⟨rfl, rfl⟩, ?_⟩
        rw [if_pos ends]
        exact Step.returns_pure.mpr ⟨rfl, rfl⟩
      · -- the rest is verified from the next position on
        have same := kept.positions
        obtain ⟨verdict, s', verified, kept'⟩ :=
          @ih middle (position + 1) (history ++ [token]) kept.readable (by omega)
        refine ⟨{ verdict with accepted := token :: verdict.accepted }, s', ⟨target, middle,
          predicted, ?_⟩, kept.trans kept'⟩
        rw [if_neg (not_not.mpr differs), Step.returns_bind]
        refine ⟨middle, middle, Step.returns_get.mpr ⟨rfl, rfl⟩, ?_⟩
        rw [if_neg ends]
        simp only [Step.returns_bind, Step.returns_pure]
        exact ⟨verdict, s', verified, rfl, rfl⟩

theorem Readable.checkCandidates_total (readable : s.Readable rows vocab) (some : 0 < rows)
    {draft : List Token} (enough : draft.length ≤ s.positions) :
    ∃ verdict s', Step.Returns (checkCandidates (history ++ draft) draft.length) s verdict s' ∧
      Reread rows vocab s s' := by
  obtain ⟨verdict, s', verified, kept⟩ := @Readable.verify_total s rows vocab 0 history readable
    some draft (by simpa using enough)
  have committed : (history ++ draft).length - draft.length = history.length := by simp
  refine ⟨verdict, s', ?_, kept⟩
  simp only [checkCandidates, Step.returns_bind, Step.returns_get, Step.throw_bind,
    Step.returns_guard, Step.returns_lift]
  refine ⟨s, s, ⟨rfl, rfl⟩, (), s, ⟨?_, rfl⟩, ?_, ?_⟩
  · simp [LoadedScores.requireFresh, readable.filled.fresh]
  · simp only [List.length_append, Bool.or_eq_true, decide_eq_true_eq]
    omega
  · rwa [committed, List.take_left, List.drop_left]

theorem Judged.committed_length_le {isEnd : Token → Bool} {positions : Nat}
    {predicts : Nat → List Token → Token → Prop} {draft : List Token} {verdict : Verdict}
    (judged : Judged isEnd positions predicts position history draft verdict) :
    verdict.committed.length ≤ draft.length + 1 := by
  have accepted := judged.accepted_prefix.length_le
  have corrected : verdict.correction.toList.length ≤ 1 := by
    cases verdict.correction <;> simp
  rw [Verdict.committed, List.length_append]
  omega

end Speculative

theorem Strategy.Open.verify_total {s : Speculative} {vocab : Nat} {tensor : Tensor}
    {draft row : List Token} (opened : (Strategy.speculative s).Open)
    (only : s.inner.histories.rows = [row])
    (shape : tensor.shape = [1, draft.length + 1, vocab])
    (filled : tensor.values.length = Tensor.volume tensor.shape)
    (fits : s.inner.settings.vocabulary = 0 ∨ vocab = s.inner.settings.vocabulary)
    (room : s.inner.histories.length + (draft.length + 1) ≤ s.inner.histories.capacity) :
    ∃ loaded asked verdict checked kept,
      Step.Returns (setScores tensor) (.speculative s) () loaded ∧
      Step.Returns (sequence 0) loaded row asked ∧
      Step.Returns (checkCandidates (row ++ draft) draft.length) asked verdict checked ∧
      Step.Returns (setNextTokens verdict.committed) checked () kept := by
  have single : s.inner.settings.batchSize = 1 := by
    rw [← opened.1.rows.count, only, List.length_singleton]
  have shaped : tensor.shape =
      [(Strategy.speculative s).histories.rows.length, draft.length + 1, vocab] := by
    rw [shape, histories, only, List.length_singleton]
  obtain ⟨loaded, scored, has, sized⟩ := opened.setScores_total shaped filled
    (Nat.succ_pos _) fits
  obtain ⟨s₁, rfl, passed⟩ := byCases_speculative scored
  obtain ⟨scores, -, inner, unread⟩ := Speculative.setScores_returns passed
  obtain ⟨positions, marks⟩ := sized s₁ rfl
  have histories : s₁.inner.histories = s.inner.histories := by rw [inner]
  have count : s₁.inner.histories.rows.length = 1 := by rw [histories, only, List.length_singleton]
  have readable : s₁.Readable 1 vocab := ⟨count ▸ has.filled, marks.trans positions.symm⟩
  -- the row that the verdict goes on from is the only one
  have here : s₁.inner.histories.rows[0]? = some row := by
    rw [histories, only]
    rfl
  have asked : Step.Returns (sequence 0) (.speculative s₁) row (.speculative s₁) :=
    returns_speculative (returns_inside (Greedy.sequence_row here))
  obtain ⟨verdict, s₂, decided, -⟩ := @Speculative.Readable.checkCandidates_total s₁ 1 vocab row
    readable Nat.one_pos draft (by omega)
  obtain ⟨same, judged⟩ := Speculative.checkCandidates_returns unread decided
  have unchanged : s₂.inner = { s.inner with scores := s₂.inner.scores } := by rw [same, inner]
  have settled : ∃ g', Step.Returns (Greedy.setNextTokens verdict.committed) s₂.inner () g' := by
    rw [unchanged]
    apply (Greedy.Marked.rescore opened.1 s₂.inner.scores s.inner.words).setNextTokens_total single
    have most := judged.committed_length_le
    dsimp only
    omega
  obtain ⟨g', settled⟩ := settled
  have checked : Step.Returns (checkCandidates (row ++ draft) draft.length) (.speculative s₁)
      verdict (.speculative s₂) := by
    unfold checkCandidates draftOnly
    exact returns_speculative decided
  have kept : Step.Returns (setNextTokens verdict.committed) (.speculative s₂) ()
      (.speculative { s₂ with inner := g' }) := by
    unfold setNextTokens rowBased
    exact returns_speculative (returns_inside settled)
  exact ⟨_, _, verdict, _, _, scored, asked, checked, kept⟩

end StagedDecoding
