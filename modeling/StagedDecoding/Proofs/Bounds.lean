import StagedDecoding.Proofs.Conditions
import StagedDecoding.Proofs.Verdicts

/-! The sizes that row-based search relies on.

A greedy search has a history, an end mark and, while its scores are fresh, scores for every row of
its batch. It counts the rows without a mark, and its histories never outgrow their capacity. Draft
verification also marks every position of fresh scores. Every operation keeps this up whether it
succeeds or fails half-way, and nothing that it looks up is ever out of range.
-/

set_option autoImplicit false

namespace StagedDecoding

namespace Histories

variable {h : Histories} {rows : Nat} {tokens : List Token}

/-- Rows of the length of the histories, which have room for them. -/
structure Level (rows : Nat) (h : Histories) : Prop where
  rectangular : Rectangular rows h.length h.rows
  fits : h.length ≤ h.capacity

theorem level_of_start {inputIds : List Token} {batch beams capacity : Nat}
    (started : start inputIds batch beams capacity = .ok h) :
    0 < batch ∧ h.Level (batch * beams) := by
  have width := start_level started
  have some : 0 < batch := by
    unfold start at started
    split at started
    · cases started
    · next accepted =>
      simp only [Bool.or_eq_true, decide_eq_true_eq, not_or] at accepted
      exact Nat.pos_of_ne_zero accepted.1
  obtain ⟨fits, rfl⟩ := start_eq_ok started
  exact ⟨some, ⟨by simp [List.length_flatMap], width⟩, fits⟩

theorem ends_checkRowCount {count : Nat} :
    Outcome.Ends (h.checkRowCount count) (fun _ => count = h.rows.length) Failure.Proper := by
  unfold checkRowCount
  split
  · next same => exact same
  · trivial

theorem ends_checkCapacity {extra : Nat} :
    Outcome.Ends (h.checkCapacity extra) (fun _ => h.length + extra ≤ h.capacity)
      Failure.Proper := by
  unfold checkCapacity
  split
  · trivial
  · next room => exact Nat.le_of_not_lt room

theorem Level.append (level : h.Level rows) :
    Outcome.Ends (h.append tokens) (Level rows) Failure.Proper := by
  simp only [Histories.append, Outcome.ends_bind]
  refine ends_checkRowCount.imp (fun _ counted => ?_) fun _ proper => proper
  refine ends_checkCapacity.imp (fun _ room => ?_) fun _ proper => proper
  refine ⟨⟨?_, fun row member => ?_⟩, room⟩
  · rw [List.length_zipWith, counted, Nat.min_self, level.rectangular.count]
  · obtain ⟨i, bound, rfl⟩ := List.mem_iff_getElem.mp member
    rw [List.getElem_zipWith, List.length_append, List.length_singleton,
      level.rectangular.width _ (List.getElem_mem _)]

theorem Level.appendRun (level : h.Level rows) :
    Outcome.Ends (h.appendRun tokens) (Level rows) Failure.Proper := by
  simp only [Histories.appendRun, Outcome.throw_bind]
  split
  · trivial
  · rw [Outcome.ends_bind]
    refine ends_checkCapacity.imp (fun _ room => ?_) fun _ proper => proper
    refine ⟨⟨(List.length_map _).trans level.rectangular.count, ?_⟩, room⟩
    rw [List.forall_mem_map]
    intro row member
    rw [List.length_append, level.rectangular.width row member]

theorem Level.dropLast (level : h.Level rows) {count : Nat} :
    Outcome.Ends (h.dropLast count) (Level rows) Failure.Proper := by
  unfold Histories.dropLast
  split
  · trivial
  · refine ⟨⟨(List.length_map _).trans level.rectangular.count, ?_⟩,
      Nat.le_trans (Nat.sub_le _ _) level.fits⟩
    rw [List.forall_mem_map]
    intro row member
    rw [List.length_take, level.rectangular.width row member]
    exact Nat.min_eq_left (Nat.sub_le _ _)

end Histories

namespace LoadedScores

variable {scores : LoadedScores} {rows vocabulary : Nat}

theorem ends_load {everyPosition : Bool} {tensor : Tensor} :
    Outcome.Ends (load rows vocabulary everyPosition tensor)
      (fun scores => ∃ vocab, scores.Filled rows vocab) Failure.Proper := by
  rw [Outcome.ends_iff]
  refine ⟨fun scores loaded => ?_, fun failure refused => ?_⟩
  · obtain ⟨n, v, shape, -, some, filled, same⟩ := load_eq_ok.mp loaded
    have long : tensor.floats.length = rows * (n * v) := by
      rcases shape with shape | ⟨rfl, shape⟩ <;>
        simpa [Tensor.floats, Tensor.volume, shape] using filled
    exact ⟨v, same ▸ filled_laid everyPosition some long⟩
  · -- a tensor is refused for its rank, for its extents or for its number of values
    have accepts : ∀ {r n v laid}, load.accept rows vocabulary tensor r n v laid = .error failure →
        failure.Proper := by
      intro r n v laid
      unfold load.accept
      split
      · rintro ⟨⟩
        trivial
      · split
        · rintro ⟨⟩
          trivial
        · rintro ⟨⟩
    unfold load at refused
    split at refused
    · exact accepts refused
    · dsimp only at refused
      split at refused
      · exact accepts refused
      · exact accepts refused
    · cases refused
      trivial

theorem ends_requireFresh :
    Outcome.Ends scores.requireFresh (fun _ => scores.fresh = true) Failure.Proper := by
  unfold requireFresh
  split
  · next fresh => exact fresh
  · trivial

structure Reshaped (rows : Nat) (scores changed : LoadedScores) : Prop where
  fresh : scores.fresh = true
  positions : changed.positions = scores.positions
  filled : ∃ vocab, changed.Filled rows vocab

/-- Both constraints are refused for scores that are not fresh, and never for others. -/
theorem ends_constrainLength (shaped : scores.fresh = true → ∃ vocab, scores.Filled rows vocab)
    (minLength : Nat) (endTokens : List Token) (histories : Histories) :
    Outcome.Ends (scores.constrainLength minLength endTokens histories) (scores.Reshaped rows)
      Failure.Proper := by
  cases fresh : scores.fresh with
  | false =>
    rw [LoadedScores.constrainLength, Outcome.ends_bind, requireFresh, fresh]
    trivial
  | true =>
    obtain ⟨vocab, filled⟩ := shaped fresh
    obtain ⟨changed, passed, filled, same⟩ :=
      filled.constrainLength_total minLength endTokens histories
    exact Outcome.ends_of_ok passed ⟨fresh, same, vocab, filled⟩

theorem ends_penalize (shaped : scores.fresh = true → ∃ vocab, scores.Filled rows vocab)
    (penalty : Float32) {histories : Histories} (enough : rows ≤ histories.rows.length) :
    Outcome.Ends (scores.penalize penalty histories) (scores.Reshaped rows) Failure.Proper := by
  cases fresh : scores.fresh with
  | false =>
    rw [LoadedScores.penalize, Outcome.ends_bind, requireFresh, fresh]
    trivial
  | true =>
    obtain ⟨vocab, filled⟩ := shaped fresh
    obtain ⟨changed, passed, filled, same⟩ := filled.penalize_total penalty enough
    exact Outcome.ends_of_ok passed ⟨fresh, same, vocab, filled⟩

end LoadedScores

namespace Greedy

/-- The sizes of a greedy search. Something may be known about the number of positions of its
fresh scores. -/
structure Sized (settings : Settings) (known : Nat → Prop) (g : Greedy) : Prop where
  fixed : g.settings = settings
  some : 0 < settings.batchSize
  level : g.histories.Level settings.batchSize
  ended : g.ended.length = settings.batchSize
  running : g.running = g.ended.count false
  scores : g.scores.fresh = true →
    known g.scores.positions ∧ ∃ vocab, g.scores.Filled settings.batchSize vocab

variable {settings : Settings} {known : Nat → Prop} {g : Greedy}

theorem Sized.start {inputIds : List Token} {everyPosition : Bool}
    (started : Greedy.start settings inputIds everyPosition = .ok g) :
    g.Sized { settings with beams := 1 } known := by
  obtain ⟨h, prompting, rfl⟩ := start_eq_ok started
  obtain ⟨some, level⟩ := Histories.level_of_start prompting
  rw [Nat.mul_one] at level
  exact ⟨rfl, some, level, by simp, by simp, by simp [LoadedScores.empty]⟩

theorem Sized.rescore (sized : g.Sized settings known) {other : Nat → Prop}
    {scores : LoadedScores} (shaped : scores.fresh = true →
      other scores.positions ∧ ∃ vocab, scores.Filled settings.batchSize vocab)
    (words : WordStream) : Sized settings other { g with scores := scores, words := words } :=
  ⟨sized.fixed, sized.some, sized.level, sized.ended, sized.running, shaped⟩

theorem Sized.consumed (sized : g.Sized settings known) {histories : Histories}
    (level : histories.Level settings.batchSize) (nextTokens : List Token) :
    Sized settings known (refreshDone { g with
      histories := histories
      nextTokens := nextTokens
      scores := g.scores.consume }) :=
  ⟨sized.fixed, sized.some, level, sized.ended, sized.running, fun fresh => by cases fresh⟩

theorem Sized.setScores (sized : g.Sized settings known) {tensor : Tensor} :
    Step.Ends (Greedy.setScores tensor) g (fun _ g' => g'.Sized settings fun _ => True)
      fun failure g' => failure.Proper ∧ g' = g := by
  simp only [Greedy.setScores, Step.ends_attempt, Outcome.ends_bind, Outcome.ends_pure]
  refine LoadedScores.ends_load.imp (fun scores shaped => ?_) fun _ proper => ⟨proper, trivial⟩
  rw [sized.fixed] at shaped
  exact sized.rescore (fun _ => ⟨trivial, shaped⟩) _

theorem Sized.reshape (sized : g.Sized settings known) {changed : LoadedScores}
    (reshaped : g.scores.Reshaped settings.batchSize changed) :
    Sized settings known { g with scores := changed } :=
  sized.rescore
    (fun _ => ⟨reshaped.positions ▸ (sized.scores reshaped.fresh).1, reshaped.filled⟩) g.words

theorem Sized.constrainLength (sized : g.Sized settings known) (minLength : Nat) :
    Step.Safe (Sized settings known) (Greedy.constrainLength minLength) g := by
  simp only [Step.Safe, Greedy.constrainLength, Step.ends_attempt, Outcome.ends_bind,
    Outcome.ends_pure]
  exact (LoadedScores.ends_constrainLength (fun fresh => (sized.scores fresh).2) _ _ _).imp
    (fun _ reshaped => sized.reshape reshaped) fun _ proper => ⟨proper, sized⟩

theorem Sized.penalize (sized : g.Sized settings known) (penalty : Float32) :
    Step.Safe (Sized settings known) (Greedy.penalize penalty) g := by
  simp only [Step.Safe, Greedy.penalize, Step.ends_attempt, Outcome.ends_bind, Outcome.ends_pure]
  exact (LoadedScores.ends_penalize (fun fresh => (sized.scores fresh).2) _
    (Nat.le_of_eq sized.level.rectangular.count.symm)).imp
    (fun _ reshaped => sized.reshape reshaped) fun _ proper => ⟨proper, sized⟩

theorem Sized.commit_iff (sized : g.Sized settings known) {tokens : List Token} {g' : Greedy}
    (count : tokens.length = settings.batchSize) :
    Step.Returns (Greedy.commit tokens) g () g' ↔
      g.histories.length + 1 ≤ g.histories.capacity ∧ g' = committed tokens g := by
  have batch : settings.batchSize = g.settings.batchSize := congrArg _ sized.fixed.symm
  exact Greedy.commit_iff (sized.level.rectangular.count.trans batch) (sized.ended.trans batch)
    sized.running (Nat.le_of_eq (count.trans batch).symm)

theorem Sized.commit (sized : g.Sized settings known) {tokens : List Token}
    (count : tokens.length = settings.batchSize) :
    Step.Safe (Sized settings known) (Greedy.commit tokens) g := by
  have enough : g.ended.length ≤ tokens.length := by rw [sized.ended, count]
  have slots : g.settings.batchSize ≤ tokens.length := by rw [sized.fixed, count]
  have settled := @settle_total g.settings (g.ended.zip tokens) 0
  rw [List.map_fst_zip enough, Nat.add_zero, ← sized.running, Nat.add_zero] at settled
  have marks : (((g.ended.zip tokens).map (settleOne g.settings)).map Prod.snd).length =
      settings.batchSize := by
    rw [List.length_map, List.length_map, List.length_zip, Nat.min_eq_left enough, sized.ended]
  simp only [Step.Safe, Greedy.commit, Step.ends_bind, Step.ends_get, Step.ends_lift,
    Step.ends_set]
  refine Outcome.ends_of_ok (fillSlots_total slots) ?_
  refine Outcome.ends_of_ok (markedSlots_total (sized.fixed ▸ sized.ended) slots) ?_
  refine Outcome.ends_of_ok settled ?_
  refine sized.level.append.imp (fun histories level => ?_) fun failure proper => ⟨proper, ?_⟩
  · exact ⟨sized.fixed, sized.some, level, marks, rfl, fun fresh => by cases fresh⟩
  · exact ⟨sized.fixed, sized.some, sized.level, marks, rfl, sized.scores⟩

theorem Sized.last_total (sized : g.Sized settings known) (fresh : g.scores.fresh = true) :
    ∀ row ∈ List.range g.settings.batchSize, ∃ own, g.scores.last row = .ok own := by
  obtain ⟨-, vocab, filled⟩ := sized.scores fresh
  exact fun row member => filled.last_total (sized.fixed ▸ List.mem_range.mp member)

theorem Sized.selectTop (sized : g.Sized settings known) :
    Step.Safe (Sized settings known) Greedy.selectTop g := by
  simp only [Step.Safe, Greedy.selectTop, Step.ends_bind, Step.ends_get, Step.ends_lift]
  refine LoadedScores.ends_requireFresh.imp (fun _ fresh => ?_) fun _ proper => ⟨proper, sized⟩
  obtain ⟨tokens, best, count⟩ := bestTokens_total (sized.last_total fresh)
  rw [List.length_range, sized.fixed] at count
  exact Outcome.ends_of_ok best (sized.commit count)

theorem Sized.sample (sized : g.Sized settings known) (sampling : Scores.Sampling) :
    Step.Safe (Sized settings known) (Greedy.sample sampling) g := by
  simp only [Step.Safe, Greedy.sample, Step.ends_bind, Step.ends_get, Step.ends_lift,
    Step.ends_set]
  refine LoadedScores.ends_requireFresh.imp (fun _ fresh => ?_) fun _ proper => ⟨proper, sized⟩
  obtain ⟨drawn, found, count⟩ := drawRows_total sampling (sized.last_total fresh) g.words
  rw [List.length_range, sized.fixed] at count
  exact Outcome.ends_of_ok found ((sized.rescore sized.scores drawn.2).commit count)

theorem Sized.dropLast (sized : g.Sized settings known) (count : Nat) :
    Step.Safe (Sized settings known) (Greedy.dropLast count) g := by
  simp only [Step.Safe, Greedy.dropLast, Step.ends_attempt, Outcome.ends_bind, Outcome.ends_pure]
  refine sized.level.dropLast.imp (fun histories level => ?_) fun _ proper => ⟨proper, sized⟩
  have batch : settings.batchSize = g.settings.batchSize := congrArg _ sized.fixed.symm
  have rows := level.rectangular.count.trans batch
  refine Outcome.ends_of_ok (markAnew_total rows (sized.ended.trans batch)) ?_
  exact ⟨sized.fixed, sized.some, level, (List.length_map _).trans level.rectangular.count, rfl,
    sized.scores⟩

theorem Sized.setNextTokens (sized : g.Sized settings known) (tokens : List Token) :
    Step.Safe (Sized settings known) (Greedy.setNextTokens tokens) g := by
  simp only [Step.Safe, setNextTokens_eq, Step.throw_bind, Step.ends_bind, Step.ends_get]
  split
  · exact ⟨trivial, sized⟩
  · next single =>
    rw [Decidable.not_not, sized.fixed] at single
    have first : 0 < g.ended.length := by rw [sized.ended, single]; exact Nat.one_pos
    rw [Step.ends_bind, Step.ends_lift]
    refine Outcome.ends_fetch first ?_
    split
    · exact sized
    · simp only [commitRun, Step.ends_bind, Step.ends_set, Step.ends_lift]
      -- the run may be cut after its first end token, which marks the row
      have marked : (g.marking (cutAtEnd g.settings tokens).1).Sized settings known := by
        obtain ⟨mark, marks⟩ := List.length_eq_one_iff.mp (sized.ended.trans single)
        unfold marking
        split
        · exact ⟨sized.fixed, sized.some, sized.level, List.length_set.trans sized.ended,
            by simp [marks], sized.scores⟩
        · exact sized
      refine marked.level.appendRun.imp (fun histories level => ?_) fun _ proper =>
        ⟨proper, marked⟩
      exact marked.consumed level _

theorem Sized.sequence (sized : g.Sized settings known) (index : Nat) :
    Step.Safe (Sized settings known) (Greedy.sequence index) g := by
  simp only [Step.Safe, Greedy.sequence, Step.ends_inspect]
  split
  · exact ⟨trivial, sized⟩
  · next inside => exact Outcome.ends_fetch (Nat.lt_of_not_le inside) sized

end Greedy

namespace Speculative

/-- The sizes of a search that verifies drafts: those of the one row inside, and a mark for every
position of fresh scores. -/
structure Sized (settings : Settings) (s : Speculative) : Prop where
  inner : s.inner.Sized settings (· = s.marks.length)
  single : settings.batchSize = 1

variable {settings : Settings} {s s' : Speculative} {rows vocab : Nat}

theorem Sized.start {inputIds : List Token}
    (started : Speculative.start settings inputIds = .ok s) :
    s.Sized { settings with beams := 1 } := by
  obtain ⟨single, inner, began, rfl⟩ := Speculative.start_eq_ok started
  exact ⟨.start began, Nat.eq_one_of_mul_eq_one_right single⟩

theorem Sized.inside {α : Type} {step : Step Greedy α} (sized : s.Sized settings)
    (safe : Step.Safe (Greedy.Sized settings (· = s.marks.length)) step s.inner) :
    Step.Safe (Sized settings) (Speculative.inside step) s := by
  simp only [Step.Safe, Speculative.inside, Step.ends_within]
  exact Step.Ends.imp safe (fun _ _ inner => ⟨inner, sized.single⟩)
    fun _ _ ended => ⟨ended.1, ended.2, sized.single⟩

theorem Sized.setScores (sized : s.Sized settings) {tensor : Tensor} :
    Step.Safe (Sized settings) (Speculative.setScores tensor) s := by
  simp only [Step.Safe, Speculative.setScores, Speculative.inside, Step.ends_bind,
    Step.ends_within, Step.ends_modify]
  refine sized.inner.setScores.imp (fun _ inner loaded => ⟨?_, sized.single⟩) ?_
  · exact loaded.rescore
      (fun fresh => ⟨List.length_replicate.symm, (loaded.scores fresh).2⟩) inner.words
  · rintro failure inner ⟨proper, rfl⟩
    exact ⟨proper, sized⟩

theorem Sized.readable (sized : s.Sized settings) (fresh : s.inner.scores.fresh = true) :
    ∃ vocab, s.Readable settings.batchSize vocab := by
  obtain ⟨same, vocab, filled⟩ := sized.inner.scores fresh
  exact ⟨vocab, filled, same.symm⟩

theorem Sized.reread (sized : s.Sized settings) (kept : Reread settings.batchSize vocab s s') :
    s'.Sized settings := by
  refine ⟨?_, sized.single⟩
  rw [kept.same]
  exact sized.inner.rescore (fun _ => ⟨kept.readable.marks.symm, vocab, kept.readable.filled⟩) _

theorem Sized.checkCandidates (sized : s.Sized settings) (tokens : List Token) (count : Nat) :
    Step.Safe (Sized settings) (Speculative.checkCandidates tokens count) s := by
  simp only [Step.Safe, Speculative.checkCandidates, Step.throw_bind, Step.ends_bind,
    Step.ends_get, Step.ends_lift]
  refine LoadedScores.ends_requireFresh.imp (fun _ fresh => ?_) fun _ proper => ⟨proper, sized⟩
  split
  · exact ⟨trivial, sized⟩
  · next enough =>
    simp only [Bool.or_eq_true, decide_eq_true_eq, not_or, Nat.not_lt] at enough
    obtain ⟨vocab, readable⟩ := sized.readable fresh
    have drafted : 0 + (tokens.drop (tokens.length - count)).length ≤ s.positions := by
      rw [List.length_drop]
      omega
    obtain ⟨verdict, s', verified, kept⟩ := readable.verify_total sized.inner.some drafted
    exact Step.ends_of_returns verified (sized.reread kept)

theorem Sized.checkPosition (sized : s.Sized settings) (position : Nat) :
    Outcome.Ends (s.checkPosition position)
      (fun _ => position < s.positions ∧ ∃ vocab, s.Readable settings.batchSize vocab)
      Failure.Proper := by
  simp only [Speculative.checkPosition, Outcome.ends_bind]
  refine LoadedScores.ends_requireFresh.imp (fun _ fresh => ?_) fun _ proper => proper
  split
  · trivial
  · next below => exact ⟨Nat.lt_of_not_le below, sized.readable fresh⟩

theorem Sized.constrainLengthAt (sized : s.Sized settings) (minLength position : Nat) :
    Step.Safe (Sized settings) (Speculative.constrainLengthAt minLength position) s := by
  simp only [Step.Safe, Speculative.constrainLengthAt, Step.ends_attempt, Outcome.ends_bind]
  refine (sized.checkPosition position).imp ?_ fun _ proper => ⟨proper, sized⟩
  rintro _ ⟨below, vocab, readable⟩
  obtain ⟨s', constrained, kept⟩ := readable.constrainLength_total sized.inner.some below
    (s.inner.histories.length + position) minLength
  exact Outcome.ends_of_ok constrained (sized.reread kept)

theorem Sized.penalizeAt (sized : s.Sized settings) (penalty : Float32) (position : Nat) :
    Step.Safe (Sized settings) (Speculative.penalizeAt penalty position) s := by
  simp only [Step.Safe, Speculative.penalizeAt, Step.ends_attempt, Outcome.ends_bind]
  refine (sized.checkPosition position).imp ?_ fun _ proper => ⟨proper, sized⟩
  rintro _ ⟨below, vocab, readable⟩
  have first : 0 < s.inner.histories.rows.length := by
    rw [sized.inner.level.rectangular.count]
    exact sized.inner.some
  refine Outcome.ends_fetch first ?_
  obtain ⟨s', penalized, kept⟩ := readable.penalize_total sized.inner.some below
    s.inner.histories.rows[0] penalty
  exact Outcome.ends_of_ok penalized (sized.reread kept)

end Speculative

end StagedDecoding
