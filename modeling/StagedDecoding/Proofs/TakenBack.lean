import StagedDecoding.Proofs.RefusedCommits

/-! Commits that are taken back.

Whatever a row-based search commits, a drop of as many tokens leaves the histories, the marks and
the end of the search that there were before, as long as the histories have not become full. The
marks are not kept for that but found again in the rows, so this rests on the books. What the way
there and back changes for good are the latest tokens, the words, and the scores, which are used up.
So nothing tells the two states apart once scores are loaded.
-/

set_option autoImplicit false

namespace StagedDecoding

namespace Greedy

/-- Only tokens at the ends of the rows have been added, and there is as much room and as many
positions as before. -/
structure Outgrows (before after : Greedy) : Prop extends Extends before after where
  capacity : after.histories.capacity = before.histories.capacity
  length : before.histories.length ≤ after.histories.length
  everyPosition : after.everyPosition = before.everyPosition

variable {full : Prop} {before middle after : Greedy} {count : Nat}

theorem Outgrows.refl (before : Greedy) : Outgrows before before :=
  ⟨.refl before, rfl, Nat.le_refl _, rfl⟩

theorem Outgrows.trans (first : Outgrows before middle) (second : Outgrows middle after) :
    Outgrows before after := by
  refine ⟨⟨second.settings.trans first.settings, second.promptLength.trans first.promptLength,
    fun i row found => ?_⟩, second.capacity.trans first.capacity, first.length.trans second.length,
    second.everyPosition.trans first.everyPosition⟩
  obtain ⟨more, found⟩ := first.rows i row found
  obtain ⟨most, found⟩ := second.rows i _ found
  exact ⟨more ++ most, by rw [found, List.append_assoc]⟩

theorem Moves.outgrows (moves : before.Moves after) (booked : before.Booked full) :
    Outgrows before after := by
  have longer := (moves.booked booked).2
  cases moves with
  | rescored scores => exact ⟨longer, rfl, Nat.le_refl _, rfl⟩
  | committed ran =>
    obtain ⟨-, -, -, _, _, -, -, rfl⟩ := commit_appends ran
    exact ⟨longer, rfl, Nat.le_succ _, rfl⟩
  | ran ran =>
    obtain rfl | ⟨-, row, run, -, -, -, -, rfl⟩ := booked.tallied.setNextTokens ran
    · exact .refl _
    · exact ⟨longer, rfl, Nat.le_add_right _ _, before.marking_everyPosition run⟩

theorem Outgrows.isFull (grown : Outgrows before after) (full : before.histories.isFull = true) :
    after.histories.isFull = true := by
  have length := grown.length
  simp only [Histories.isFull, decide_eq_true_eq, grown.capacity] at full ⊢
  omega

theorem Outgrows.drops (grown : Outgrows before after) (booked : before.Booked full)
    (booked' : after.Booked full)
    (added : after.histories.length = before.histories.length + count) :
    after.histories.dropLast count = .ok before.histories := by
  have rows : after.histories.rows.map (·.take before.histories.length) =
      before.histories.rows := by
    have counted : after.histories.rows.length = before.histories.rows.length := by
      rw [booked.tallied.rows.count, booked'.tallied.rows.count, grown.settings]
    refine List.ext_getElem ((List.length_map _).trans counted) fun i _ there => ?_
    obtain ⟨more, found⟩ := grown.rows i _ (List.getElem?_eq_getElem there)
    have width := booked.tallied.rows.width _ (List.getElem_mem there)
    obtain ⟨here, same⟩ := List.getElem?_eq_some_iff.mp found
    rw [List.getElem_map, same, ← width, List.take_left]
  have enough : ¬ after.histories.length < count := by omega
  have left : after.histories.length - count = before.histories.length := by omega
  rw [Histories.dropLast, if_neg enough, left, rows]
  refine congrArg Except.ok ?_
  rw [grown.capacity, grown.promptLength]

/-- The books tell how the rows stood, so that a drop leaves nothing of what was added but the
latest tokens, the scores and the words. -/
theorem Outgrows.dropLast (grown : Outgrows before after) (booked : before.Booked full)
    (booked' : after.Booked full)
    (added : after.histories.length = before.histories.length + count) :
    ∃ back, Step.Returns (Greedy.dropLast count) after () back ∧
      before.Like False .loose back := by
  refine ⟨{ before.recast after.nextTokens (fun _ => after.words) with scores := after.scores },
    ?_, after.nextTokens, fun _ => after.words, after.scores, rfl, trivial, nofun⟩
  -- the books were right before, so counting them anew gives what they were
  have prompt : before.histories.promptKept = before.histories.promptLength :=
    Nat.min_eq_left booked.tallied.grown
  have ended : before.histories.rows.map (fun row =>
      (before.histories.generatedPart row).any before.settings.isEnd) = before.ended := by
    rw [booked.tallied.ended]
    simp only [Histories.generatedPart, prompt]
    rfl
  have reached : (after.reachedCapacity || before.histories.isFull) = before.reachedCapacity := by
    rw [Bool.eq_iff_iff, Bool.or_eq_true, booked.reached, booked'.reached]
    exact or_iff_left_of_imp booked.noted
  have done : (before.reachedCapacity || decide (before.running = 0)) = before.done := by
    rw [Bool.eq_iff_iff, Bool.or_eq_true, booked.reached, booked.done, decide_eq_true_eq]
  have marks : after.ended.length = after.settings.batchSize := by
    rw [booked'.tallied.ended, List.length_map, booked'.tallied.rows.count]
  have marked : markAnew after.settings before.histories after.ended = .ok before.ended := by
    rw [markAnew_total (grown.settings ▸ booked.tallied.rows.count) marks, grown.settings, ended]
  simp only [Greedy.dropLast, Step.returns_attempt, Outcome.bind_eq_ok, Outcome.pure_eq_ok]
  refine ⟨_, grown.drops booked booked' added, _, marked, ?_⟩
  simp only [refreshDone, grown.settings, reached, ← booked.tallied.running, done,
    grown.everyPosition]
  rfl

end Greedy

namespace Strategy

def Advances (before after : Strategy) : Prop :=
  ∃ action, Called before action after ∧ ∀ count, action ≠ .dropLast count

structure Undone (before back : Strategy) : Prop where
  histories : back.histories = before.histories
  ended : back.ended = before.ended
  done : back.isDone = before.isDone
  /-- Without samples, calls tell the states apart only by scores that were there before. -/
  unnoticed : ∀ actions : List Action, (∀ action ∈ actions, action.sampling? = none) →
    LoadsFirst actions before ∨ before.ScoresAgree back →
    (conduct actions back).1 = (conduct actions before).1 ∧
      (conduct actions back).2.histories = (conduct actions before).2.histories ∧
      (conduct actions back).2.ended = (conduct actions before).2.ended ∧
      (conduct actions back).2.isDone = (conduct actions before).2.isDone

variable {before after back last : Strategy} {g g' : Greedy} {action : Action} {full worded : Prop}

theorem Called.kind (called : Called before action after) (rows : before.kind ≠ .beam) :
    after.kind = before.kind := by
  cases called with
  | other plain => exact (course_of_other plain rows).kind
  | committing commits _ ran =>
    rw [Step.Returns] at ran
    obtain rfl : (perform action before).2 = after := congrArg Prod.snd ran
    cases action with
    | selectTop | sampleTop | sampleShare | sampleTopShare | setNextTokens | dropLast =>
      cases before with
      | greedy | beam | speculative => rfl
    | setScores | constrainLength | penalize | checkCandidates | constrainLengthAt | penalizeAt
    | finalize | sequence => cases commits

theorem like_of_greedy? (kind : after.kind = before.kind) (searches : before.greedy? = some g)
    (searches' : after.greedy? = some g') (like : g.Like worded .loose g') :
    before.Like worded .loose after := by
  cases before with
  | greedy _ =>
    cases after with
    | greedy _ =>
      obtain rfl := Option.some.inj searches
      obtain rfl := Option.some.inj searches'
      exact .greedy like
    | beam _ | speculative _ => cases kind
  | beam _ => cases searches
  | speculative _ =>
    cases after with
    | speculative _ =>
      obtain rfl := Option.some.inj searches
      obtain rfl := Option.some.inj searches'
      exact .speculative ⟨like, nofun⟩
    | beam _ | greedy _ => cases kind

theorem kind_withSearch (strategy : Strategy) (g : Greedy) :
    (strategy.withSearch g).kind = strategy.kind := by
  cases strategy with
  | greedy | beam | speculative => rfl

theorem Like.undone (like : before.Like False .loose back) : Undone before back := by
  obtain ⟨histories, ended, done⟩ := like.observed
  refine ⟨histories.symm, ended.symm, done.symm, fun actions silent ready => ?_⟩
  have spoken : ∀ action ∈ actions, action.sampling? = none ∨ False :=
    fun action member => .inl (silent action member)
  obtain ⟨tie, like, ready⟩ : ∃ tie : Tie, before.Like False tie back ∧
      (tie ≠ .loose ∨ LoadsFirst actions before) := by
    obtain loads | agree := ready
    · exact ⟨.loose, like, .inr loads⟩
    · obtain ⟨tie, close, like⟩ := like.tighten agree
      exact ⟨tie, like, .inl close⟩
  obtain ⟨outcomes, _, left⟩ := like.conduct spoken ready
  obtain ⟨histories, ended, done⟩ := left.observed
  exact ⟨outcomes.symm, histories.symm, ended.symm, done.symm⟩

/-- Calls that drop nothing, by induction over them. Whether the histories became full in between
is told by the last ones. -/
theorem outgrows_of_advances (advanced : Relation.ReflTransGen Advances before after)
    (searches : before.greedy? = some g) (booked : g.Booked full) :
    after.kind = before.kind ∧ ∃ g', after.greedy? = some g' ∧ g.Outgrows g' ∧
      g'.Booked (full ∨ g'.histories.isFull = true) := by
  induction advanced with
  | refl =>
    exact ⟨rfl, g, searches, .refl g, booked.congr (or_iff_left_of_imp booked.noted).symm⟩
  | tail _ advances ih =>
    obtain ⟨kind, middle, searches, grown, booked⟩ := ih
    obtain ⟨action, called, plain⟩ := advances
    obtain ⟨g', searches', moves | ⟨count, dropping, -⟩⟩ := called.moves searches
    · have further := moves.outgrows booked
      refine ⟨(called.kind (rows_of_greedy? searches)).trans kind, g', searches',
        grown.trans further, (moves.booked booked).1.congr ?_⟩
      rw [or_assoc]
      exact or_congr_right (or_iff_right_of_imp further.isFull)
    · exact absurd dropping (plain count)

/-- However a row-based strategy got to a state without drops into the prompt, and whatever it
commits from there, a drop of as many tokens undoes it, as long as the histories have not become
full. -/
theorem drop_undoes_commits {settings : Settings} {inputIds : List Token} {past : List Strategy}
    {count : Nat} (went : Went settings inputIds past before)
    (advanced : Relation.ReflTransGen Advances before last)
    (added : last.length = before.length + count)
    (room : last.histories.isFull = true →
      ∃ state ∈ before :: past, state.histories.isFull = true) :
    ∃ back, Step.Returns (perform (.dropLast count)) last () back ∧ Undone before back := by
  obtain ⟨g, searches, booked⟩ := went.booked
  obtain ⟨kind, g', searches', grown, booked'⟩ := outgrows_of_advances advanced searches booked
  rw [length, length, (of_greedy? searches).1, (of_greedy? searches').1] at added
  rw [(of_greedy? searches').1] at room
  obtain ⟨back, dropped, like⟩ :=
    grown.dropLast booked (booked'.congr (or_iff_left_of_imp room)) added
  refine ⟨last.withSearch back, ?_, (like_of_greedy? ((kind_withSearch last back).trans kind)
    searches (greedy?_withSearch searches' back) like).undone⟩
  have ran : Step.Returns (perform (.dropLast count)) (last.withSearch g') ()
      (last.withSearch back) := (rowBased_returns_iff searches').mpr ⟨back, dropped, rfl⟩
  rw [withSearch_self searches'] at ran
  exact ran

def evenLoad : Action := .setScores (.filled .f32 [1, 8] (.real 0))

def wideLoad : Action := .setScores (.filled .f32 [2, 8] (.real 0))

/-- Where a search has scores, a commit uses them up, and a load that is refused does not bring them
back. -/
theorem refused_load_tells :
    let loaded := (perform evenLoad single).2
    let last := (perform (.setNextTokens [2]) loaded).2
    let back := (perform (.dropLast 1) last).2
    let later := [wideLoad, .constrainLength 0]
    let refused : Failure := .shape (.scoreShape 1 8) (.extents [2, 1, 8])
    Went single.settings [1] [single] loaded ∧ Relation.ReflTransGen Advances loaded last ∧
    last.length = loaded.length + 1 ∧ last.histories.isFull = false ∧
    Step.Returns (perform (.dropLast 1)) last () back ∧
    (conduct later loaded).1 = [.error refused, .ok ()] ∧
    (conduct later back).1 = [.error refused, .error .scoresMissing] := by
  intro loaded last back later refused
  have went : Went single.settings [1] [single] loaded :=
    .call (.start (.greedy rfl) nofun) (.other rfl)
  have advances : Advances loaded last := ⟨.setNextTokens [2], .committing rfl nofun rfl, nofun⟩
  exact ⟨went, .single advances, rfl, rfl, rfl, rfl, rfl⟩

theorem ending_run_undone :
    let last := (perform (.setNextTokens [2, 3]) single).2
    last.ended = [true] ∧ last.isDone = true ∧
    LoadsFirst [wideLoad, .dropLast 0, evenLoad, .selectTop] single ∧
    ∃ back, Step.Returns (perform (.dropLast 2)) last () back ∧ Undone single back := by
  intro last
  have advances : Advances single last := ⟨.setNextTokens [2, 3], .committing rfl nofun rfl, nofun⟩
  have loads : LoadsFirst [wideLoad, .dropLast 0, evenLoad, .selectTop] single :=
    .skip rfl (.skip rfl (.load rfl))
  have started : Went single.settings [1] [] single := .start (.greedy rfl) nofun
  exact ⟨rfl, rfl, loads, drop_undoes_commits started (.single advances) rfl nofun⟩

end Strategy

end StagedDecoding
