import StagedDecoding.Proofs.Actions
import StagedDecoding.Proofs.Extension

/-! The books of a row-based search.

End marks, the number of rows without one, and the mark for histories that were full are carried
along by each commit on its own, and computed anew after a drop. However selections, committed runs
and drops alternate, the marks tell which rows have generated an end token, what follows an end
token is padding, and the search is over exactly when every row is marked or the histories are full
or were at some time. A mark is only ever lost by a drop that takes the end token with it.
-/

set_option autoImplicit false

namespace StagedDecoding

def Settings.Padded (settings : Settings) (tokens : List Token) : Prop :=
  tokens.Pairwise fun earlier later => settings.isEnd earlier = true → later = settings.pad

theorem Settings.padded_of_late {settings : Settings} {tokens : List Token}
    (late : ∀ token ∈ tokens.dropLast, settings.isEnd token = false) : settings.Padded tokens := by
  rw [Settings.Padded, List.pairwise_iff_getElem]
  intro i j _ bound before ends
  have inside : i < tokens.dropLast.length := by
    rw [List.length_dropLast]
    omega
  have goes := late _ (List.getElem_mem inside)
  rw [List.getElem_dropLast, ends] at goes
  cases goes

namespace Greedy

/-- The books are in order. Whether the histories are full or were is told by `full`. -/
structure Booked (full : Prop) (g : Greedy) : Prop where
  tallied : g.Tallied
  padded : ∀ row ∈ g.histories.rows, g.settings.Padded (row.drop g.histories.promptLength)
  noted : g.histories.isFull = true → full
  reached : g.reachedCapacity = true ↔ full
  done : g.done = true ↔ full ∨ g.running = 0

structure Extends (before after : Greedy) : Prop where
  settings : after.settings = before.settings
  promptLength : after.histories.promptLength = before.histories.promptLength
  rows : ∀ (i : Nat) (row : List Token), before.histories.rows[i]? = some row →
    ∃ more, after.histories.rows[i]? = some (row ++ more)

inductive Moves (before : Greedy) : Greedy → Prop where
  | rescored (scores : LoadedScores) : Moves before { before with scores := scores }
  | committed {tokens : List Token} {words : WordStream} {after : Greedy} :
      Step.Returns (Greedy.commit tokens) { before with words := words } () after →
      Moves before after
  | ran {tokens : List Token} {after : Greedy} :
      Step.Returns (Greedy.setNextTokens tokens) before () after → Moves before after

variable {full : Prop} {before after g : Greedy} {u : Unit}

theorem Extends.refl (g : Greedy) : Extends g g :=
  ⟨rfl, rfl, fun _ row found => ⟨[], by rwa [List.append_nil]⟩⟩

theorem Booked.congr {other : Prop} (booked : g.Booked full) (same : full ↔ other) :
    g.Booked other := by
  rw [← propext same]
  exact booked

theorem booked_refreshDone (tallied : g.refreshDone.Tallied)
    (padded : ∀ row ∈ g.histories.rows, g.settings.Padded (row.drop g.histories.promptLength))
    (reached : g.reachedCapacity = true ↔ full) :
    g.refreshDone.Booked (full ∨ g.histories.isFull = true) := by
  refine ⟨tallied, padded, .inr, ?_, ?_⟩
  · simp only [refreshDone, Bool.or_eq_true, reached]
  · simp only [refreshDone, Bool.or_eq_true, decide_eq_true_eq, reached]

theorem Booked.start {settings : Settings} {inputIds : List Token} {everyPosition : Bool}
    (started : Greedy.start settings inputIds everyPosition = .ok g) :
    g.Booked (g.histories.isFull = true) := by
  have tallied := Tallied.start started
  obtain ⟨h, prompting, rfl⟩ := start_eq_ok started
  have some := (Histories.level_of_start prompting).1
  have width := Histories.start_level prompting
  refine ⟨tallied, fun row member => ?_, id, Iff.rfl, ?_⟩
  · obtain ⟨-, rfl⟩ := Histories.start_eq_ok prompting
    rw [List.drop_of_length_le (Nat.le_of_eq (width row member))]
    exact List.Pairwise.nil
  · exact (or_iff_left (Nat.ne_of_gt some)).symm

theorem Booked.rescore (booked : g.Booked full) (scores : LoadedScores) (words : WordStream) :
    Booked full { g with scores := scores, words := words } :=
  ⟨⟨booked.tallied.rows, booked.tallied.grown, booked.tallied.ended, booked.tallied.running⟩,
    booked.padded, booked.noted, booked.reached, booked.done⟩

theorem Booked.commit {tokens : List Token} (booked : before.Booked full)
    (ran : Step.Returns (Greedy.commit tokens) before u after) :
    after.Booked (full ∨ after.histories.isFull = true) ∧ Extends before after := by
  have tallied := booked.tallied.commit ran
  have sized : before.ended.length = before.histories.rows.length := by
    rw [booked.tallied.ended, List.length_map]
  obtain ⟨counted, -, running, -, rfl⟩ := commit_returns sized ran
  simp only [List.length_map] at counted
  refine ⟨booked_refreshDone tallied (fun row member => ?_) booked.reached, rfl, rfl,
    fun i row found => ?_⟩
  · obtain ⟨i, bound, rfl⟩ := List.mem_iff_getElem.mp member
    simp only [List.length_zipWith, List.length_map, counted, Nat.min_self] at bound
    have marks : i < before.ended.length := by
      rw [booked.tallied.ended, List.length_map]
      exact bound
    have mark : before.ended[i] =
        hasEnded before.settings before.histories.promptLength before.histories.rows[i] := by
      simp [booked.tallied.ended]
    have long := booked.tallied.rows.width _ (List.getElem_mem bound) ▸ booked.tallied.grown
    simp only [List.getElem_zipWith, List.getElem_map, List.getElem_zip,
      List.drop_append_of_le_length long]
    -- an end token before the new one has set the mark, and a marked row is given the pad token
    refine List.pairwise_append.mpr ⟨booked.padded _ (List.getElem_mem bound),
      List.pairwise_singleton _ _, fun earlier inside later added ends => ?_⟩
    have ended : before.ended[i] = true := mark.trans (List.any_eq_true.mpr ⟨earlier, inside, ends⟩)
    rw [List.mem_singleton.mp added, settleOne, if_pos ended]
  · have bound := (List.getElem?_eq_some_iff.mp found).1
    have inside : i < ((before.ended.zip tokens).map (settleOne before.settings)).length := by
      rw [List.length_map, counted]
      exact bound
    refine ⟨[((before.ended.zip tokens).map (settleOne before.settings))[i].1], ?_⟩
    simp only [refreshDone, List.getElem?_zipWith, found, List.getElem?_map,
      List.getElem?_eq_getElem inside, Option.map_some]

theorem Booked.setNextTokens {tokens : List Token} (booked : before.Booked full)
    (ran : Step.Returns (Greedy.setNextTokens tokens) before u after) :
    after.Booked (full ∨ after.histories.isFull = true) ∧ Extends before after := by
  obtain rfl | ⟨tallied, row, run, only, goes, -, late, rfl⟩ := booked.tallied.setNextTokens ran
  · exact ⟨booked.congr (or_iff_left_of_imp booked.noted).symm, .refl _⟩
  · have long := booked.tallied.rows.width row (by simp [only]) ▸ booked.tallied.grown
    refine ⟨booked_refreshDone tallied ?_ ?_, before.marking_settings run, rfl,
      fun i row found => ⟨run, ?_⟩⟩
    · -- the row has not ended, so that padding is due only behind the end of the run
      have fresh : ∀ token ∈ row.drop before.histories.promptLength,
          before.settings.isEnd token = false := by
        simpa [hasEnded] using goes
      simp only [only, List.map_singleton, List.mem_singleton, forall_eq,
        List.drop_append_of_le_length long, marking_settings]
      refine List.pairwise_append.mpr ⟨booked.padded row (by simp [only]),
        Settings.padded_of_late late, fun earlier inside later _ ends => ?_⟩
      rw [fresh earlier inside] at ends
      cases ends
    · rw [marking_reachedCapacity]
      exact booked.reached
    · simp only [refreshDone, List.getElem?_map, found, Option.map_some]

/-- A call that drops nothing keeps the books in order and the tokens of the rows. -/
theorem Moves.booked (moves : before.Moves after) (booked : before.Booked full) :
    after.Booked (full ∨ after.histories.isFull = true) ∧ Extends before after := by
  cases moves with
  | rescored scores =>
    exact ⟨(booked.rescore scores before.words).congr (or_iff_left_of_imp booked.noted).symm,
      rfl, rfl, (Extends.refl before).rows⟩
  | @committed tokens words _ ran =>
    obtain ⟨booked, longer⟩ := (booked.rescore before.scores words).commit ran
    exact ⟨booked, longer.settings, longer.promptLength, longer.rows⟩
  | ran ran => exact booked.setNextTokens ran

theorem Tallied.dropLast_returns {count : Nat} (tallied : before.Tallied)
    (ran : Step.Returns (Greedy.dropLast count) before u after) :
    after.settings = before.settings ∧ after.reachedCapacity =
        (before.reachedCapacity || after.histories.isFull) ∧
      after.histories = { before.histories with
        rows := before.histories.rows.map (·.take (before.histories.length - count))
        length := before.histories.length - count } ∧
      after.ended = after.histories.rows.map (fun row =>
        (after.histories.generatedPart row).any after.settings.isEnd) ∧
      after.running = after.ended.count false ∧
      after.done = (after.reachedCapacity || decide (after.running = 0)) := by
  simp only [Greedy.dropLast, Histories.dropLast, Step.returns_attempt, Outcome.bind_eq_ok,
    Outcome.pure_eq_ok] at ran
  obtain ⟨histories, dropped, ended, marked, rfl⟩ := ran
  have rows := tallied.rows.count
  have marks : before.ended.length = before.settings.batchSize := by
    rw [tallied.ended, List.length_map, rows]
  split at dropped
  · cases dropped
  · obtain rfl := Except.ok.inj dropped
    rw [markAnew_total ((List.length_map _).trans rows) marks] at marked
    exact ⟨rfl, rfl, rfl, (Except.ok.inj marked).symm, rfl, rfl⟩

theorem Booked.dropLast {count : Nat} (booked : before.Booked full)
    (spared : before.histories.promptLength + count ≤ before.histories.length)
    (ran : Step.Returns (Greedy.dropLast count) before u after) :
    after.Booked (full ∨ after.histories.isFull = true) := by
  obtain ⟨settings, reached, histories, ended, running, done⟩ :=
    booked.tallied.dropLast_returns ran
  have grown : before.histories.promptLength ≤ before.histories.length - count := by omega
  -- the prompts stay whole, so nothing is cut but what was generated
  have prompt : after.histories.promptKept = after.histories.promptLength := by
    rw [histories]
    exact Nat.min_eq_left grown
  have noted : after.reachedCapacity = true ↔ full ∨ after.histories.isFull = true := by
    rw [reached, Bool.or_eq_true, booked.reached]
  refine ⟨⟨⟨?_, ?_⟩, ?_, ?_, running⟩, ?_, .inr, noted, ?_⟩
  · rw [histories, settings]
    exact (List.length_map _).trans booked.tallied.rows.count
  · rw [histories]
    simp only [List.forall_mem_map]
    intro row member
    rw [List.length_take, booked.tallied.rows.width row member]
    exact Nat.min_eq_left (Nat.sub_le _ _)
  · rw [histories]
    exact grown
  · rw [ended]
    simp only [Histories.generatedPart, prompt]
    rfl
  · rw [histories, settings]
    simp only [List.forall_mem_map]
    intro row member
    rw [List.drop_take]
    exact (booked.padded row member).sublist (List.take_sublist _ _)
  · rw [done, Bool.or_eq_true, noted, decide_eq_true_eq]

/-- A mark that a drop takes away was that of an end token among the dropped ones. -/
theorem marks_of_drop {count : Nat} (tallied : before.Tallied)
    (spared : before.histories.promptLength + count ≤ before.histories.length)
    (ran : Step.Returns (Greedy.dropLast count) before u after) (tallied' : after.Tallied) {i : Nat}
    (marked : before.ended[i]? = some true) :
    after.ended[i]? = some true ∨ ∃ row, before.histories.rows[i]? = some row ∧
      (row.drop (before.histories.length - count)).any before.settings.isEnd = true ∧
      after.ended[i]? = some false := by
  obtain ⟨settings, -, histories, -⟩ := tallied.dropLast_returns ran
  rw [tallied.ended, List.getElem?_map] at marked
  obtain ⟨row, found, ended⟩ := Option.map_eq_some_iff.mp marked
  have left : after.ended[i]? = some (hasEnded before.settings before.histories.promptLength
      (row.take (before.histories.length - count))) := by
    rw [tallied'.ended, histories, settings, List.getElem?_map, List.getElem?_map, found]
    rfl
  have long : before.histories.promptLength ≤
      (row.take (before.histories.length - count)).length := by
    rw [List.length_take, tallied.rows.width row (List.mem_of_getElem? found)]
    omega
  rw [← List.take_append_drop (before.histories.length - count) row, hasEnded_append long,
    Bool.or_eq_true] at ended
  -- the mark stays if an end token stands in what is left
  cases mark : hasEnded before.settings before.histories.promptLength
      (row.take (before.histories.length - count)) with
  | true => exact .inl (left.trans (congrArg some mark))
  | false =>
    refine .inr ⟨row, found, ended.resolve_left ?_, left.trans (congrArg some mark)⟩
    rw [mark]
    exact Bool.false_ne_true

theorem Extends.marks (longer : Extends before after) (tallied : before.Tallied)
    (tallied' : after.Tallied) {i : Nat} (marked : before.ended[i]? = some true) :
    after.ended[i]? = some true := by
  rw [tallied.ended, List.getElem?_map] at marked
  obtain ⟨row, found, ended⟩ := Option.map_eq_some_iff.mp marked
  obtain ⟨more, grown⟩ := longer.rows i row found
  have long := tallied.rows.width row (List.mem_of_getElem? found) ▸ tallied.grown
  rw [tallied'.ended, List.getElem?_map, grown, Option.map_some, longer.settings,
    longer.promptLength, hasEnded_append long, ended, Bool.true_or]

end Greedy

namespace Speculative

variable {s s' : Speculative}

theorem ends_constrainLength (length minLength position : Nat) :
    Outcome.Ends (s.constrainLength length minLength position) (SameBut s) fun _ => True := by
  refine Outcome.ends_iff.mpr ⟨fun s' ran => ?_, fun _ _ => trivial⟩
  obtain ⟨_, -, visits⟩ := constrainLength_visits ran
  exact visits.same

theorem ends_penalize (history : List Token) (penalty : Float32) (position : Nat) :
    Outcome.Ends (s.penalize history penalty position) (SameBut s) fun _ => True := by
  refine Outcome.ends_iff.mpr ⟨fun s' ran => ?_, fun _ _ => trivial⟩
  obtain ⟨_, -, visits⟩ := penalize_visits ran
  exact visits.same

theorem leaves_predict (kept : SameBut s s') (history : List Token) (position : Nat) :
    Step.Leaves (SameBut s) (predict history position) s' := by
  simp only [Step.Leaves, predict, Step.ends_bind, Step.ends_get, Step.ends_attempt]
  refine (ends_constrainLength _ _ _).imp (fun first longer => ?_) fun _ _ => kept
  have kept := kept.trans longer
  refine (ends_penalize _ _ _).imp (fun second fewer => ?_) fun _ _ => kept
  have kept := kept.trans fewer
  rw [Step.ends_lift, Outcome.ends_iff]
  exact ⟨fun _ _ => kept, fun _ _ => kept⟩

theorem leaves_verify (kept : SameBut s s') (history : List Token) (position : Nat)
    (draft : List Token) : Step.Leaves (SameBut s) (verify history position draft) s' := by
  -- along the draft; only the predictions write, and only scores and marks
  induction draft generalizing s' history position with
  | nil =>
    simp only [verify, Step.Leaves, Step.ends_bind, Step.ends_get]
    split
    · exact (leaves_predict kept history position).bind fun _ _ kept => kept
    · exact kept
  | cons token rest ih =>
    refine (leaves_predict kept history position).bind fun target middle kept => ?_
    simp only [Step.Leaves]
    split
    · exact kept
    · simp only [Step.ends_bind, Step.ends_get]
      split
      · exact kept
      · exact (ih kept (history ++ [token]) (position + 1)).bind fun _ _ kept => kept

theorem leaves_checkCandidates (tokens : List Token) (count : Nat) :
    Step.Leaves (SameBut s) (checkCandidates tokens count) s := by
  simp only [Step.Leaves, checkCandidates, Step.throw_bind, Step.ends_bind, Step.ends_get,
    Step.ends_lift]
  rw [Outcome.ends_iff]
  refine ⟨fun _ _ => ?_, fun _ _ => .refl s⟩
  split
  · exact .refl s
  · exact leaves_verify (.refl s) _ _ _

theorem leaves_constrainLengthAt (minLength position : Nat) :
    Step.Leaves (SameBut s) (constrainLengthAt minLength position) s := by
  simp only [Step.Leaves, constrainLengthAt, Step.ends_attempt, Outcome.ends_bind]
  rw [Outcome.ends_iff]
  exact ⟨fun _ _ => (ends_constrainLength _ _ _).imp (fun _ kept => kept) fun _ _ => .refl s,
    fun _ _ => .refl s⟩

theorem leaves_penalizeAt (penalty : Float32) (position : Nat) :
    Step.Leaves (SameBut s) (penalizeAt penalty position) s := by
  simp only [Step.Leaves, penalizeAt, Step.ends_attempt, Outcome.ends_bind]
  rw [Outcome.ends_iff]
  refine ⟨fun _ _ => ?_, fun _ _ => .refl s⟩
  rw [Outcome.ends_iff]
  exact ⟨fun _ _ => (ends_penalize _ _ _).imp (fun _ kept => kept) fun _ _ => .refl s,
    fun _ _ => .refl s⟩

end Speculative

namespace Strategy

def ended : Strategy → List Bool
  | .greedy g => g.ended
  | .beam _ => []
  | .speculative s => s.inner.ended

def Action.commits : Action → Bool
  | .selectTop | .sampleTop _ _ | .sampleShare _ _ | .sampleTopShare _ _ _ | .dropLast _
  | .setNextTokens _ => true
  | _ => false

theorem ended_of_greedy? {strategy : Strategy} {g : Greedy} (searches : strategy.greedy? = some g) :
    strategy.ended = g.ended := by
  cases strategy with
  | greedy _ => exact congrArg Greedy.ended (Option.some.inj searches)
  | beam _ => cases searches
  | speculative _ => exact congrArg Greedy.ended (Option.some.inj searches)

/-- One call. If it commits or drops tokens it succeeds, and drops none of the prompt. Any other may
come to anything. -/
inductive Called (before : Strategy) : Action → Strategy → Prop where
  | committing {action : Action} {after : Strategy} : action.commits = true →
      (∀ count, action = .dropLast count →
        before.histories.promptLength + count ≤ before.histories.length) →
      Step.Returns (perform action) before () after → Called before action after
  | other {action : Action} : action.commits = false →
      Called before action (perform action before).2

/-- The states of a row-based strategy up to the present one, the latest first. -/
inductive Went (settings : Settings) (inputIds : List Token) : List Strategy → Strategy → Prop where
  | start {strategy : Strategy} : Started settings inputIds strategy → strategy.kind ≠ .beam →
      Went settings inputIds [] strategy
  | call {past : List Strategy} {before after : Strategy} {action : Action} :
      Went settings inputIds past before → Called before action after →
      Went settings inputIds (before :: past) after

/-- What the marks of a strategy say about the states that it went through. -/
structure Books (past : List Strategy) (strategy : Strategy) : Prop where
  marks : strategy.ended = strategy.histories.rows.map fun row =>
    (strategy.histories.generatedPart row).any strategy.settings.isEnd
  padded : ∀ row ∈ strategy.histories.rows,
    strategy.settings.Padded (strategy.histories.generatedPart row)
  done : strategy.isDone = true ↔ (∀ mark ∈ strategy.ended, mark = true) ∨
    ∃ state ∈ strategy :: past, state.histories.isFull = true
  /-- A mark is lost only by a drop, and the end tokens of its row with it. -/
  kept : ∀ action after, Called strategy action after → ∀ i : Nat,
    strategy.ended[i]? = some true → after.ended[i]? = some true ∨
      ∃ count row, action = .dropLast count ∧ strategy.histories.rows[i]? = some row ∧
        (row.drop (strategy.histories.length - count)).any strategy.settings.isEnd = true ∧
        after.ended[i]? = some false

variable {strategy before after : Strategy} {g : Greedy} {action : Action} {full : Prop}

theorem leaves_rescore {greedyScores : Greedy → Except Failure LoadedScores}
    {beamScores : Beam → Except Failure LoadedScores} :
    Step.Leaves (SameCourse strategy)
      (byCases
        (.attempt fun g => do
          let scores ← greedyScores g
          return { g with scores := scores })
        (.attempt fun b => do
          let scores ← beamScores b
          return { b with scores := scores })
        (Speculative.inside (.attempt fun g => do
          let scores ← greedyScores g
          return { g with scores := scores })))
      strategy := by
  cases strategy with
  | greedy g =>
    simp only [Step.Leaves, ends_greedy, Step.ends_attempt, Outcome.ends_bind]
    rw [Outcome.ends_iff]
    exact ⟨fun scores _ => .greedy g scores, fun _ _ => .refl _⟩
  | beam b =>
    simp only [Step.Leaves, ends_beam, Step.ends_attempt, Outcome.ends_bind]
    rw [Outcome.ends_iff]
    exact ⟨fun scores _ => .beam b scores, fun _ _ => .refl _⟩
  | speculative s =>
    simp only [Step.Leaves, ends_speculative, Speculative.inside, Step.ends_within,
      Step.ends_attempt, Outcome.ends_bind]
    rw [Outcome.ends_iff]
    exact ⟨fun scores _ => .speculative s scores s.marks, fun _ _ => .refl _⟩

theorem leaves_setScores (tensor : Tensor) :
    Step.Leaves (SameCourse strategy) (setScores tensor) strategy := by
  cases strategy with
  | greedy g =>
    simp only [Step.Leaves, setScores, ends_greedy, Greedy.setScores, Step.ends_attempt,
      Outcome.ends_bind]
    rw [Outcome.ends_iff]
    exact ⟨fun scores _ => .greedy g scores, fun _ _ => .refl _⟩
  | beam b =>
    simp only [Step.Leaves, setScores, ends_beam, Beam.setScores, Step.ends_attempt,
      Outcome.ends_bind]
    rw [Outcome.ends_iff]
    exact ⟨fun scores _ => .beam b scores, fun _ _ => .refl _⟩
  | speculative s =>
    simp only [Step.Leaves, setScores, ends_speculative, Speculative.setScores,
      Speculative.inside, Greedy.setScores, Step.ends_bind, Step.ends_within, Step.ends_attempt,
      Outcome.ends_bind]
    rw [Outcome.ends_iff]
    exact ⟨fun scores _ => .speculative s scores _, fun _ _ => .refl _⟩

theorem leaves_draftOnly {α : Type} {operation : Operation} {step : Step Speculative α}
    (leaves : ∀ s, Step.Leaves (Speculative.SameBut s) step s) :
    Step.Leaves (SameCourse strategy) (draftOnly operation step) strategy := by
  unfold draftOnly
  cases strategy with
  | greedy g => exact ends_greedy.mpr (SameCourse.refl _)
  | beam b => exact ends_beam.mpr (SameCourse.refl _)
  | speculative s =>
    have course : ∀ s', Speculative.SameBut s s' →
        SameCourse (.speculative s) (.speculative s') := by
      rintro ⟨inner, marks⟩ same
      rw [show inner = { s.inner with scores := inner.scores } from same]
      exact .speculative s inner.scores marks
    exact ends_speculative.mpr (Step.Ends.imp (leaves s) (fun _ => course) fun _ => course)

theorem course_of_other (other : action.commits = false) (kind : strategy.kind ≠ .beam) :
    SameCourse strategy (perform action strategy).2 := by
  refine Step.leaves_iff.mp ?_
  have ignored : ∀ {α : Type} {step : Step Strategy α},
      Step.Leaves (SameCourse strategy) step strategy →
        Step.Leaves (SameCourse strategy) (do let _ ← step; return) strategy :=
    fun leaves => leaves.bind fun _ _ same => Step.ends_pure.mpr same
  cases action with
  | setScores tensor => exact leaves_setScores tensor
  | constrainLength minLength => exact leaves_rescore
  | penalize penalty => exact leaves_rescore
  | checkCandidates tokens count =>
    exact ignored (leaves_draftOnly fun s => s.leaves_checkCandidates tokens count)
  | constrainLengthAt minLength position =>
    exact leaves_draftOnly fun s => s.leaves_constrainLengthAt minLength position
  | penalizeAt penalty position =>
    exact leaves_draftOnly fun s => s.leaves_penalizeAt penalty position
  | finalize count =>
    refine ignored ?_
    cases strategy with
    | greedy g => exact ends_greedy.mpr (SameCourse.refl _)
    | beam b => exact absurd rfl kind
    | speculative s => exact ends_speculative.mpr (SameCourse.refl _)
  | sequence index =>
    refine ignored ?_
    cases strategy with
    | greedy g =>
      refine ends_greedy.mpr ?_
      rw [Greedy.sequence, Step.ends_inspect, Outcome.ends_iff]
      exact ⟨fun _ _ => .refl _, fun _ _ => .refl _⟩
    | beam b => exact absurd rfl kind
    | speculative s =>
      refine ends_speculative.mpr ?_
      rw [Speculative.inside, Step.ends_within, Greedy.sequence, Step.ends_inspect,
        Outcome.ends_iff]
      exact ⟨fun _ _ => .refl _, fun _ _ => .refl _⟩
  -- the other calls commit or drop
  | selectTop => cases other
  | sampleTop k temperature => cases other
  | sampleShare p temperature => cases other
  | sampleTopShare k p temperature => cases other
  | dropLast count => cases other
  | setNextTokens tokens => cases other

theorem rowBased_returns {operation : Operation} {step : Step Greedy Unit} {u : Unit}
    (searches : before.greedy? = some g)
    (ran : Step.Returns (rowBased operation step) before u after) :
    ∃ g', Step.Returns step g u g' ∧ after.greedy? = some g' :=
  rowSearch_returns searches ran

theorem rows_of_greedy? (searches : before.greedy? = some g) : before.kind ≠ .beam := by
  cases before with
  | beam b => cases searches
  | greedy | speculative => exact nofun

theorem Called.moves (called : Called before action after) (searches : before.greedy? = some g) :
    ∃ g', after.greedy? = some g' ∧
      (g.Moves g' ∨
        ∃ count, action = .dropLast count ∧ Step.Returns (Greedy.dropLast count) g () g') := by
  cases called with
  | other plain =>
    obtain ⟨-, searches'⟩ := (course_of_other plain (rows_of_greedy? searches)).greedy? searches
    exact ⟨_, searches', .inl (.rescored _)⟩
  -- a call that commits moves the search, all but a drop in a way that keeps the books
  | committing commits spared ran =>
    cases action with
    | selectTop =>
      obtain ⟨g', passed, searches'⟩ := rowSearch_returns searches ran
      obtain ⟨tokens, -, committed⟩ := Greedy.selectTop_returns passed
      exact ⟨g', searches', .inl (.committed committed)⟩
    | sampleTop | sampleShare | sampleTopShare =>
      obtain ⟨g', passed, searches'⟩ := rowBased_returns searches ran
      obtain ⟨tokens, words, committed⟩ := Greedy.sample_returns passed
      exact ⟨g', searches', .inl (.committed committed)⟩
    | setNextTokens tokens =>
      obtain ⟨g', passed, searches'⟩ := rowBased_returns searches ran
      exact ⟨g', searches', .inl (.ran passed)⟩
    | dropLast count =>
      obtain ⟨g', passed, searches'⟩ := rowBased_returns searches ran
      exact ⟨g', searches', .inr ⟨count, rfl, passed⟩⟩
    | setScores | constrainLength | penalize | checkCandidates | constrainLengthAt | penalizeAt
    | finalize | sequence => cases commits

theorem Called.spared {count : Nat} (called : Called before (.dropLast count) after) :
    before.histories.promptLength + count ≤ before.histories.length := by
  cases called with
  | other plain => cases plain
  | committing _ spared _ => exact spared count rfl

theorem Called.booked (called : Called before action after)
    (searches : before.greedy? = some g) (booked : g.Booked full) :
    ∃ g', after.greedy? = some g' ∧ g'.Booked (full ∨ g'.histories.isFull = true) ∧
      (Greedy.Extends g g' ∨
        ∃ count, action = .dropLast count ∧ Step.Returns (Greedy.dropLast count) g () g') := by
  obtain ⟨g', searches', moves | ⟨count, rfl, dropped⟩⟩ := called.moves searches
  · obtain ⟨booked, longer⟩ := moves.booked booked
    exact ⟨g', searches', booked, .inl longer⟩
  · have spared := called.spared
    rw [(of_greedy? searches).1] at spared
    exact ⟨g', searches', booked.dropLast spared dropped, .inr ⟨count, rfl, dropped⟩⟩

/-- The books are in order at the start and after every call, by induction over the calls. -/
theorem Went.booked {settings : Settings} {inputIds : List Token} {past : List Strategy}
    (went : Went settings inputIds past strategy) :
    ∃ g, strategy.greedy? = some g ∧
      g.Booked (∃ state ∈ strategy :: past, state.histories.isFull = true) := by
  induction went with
  | start started kind =>
    cases started with
    | greedy began => exact ⟨_, rfl, (Greedy.Booked.start began).congr (by simp [histories])⟩
    | beam => exact absurd rfl kind
    | speculative made =>
      obtain ⟨-, inner, began, rfl⟩ := Speculative.start_eq_ok made
      exact ⟨_, rfl, (Greedy.Booked.start began).congr (by simp [histories])⟩
  | @call past before after action _ called ih =>
    obtain ⟨g, searches, booked⟩ := ih
    obtain ⟨g', searches', booked, -⟩ := called.booked searches booked
    refine ⟨g', searches', booked.congr ?_⟩
    rw [← (of_greedy? searches').1, List.exists_mem_cons_iff _ after]
    exact or_comm

/-- However selections, committed runs and drops that spare the prompt alternate, marks, padding and
the end of the search agree with the histories. -/
theorem books_match {settings : Settings} {inputIds : List Token} {past : List Strategy}
    (went : Went settings inputIds past strategy) : Books past strategy := by
  obtain ⟨g, searches, booked⟩ := went.booked
  obtain ⟨sameHistories, sameSettings, sameDone, -⟩ := of_greedy? searches
  have sameEnded := ended_of_greedy? searches
  have prompt : g.histories.promptKept = g.histories.promptLength :=
    Nat.min_eq_left booked.tallied.grown
  refine ⟨?_, ?_, ?_, fun action after called i marked => ?_⟩
  · rw [sameEnded, sameHistories, sameSettings, booked.tallied.ended]
    simp only [Histories.generatedPart, prompt]
    rfl
  · rw [sameHistories, sameSettings]
    simp only [Histories.generatedPart, prompt]
    exact booked.padded
  · rw [sameDone, sameEnded, booked.done, booked.tallied.running, List.count_eq_zero, or_comm]
    refine or_congr_left ⟨fun all mark member => ?_, fun all member => ?_⟩
    · cases mark with
      | true => rfl
      | false => exact absurd member all
    · exact Bool.false_ne_true (all _ member)
  · obtain ⟨g', searches', booked', longer | ⟨count, dropping, dropped⟩⟩ :=
      called.booked searches booked
    · rw [sameEnded] at marked
      rw [ended_of_greedy? searches']
      exact .inl (longer.marks booked.tallied booked'.tallied marked)
    · have spared : g.histories.promptLength + count ≤ g.histories.length := by
        cases called with
        | other plain =>
          rw [dropping] at plain
          cases plain
        | committing _ spared _ => exact sameHistories ▸ spared count dropping
      rw [sameEnded] at marked
      rw [ended_of_greedy? searches', sameHistories, sameSettings]
      obtain left | ⟨row, found, among, gone⟩ :=
        Greedy.marks_of_drop booked.tallied spared dropped booked'.tallied marked
      · exact .inl left
      · exact .inr ⟨count, row, dropping, found, among, gone⟩

def single : Strategy := .greedy {
  settings := {
    batchSize := 1, beams := 1, returnCount := 1, maxLength := 4, vocabulary := 8, pad := 0
    endTokens := [3, 0], lengthPenalty := 1, earlyStopping := true, seed := none
    minLength := 0, repetitionPenalty := 1 }
  histories := ⟨[[1]], 1, 1, 4⟩
  scores := .empty
  everyPosition := false
  nextTokens := [0]
  ended := [false]
  running := 1
  reachedCapacity := false
  done := false
  words := .ofSeed? none }

/-- A committed run that ends the row, and a drop that reopens it. -/
theorem single_books_match :
    let ran := (perform (.setNextTokens [2, 3, 5]) single).2
    let dropped := (perform (.dropLast 1) ran).2
    ran.ended = [true] ∧ dropped.ended = [false] ∧ Books [ran, single] dropped := by
  intro ran dropped
  have started : Went single.settings [1] [] single := .start (.greedy rfl) nofun
  have committed : Called single (.setNextTokens [2, 3, 5]) ran := .committing rfl nofun rfl
  have reopened : Called ran (.dropLast 1) dropped := by
    refine .committing rfl (fun count same => ?_) rfl
    cases same
    decide
  exact ⟨rfl, rfl, books_match ((started.call committed).call reopened)⟩

end Strategy

end StagedDecoding
