import StagedDecoding.Proofs.Calls
import StagedDecoding.Proofs.EndMarks

/-! The session keeps up with the strategy.

The histories live in the strategy, and the session remembers what the model has seen of them.
Between two calls they differ by exactly the tokens that are fed next: none while scores are
pending, else one for every row. Whatever the strategy did to its rows, the next run shows them.
-/

set_option autoImplicit false

namespace StagedDecoding

namespace Reading

variable {β : Type} {model : Model β} {reading : Reading}

/-- What a run of a session comes to that shows a view to the model. -/
structure Ran (reading : Reading) (model : Model β) (view : View) (before : Session β)
    (tensor : Tensor) (after : Session β) : Prop where
  sized : ∃ old new, view.Sized reading.request.rowCount old new ∧ 0 < new
  frames : reading.Frames after
  remembers : reading.Remembers view.seen after.buffers
  scored : reading.scored view tensor.shape tensor.floats
  invoked : reading.Invoked view model before.model after.model
  later : after.first = false
  running : ∃ stage ∈ reading.decoder.stages, stage.onPrompt ∨ stage.onToken

variable {before after : Session β} {tensor : Tensor} {length : Nat}

theorem ran_first {tokens : List Token} {indices : List Nat} (honours : reading.Honours model)
    (prompted : reading.request.Prompted) (frames : reading.Frames before)
    (holds : reading.Holds (promptView reading.request) before.buffers)
    (unscored : before.buffers.scores = none) (first : before.first = true)
    (ran : Step.Returns (Session.run model length tokens indices) before tensor after) :
    reading.Ran model (promptView reading.request) before tensor after := by
  have sized := promptView_sized prompted
  have passed := run_first first ran
  have frames' : reading.Frames { before with first := false } :=
    ⟨frames.buffers, frames.stages, frames.scoresName⟩
  have running := exists_running frames' unscored passed
  obtain ⟨framed, held, scored, later, invoked⟩ :=
    runPhase_returns honours sized prompted.long frames' holds passed
  exact ⟨⟨_, _, sized, prompted.long⟩, framed, held.toRemembers, scored, invoked, later, running⟩

theorem ran_later {seen fed : List (List Token)} {indices : List Nat} {width new : Nat}
    (honours : reading.Honours model) (prompted : reading.request.Prompted)
    (frames : reading.Frames before) (remembers : reading.Remembers seen before.buffers)
    (later : before.first = false)
    (rectangular : Rectangular reading.request.rowCount width seen)
    (moved : Rectangular reading.request.rowCount width (inherited indices seen))
    (masks : reading.maskRows (inherited indices seen) = reading.maskRows seen)
    (grown : reading.request.promptLength ≤ width)
    (feeds : Rectangular reading.request.rowCount new fed)
    (ran : Step.Returns (Session.run model length fed.flatten indices) before tensor after) :
    reading.Ran model ⟨inherited indices seen, fed⟩ before tensor after ∧
      (reading.frame.counts = true → width + new = length) := by
  have rows := Request.rowCount_pos prompted
  obtain ⟨buffers, updated, passed⟩ := run_later later ran
  have counted : before.buffers.rows = reading.request.rowCount :=
    congrArg Frame.rows frames.buffers
  have total : fed.flatten.length = reading.request.rowCount * new := by
    rw [List.length_flatten, List.map_congr_left feeds.width, List.map_const',
      List.sum_replicate_nat, feeds.count]
  have columns : fed.flatten.length / reading.request.rowCount = new := by
    rw [total, Nat.mul_div_cancel_left _ rows]
  -- the tokens of all rows come in one list, which is cut into rows again
  have cut : Tensor.blocks new reading.request.rowCount fed.flatten = fed := by
    rw [← feeds.count, Tensor.blocks_flatten feeds.width]
  obtain ⟨-, positive, -⟩ := Buffers.update_returns updated
  obtain ⟨holds, unscored, fits⟩ :=
    remembers.update counted rectangular moved masks grown updated
  rw [counted, columns] at positive
  rw [columns, cut] at holds
  rw [columns] at fits
  have frames' : reading.Frames { before with buffers := buffers } :=
    ⟨(frame_of_update updated).trans frames.buffers, frames.stages, frames.scoresName⟩
  have running := exists_running frames' unscored passed
  have sized : View.Sized reading.request.rowCount width new ⟨inherited indices seen, fed⟩ :=
    ⟨moved, feeds⟩
  obtain ⟨framed, held, scored, first, invoked⟩ :=
    runPhase_returns honours sized positive frames' holds passed
  refine ⟨⟨⟨_, _, sized, positive⟩, framed, held.toRemembers, scored, invoked,
    first.trans later, running⟩, fun counts => ?_⟩
  have counts' : before.buffers.positions.isSome = true :=
    (congrArg Frame.counts frames.buffers).trans counts
  obtain ⟨positions, placed⟩ := Option.isSome_iff_exists.mp counts'
  exact fits positions placed

theorem ran_draft {middle : Session β} {past draft accepted : List Token} {token : Token}
    (honours : reading.Honours model) (prompted : reading.request.Prompted)
    (single : reading.request.rowCount = 1) (frames : reading.Frames before)
    (remembers : reading.Remembers [past] before.buffers) (later : before.first = false)
    (grown : reading.request.promptLength ≤ past.length) (part : accepted <+: draft)
    (ran : Step.Returns (Session.run model length (token :: draft) []) before tensor middle)
    (back : Step.Returns (Session.rollback (draft.length - accepted.length)) middle () after) :
    reading.Ran model ⟨[past], [token :: draft]⟩ before tensor middle ∧
      reading.Frames after ∧ after.model = middle.model ∧ after.first = false ∧
      reading.Remembers [past ++ [token] ++ accepted] after.buffers := by
  have rectangular : Rectangular reading.request.rowCount past.length [past] :=
    ⟨by simp [single], by simp⟩
  have stays : inherited [] [past] = [past] := rfl
  have feeds : Rectangular reading.request.rowCount (draft.length + 1) [token :: draft] :=
    ⟨by simp [single], by simp⟩
  have flat : token :: draft = [token :: draft].flatten := by simp
  rw [flat] at ran
  have passed := (ran_later honours prompted frames remembers later rectangular
    (stays.symm ▸ rectangular) (by rw [stays]) grown feeds ran).1
  rw [stays] at passed
  unfold Session.rollback Session.onBuffers at back
  obtain ⟨buffers, rolling, rfl⟩ := Step.returns_within.mp back
  have whole : View.seen ⟨[past], [token :: draft]⟩ = [past ++ [token] ++ draft] := by
    simp [View.seen]
  have remembered := whole ▸ passed.remembers
  have shorter := part.length_le
  have wide : Rectangular reading.request.rowCount (past.length + 1 + draft.length)
      [past ++ [token] ++ draft] := ⟨by simp [single], by simp; omega⟩
  obtain ⟨framed, forgotten⟩ :=
    remembered.rollback wide (Request.rowCount_pos prompted) (by omega) rolling
  -- what stays behind the row is the accepted part of the draft
  have cut : (past ++ [token] ++ draft).take
      (past.length + 1 + draft.length - (draft.length - accepted.length)) =
      past ++ [token] ++ accepted := by
    obtain ⟨rest, rfl⟩ := part
    rw [← List.append_assoc]
    refine List.take_left' ?_
    simp
    omega
  rw [List.map_singleton, cut] at forgotten
  exact ⟨passed, ⟨framed.trans passed.frames.buffers, passed.frames.stages,
    passed.frames.scoresName⟩, rfl, passed.later, forgotten⟩

end Reading

namespace Generator

variable {β : Type} {model : Model β} {reading : Reading} {g g' : Generator β} {u : Unit}

/-- The session remembers all but the tokens that are fed next. -/
structure Behind (reading : Reading) (g : Generator β) (seen : List (List Token)) : Prop where
  remembers : reading.Remembers seen g.session.buffers
  width : ∃ width, Rectangular reading.request.rowCount width seen ∧
    reading.request.promptLength ≤ width ∧ g.strategy.length = width + 1 ∧
    Rectangular reading.request.rowCount width (inherited g.strategy.nextIndices seen)
  masks : reading.maskRows (inherited g.strategy.nextIndices seen) = reading.maskRows seen
  count : g.feed.length = reading.request.rowCount
  rows : g.strategy.histories.rows =
    List.zipWith (fun row token => row ++ [token]) (inherited g.strategy.nextIndices seen) g.feed

/-- Where the session stands between two calls. -/
inductive Stance (reading : Reading) (g : Generator β) : Prop where
  | fresh (first : g.session.first = true) (idle : g.pendingScores = false)
      (unfed : g.pendingFeed = none)
      (holds : reading.Holds (Reading.promptView reading.request) g.session.buffers)
      (unscored : g.session.buffers.scores = none)
      (rows : g.strategy.histories.rows = reading.request.promptRows)
  | pending (later : g.session.first = false) (waits : g.pendingScores = true)
      (unfed : g.pendingFeed = none)
      (remembers : reading.Remembers g.strategy.histories.rows g.session.buffers)
  | chosen (later : g.session.first = false) (idle : g.pendingScores = false)
      (seen : List (List Token)) (behind : Behind reading g seen)

/-- Session and strategy agree on the rows. -/
structure InStep (reading : Reading) (g : Generator β) : Prop where
  prompted : reading.request.Prompted
  frames : reading.Frames g.session
  rooted : g.strategy.Rooted reading.request
  marked : g.strategy.Marked
  stance : Stance reading g

theorem InStep.create {config : Config} {device : Device} {registry : DeviceRegistry} {state : β}
    (decoder : config.model.decoder = reading.decoder)
    (created : Generator.create config reading.request state device registry = .ok g) :
    InStep reading g ∧ g.pendingScores = false ∧ g.config = reading.request.search ∧
      g.strategy.histories.rows = reading.request.promptRows ∧
      Strategy.create reading.request.settings reading.request.inputIds
        reading.request.speculative = .ok g.strategy := by
  simp only [Generator.create, Outcome.bind_eq_ok, Outcome.pure_eq_ok] at created
  obtain ⟨_, valid, strategy, made, session, opened, rfl⟩ := created
  have prompted := Request.prompted_of_validate valid
  obtain ⟨frames, holds, unscored, first, -⟩ := Reading.create_session decoder prompted opened
  have prompts := Strategy.create_prompts made
  exact ⟨⟨prompted, frames, prompts.rooted prompted, Strategy.create_marked prompted made,
    .fresh first rfl rfl holds unscored prompts.rows⟩, rfl, rfl, prompts.rows, made⟩

theorem Behind.feeds {seen : List (List Token)} (behind : Behind reading g seen) :
    (g.feed.map fun token => [token]).flatten = g.feed ∧
      Rectangular reading.request.rowCount 1 (g.feed.map fun token => [token]) ∧
      View.seen ⟨inherited g.strategy.nextIndices seen, g.feed.map fun token => [token]⟩ =
        g.strategy.histories.rows := by
  refine ⟨?_, ⟨by rw [List.length_map, behind.count], by simp⟩, ?_⟩
  · rw [← List.flatMap_def, List.flatMap_singleton']
  · rw [behind.rows, View.seen, List.zipWith_map_right]

theorem Behind.row {seen : List (List Token)} (behind : Behind reading g seen)
    (single : reading.request.rowCount = 1) (stays : g.strategy.nextIndices = []) :
    ∃ past token, seen = [past] ∧ g.feed = [token] ∧
      g.strategy.histories.rows = [past ++ [token]] ∧
      reading.request.promptLength ≤ past.length ∧ g.strategy.length = past.length + 1 := by
  obtain ⟨width, rectangular, grown, longer, -⟩ := behind.width
  obtain ⟨token, fed⟩ := List.length_eq_one_iff.mp (behind.count.trans single)
  obtain ⟨past, rfl⟩ := List.length_eq_one_iff.mp (rectangular.count.trans single)
  have wide : past.length = width := rectangular.width past (by simp)
  refine ⟨past, token, rfl, fed, ?_, wide ▸ grown, wide ▸ longer⟩
  simpa [stays, fed, inherited] using behind.rows

theorem Behind.of_row {past : List Token} {token : Token}
    (remembers : reading.Remembers [past] g.session.buffers)
    (single : reading.request.rowCount = 1) (stays : g.strategy.nextIndices = [])
    (fed : g.feed = [token]) (rows : g.strategy.histories.rows = [past ++ [token]])
    (grown : reading.request.promptLength ≤ past.length)
    (longer : g.strategy.length = past.length + 1) : Behind reading g [past] where
  remembers := remembers
  width := by
    have rectangular : Rectangular reading.request.rowCount past.length [past] :=
      ⟨by simp [single], by simp⟩
    exact ⟨past.length, rectangular, grown, longer, stays.symm ▸ rectangular⟩
  masks := by rw [stays]; rfl
  count := by rw [fed, single]; rfl
  rows := by simp [rows, stays, fed, inherited]

theorem InStep.compute (inStep : InStep reading g) (honours : reading.Honours model)
    (idle : g.pendingScores = false)
    (ran : Step.Returns (computeScores model) g u g') :
    InStep reading g' ∧ g'.pendingScores = true ∧ g'.config = g.config ∧
      ∃ view tensor, reading.Ran model view g.session tensor g'.session ∧
        view.seen = g.strategy.histories.rows ∧
        Step.Returns (Strategy.setScores tensor) g.strategy () g'.strategy := by
  obtain ⟨tensor, session, strategy, stepped, loaded, rfl⟩ := computeScores_returns.mp ran
  have same := Strategy.setScores_returns loaded
  have shown : ∃ view, reading.Ran model view g.session tensor session ∧
      view.seen = g.strategy.histories.rows := by
    cases inStep.stance with
    | fresh first _ _ holds unscored rows =>
      exact ⟨_, Reading.ran_first honours inStep.prompted inStep.frames holds unscored first
        stepped,
        rows ▸ Reading.promptView_seen inStep.prompted⟩
    | pending _ waits _ _ => simp [idle] at waits
    -- what was chosen since the last run is fed now
    | chosen later _ seen behind =>
      obtain ⟨flat, feeds, whole⟩ := behind.feeds
      obtain ⟨width, rectangular, grown, -, moved⟩ := behind.width
      rw [← flat] at stepped
      exact ⟨_, (Reading.ran_later honours inStep.prompted inStep.frames behind.remembers later
        rectangular moved behind.masks grown feeds stepped).1, whole⟩
  obtain ⟨view, passed, whole⟩ := shown
  refine ⟨⟨inStep.prompted, passed.frames, inStep.rooted.of_same same,
    inStep.marked.of_same same, .pending passed.later rfl rfl ?_⟩, rfl, rfl, view, tensor, passed,
    whole, loaded⟩
  rw [same.histories, ← whole]
  exact passed.remembers

/-- Constraints change nothing but scores, and what is chosen then is committed. -/
theorem generateNextToken_chosen (ran : Step.Returns generateNextToken g u g') :
    g.pendingScores = true ∧ ∃ constrained chosen,
      Strategy.SameCourse g.strategy constrained ∧ Strategy.Chosen constrained chosen ∧
      g' = { g with strategy := chosen, pendingScores := false } := by
  obtain ⟨waiting, lengthened, penalized, chosen, longer, fewer, chose, rfl⟩ :=
    generateNextToken_returns ran
  exact ⟨waiting, penalized, chosen, Strategy.constraints_returns longer fewer,
    Strategy.chosen_of_choose chose, rfl⟩

theorem generate_kind (ran : Step.Returns generateNextToken g u g') :
    g'.strategy.kind = g.strategy.kind := by
  obtain ⟨-, constrained, chosen, same, choice, rfl⟩ := generateNextToken_chosen ran
  exact choice.kind.trans same.kind

theorem InStep.generate (inStep : InStep reading g)
    (ran : Step.Returns generateNextToken g u g') :
    InStep reading g' ∧ g'.pendingScores = false ∧ g'.session = g.session ∧
      g'.config = g.config := by
  obtain ⟨waiting, constrained, chosen, same, choice, rfl⟩ := generateNextToken_chosen ran
  have rooted := inStep.rooted.of_same same
  have commits := choice.commits rooted.beamed
  refine ⟨⟨inStep.prompted, inStep.frames, rooted.commit commits,
    (inStep.marked.of_same same).of_chosen choice, ?_⟩, rfl, rfl, rfl⟩
  cases inStep.stance with
  | fresh _ idle _ _ _ _ => simp [idle] at waiting
  | chosen _ idle _ _ => simp [idle] at waiting
  -- rows that move take what the session remembers of them along
  | pending later _ unfed remembers =>
    have within := rooted.beams ▸ commits.parents
    have moved := rectangular_inherited rooted.rows within
    refine .chosen later rfl constrained.histories.rows
      ⟨same.histories ▸ remembers, ⟨_, rooted.rows, rooted.grown, ?_, moved⟩, ?_, ?_, ?_⟩
    · simp only [Strategy.length, commits.histories]
    · exact Reading.maskRows_congr moved rooted.rows
        ((take_inherited within rooted.rooted).trans rooted.rooted.symm)
    · simp only [feed, unfed, Option.getD_none]
      exact commits.count.trans rooted.rows.count
    · simp only [feed, unfed, Option.getD_none, commits.histories]

structure Drafted (reading : Reading) (model : Model β) (draft : List Token) (g : Generator β)
    (verdict : Verdict) (g' : Generator β) : Prop where
  config : g'.config = g.config
  idle : g'.pendingScores = false
  later : g'.session.first = false
  outcome : ∃ s s' row view tensor session,
    g.strategy = .speculative s ∧ g'.strategy = .speculative s' ∧
    s.Verified row tensor (g.clip draft) verdict s' ∧
    reading.Ran model view g.session tensor session ∧ g'.session.model = session.model ∧
    (∃ old, view.Sized 1 old ((g.clip draft).length + 1)) ∧ view.seen = [row ++ g.clip draft]

/-- A draft was accepted without a token after it, so that nothing is left to feed. -/
structure Exhausted (reading : Reading) (g : Generator β) : Prop where
  prompted : reading.request.Prompted
  frames : reading.Frames g.session
  rooted : g.strategy.Rooted reading.request
  kind : g.strategy.kind = .speculative
  later : g.session.first = false
  idle : g.pendingScores = false
  remembers : reading.Remembers g.strategy.histories.rows g.session.buffers
  refeeds : 0 < g.feed.length
  running : ∃ stage ∈ reading.decoder.stages, stage.onPrompt ∨ stage.onToken

theorem InStep.verify {draft : List Token} {verdict : Verdict} (inStep : InStep reading g)
    (honours : reading.Honours model) (kind : g.strategy.kind = .speculative)
    (later : g.session.first = false) (idle : g.pendingScores = false)
    (goes : g.isDone = false) (verifies : Verifies model draft g verdict g') :
    Drafted reading model draft g verdict g' ∧
      (InStep reading g' ∨ verdict.correction = none ∧ Exhausted reading g') := by
  obtain ⟨tensor, session, loaded, row, asked, checked, kept, rolled, stepped, scored,
    looked, decided, settled, back, rfl⟩ := verifies.steps
  have single := inStep.rooted.single kind
  obtain ⟨s, speculative⟩ := Strategy.exists_speculative kind
  have stay : g.strategy.nextIndices = [] := Strategy.nextIndices_of_kind kind
  -- what the strategy does
  have marked := inStep.marked
  have going : s.inner.done = false := by simpa [isDone, speculative, Strategy.isDone] using goes
  rw [speculative] at scored marked
  obtain ⟨s', rfl, verified⟩ := Strategy.verify_returns marked going scored looked decided settled
  have rows : g.strategy.histories.rows = [row] := by rw [speculative]; exact verified.only
  -- what the session does
  obtain ⟨seen, behind⟩ : ∃ seen, Behind reading g seen := by
    cases inStep.stance with
    | fresh first _ _ _ _ _ => simp [first] at later
    | pending _ waits _ _ => simp [idle] at waits
    | chosen _ _ seen behind => exact ⟨seen, behind⟩
  obtain ⟨past, token, rfl, fed, rows', grown, longer⟩ := behind.row single stay
  obtain rfl : row = past ++ [token] := List.singleton_inj.mp (rows.symm.trans rows')
  have tokens : g.feed ++ g.clip draft = token :: g.clip draft := by rw [fed]; rfl
  rw [tokens] at stepped
  obtain ⟨scores, load, judged⟩ := verified.judged
  obtain ⟨ran, frames, model, first, remembers⟩ := Reading.ran_draft honours inStep.prompted single
    inStep.frames behind.remembers later grown judged.accepted_prefix stepped back
  have sized : View.Sized 1 past.length ((g.clip draft).length + 1)
      ⟨[past], [token :: g.clip draft]⟩ := ⟨⟨by simp, by simp⟩, ⟨by simp, by simp⟩⟩
  refine ⟨⟨rfl, idle, first, s, s', _, _, tensor, session, speculative, rfl, verified, ran, model,
    ⟨_, sized⟩, by simp [View.seen]⟩, ?_⟩
  -- what is left to feed
  have histories : g.strategy.histories = s.inner.histories := by rw [speculative]; rfl
  have rooted : (Strategy.speculative s').Rooted reading.request :=
    inStep.rooted.append_run kind.symm (by rw [speculative]; exact verified.settings) rows
      (histories ▸ verified.histories)
  have length : s'.inner.histories.length = past.length + 1 + verdict.committed.length := by
    rw [verified.histories, ← histories, ← longer]
    rfl
  have appended : s'.inner.histories.rows = [past ++ [token] ++ verdict.committed] := by
    rw [verified.histories]
  cases corrected : verdict.correction with
  | some next =>
    have committed : verdict.committed = verdict.accepted ++ [next] := by
      simp [Verdict.committed, corrected]
    rw [committed, ← List.append_assoc] at appended
    refine .inl ⟨inStep.prompted, frames, rooted, verified.marked, .chosen first idle _
      (Behind.of_row remembers single rfl rfl appended ?_ ?_)⟩
    · simp only [List.length_append, List.length_singleton]
      omega
    · simp only [Strategy.length, Strategy.histories, length, committed, List.length_append,
        List.length_singleton]
      omega
  | none =>
    have committed : verdict.committed = verdict.accepted := by
      simp [Verdict.committed, corrected]
    refine .inr ⟨rfl, inStep.prompted, frames, rooted, rfl, first, idle, ?_, ?_, ran.running⟩
    · simp only [Strategy.histories, appended, committed]
      exact remembers
    · simp only [feed, Option.map_none, Option.getD_none, Strategy.nextTokens,
        verified.nextTokens]
      exact List.length_pos_iff.mpr (judged.committed_ne_nil (LoadedScores.load_fresh load).2)

theorem InStep.verifyCandidates {draft : List Token} {verdict : Verdict}
    (inStep : InStep reading g) (honours : reading.Honours model)
    (ran : Step.Returns (Generator.verifyCandidates model draft) g verdict g') :
    g.strategy.kind = .speculative ∧ g.pendingScores = false ∧ ∃ middle,
      (if g.session.first then
        ∃ computed, Step.Returns (computeScores model) g () computed ∧
          Step.Returns generateNextToken computed () middle
      else middle = g) ∧
      InStep reading middle ∧ middle.pendingScores = false ∧ middle.session.first = false ∧
      (middle.isDone = true ∧ verdict = .empty ∧ g' = middle ∨
        middle.isDone = false ∧ Drafted reading model draft middle verdict g' ∧
          (InStep reading g' ∨ verdict.correction = none ∧ Exhausted reading g')) := by
  obtain ⟨kind, idle, middle, prompt, rest⟩ := verifyCandidates_returns ran
  -- a first round on the prompt leaves a search that is as ready as a later one
  have ready : InStep reading middle ∧ middle.pendingScores = false ∧
      middle.session.first = false ∧ middle.strategy.kind = .speculative := by
    split at prompt
    · obtain ⟨computed, scored, chose⟩ := prompt
      obtain ⟨inStep', -, -, _, _, passed, -, loaded⟩ := inStep.compute honours idle scored
      obtain ⟨ready, idle', session, -⟩ := inStep'.generate chose
      refine ⟨ready, idle', session ▸ passed.later, ?_⟩
      exact (generate_kind chose).trans ((Strategy.setScores_returns loaded).kind.trans kind)
    · next later =>
      rw [prompt]
      exact ⟨inStep, idle, by simpa using later, kind⟩
  obtain ⟨inStep', idle', later, kind'⟩ := ready
  refine ⟨kind, idle, middle, prompt, inStep', idle', later, ?_⟩
  split at rest
  · next done => exact .inl ⟨done, rest⟩
  · next goes =>
    have goes : middle.isDone = false := by simpa using goes
    exact .inr ⟨goes, inStep'.verify honours kind' later idle' goes rest⟩

/-- The mask no longer fits a run that feeds what was accepted once more. -/
theorem Exhausted.stuck {tokens : List Token} {tensor : Tensor} {session : Session β}
    (exhausted : Exhausted reading g) (honours : reading.Honours model)
    (counts : reading.frame.counts = true) :
    ¬ Step.Returns (Session.run model (g.strategy.length + tokens.length) (g.feed ++ tokens) [])
      g.session tensor session := by
  intro ran
  have single := exhausted.rooted.single exhausted.kind
  have stays : inherited [] g.strategy.histories.rows = g.strategy.histories.rows := rfl
  have feeds : Rectangular reading.request.rowCount (g.feed ++ tokens).length
      [g.feed ++ tokens] := ⟨by simp [single], by simp⟩
  have flat : g.feed ++ tokens = [g.feed ++ tokens].flatten := by simp
  rw [flat] at ran
  have fits := (Reading.ran_later honours exhausted.prompted exhausted.frames exhausted.remembers
    exhausted.later exhausted.rooted.rows (stays.symm ▸ exhausted.rooted.rows) (by rw [stays])
    exhausted.rooted.grown feeds ran).2 counts
  have refeeds := exhausted.refeeds
  simp only [Strategy.length, List.length_append] at fits
  omega

end Generator

end StagedDecoding
