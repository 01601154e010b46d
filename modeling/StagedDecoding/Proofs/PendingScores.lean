import StagedDecoding.Proofs.FedTokens
import StagedDecoding.Proofs.SeenHistory

/-! Scores that wait for a choice.

A generator asked for scores does not look whether others are still waiting. Nor does it know that
nothing is left to feed after a verdict without a correction. Only the mask tells, if there is one:
once all of a row was fed it is as wide as the row, and leaves no room for an update by any tokens.
So the record of what was fed is always a part of the rows, and every run feeds the rest. Without a
mask the stages are run again.
-/

set_option autoImplicit false

namespace StagedDecoding

open Relation (ReflTransGen)

theorem Positions.update_fails {p : Positions} {new length : Nat}
    (differs : width p.mask + new ≠ length) :
    ∃ p', Step.Fails (update new length) p (.shape (.maskWidth length)
      (.count (width p.mask + new))) p' := by
  simp only [update, Step.fails_bind, Step.returns_modify, Step.returns_get, Step.throw_bind]
  refine ⟨{ p with
    ids := p.next.map fun start => (List.range new).map (start + ·)
    next := p.next.map (· + new) }, .inr ⟨(), _, rfl, .inr ⟨_, _, ⟨rfl, rfl⟩, ?_⟩⟩⟩
  rw [if_pos differs]
  exact Step.fails_throw.mpr ⟨rfl, rfl⟩

namespace Buffers

variable {before : Buffers} {tokens : List Token} {indices : List Nat} {length new : Nat}

theorem update_fails_of {failure : Failure} {after : Buffers} (some : 0 < before.rows)
    (whole : tokens.length = before.rows * new) (feeds : 0 < new)
    (refused : Step.Fails (onPositions (Positions.update new length))
        { before with inputIds := Tensor.blocks new before.rows tokens } failure after ∨
      ∃ placed, Step.Returns (onPositions (Positions.update new length))
          { before with inputIds := Tensor.blocks new before.rows tokens } () placed ∧
        Step.Fails (onCache (LayerCache.update indices)) placed failure after) :
    Step.Fails (update tokens indices length) before failure after := by
  have columns : tokens.length / before.rows = new := by
    rw [whole, Nat.mul_div_cancel_left _ some]
  have filled : tokens.isEmpty = false := by
    rw [List.isEmpty_eq_false_iff, ← List.length_pos_iff, whole]
    exact Nat.mul_pos some feeds
  have divides : tokens.length % before.rows = 0 := Nat.mod_eq_zero_of_dvd ⟨_, whole⟩
  simp only [update, Step.fails_bind, Step.returns_get, Step.throw_bind]
  refine .inr ⟨_, _, ⟨rfl, rfl⟩, ?_⟩
  rw [if_neg (by simp [Nat.ne_of_gt some]), if_neg (by simp [filled, divides])]
  refine Step.fails_bind.mpr (.inr ⟨Tensor.blocks new before.rows tokens, _,
    Step.returns_lift.mpr ⟨?_, rfl⟩, ?_⟩)
  · rw [idRows_eq_ok, Nat.max_eq_left some, columns]
    exact ⟨whole.symm, rfl⟩
  · -- the ids are replaced before the parts are asked
    refine Step.fails_bind.mpr (.inr ⟨(), _, Step.returns_set.mpr rfl, ?_⟩)
    rw [columns]
    refine Step.fails_bind.mpr (refused.imp_right ?_)
    rintro ⟨placed, placing, stopped⟩
    exact ⟨(), placed, placing, Step.fails_bind.mpr (.inl stopped)⟩

theorem update_fails {positions : Positions} (placed : before.positions = some positions)
    (some : 0 < before.rows) (whole : tokens.length = before.rows * new) (feeds : 0 < new)
    (differs : Positions.width positions.mask + new ≠ length) :
    ∃ after, Step.Fails (update tokens indices length) before (.shape (.maskWidth length)
      (.count (Positions.width positions.mask + new))) after := by
  obtain ⟨p', failed⟩ := Positions.update_fails differs
  exact ⟨_, update_fails_of some whole feeds
    (.inl (Step.fails_withinOption.mpr ⟨positions, p', placed, failed, rfl⟩))⟩

theorem update_returns_iff_of_unplaced (unplaced : before.positions = none)
    (some : 0 < before.rows) (whole : tokens.length = before.rows * new) (feeds : 0 < new) :
    (∃ ready, Step.Returns (update tokens indices length) before () ready) ↔
      ∀ slot ∈ before.slots,
        ∃ next, Step.Returns (LayerCache.advanceSlot indices) slot () next := by
  have columns : tokens.length / before.rows = new := by
    rw [whole, Nat.mul_div_cancel_left _ some]
  constructor
  · rintro ⟨ready, ran⟩
    obtain ⟨-, -, updated⟩ := Buffers.updated ran
    exact forall_of_forall₂ updated.cached.flip fun next _ slot passed => ⟨next, passed⟩
  · intro each
    obtain ⟨cached, caching, -⟩ := @onCache_total
      { before with inputIds := Tensor.blocks new before.rows tokens } (fun _ => True)
      (LayerCache.advanceSlot indices) fun slot member =>
        (each slot member).imp fun _ passed => ⟨passed, trivial⟩
    refine ⟨_, update_returns_iff.mpr ⟨some, columns ▸ feeds, columns ▸ whole, _, cached,
      Step.returns_withinOption.mpr (.inl ⟨unplaced, rfl⟩), ?_, rfl⟩⟩
    rw [columns]
    exact caching

end Buffers

namespace Generator

variable {β : Type} {model : Model β} {request : Request} {frame : Frame}
  {start g g' : Generator β} {fed ids : List (List Token)} {draft : List Token}
  {verdict : Verdict}

/-- Where the calls stand, with the record of what was fed. If there is a mask, it is as wide as the
record. -/
inductive Standing (request : Request) (g : Generator β) (fed : List (List Token)) : Prop where
  | fresh (first : g.session.first = true) (idle : g.pendingScores = false)
      (unfed : fed = List.replicate request.rowCount [])
      (rows : g.strategy.histories.rows = request.promptRows)
      (ids : g.session.buffers.inputIds = request.promptRows)
      (lined : g.session.buffers.Lined g.strategy.length)
  | pending (later : g.session.first = false) (waits : g.pendingScores = true)
      (unfed : g.pendingFeed = none) (whole : fed = g.strategy.histories.rows)
      (lined : g.session.buffers.Lined g.strategy.length)
  | chosen {columns : Nat} (later : g.session.first = false) (idle : g.pendingScores = false)
      (count : fed.length = request.rowCount) (feeds : g.feed.length = request.rowCount)
      (rows : g.strategy.histories.rows =
        List.zipWith (fun row token => row ++ [token]) fed g.feed)
      (longer : columns + 1 = g.strategy.length) (lined : g.session.buffers.Lined columns)
  | exhausted (later : g.session.first = false) (idle : g.pendingScores = false)
      (single : request.rowCount = 1) (whole : fed = g.strategy.histories.rows)
      (feeds : 0 < g.feed.length) (lined : g.session.buffers.Lined g.strategy.length)

theorem Sound.create {config : Config} {device : Device} {registry : DeviceRegistry} {state : β}
    (created : Generator.create config request state device registry = .ok start) :
    ∃ frame, Sound request frame start ∧ frame.counts = config.model.decoder.counts ∧
      frame.names.inputIds ∈ frame.inputNames ∧
      Standing request start (List.replicate request.rowCount []) := by
  simp only [Generator.create, Outcome.bind_eq_ok, Outcome.pure_eq_ok] at created
  obtain ⟨_, valid, strategy, made, session, opened, rfl⟩ := created
  have prompted := Request.prompted_of_validate valid
  have prompts := Strategy.create_prompts made
  have rooted := prompts.rooted prompted
  -- only the frame is read off, so nothing is asked of the tensors
  let reading : Reading := ⟨config.model.decoder, request, fun _ _ _ _ => True,
    fun _ _ _ => True, fun _ _ _ => True⟩
  obtain ⟨frames, holds, -, first, -⟩ :=
    @Reading.create_session reading β config device registry session state rfl prompted opened
  obtain ⟨buffers, filled, rfl⟩ := Session.create_eq_ok opened
  obtain ⟨-, lined⟩ := Buffers.create_ready prompted filled
  have length : strategy.length = request.promptLength := prompts.length
  refine ⟨reading.frame, ⟨prompted, rooted, Strategy.create_marked prompted made, frames.buffers,
    rfl, ⟨1, Nat.one_pos, ?_⟩, by simp⟩, rfl, ?_, ?_⟩
  · rw [Nat.mul_one, Strategy.create_tokens made]
    exact rooted.rows.count
  · exact List.mem_cons_self
  · exact .fresh rfl rfl rfl prompts.rows holds.ids (length ▸ lined)

theorem Sound.unfed {tokens : List Token} {indices : List Nat} (sound : Sound request frame g)
    (counted : frame.counts = true) (later : g.session.first = false)
    (lined : g.session.buffers.Lined g.strategy.length) :
    ¬ g.session.Feeds g.strategy.length tokens indices ids := by
  intro feeds
  obtain ⟨-, some, fits⟩ := feeds.of_later later lined
  have longer := fits (sound.counts.trans counted)
  omega

theorem Standing.lined (standing : Standing request g fed) :
    ∃ columns, g.session.buffers.Lined columns ∧
      (g.session.first = true → columns = g.strategy.length) := by
  cases standing with
  | fresh _ _ _ _ _ lined => exact ⟨_, lined, fun _ => rfl⟩
  | pending _ _ _ _ lined => exact ⟨_, lined, fun _ => rfl⟩
  | chosen later _ _ _ _ _ lined => exact ⟨_, lined, fun first => by simp [later] at first⟩
  | exhausted _ _ _ _ _ lined => exact ⟨_, lined, fun _ => rfl⟩

theorem Standing.waiting (standing : Standing request g fed) (waits : g.pendingScores = true) :
    fed = g.strategy.histories.rows ∧ g.session.buffers.Lined g.strategy.length := by
  cases standing with
  | pending _ _ _ whole lined => exact ⟨whole, lined⟩
  | fresh _ idle _ _ _ _ => simp [idle] at waits
  | chosen _ idle _ _ _ _ _ => simp [idle] at waits
  | exhausted _ idle _ _ _ _ => simp [idle] at waits

theorem Standing.feeds (standing : Standing request g fed) (sound : Sound request frame g)
    (counted : frame.counts = true)
    (feeds : g.session.Feeds g.strategy.length g.feed g.strategy.nextIndices ids) :
    View.seen ⟨fed, ids⟩ = g.strategy.histories.rows ∧ g.pendingScores = false := by
  cases standing with
  | fresh first idle unfed rows same _ =>
    refine ⟨?_, idle⟩
    rw [feeds.of_first first, unfed, same, rows]
    have count := (Request.promptRows_rectangular sound.prompted).count
    exact List.ext_getElem (by simp [View.seen, count]) fun i _ _ => by simp [View.seen]
  | pending later _ _ _ lined => exact absurd feeds (sound.unfed counted later lined)
  | exhausted later _ _ _ _ lined => exact absurd feeds (sound.unfed counted later lined)
  | chosen later idle count counts rows _ lined =>
    refine ⟨?_, idle⟩
    have some := Request.rowCount_pos sound.prompted
    obtain ⟨rfl, -, -⟩ := feeds.of_later later lined
    have cut : Tensor.blocks 1 request.rowCount g.feed = g.feed.map fun token => [token] := by
      have flat : (g.feed.map fun token => [token]).flatten = g.feed := by
        rw [← List.flatMap_def, List.flatMap_singleton']
      have whole := @Tensor.blocks_flatten _ 1 (g.feed.map fun token => [token]) (by simp)
      rwa [flat, List.length_map, counts] at whole
    rw [sound.rowCount, counts, Nat.div_self some, cut, rows, View.seen, List.zipWith_map_right]

theorem Standing.feeds_draft (standing : Standing request g fed) (sound : Sound request frame g)
    (counted : frame.counts = true) (drafts : g.Drafts)
    (feeds : g.session.Feeds (g.strategy.length + (g.clip draft).length) (g.feed ++ g.clip draft)
      [] ids) :
    ∃ row, g.strategy.histories.rows = [row] ∧ View.seen ⟨fed, ids⟩ = [row ++ g.clip draft] := by
  have single := sound.rooted.single drafts.kind
  obtain ⟨row, only⟩ :=
    List.length_eq_one_iff.mp (sound.rooted.rows.count.trans single)
  refine ⟨row, only, ?_⟩
  cases standing with
  | fresh first _ _ _ _ _ => simp [drafts.later] at first
  | pending _ waits _ _ _ => simp [drafts.idle] at waits
  -- positions stand at the end of the row, where no more than the draft can be fed
  | exhausted later _ _ _ some lined =>
    obtain ⟨-, -, fits⟩ := feeds.of_later later lined
    have longer := fits (sound.counts.trans counted)
    rw [sound.rowCount, single, Nat.div_one, List.length_append] at longer
    omega
  | chosen later _ count counts rows _ lined =>
    obtain ⟨rfl, -, -⟩ := feeds.of_later later lined
    obtain ⟨token, next⟩ := List.length_eq_one_iff.mp (counts.trans single)
    obtain ⟨past, rfl⟩ := List.length_eq_one_iff.mp (count.trans single)
    obtain rfl : row = past ++ [token] := by simpa [only, next] using rows
    have cut : Tensor.blocks (g.feed ++ g.clip draft).length 1 (g.feed ++ g.clip draft) =
        [g.feed ++ g.clip draft] := by
      simpa using @Tensor.blocks_flatten _ _ [g.feed ++ g.clip draft] (by simp)
    rw [sound.rowCount, single, Nat.div_one, cut, next]
    simp [View.seen]

theorem take_accepted {accepted : List Token} (row : List Token) (part : accepted <+: draft) :
    (row ++ draft).take ((row ++ draft).length - (draft.length - accepted.length)) =
      row ++ accepted := by
  obtain ⟨rest, rfl⟩ := part
  rw [← List.append_assoc]
  refine List.take_left' ?_
  simp only [List.length_append]
  omega

theorem Standing.compute (standing : Standing request g fed) (sound : Sound request frame g)
    (counted : frame.counts = true)
    (feeds : g.session.Feeds g.strategy.length g.feed g.strategy.nextIndices ids)
    (ran : Step.Returns (computeScores model) g () g') :
    Standing request g' (View.seen ⟨fed, ids⟩) := by
  obtain ⟨whole, -⟩ := standing.feeds sound counted feeds
  obtain ⟨tensor, session, strategy, stepped, loaded, rfl⟩ := computeScores_returns.mp ran
  have same := Strategy.setScores_returns loaded
  have lined : session.buffers.Lined g.strategy.length := by
    obtain ⟨columns, lined, prompt⟩ := standing.lined
    cases first : g.session.first with
    | true => exact Session.lined_of_first first (prompt first ▸ lined) stepped
    | false => exact Session.lined_of_later first lined stepped
  refine .pending (Session.run_fixed stepped).2 rfl rfl ?_ ?_
  · rw [whole, same.histories]
  · rw [Strategy.length, same.histories]
    exact lined

theorem Standing.choose (standing : Standing request g fed) (sound : Sound request frame g)
    (ran : Step.Returns generateNextToken g () g') :
    Standing request g' (inherited g'.strategy.nextIndices fed) := by
  obtain ⟨waits, constrained, chosen, same, choice, rfl⟩ := generateNextToken_chosen ran
  cases standing with
  | fresh _ idle _ _ _ _ => simp [idle] at waits
  | chosen _ idle _ _ _ _ _ => simp [idle] at waits
  | exhausted _ idle _ _ _ _ => simp [idle] at waits
  | pending later _ unfed whole lined =>
    subst whole
    have rooted := sound.rooted.of_same same
    have commits := choice.commits rooted.beamed
    -- what was fed moves with the rows, and the new token is what the row lacks
    have moved := rectangular_inherited rooted.rows (rooted.beams ▸ commits.parents)
    rw [same.histories] at moved
    have next : ({ g with strategy := chosen, pendingScores := false } : Generator β).feed =
        chosen.nextTokens := by
      simp only [feed, unfed, Option.getD_none]
    refine .chosen later rfl moved.count ?_ ?_ ?_ lined
    · rw [next]
      exact commits.count.trans rooted.rows.count
    · rw [next, ← same.histories]
      simp only [commits.histories]
    · simp only [Strategy.length, commits.histories, same.histories]

theorem Standing.verify (standing : Standing request g fed) (sound : Sound request frame g)
    (counted : frame.counts = true) (drafts : g.Drafts)
    (feeds : g.session.Feeds (g.strategy.length + (g.clip draft).length) (g.feed ++ g.clip draft)
      [] ids)
    (verifies : Verifies model draft g verdict g') :
    Standing request g' ((View.seen ⟨fed, ids⟩).map fun row =>
      row.take (row.length - ((g.clip draft).length - verdict.accepted.length))) := by
  obtain ⟨row, only, whole⟩ := standing.feeds_draft sound counted drafts feeds
  obtain ⟨row', s, s', tensor, session, before, after, verified, stepped, back, next, idle⟩ :=
    sound.verified drafts verifies
  have single := sound.rooted.single drafts.kind
  obtain ⟨scores, load, judged⟩ := verified.judged
  obtain rfl : row = row' := by
    have same : [row] = [row'] := by rw [← only, before]; exact verified.only
    exact List.singleton_inj.mp same
  have fewer := judged.accepted_prefix.length_le
  rw [whole, List.map_singleton, take_accepted row judged.accepted_prefix]
  have long : g.strategy.length = s.inner.histories.length := by rw [before]; rfl
  have grown : g'.strategy.length = g.strategy.length + verdict.committed.length := by
    rw [after, long]
    exact congrArg Histories.length verified.histories
  have rows : g'.strategy.histories.rows = [row ++ verdict.committed] := by
    rw [after]
    exact congrArg Histories.rows verified.histories
  have later : g'.session.first = false := by
    obtain ⟨buffers, -, same⟩ := Session.rollback_returns_iff.mp back
    rw [← same]
    exact (Session.run_fixed stepped).2
  -- what was refused is rolled back, so that positions end behind the accepted tokens
  have lined : g'.session.buffers.Lined (g.strategy.length + verdict.accepted.length) := by
    obtain ⟨columns, lined, -⟩ := standing.lined
    have shorter := Session.lined_of_rollback (Session.lined_of_later drafts.later lined stepped)
      back
    have width : g.strategy.length + (g.clip draft).length -
        ((g.clip draft).length - verdict.accepted.length) =
          g.strategy.length + verdict.accepted.length := by omega
    rwa [width] at shorter
  -- a correction has still to be fed, the accepted tokens have been
  cases corrected : verdict.correction with
  | some token =>
    have committed : verdict.committed = verdict.accepted ++ [token] := by
      simp [Verdict.committed, corrected]
    have one : g'.feed = [token] := by simp [feed, next, corrected]
    refine .chosen later idle single.symm ?_ ?_ ?_ lined
    · rw [one, single, List.length_singleton]
    · rw [rows, one, committed]
      simp
    · rw [grown, committed, List.length_append, List.length_singleton]
      omega
  | none =>
    have committed : verdict.committed = verdict.accepted := by
      simp [Verdict.committed, corrected]
    refine .exhausted later idle single (by rw [rows, committed]) ?_ (by rwa [grown, committed])
    have refed : g'.feed = verdict.committed := by
      simp only [feed, next, corrected, Option.map_none, Option.getD_none, after]
      exact verified.nextTokens
    rw [refed]
    exact List.length_pos_iff.mpr (judged.committed_ne_nil (LoadedScores.load_fresh load).2)

theorem Standing.look {index : Nat} {tokens : List Token} (standing : Standing request g fed)
    (ran : Step.Returns (sequence index) g tokens g') : Standing request g' fed := by
  obtain ⟨strategy, asked, rfl⟩ := onStrategy_returns.mp ran
  obtain ⟨same, -⟩ := Strategy.sequence_rows asked
  have length : strategy.length = g.strategy.length := congrArg Histories.length same.histories
  have next : ({ g with strategy := strategy } : Generator β).feed = g.feed := by
    simp only [feed, same.nextTokens]
  cases standing with
  | fresh first idle unfed rows ids lined =>
    exact .fresh first idle unfed (same.histories ▸ rows) ids (length ▸ lined)
  | pending later waits unfed whole lined =>
    exact .pending later waits unfed (same.histories ▸ whole) (length ▸ lined)
  | chosen later idle count feeds rows longer lined =>
    exact .chosen later idle count (next ▸ feeds) (by rw [same.histories, next, rows])
      (length ▸ longer) lined
  | exhausted later idle single whole feeds lined =>
    exact .exhausted later idle single (same.histories ▸ whole) (next ▸ feeds) (length ▸ lined)

theorem Fed.standing (sound : Sound request frame start)
    (standing : Standing request start (List.replicate request.rowCount []))
    (record : Fed model request.rowCount start g fed) :
    Sound request frame g ∧ (frame.counts = true → Standing request g fed) := by
  induction record with
  | start => exact ⟨sound, fun _ => standing⟩
  | compute _ feeds ran ih =>
    exact ⟨ih.1.compute ran, fun counted => (ih.2 counted).compute ih.1 counted feeds ran⟩
  | choose _ ran ih => exact ⟨ih.1.choose ran, fun counted => (ih.2 counted).choose ih.1 ran⟩
  | verify _ drafts feeds verifies ih =>
    exact ⟨ih.1.verify drafts verifies,
      fun counted => (ih.2 counted).verify ih.1 counted drafts feeds verifies⟩
  | look _ ran ih => exact ⟨ih.1.look ran, fun counted => (ih.2 counted).look ran⟩

/-- Scores are not computed: no stage is run, and nothing but buffers changes. -/
def Refuses (model : Model β) (g : Generator β) (failure : Failure) : Prop :=
  ∃ buffers, Step.Fails (computeScores model) g failure
    { g with session := { g.session with buffers := buffers }, pendingFeed := none }

theorem refuses_of_update {failure : Failure} {buffers : Buffers}
    (later : g.session.first = false)
    (failed : Step.Fails (Buffers.update g.feed g.strategy.nextIndices g.strategy.length)
      g.session.buffers failure buffers) : Refuses model g failure := by
  have stopped : Step.Fails (Session.run model g.strategy.length g.feed g.strategy.nextIndices)
      g.session failure { g.session with buffers := buffers } := by
    refine Step.fails_bind.mpr (.inr ⟨_, _, Step.returns_get.mpr ⟨rfl, rfl⟩, ?_⟩)
    rw [if_neg (by simp [later])]
    exact Step.fails_bind.mpr (.inl (Step.fails_within.mpr ⟨buffers, failed, rfl⟩))
  refine ⟨buffers, ?_⟩
  refine Step.fails_bind.mpr (.inr ⟨_, _, takeFeed_returns.mpr ⟨rfl, rfl⟩, ?_⟩)
  refine Step.fails_bind.mpr (.inr ⟨_, _, Step.returns_get.mpr ⟨rfl, rfl⟩, ?_⟩)
  exact Step.fails_bind.mpr (.inl (Step.fails_within.mpr ⟨_, stopped, rfl⟩))

/-- No row is ever fed a token again, and none is left out. -/
structure FeedsOnce (g : Generator β) (fed : List (List Token)) : Prop where
  pending : g.pendingScores = true → fed = g.strategy.histories.rows
  compute : ∀ ids, g.session.Feeds g.strategy.length g.feed g.strategy.nextIndices ids →
    View.seen ⟨fed, ids⟩ = g.strategy.histories.rows
  verify : g.Drafts → ∀ draft ids, g.session.Feeds (g.strategy.length + (g.clip draft).length)
      (g.feed ++ g.clip draft) [] ids →
    View.seen ⟨fed, ids⟩ = g.strategy.histories.rows.map (· ++ g.clip draft)

/-- Stages are run again on the tokens of the latest selection, or on pads if there was none, unless
a slot has no present to go on from. -/
structure Repeats (model : Model β) (rows : Nat) (g : Generator β) : Prop where
  enters : (∃ ids, g.session.Feeds g.strategy.length g.feed g.strategy.nextIndices ids) ↔
    ∀ slot ∈ g.session.buffers.slots, ∃ next,
      Step.Returns (LayerCache.advanceSlot g.strategy.nextIndices) slot () next
  feeds : ∀ ids, g.session.Feeds g.strategy.length g.feed g.strategy.nextIndices ids →
    ids = Tensor.blocks (g.strategy.nextTokens.length / rows) rows g.strategy.nextTokens
  refuses : (∀ ids, ¬ g.session.Feeds g.strategy.length g.feed g.strategy.nextIndices ids) →
    ∃ failure, Refuses model g failure

theorem Standing.feedsOnce (standing : Standing request g fed) (sound : Sound request frame g)
    (counted : frame.counts = true) : FeedsOnce g fed := by
  refine ⟨fun waits => (standing.waiting waits).1,
    fun ids feeds => (standing.feeds sound counted feeds).1, fun drafts draft ids feeds => ?_⟩
  obtain ⟨row, only, whole⟩ := standing.feeds_draft sound counted drafts feeds
  rw [whole, only, List.map_singleton]

theorem Sound.feed (sound : Sound request frame g) (waits : g.pendingScores = true) :
    g.feed = g.strategy.nextTokens := by
  rw [Generator.feed, (sound.waits waits).2, Option.getD_none]

/-- The mask of rows that were fed as a whole leaves no room for more. -/
theorem Standing.refuses (standing : Standing request g fed) (sound : Sound request frame g)
    (counted : frame.counts = true) (waits : g.pendingScores = true) :
    Refuses model g (.shape (.maskWidth g.strategy.length)
      (.count (g.strategy.length + g.strategy.nextTokens.length / request.rowCount))) := by
  obtain ⟨-, lined⟩ := standing.waiting waits
  have some := Request.rowCount_pos sound.prompted
  obtain ⟨new, feeds, tokens⟩ := sound.tokens
  obtain ⟨positions, placed⟩ := Option.isSome_iff_exists.mp (sound.counts.trans counted)
  have wide := (lined positions placed).wide
  have whole : g.feed.length = g.session.buffers.rows * new := by
    rw [sound.feed waits, sound.rowCount, tokens]
  obtain ⟨buffers, failed⟩ := @Buffers.update_fails _ g.feed g.strategy.nextIndices
    g.strategy.length new positions placed (sound.rowCount ▸ some) whole feeds (by omega)
  rw [tokens, Nat.mul_div_cancel_left _ some]
  rw [wide] at failed
  exact refuses_of_update (sound.waits waits).1 failed

/-- Without a mask nothing tells that scores are pending. -/
theorem Sound.repeats (sound : Sound request frame g) (uncounted : frame.counts = false)
    (waits : g.pendingScores = true) : Repeats model request.rowCount g := by
  have some := Request.rowCount_pos sound.prompted
  have later := (sound.waits waits).1
  obtain ⟨new, feeds, tokens⟩ := sound.tokens
  -- there are no positions that could be counted
  have unplaced : g.session.buffers.positions = none :=
    Option.isNone_iff_eq_none.mp (by simp [← Option.not_isSome, sound.counts, uncounted])
  have whole : g.feed.length = g.session.buffers.rows * new := by
    rw [sound.feed waits, sound.rowCount, tokens]
  have entered : (∃ ids, g.session.Feeds g.strategy.length g.feed g.strategy.nextIndices ids) ↔
      ∃ ready, Step.Returns
        (Buffers.update g.feed g.strategy.nextIndices g.strategy.length) g.session.buffers ()
        ready := by
    constructor
    · rintro ⟨_, _, _, enters, rfl⟩
      cases enters with
      | prompt first => simp [first] at later
      | token _ updated => exact ⟨_, updated⟩
    · rintro ⟨ready, updated⟩
      exact ⟨_, _, _, .token later updated, rfl⟩
  refine ⟨?_, fun ids fed => ?_, fun idle => ?_⟩
  · rw [entered]
    exact Buffers.update_returns_iff_of_unplaced unplaced (sound.rowCount ▸ some) whole feeds
  · have lined : g.session.buffers.Lined 0 := fun positions given => by simp [unplaced] at given
    rw [(fed.of_later later lined).1, sound.rowCount, sound.feed waits]
  · obtain ⟨_, ran⟩ | ⟨failure, failed⟩ := Step.returns_or_fails
      (Buffers.update g.feed g.strategy.nextIndices g.strategy.length) g.session.buffers
    · obtain ⟨ids, fed⟩ := entered.mpr ⟨_, ran⟩
      exact absurd fed (idle ids)
    · exact ⟨failure, refuses_of_update later failed⟩

/-- If a stage takes position ids or the mask, scores are not computed while others are pending, and
no calls that succeed feed a row anything but what it lacks. If none does, pending scores do not
keep the stages from being run again. Either way, stages get no other token ids than those that
are fed. -/
theorem counted_tokens_fed_once {config : Config} {device : Device} {registry : DeviceRegistry}
    {state : β} (created : Generator.create config request state device registry = .ok start)
    (reached : ReflTransGen (Use model) start g) :
    g.session.Shows model ∧ (∃ fed, Fed model request.rowCount start g fed) ∧
    if config.model.decoder.counts then
      (g.pendingScores = true → Refuses model g (.shape (.maskWidth g.strategy.length)
        (.count (g.strategy.length + g.strategy.nextTokens.length / request.rowCount)))) ∧
      ∀ fed, Fed model request.rowCount start g fed → FeedsOnce g fed
    else g.pendingScores = true → Repeats model request.rowCount g := by
  obtain ⟨frame, opened, counts, managed, fresh⟩ := Sound.create created
  obtain ⟨fed, record⟩ := exists_fed model request.rowCount reached
  obtain ⟨sound, standing⟩ := record.standing opened fresh
  refine ⟨Session.shows_of_managed (sound.framed ▸ managed), ⟨fed, record⟩, ?_⟩
  rw [← counts]
  split
  · next counted =>
    refine ⟨(standing counted).refuses sound counted, fun other record' => ?_⟩
    obtain ⟨sound', standing'⟩ := record'.standing opened fresh
    exact (standing' counted).feedsOnce sound' counted
  · next uncounted => exact sound.repeats (by simpa using uncounted)

theorem recital_fed_once :
    let request : Request := .ofConfig Recital.config 2 [0, 1, 1, 2]
    let model := Recital.run Recital.counting
    ∃ start g fed, Generator.create Recital.config request () .host .standard = .ok start ∧
      ReflTransGen (Use model) start g ∧ g.pendingScores = true ∧
      Refuses model g (.shape (.maskWidth 2) (.count 3)) ∧
      Fed model 2 start g fed ∧ fed = [[0, 1], [1, 2]] := by
  intro request model
  have checked : ((Generator.create Recital.config (.ofConfig Recital.config 2 [0, 1, 1, 2]) ()
      .host .standard).toOption.bind fun start =>
        (computeScores (Recital.run Recital.counting) start).1.toOption.map fun _ =>
          let g := (computeScores (Recital.run Recital.counting) start).2
          (g.pendingScores, g.strategy.histories.rows, g.strategy.length,
            g.strategy.nextTokens.length)) = some (true, [[0, 1], [1, 2]], 2, 2) := by
    decide +kernel
  obtain ⟨start, opened, checked⟩ := Option.bind_eq_some_iff.mp checked
  obtain ⟨u, returned, found⟩ := Option.map_eq_some_iff.mp checked
  have created := Outcome.toOption_eq_some.mp opened
  have reached : ReflTransGen (Use model) start (computeScores model start).2 :=
    .single (.compute (Step.returns_of_result returned))
  obtain ⟨waits, rows, length, tokens⟩ : (computeScores model start).2.pendingScores = true ∧
      (computeScores model start).2.strategy.histories.rows = [[0, 1], [1, 2]] ∧
      (computeScores model start).2.strategy.length = 2 ∧
      (computeScores model start).2.strategy.nextTokens.length = 2 := by
    simpa only [Prod.mk.injEq] using found
  obtain ⟨-, ⟨fed, record⟩, once⟩ := counted_tokens_fed_once created reached
  rw [if_pos (by decide +kernel)] at once
  have refused := once.1 waits
  rw [length, tokens] at refused
  exact ⟨start, _, fed, created, reached, waits, refused, record,
    ((once.2 fed record).pending waits).trans rows⟩

/-- A decoder whose only stage takes token ids and nothing else. -/
def maskless : Config :=
  { Recital.config with
    model := { Recital.config.model with
      decoder := { Recital.decoder with
        stages := [{ StageConfig.named "decoder" with
          inputs := ["input_ids"], outputs := ["logits"] }] } } }

/-- Its constructor accepts it. Scores are computed twice in a row, and the stage gets a pad behind
the prompt, though the only row is the prompt still. -/
theorem maskless_feeds_pad : ∃ config start first second,
    maskless.validate = .ok config ∧
    Generator.create config (.ofConfig config 1 [1]) ((), []) .host .standard = .ok start ∧
    Step.Returns (computeScores Blank.run.logged) start () first ∧ first.pendingScores = true ∧
    Step.Returns (computeScores Blank.run.logged) first () second ∧
    second.strategy.histories.rows = [[1]] ∧
    second.invocations.map (fun invocation => Recital.rowsOf "input_ids" invocation.inputs) =
      [[[1]], [[0]]] := by
  have checked : (maskless.validate.toOption.bind fun config =>
      (Generator.create config (.ofConfig config 1 [1]) ((), []) .host .standard).toOption.bind
        fun start => (computeScores Blank.run.logged start).1.toOption.bind fun _ =>
          let first := (computeScores Blank.run.logged start).2
          (computeScores Blank.run.logged first).1.toOption.map fun _ =>
            let second := (computeScores Blank.run.logged first).2
            (first.pendingScores, second.strategy.histories.rows, second.invocations.map
              fun invocation => Recital.rowsOf "input_ids" invocation.inputs)) =
      some (true, [[1]], [[[1]], [[0]]]) := by
    decide +kernel
  obtain ⟨config, valid, checked⟩ := Option.bind_eq_some_iff.mp checked
  obtain ⟨start, opened, checked⟩ := Option.bind_eq_some_iff.mp checked
  obtain ⟨u, returned, checked⟩ := Option.bind_eq_some_iff.mp checked
  obtain ⟨u', again, found⟩ := Option.map_eq_some_iff.mp checked
  obtain ⟨waits, rows, shown⟩ : _ ∧ _ ∧ _ := by simpa only [Prod.mk.injEq] using found
  exact ⟨config, start, _, _, Outcome.toOption_eq_some.mp valid,
    Outcome.toOption_eq_some.mp opened, Step.returns_of_result returned, waits,
    Step.returns_of_result again, rows, shown⟩

end Generator

end StagedDecoding
