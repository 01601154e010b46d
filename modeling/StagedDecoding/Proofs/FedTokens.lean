import StagedDecoding.Proofs.Feeding
import StagedDecoding.Proofs.Pace

/-! Tokens on their way to the model.

A run enters the pipeline with some tokens for every row, and whichever stage takes token ids gets
these. What was fed and not taken back can be recorded beside the generator: a choice may move the
records between rows, and a verdict takes the rejected tail of a draft back. If there is a mask, it
has a column for every token of the record, so that no run gets past it that would feed a row
anything but what it lacks.
-/

set_option autoImplicit false

namespace StagedDecoding

open Relation (ReflTransGen)

/-- Some stage takes position ids or the mask. Only then is the length of the rows compared. -/
def DecoderConfig.counts (decoder : DecoderConfig) : Bool :=
  decoder.declares decoder.inputs.positionIds || decoder.declares decoder.inputs.attentionMask

namespace Buffers

variable {buffers before ready after next : Buffers} {name : String} {tensor : Tensor}
  {tokens : List Token} {indices : List Nat} {columns length count : Nat}

theorem same_of_store (stored : buffers.store name tensor = .ok next) :
    next = { buffers with cache := next.cache, scores := next.scores } := by
  unfold store at stored
  split at stored
  · obtain rfl := Except.ok.inj stored
    rfl
  · split at stored
    · obtain rfl := Except.ok.inj stored
      rfl
    · cases stored

theorem Lined.update (lined : before.Lined columns)
    (ran : Step.Returns (Buffers.update tokens indices length) before () ready) :
    ready.Lined length ∧
      (before.positions.isSome = true → columns + tokens.length / before.rows = length) := by
  obtain ⟨-, -, updated⟩ := Buffers.updated ran
  cases placed : before.positions with
  | none =>
    refine ⟨fun positions given => ?_, by simp⟩
    have counts := congrArg Frame.counts updated.framed
    simp [frame, placed, given] at counts
  | some old =>
    obtain ⟨own, there, passed⟩ := updated.placed old placed
    obtain ⟨fits, lined', -⟩ := (lined old placed).update passed
    refine ⟨fun positions given => ?_, fun _ => fits⟩
    obtain rfl := Option.some.inj (there.symm.trans given)
    exact lined'

theorem Lined.rollback (lined : before.Lined columns)
    (ran : Step.Returns (Buffers.rollback count) before () after) :
    after.Lined (columns - count) := by
  obtain ⟨_, moved, placing, caching⟩ := Step.returns_bind.mp ran
  obtain ⟨-, -, counts⟩ := onPositions_returns placing
  obtain ⟨cachedEq, -, -⟩ := onCache_returns LayerCache.trimSlot_names caching
  intro positions given
  rw [cachedEq] at given
  obtain ⟨old, there, passed⟩ := counts positions given
  exact (lined old there).rollback passed

end Buffers

theorem Pipeline.ids_of_asks {β : Type} {model : Model β} {primary : Device} {phase : Phase}
    {stages : List Stage} {pool : Named Tensor} {buffers : Buffers} {state asked : β}
    {invocation : Invocation} {tensor : Tensor}
    (managed : buffers.names.inputIds ∈ buffers.inputNames)
    (asks : Asks model primary phase stages pool buffers state invocation asked)
    (given : invocation.inputs.get? buffers.names.inputIds = some tensor) :
    tensor = Reading.matrix buffers.inputIds := by
  induction asks with
  | @here stage wired rest pool buffers state runs connected =>
    obtain ⟨-, bound, -⟩ := wire_returns connected
    have own : ManagedBuffers.isInput buffers.names.inputIds buffers = true :=
      List.contains_iff_mem.mpr managed
    have found : ManagedBuffers.input buffers.names.inputIds buffers = some buffers.idsTensor :=
      Buffers.input_ids
    rw [bound, source, if_pos own, found, Option.some_or] at given
    split at given
    · exact (Option.some.inj given).symm
    · cases given
  | @later stage wired rest outputs pool pool' before now state state' asked invocation runs served
      asks ih =>
    -- the stage in between only stores
    have same : now = { before with cache := now.cache, scores := now.scores } :=
      deliver_preserves (P := fun (now : Buffers) (_ : Named Tensor) =>
          now = { before with cache := now.cache, scores := now.scores })
        (fun name _ tensor _ _ _ next kept _ stored => by
          rw [Buffers.same_of_store stored, kept])
        (fun _ _ _ _ _ _ kept _ => kept) rfl served.delivered
    rw [same] at ih
    exact ih managed given
  | idle _ _ ih => exact ih managed given

namespace Session

variable {β : Type} {model : Model β} {session after entered : Session β} {phase : Phase}
  {tensor : Tensor} {length columns count : Nat} {tokens : List Token} {indices : List Nat}
  {ids : List (List Token)}

def Feeds (length : Nat) (tokens : List Token) (indices : List Nat) (session : Session β)
    (ids : List (List Token)) : Prop :=
  ∃ phase entered, Enters length tokens indices session phase entered ∧
    entered.buffers.inputIds = ids

/-- Whenever stages are run, those that take token ids get what is fed. -/
def Shows (model : Model β) (session : Session β) : Prop :=
  ∀ length tokens indices phase entered, Enters length tokens indices session phase entered →
    ∀ invocation asked, Pipeline.Asks model entered.pipeline.primary phase entered.pipeline.stages
      [] entered.buffers entered.model invocation asked →
    ∀ tensor, invocation.inputs.get? session.buffers.names.inputIds = some tensor →
      tensor = Reading.matrix entered.buffers.inputIds

theorem shows_of_managed
    (managed : session.buffers.frame.names.inputIds ∈ session.buffers.frame.inputNames) :
    session.Shows model := by
  intro length tokens indices phase entered enters invocation asked asks tensor given
  have framed : entered.buffers.frame = session.buffers.frame := by
    cases enters with
    | prompt _ => rfl
    | token _ updated => exact Reading.frame_of_update updated
  have names : entered.buffers.names = session.buffers.names := congrArg Frame.names framed
  rw [← framed] at managed
  rw [← names] at given
  exact Pipeline.ids_of_asks managed asks given

theorem Feeds.of_first (first : session.first = true)
    (feeds : session.Feeds length tokens indices ids) : ids = session.buffers.inputIds := by
  obtain ⟨phase, entered, enters, rfl⟩ := feeds
  cases enters with
  | prompt _ => rfl
  | token later _ => cases first.symm.trans later

theorem Feeds.of_later (later : session.first = false) (lined : session.buffers.Lined columns)
    (feeds : session.Feeds length tokens indices ids) :
    ids = Tensor.blocks (tokens.length / session.buffers.rows) session.buffers.rows tokens ∧
      0 < tokens.length / session.buffers.rows ∧
      (session.buffers.positions.isSome = true →
        columns + tokens.length / session.buffers.rows = length) := by
  obtain ⟨phase, entered, enters, rfl⟩ := feeds
  cases enters with
  | prompt first => cases first.symm.trans later
  | token _ ran =>
    obtain ⟨some, -, updated⟩ := Buffers.updated ran
    exact ⟨updated.ids, some, (lined.update ran).2⟩

theorem feeds_of_run (ran : Step.Returns (run model length tokens indices) session tensor after) :
    ∃ ids, session.Feeds length tokens indices ids := by
  cases first : session.first with
  | true => exact ⟨_, _, _, .prompt first, rfl⟩
  | false =>
    obtain ⟨buffers, updated, -⟩ := Reading.run_later first ran
    exact ⟨_, _, _, .token first updated, rfl⟩

theorem positions_of_runPhase (ran : Step.Returns (runPhase model phase) session tensor after) :
    after.buffers.positions = session.buffers.positions := by
  refine (runPhase_preserves (P := fun buffers => buffers.positions = session.buffers.positions)
    (fun name tensor before next kept stored => ?_) rfl ran).1
  rw [Buffers.same_of_store stored, kept]

theorem lined_of_first (first : session.first = true) (lined : session.buffers.Lined columns)
    (ran : Step.Returns (run model length tokens indices) session tensor after) :
    after.buffers.Lined columns := by
  intro positions given
  rw [positions_of_runPhase (Reading.run_first first ran)] at given
  exact lined positions given

theorem lined_of_later (later : session.first = false) (lined : session.buffers.Lined columns)
    (ran : Step.Returns (run model length tokens indices) session tensor after) :
    after.buffers.Lined length := by
  obtain ⟨buffers, updated, passed⟩ := Reading.run_later later ran
  intro positions given
  rw [positions_of_runPhase passed] at given
  exact (lined.update updated).1 positions given

theorem lined_of_rollback (lined : session.buffers.Lined columns)
    (ran : Step.Returns (rollback count) session () after) :
    after.buffers.Lined (columns - count) := by
  obtain ⟨buffers, rolled, rfl⟩ := rollback_returns_iff.mp ran
  exact lined.rollback rolled

end Session

/-- A question for a result may end a beam search. -/
theorem Beam.sequence_ends {before after : Beam} {index : Nat} {tokens : List Token}
    (ran : Step.Returns (sequence index) before tokens after) :
    ∃ entries finals done, after =
      { before with entries := entries, finals := finals, done := done } := by
  simp only [sequence, finalize, Step.returns_bind, Step.returns_get] at ran
  obtain ⟨_, _, ⟨rfl, rfl⟩, results, middle, ⟨_, _, ⟨rfl, rfl⟩, closed⟩, looked⟩ := ran
  have kept : after = middle := by
    split at looked
    · exact (Step.returns_pure.mp looked).2.symm
    · exact (Step.returns_throw.mp looked).elim
  subst kept
  split at closed
  · obtain ⟨-, rfl⟩ := Step.returns_pure.mp closed
    exact ⟨_, _, _, rfl⟩
  · simp only [Step.throw_bind, Step.returns_guard, Step.returns_bind, Step.returns_lift,
      Step.returns_set, Step.returns_pure] at closed
    obtain ⟨-, entries, _, ⟨-, rfl⟩, _, _, rfl, -, rfl⟩ := closed
    exact ⟨entries, _, true, rfl⟩

namespace Strategy

variable {before after : Strategy} {index : Nat} {tokens : List Token}

theorem SameCourse.nextTokens (same : SameCourse before after) :
    after.nextTokens = before.nextTokens := by
  cases same <;> rfl

structure SameRows (before after : Strategy) : Prop where
  kind : after.kind = before.kind
  settings : after.settings = before.settings
  histories : after.histories = before.histories
  nextTokens : after.nextTokens = before.nextTokens
  nextIndices : after.nextIndices = before.nextIndices

/-- Looking at a result leaves the rows alone, though it may end a beam search. -/
theorem sequence_rows (ran : Step.Returns (sequence index) before tokens after) :
    SameRows before after ∧ (before.Marked → after.Marked) := by
  rcases byCases_returns ran with ⟨g, g', rfl, rfl, looked⟩ | ⟨b, b', rfl, rfl, looked⟩ |
    ⟨s, s', rfl, rfl, looked⟩
  · obtain ⟨-, rfl⟩ := Greedy.row_of_sequence looked
    exact ⟨⟨rfl, rfl, rfl, rfl, rfl⟩, id⟩
  · obtain ⟨entries, finals, done, rfl⟩ := Beam.sequence_ends looked
    exact ⟨⟨rfl, rfl, rfl, rfl, rfl⟩, id⟩
  · obtain ⟨g', inside, rfl⟩ := Step.returns_within.mp looked
    obtain ⟨-, rfl⟩ := Greedy.row_of_sequence inside
    exact ⟨⟨rfl, rfl, rfl, rfl, rfl⟩, id⟩

theorem create_tokens {request : Request} {strategy : Strategy}
    (created : create request.settings request.inputIds request.speculative = .ok strategy) :
    strategy.nextTokens.length = strategy.histories.rows.length := by
  cases created_of_create created with
  | speculative _ started =>
    obtain ⟨h, opened, rfl⟩ := Greedy.start_eq_ok started
    obtain ⟨-, rfl⟩ := Histories.start_eq_ok opened
    simp [nextTokens, histories]
  | beam _ started =>
    obtain ⟨-, h, opened, rfl⟩ := Beam.start_eq_ok started
    obtain ⟨-, rfl⟩ := Histories.start_eq_ok opened
    simp [nextTokens, histories, Settings.rowCount]
  | greedy _ started =>
    obtain ⟨h, opened, rfl⟩ := Greedy.start_eq_ok started
    obtain ⟨-, rfl⟩ := Histories.start_eq_ok opened
    simp [nextTokens, histories]

end Strategy

namespace Generator

variable {β : Type} {model : Model β} {request : Request} {frame : Frame}
  {start g g' : Generator β} {fed ids : List (List Token)} {draft : List Token}
  {verdict : Verdict}

structure Drafts (g : Generator β) : Prop where
  kind : g.strategy.kind = .speculative
  idle : g.pendingScores = false
  later : g.session.first = false
  goes : g.isDone = false

/-- Calls from a new generator on, with the tokens that were fed to every row and not taken back.
The record of a row goes to the rows that are chosen to descend from it. -/
inductive Fed (model : Model β) (rows : Nat) (start : Generator β) :
    Generator β → List (List Token) → Prop where
  | start : Fed model rows start start (List.replicate rows [])
  | compute {g g' : Generator β} {fed ids : List (List Token)} : Fed model rows start g fed →
      g.session.Feeds g.strategy.length g.feed g.strategy.nextIndices ids →
      Step.Returns (computeScores model) g () g' → Fed model rows start g' (View.seen ⟨fed, ids⟩)
  | choose {g g' : Generator β} {fed : List (List Token)} : Fed model rows start g fed →
      Step.Returns generateNextToken g () g' →
      Fed model rows start g' (inherited g'.strategy.nextIndices fed)
  | verify {g g' : Generator β} {fed ids : List (List Token)} {draft : List Token}
      {verdict : Verdict} : Fed model rows start g fed → g.Drafts →
      g.session.Feeds (g.strategy.length + (g.clip draft).length) (g.feed ++ g.clip draft) [] ids →
      Verifies model draft g verdict g' →
      Fed model rows start g' ((View.seen ⟨fed, ids⟩).map fun row =>
        row.take (row.length - ((g.clip draft).length - verdict.accepted.length)))
  | look {g g' : Generator β} {fed : List (List Token)} {index : Nat} {tokens : List Token} :
      Fed model rows start g fed → Step.Returns (sequence index) g tokens g' →
      Fed model rows start g' fed

section

variable {rows : Nat}

theorem Fed.computed (record : Fed model rows start g fed)
    (ran : Step.Returns (computeScores model) g () g') : ∃ fed, Fed model rows start g' fed := by
  obtain ⟨_, _, _, stepped, -⟩ := computeScores_returns.mp ran
  obtain ⟨ids, feeds⟩ := Session.feeds_of_run stepped
  exact ⟨_, record.compute feeds ran⟩

theorem Fed.looked {indices : List Nat} {results : List (List Token)}
    (record : Fed model rows start g fed)
    (ran : Step.Returns (sequences indices) g results g') : Fed model rows start g' fed := by
  induction indices generalizing g results with
  | nil =>
    obtain ⟨-, rfl⟩ := Step.returns_pure.mp ran
    exact record
  | cons index rest ih =>
    simp only [sequences, Step.returns_bind, Step.returns_pure] at ran
    obtain ⟨_, _, first, _, _, later, -, rfl⟩ := ran
    exact ih (record.look first) later

theorem Fed.rounds {n : Nat} (record : Fed model rows start g fed)
    (rounds : Rounds model n g g') : ∃ fed, Fed model rows start g' fed := by
  induction rounds generalizing fed with
  | none => exact ⟨fed, record⟩
  | next _ computed chose _ ih =>
    obtain ⟨_, record⟩ := record.computed computed
    exact ih (record.choose chose)

theorem Fed.verified (record : Fed model rows start g fed)
    (ran : Step.Returns (verifyCandidates model draft) g verdict g') :
    ∃ fed, Fed model rows start g' fed := by
  obtain ⟨kind, idle, middle, prompt, rest⟩ := verifyCandidates_returns ran
  -- after the prompt step, if there was none
  obtain ⟨fed', record', kind', idle', later⟩ : ∃ fed, Fed model rows start middle fed ∧
      middle.strategy.kind = .speculative ∧ middle.pendingScores = false ∧
      middle.session.first = false := by
    split at prompt
    · obtain ⟨computed, scored, chose⟩ := prompt
      obtain ⟨_, record⟩ := record.computed scored
      refine ⟨_, record.choose chose, ?_⟩
      obtain ⟨_, _, _, stepped, loaded, rfl⟩ := computeScores_returns.mp scored
      obtain ⟨-, _, _, same, choice, rfl⟩ := generateNextToken_chosen chose
      exact ⟨choice.kind.trans (same.kind.trans ((Strategy.setScores_returns loaded).kind.trans
        kind)), rfl, (Session.run_fixed stepped).2⟩
    · next later =>
      subst prompt
      exact ⟨fed, record, kind, idle, by simpa using later⟩
  split at rest
  · exact ⟨fed', rest.2 ▸ record'⟩
  · next goes =>
    obtain ⟨_, _, _, _, _, _, _, _, stepped, -⟩ := rest.steps
    obtain ⟨ids, feeds⟩ := Session.feeds_of_run stepped
    exact ⟨_, record'.verify ⟨kind', idle', later, by simpa using goes⟩ feeds rest⟩

theorem Fed.use (record : Fed model rows start g fed) (used : Use model g g') :
    ∃ fed, Fed model rows start g' fed := by
  cases used with
  | compute ran => exact record.computed ran
  | choose ran => exact ⟨_, record.choose ran⟩
  | verify ran => exact record.verified ran
  | sequence ran => exact ⟨_, record.look ran⟩
  | generate ran =>
    simp only [Generator.generate, Step.returns_bind, Step.returns_get] at ran
    obtain ⟨_, _, ⟨rfl, rfl⟩, _, _, looped, _, _, ⟨rfl, rfl⟩, listed⟩ := ran
    obtain ⟨_, rounds⟩ := rounds_of_runToEnd looped
    obtain ⟨_, record⟩ := record.rounds rounds
    exact ⟨_, record.looked listed⟩

theorem exists_fed (model : Model β) (rows : Nat) (reached : ReflTransGen (Use model) start g) :
    ∃ fed, Fed model rows start g fed := by
  induction reached with
  | refl => exact ⟨_, .start⟩
  | tail _ used ih => exact ih.elim fun _ record => record.use used

end

/-- What calls keep, whatever the model answers and whatever is counted. -/
structure Sound (request : Request) (frame : Frame) (g : Generator β) : Prop where
  prompted : request.Prompted
  rooted : g.strategy.Rooted request
  marked : g.strategy.Marked
  framed : g.session.buffers.frame = frame
  rows : frame.rows = request.rowCount
  tokens : ∃ new, 0 < new ∧ g.strategy.nextTokens.length = request.rowCount * new
  waits : g.pendingScores = true → g.session.first = false ∧ g.pendingFeed = none

theorem Sound.rowCount (sound : Sound request frame g) :
    g.session.buffers.rows = request.rowCount :=
  (congrArg Frame.rows sound.framed).trans sound.rows

theorem Sound.counts (sound : Sound request frame g) :
    g.session.buffers.positions.isSome = frame.counts :=
  congrArg Frame.counts sound.framed

theorem Sound.verified (sound : Sound request frame g) (drafts : g.Drafts)
    (verifies : Verifies model draft g verdict g') :
    ∃ row s s' tensor session, g.strategy = .speculative s ∧ g'.strategy = .speculative s' ∧
      s.Verified row tensor (g.clip draft) verdict s' ∧
      Step.Returns (Session.run model (g.strategy.length + (g.clip draft).length)
        (g.feed ++ g.clip draft) []) g.session tensor session ∧
      Step.Returns (Session.rollback ((g.clip draft).length - verdict.accepted.length)) session ()
        g'.session ∧
      g'.pendingFeed = verdict.correction.map (fun token => [token]) ∧
      g'.pendingScores = false := by
  obtain ⟨tensor, session, loaded, row, asked, checked, kept, rolled, stepped, scored, looked,
    decided, settled, back, rfl⟩ := verifies.steps
  obtain ⟨s, speculative⟩ := Strategy.exists_speculative drafts.kind
  have marked := sound.marked
  have going : s.inner.done = false := by
    simpa [isDone, speculative, Strategy.isDone] using drafts.goes
  rw [speculative] at scored marked
  obtain ⟨s', rfl, verified⟩ := Strategy.verify_returns marked going scored looked decided settled
  exact ⟨row, s, s', tensor, session, speculative, rfl, verified, stepped, back, rfl, drafts.idle⟩

theorem Sound.compute (sound : Sound request frame g)
    (ran : Step.Returns (computeScores model) g () g') : Sound request frame g' := by
  obtain ⟨tensor, session, strategy, stepped, loaded, rfl⟩ := computeScores_returns.mp ran
  have same := Strategy.setScores_returns loaded
  obtain ⟨fixed, later⟩ := Session.run_fixed stepped
  refine ⟨sound.prompted, sound.rooted.of_same same, sound.marked.of_same same, ?_, sound.rows, ?_,
    fun _ => ⟨later, rfl⟩⟩
  · exact (congrArg (·.2.2.2) fixed).trans sound.framed
  · rw [same.nextTokens]
    exact sound.tokens

theorem Sound.choose (sound : Sound request frame g)
    (ran : Step.Returns generateNextToken g () g') : Sound request frame g' := by
  obtain ⟨-, constrained, chosen, same, choice, rfl⟩ := generateNextToken_chosen ran
  have rooted := sound.rooted.of_same same
  have commits := choice.commits rooted.beamed
  refine ⟨sound.prompted, rooted.commit commits, (sound.marked.of_same same).of_chosen choice,
    sound.framed, sound.rows, ⟨1, Nat.one_pos, ?_⟩, by simp⟩
  rw [Nat.mul_one]
  exact commits.count.trans rooted.rows.count

theorem Sound.verify (sound : Sound request frame g) (drafts : g.Drafts)
    (verifies : Verifies model draft g verdict g') : Sound request frame g' := by
  obtain ⟨row, s, s', tensor, session, before, after, verified, stepped, back, -, idle⟩ :=
    sound.verified drafts verifies
  have single := sound.rooted.single drafts.kind
  obtain ⟨scores, load, judged⟩ := verified.judged
  have fixed := (Session.rollback_fixed back).trans (Session.run_fixed stepped).1
  have rooted := sound.rooted
  rw [before] at rooted
  refine ⟨sound.prompted, ?_, ?_, (congrArg (·.2.2.2) fixed).trans sound.framed, sound.rows,
    ⟨verdict.committed.length, ?_, ?_⟩, by simp [idle]⟩
  · rw [after]
    exact rooted.append_run rfl verified.settings verified.only verified.histories
  · rw [after]
    exact verified.marked
  · exact List.length_pos_iff.mpr (judged.committed_ne_nil (LoadedScores.load_fresh load).2)
  · rw [after, single, Nat.one_mul]
    exact congrArg List.length verified.nextTokens

theorem Sound.look {index : Nat} {tokens : List Token} (sound : Sound request frame g)
    (ran : Step.Returns (sequence index) g tokens g') : Sound request frame g' := by
  obtain ⟨strategy, asked, rfl⟩ := onStrategy_returns.mp ran
  obtain ⟨same, marked⟩ := Strategy.sequence_rows asked
  refine ⟨sound.prompted, sound.rooted.of_histories same.kind same.settings same.histories,
    marked sound.marked, sound.framed, sound.rows, ?_, sound.waits⟩
  rw [same.nextTokens]
  exact sound.tokens

end Generator

end StagedDecoding
