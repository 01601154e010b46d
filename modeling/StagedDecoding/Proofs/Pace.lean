import StagedDecoding.Proofs.Serving
import StagedDecoding.Proofs.Synchrony
import StagedDecoding.Proofs.Verdicts

/-! The pace of session and search.

Between two calls a session has seen its rows up to the tokens chosen last, and its buffers hold
what the next step needs. A call that returns keeps this pace. On a model that answers what it is
asked, scores can be computed as long as the search is not done.
-/

set_option autoImplicit false

namespace StagedDecoding

open Relation (ReflTransGen)

/-- No two presents have one name, and in either phase there is a stage that runs and declares the
scores, and one for every present. -/
structure DecoderConfig.Supplies (decoder : DecoderConfig) : Prop where
  distinct : (decoder.cacheNames.map (·.2)).Nodup
  produced : ∀ phase, ∀ name ∈ decoder.outputs.scores :: decoder.cacheNames.map (·.2),
    ∃ stage ∈ decoder.stages, (Stage.ofConfig stage).runsIn phase = true ∧ name ∈ stage.outputs

theorem Buffers.create_ready {config : Config} {request : Request} {stages : List Stage}
    {buffers : Buffers} (prompted : request.Prompted)
    (created : Buffers.create config request stages = .ok buffers) :
    buffers.Ready ∧ buffers.Lined request.promptLength := by
  obtain ⟨ids, positions, cache, laid, placed, kept, rfl⟩ := Buffers.create_eq_ok created
  obtain ⟨total, cut⟩ := Request.blocks_expandedIds prompted
  have rectangular := Request.promptRows_rectangular prompted
  have some := Request.rowCount_pos prompted
  have columns : request.expandedIds.length / request.rowCount = request.promptLength := by
    rw [total, Nat.mul_div_cancel_left _ some]
  -- the width of the ids and of the mask is read off the first row
  obtain ⟨row, rest, rows⟩ := List.exists_cons_of_length_pos (rectangular.count.symm ▸ some)
  have wide := rectangular.width_eq (show row ∈ request.promptRows by simp [rows])
  obtain ⟨-, rfl⟩ := Buffers.idRows_eq_ok.mp laid
  rw [Nat.max_eq_left some, columns, cut]
  refine ⟨⟨rectangular.count, ?_, ?_⟩, ?_⟩
  · rw [wide]
    exact prompted.long
  · intro slot inside
    obtain ⟨own, given, inside⟩ : ∃ own, cache = Option.some own ∧ slot ∈ own.slots := by
      cases cache with
      | none => simp [Buffers.slots] at inside
      | some own => exact ⟨own, rfl, by simpa [Buffers.slots] using inside⟩
    obtain ⟨-, type, filled⟩ := (LayerCache.ofConfig_eq_ok (kept.made given)).2 slot inside
    exact ⟨_, _, _, congrArg Tensor.shape filled⟩
  · intro own given
    have made := Positions.ofPrompt_eq_ok (placed.made given)
    rw [columns, cut, rows] at made
    have long : row.length = request.promptLength := rectangular.width row (by simp [rows])
    subst made
    exact ⟨by simp, by simp, by simp [Positions.width, Positions.maskOf, long]⟩

theorem Session.create_wired {β : Type} {config : Config} {request : Request}
    {registry : DeviceRegistry} {state : β} {session : Session β} (prompted : request.Prompted)
    (supplies : config.model.decoder.Supplies)
    (created : Session.create config request state .host registry = .ok session) :
    session.Wired ∧ session.first = true ∧ session.buffers.rows = request.rowCount ∧
      session.buffers.Ready ∧ session.buffers.Lined request.promptLength := by
  -- only the frame is read off, so nothing is asked of the tensors
  let reading : Reading := ⟨config.model.decoder, request, fun _ _ _ _ => True,
    fun _ _ _ => True, fun _ _ _ => True⟩
  obtain ⟨frames, -, -, first, -⟩ := @Reading.create_session reading β config .host registry
    session state rfl prompted created
  obtain ⟨buffers, filled, rfl⟩ := Session.create_eq_ok created
  have framed : buffers.frame = reading.frame := frames.buffers
  have rows : buffers.rows = request.rowCount := congrArg Frame.rows framed
  have listed : reading.frame.slots.getD [] = config.model.decoder.cacheNames := by
    simp only [reading, Reading.frame, DecoderConfig.cacheNames]
    split <;> rfl
  obtain ⟨ready, lined⟩ := Buffers.create_ready prompted filled
  refine ⟨⟨rfl, ?_, ?_, ?_⟩, rfl, rows, ready, lined⟩
  · exact (congrArg Frame.scoresName framed).symm
  · change buffers.frame.Sturdy
    rw [framed]
    refine ⟨Request.rowCount_pos prompted, ?_, ?_⟩
    · rw [listed]
      rfl
    · rw [listed]
      exact supplies.distinct
  · intro phase name member
    have names : buffers.outputNames = reading.frame.outputNames :=
      congrArg Frame.outputNames framed
    obtain ⟨stage, inside, runs, declared⟩ := supplies.produced phase name (by
      rw [names] at member
      exact member)
    exact ⟨.ofConfig stage, List.mem_map_of_mem inside, runs, declared⟩

namespace Strategy

theorem SameCourse.nextIndices {before after : Strategy} (same : SameCourse before after) :
    after.nextIndices = before.nextIndices := by
  cases same <;> rfl

def Follows (rows : Nat) (moves : Prop) (strategy : Strategy) : Prop :=
  strategy.nextIndices = [] ∨ moves ∧ strategy.nextIndices.length = rows ∧
    ∀ parent ∈ strategy.nextIndices, parent < rows

variable {before after : Strategy} {moves : Prop}

theorem Commits.follows (commits : Commits before after) (beams : before.kind = .beam → moves) :
    after.Follows before.histories.rows.length moves := by
  cases kind : after with
  | greedy _ => exact .inl rfl
  | speculative _ => exact .inl rfl
  | beam b =>
    have moved : moves := beams (by rw [← commits.kind, kind, Strategy.kind])
    rw [← kind]
    refine commits.parents.imp_right fun chosen => ⟨moved, chosen.1, ?_⟩
    intro parent member
    obtain ⟨i, found⟩ := List.mem_iff_getElem?.mp member
    exact (chosen.2 i parent found).1

theorem Chosen.fits (chosen : Chosen before after) :
    before.histories.length + 1 ≤ before.histories.capacity := by
  cases chosen with
  | greedy committed => exact (Greedy.commit_appends committed).2.2.1
  | beam stepped =>
    obtain ⟨-, -, _, _, _, _, -, -, descended, -⟩ := Beam.selectTop_returns.mp stepped
    exact (Histories.descend_eq_ok.mp descended).2.2.1
  | speculative committed => exact (Greedy.commit_appends committed).2.2.1

theorem create_fits {request : Request} {strategy : Strategy}
    (created : create request.settings request.inputIds request.speculative = .ok strategy) :
    strategy.length ≤ request.settings.maxLength := by
  have fits : ∀ {batch beams : Nat} {histories : Histories},
      Histories.start request.inputIds batch beams request.settings.maxLength = .ok histories →
        histories.length ≤ request.settings.maxLength := by
    intro batch beams histories started
    obtain ⟨fits, rfl⟩ := Histories.start_eq_ok started
    exact fits
  cases created_of_create created with
  | speculative _ started =>
    obtain ⟨_, began, rfl⟩ := Greedy.start_eq_ok started
    exact fits began
  | beam _ started =>
    obtain ⟨-, _, began, rfl⟩ := Beam.start_eq_ok started
    exact fits began
  | greedy _ started =>
    obtain ⟨_, began, rfl⟩ := Greedy.start_eq_ok started
    exact fits began

theorem create_follows {request : Request} {strategy : Strategy}
    (beams : strategy.kind = .beam → moves)
    (created : create request.settings request.inputIds request.speculative = .ok strategy) :
    strategy.Follows request.rowCount moves := by
  cases created_of_create created with
  | speculative _ _ => exact .inl rfl
  | beam _ started =>
    obtain ⟨-, _, -, rfl⟩ := Beam.start_eq_ok started
    exact .inr ⟨beams rfl, List.length_range, fun _ member => List.mem_range.mp member⟩
  | greedy _ _ => exact .inl rfl

end Strategy

namespace Generator

variable {β : Type} {model : Model β} {request : Request} {vocab : Nat} {moves : Prop}
  {g g' : Generator β} {u : Unit}

/-- Where the session stands between two calls. As long as the search is not done, it has seen the
rows up to one token, which is fed next. -/
inductive Pace (vocab : Nat) (moves : Prop) (g : Generator β) : Prop where
  | fresh (first : g.session.first = true) (idle : g.pendingScores = false)
      (unfed : g.pendingFeed = none) (ready : g.session.buffers.Ready)
      (lined : g.session.buffers.Lined g.strategy.length)
  | waiting {fed : Nat} (later : g.session.first = false) (waits : g.pendingScores = true)
      (unfed : g.pendingFeed = none) (lined : g.session.buffers.Lined g.strategy.length)
      (supplied : g.session.buffers.Supplied fed moves) (scored : g.strategy.Scored vocab)
  | chosen {columns fed : Nat} (later : g.session.first = false) (idle : g.pendingScores = false)
      (lined : g.session.buffers.Lined columns)
      (supplied : g.session.buffers.Supplied fed moves)
      (behind : g.isDone = false →
        columns + 1 = g.strategy.length ∧ g.feed.length = g.session.buffers.rows)

structure Steady (request : Request) (vocab : Nat) (moves : Prop) (g : Generator β) : Prop where
  prompted : request.Prompted
  wired : g.session.Wired
  rows : g.session.buffers.rows = request.rowCount
  rooted : g.strategy.Rooted request
  fits : g.strategy.length ≤ request.settings.maxLength
  opened : g.strategy.Open
  follows : g.strategy.Follows request.rowCount moves
  beams : g.strategy.kind = .beam → moves
  vocabulary : request.vocabulary = 0 ∨ vocab = request.vocabulary
  config : g.config = request.search
  pace : Pace vocab moves g

theorem strategy_of_create {config : Config} {device : Device} {registry : DeviceRegistry}
    {state : β} (created : Generator.create config request state device registry = .ok g) :
    request.Prompted ∧ Strategy.create request.settings request.inputIds request.speculative =
      .ok g.strategy := by
  simp only [Generator.create, Outcome.bind_eq_ok, Outcome.pure_eq_ok] at created
  obtain ⟨_, valid, strategy, made, session, -, rfl⟩ := created
  exact ⟨Request.prompted_of_validate valid, made⟩

theorem Steady.create {config : Config} {registry : DeviceRegistry} {state : β}
    (supplies : config.model.decoder.Supplies)
    (vocabulary : request.vocabulary = 0 ∨ vocab = request.vocabulary)
    (beams : g.strategy.kind = .beam → moves)
    (created : Generator.create config request state .host registry = .ok g) :
    Steady request vocab moves g ∧ g.session.first = true ∧ g.pendingScores = false := by
  simp only [Generator.create, Outcome.bind_eq_ok, Outcome.pure_eq_ok] at created
  obtain ⟨_, valid, strategy, made, session, opened, rfl⟩ := created
  have prompted := Request.prompted_of_validate valid
  have prompts := Strategy.create_prompts made
  obtain ⟨wired, first, rows, ready, lined⟩ := Session.create_wired prompted supplies opened
  have length : strategy.length = request.promptLength := prompts.length
  refine ⟨⟨prompted, wired, rows, prompts.rooted prompted, ?_, Strategy.create_open prompted made,
    Strategy.create_follows beams made, beams, vocabulary, rfl, ?_⟩, first, rfl⟩
  · exact Strategy.create_fits made
  · exact .fresh first rfl rfl ready (length ▸ lined)

/-- A call on a generator that succeeds, in whatever state. -/
inductive Use (model : Model β) : Generator β → Generator β → Prop where
  | compute {g g' : Generator β} : Step.Returns (computeScores model) g () g' → Use model g g'
  | choose {g g' : Generator β} : Step.Returns generateNextToken g () g' → Use model g g'
  | verify {g g' : Generator β} {draft : List Token} {verdict : Verdict} :
      Step.Returns (verifyCandidates model draft) g verdict g' → Use model g g'
  | generate {g g' : Generator β} {results : List (List Token)} :
      Step.Returns (generate model) g results g' → Use model g g'
  | sequence {g g' : Generator β} {index : Nat} {tokens : List Token} :
      Step.Returns (sequence index) g tokens g' → Use model g g'

inductive Rounds (model : Model β) : Nat → Generator β → Generator β → Prop where
  | none {g : Generator β} : Rounds model 0 g g
  | next {n : Nat} {g computed next last : Generator β} : g.isDone = false →
      Step.Returns (computeScores model) g () computed →
      Step.Returns generateNextToken computed () next →
      Rounds model n next last → Rounds model (n + 1) g last

theorem rounds_of_runToEnd {bound : Nat} (ran : Step.Returns (runToEnd model bound) g () g') :
    ∃ n, Rounds model n g g' := by
  induction bound generalizing g with
  | zero =>
    obtain ⟨-, rfl⟩ := Step.returns_pure.mp ran
    exact ⟨0, .none⟩
  | succ bound ih =>
    simp only [runToEnd, Step.returns_bind, Step.returns_get] at ran
    obtain ⟨_, _, ⟨rfl, rfl⟩, ran⟩ := ran
    split at ran
    · obtain ⟨-, rfl⟩ := Step.returns_pure.mp ran
      exact ⟨0, .none⟩
    · next goes =>
      simp only [Step.returns_bind] at ran
      obtain ⟨_, _, computed, _, _, generated, later⟩ := ran
      obtain ⟨n, rounds⟩ := ih later
      exact ⟨n + 1, .next (by simpa using goes) computed generated rounds⟩

theorem Rounds.uses {n : Nat} (rounds : Rounds model n g g') : ReflTransGen (Use model) g g' := by
  induction rounds with
  | none => exact .refl
  | next _ computed generated _ ih => exact .head (.compute computed) (.head (.choose generated) ih)

theorem session_of_sequences {indices : List Nat} {results : List (List Token)}
    (ran : Step.Returns (sequences indices) g results g') : g'.session = g.session := by
  induction indices generalizing g results with
  | nil =>
    obtain ⟨-, rfl⟩ := Step.returns_pure.mp ran
    rfl
  | cons index rest ih =>
    simp only [sequences, sequence, Step.returns_bind, onStrategy_returns,
      Step.returns_pure] at ran
    obtain ⟨_, _, ⟨_, -, rfl⟩, _, _, later, -, rfl⟩ := ran
    exact (ih later).trans rfl

theorem fixed_of_compute (ran : Step.Returns (computeScores model) g u g') :
    g'.session.fixed = g.session.fixed := by
  obtain ⟨_, _, _, stepped, -, rfl⟩ := computeScores_returns.mp ran
  exact (Session.run_fixed stepped).1

theorem fixed_of_generate (ran : Step.Returns generateNextToken g u g') :
    g'.session.fixed = g.session.fixed := by
  obtain ⟨-, _, _, -, -, rfl⟩ := generateNextToken_chosen ran
  rfl

theorem Use.fixed (used : Use model g g') : g'.session.fixed = g.session.fixed := by
  cases used with
  | compute computed => exact fixed_of_compute computed
  | choose chose => exact fixed_of_generate chose
  | sequence asked =>
    obtain ⟨_, -, rfl⟩ := onStrategy_returns.mp asked
    rfl
  | generate generated =>
    simp only [Generator.generate, Step.returns_bind, Step.returns_get] at generated
    obtain ⟨_, _, ⟨rfl, rfl⟩, _, last, looped, _, _, ⟨rfl, rfl⟩, listed⟩ := generated
    obtain ⟨_, rounds⟩ := rounds_of_runToEnd looped
    have kept : last.session.fixed = g.session.fixed := by
      -- what the loop is over with, and what comes after it, vary with the rounds
      clear looped listed
      induction rounds with
      | none => rfl
      | next _ computed chose _ ih =>
        exact ih.trans ((fixed_of_generate chose).trans (fixed_of_compute computed))
    rw [session_of_sequences listed, kept]
  | verify verified =>
    obtain ⟨-, -, middle, prompt, rest⟩ := verifyCandidates_returns verified
    have first : middle.session.fixed = g.session.fixed := by
      split at prompt
      · obtain ⟨computed, scored, chose⟩ := prompt
        exact (fixed_of_generate chose).trans (fixed_of_compute scored)
      · rw [prompt]
    rw [← first]
    split at rest
    · rw [rest.2]
    · obtain ⟨_, _, _, _, _, _, _, _, stepped, -, -, -, -, back, rfl⟩ := rest.steps
      exact (Session.rollback_fixed back).trans (Session.run_fixed stepped).1

def Answered (vocab : Nat) (moves : Prop) (model : Model β) (g : Generator β) : Prop :=
  ∀ length tokens indices, g.session.Answered vocab moves model length tokens indices

/-- The model answers in every state that successful calls lead to. -/
def Served (vocab : Nat) (moves : Prop) (model : Model β) (start : Generator β) : Prop :=
  ∀ g, ReflTransGen (Use model) start g → Answered vocab moves model g

theorem Steady.rowCount (steady : Steady request vocab moves g) :
    g.strategy.histories.rows.length = g.session.buffers.rows :=
  steady.rooted.rows.count.trans steady.rows.symm

theorem Steady.parents (steady : Steady request vocab moves g) :
    g.strategy.nextIndices = [] ∨ moves ∧
      g.strategy.nextIndices.length = g.session.buffers.rows ∧
      ∀ parent ∈ g.strategy.nextIndices, parent < g.session.buffers.rows := by
  rw [steady.rows]
  exact steady.follows

theorem Steady.fed {length : Nat} {tokens : List Token} {indices : List Nat} {tensor : Tensor}
    {session : Session β} (steady : Steady request vocab moves g)
    (answered : Answered vocab moves model g) (length_eq : length = g.strategy.length)
    (counted : indices = [] ∨ indices.length = g.session.buffers.rows)
    (ran : Step.Returns (Session.run model length tokens indices) g.session tensor session) :
    ∃ new, Session.Fed vocab moves new g.strategy.length g.session tensor session := by
  have asked := answered length tokens indices
  subst length_eq
  cases steady.pace with
  | fresh first _ _ ready lined =>
    exact ⟨_, .of_first steady.wired first ready lined asked ran⟩
  | waiting later _ _ lined supplied _ =>
    exact ⟨_, .of_later steady.wired later lined supplied counted asked ran⟩
  | chosen later _ lined supplied _ =>
    exact ⟨_, .of_later steady.wired later lined supplied counted asked ran⟩

theorem Steady.loads {tensor : Tensor} {session : Session β} {new length : Nat} {moves' : Prop}
    (steady : Steady request vocab moves g)
    (fed : Session.Fed vocab moves' new length g.session tensor session) :
    ∃ strategy, Step.Returns (Strategy.setScores tensor) g.strategy () strategy ∧
      strategy.Scored vocab := by
  obtain ⟨strategy, loaded, scored, -⟩ := steady.opened.setScores_total
    (steady.rowCount.symm ▸ fed.shape) fed.filled fed.feeds
    (steady.rooted.settings ▸ steady.vocabulary)
  exact ⟨strategy, loaded, scored⟩

theorem Steady.compute (steady : Steady request vocab moves g)
    (answered : Answered vocab moves model g) (ran : Step.Returns (computeScores model) g u g') :
    Steady request vocab moves g' ∧ g'.pendingScores = true ∧ g'.session.first = false ∧
      g'.session.fixed = g.session.fixed ∧ Strategy.SameCourse g.strategy g'.strategy := by
  obtain ⟨tensor, session, strategy, stepped, loaded, rfl⟩ := computeScores_returns.mp ran
  have same := Strategy.setScores_returns loaded
  obtain ⟨new, fed⟩ := steady.fed answered rfl (steady.parents.imp_right (·.2.1)) stepped
  obtain ⟨strategy', loaded', scored⟩ := steady.loads fed
  obtain ⟨-, rfl⟩ := Step.returns_unique loaded loaded'
  have length : strategy.length = g.strategy.length := congrArg Histories.length same.histories
  have rows := Session.rows_of_fixed fed.fixed
  refine ⟨⟨steady.prompted, steady.wired.of_fixed fed.fixed, rows.trans steady.rows,
    steady.rooted.of_same same, length ▸ steady.fits, steady.opened.of_same same scored, ?_, ?_,
    steady.vocabulary, steady.config, .waiting fed.later rfl rfl ?_ fed.supplied scored⟩, rfl,
    fed.later, fed.fixed, same⟩
  · rw [Strategy.Follows, same.nextIndices]
    exact steady.follows
  · rw [same.kind]
    exact steady.beams
  · rw [length]
    exact fed.lined

theorem Steady.compute_total (steady : Steady request vocab moves g)
    (answered : Answered vocab moves model g) (idle : g.pendingScores = false)
    (goes : g.session.first = true ∨ g.isDone = false) :
    ∃ g', Step.Returns (computeScores model) g () g' := by
  obtain ⟨tensor, session, stepped⟩ : ∃ tensor session, Step.Returns
      (Session.run model g.strategy.length g.feed g.strategy.nextIndices) g.session tensor
      session := by
    cases steady.pace with
    | fresh first _ _ ready _ =>
      exact Session.run_total_first steady.wired first ready (answered _ _ _)
    | waiting _ waits _ _ _ _ => simp [idle] at waits
    | chosen later _ lined supplied behind =>
      obtain ⟨longer, count⟩ := behind (goes.resolve_left (by simp [later]))
      rw [← longer]
      exact Session.run_total_later steady.wired later lined supplied (by rw [count, Nat.mul_one])
        Nat.one_pos steady.parents (answered _ _ _)
  obtain ⟨new, fed⟩ := steady.fed answered rfl (steady.parents.imp_right (·.2.1)) stepped
  obtain ⟨strategy, loaded, -⟩ := steady.loads fed
  exact ⟨_, computeScores_returns.mpr ⟨tensor, session, strategy, stepped, loaded, rfl⟩⟩

theorem Steady.generate (steady : Steady request vocab moves g)
    (ran : Step.Returns generateNextToken g u g') :
    Steady request vocab moves g' ∧ g'.pendingScores = false ∧ g'.session = g.session ∧
      ∃ constrained, Strategy.SameCourse g.strategy constrained ∧
        Strategy.Commits constrained g'.strategy := by
  obtain ⟨waits, constrained, chosen, same, choice, same'⟩ := generateNextToken_chosen ran
  have rooted := steady.rooted.of_same same
  have commits := choice.commits rooted.beamed
  have beams : constrained.kind = .beam → moves := same.kind.symm ▸ steady.beams
  -- a choice needs pending scores, which there are between feeding and choosing only
  cases steady.pace with
  | fresh _ idle _ _ _ => simp [idle] at waits
  | chosen _ idle _ _ _ => simp [idle] at waits
  | waiting later _ unfed lined supplied scored =>
    have opened := open_of_generateNextToken steady.opened scored ran
    subst same'
    have fits : chosen.length ≤ request.settings.maxLength := by
      rw [← rooted.capacity, Strategy.length, commits.histories]
      exact choice.fits
    refine ⟨⟨steady.prompted, steady.wired, steady.rows, rooted.commit commits, fits, opened, ?_,
      ?_, steady.vocabulary, steady.config, ?_⟩, rfl, rfl, constrained, same, commits⟩
    · rw [← rooted.rows.count]
      exact commits.follows beams
    · exact commits.kind.symm ▸ beams
    · refine .chosen later rfl lined supplied fun _ => ⟨?_, ?_⟩
      · simp only [Strategy.length, commits.histories, same.histories]
      · simp only [feed, unfed, Option.getD_none, commits.count, rooted.rows.count]
        exact steady.rows.symm

/-- Pending scores come to a choice as long as the search is not done. -/
theorem Steady.generate_total (steady : Steady request vocab moves g)
    (waits : g.pendingScores = true) (goes : g.isDone = false)
    (picks : g.strategy.kind = .beam → request.search.sample = false ∧
      ∃ token < vocab, request.settings.isEnd token = false) :
    ∃ g', Step.Returns generateNextToken g () g' := by
  cases steady.pace with
  | fresh _ idle _ _ _ => simp [idle] at waits
  | chosen _ idle _ _ _ => simp [idle] at waits
  | waiting _ _ _ _ _ scored =>
    have some : 0 < g.strategy.histories.rows.length := by
      rw [steady.rooted.rows.count]
      exact Request.rowCount_pos steady.prompted
    apply generateNextToken_total waits steady.opened scored some (steady.opened.room goes)
    rw [steady.config, steady.rooted.settings]
    exact picks

theorem Served.later (served : Served vocab moves model g)
    (reached : ReflTransGen (Use model) g g') : Served vocab moves model g' :=
  fun further onwards => served further (reached.trans onwards)

theorem Steady.of_rounds {n : Nat} {last : Generator β} (steady : Steady request vocab moves g)
    (served : Served vocab moves model g) (rounds : Rounds model n g last) :
    Steady request vocab moves last ∧ last.strategy.kind = g.strategy.kind := by
  induction rounds with
  | none => exact ⟨steady, rfl⟩
  | @next n g computed next last goes scored chose _ ih =>
    obtain ⟨steady', -, -, -, same⟩ := steady.compute (served g .refl) scored
    have round : Rounds model 1 g next := .next goes scored chose .none
    obtain ⟨steady'', kind⟩ := ih (steady'.generate chose).1 (served.later round.uses)
    exact ⟨steady'', kind.trans ((generate_kind chose).trans same.kind)⟩

end Generator

end StagedDecoding
