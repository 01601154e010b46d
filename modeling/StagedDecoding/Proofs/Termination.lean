import StagedDecoding.Config.Validation
import StagedDecoding.Proofs.Blank
import StagedDecoding.Proofs.Finished
import StagedDecoding.Proofs.NaiveDecoding

/-! A generation ends, and gives its results.

Every round of the loop makes the histories longer by one token, so that the room behind the prompts
bounds the rounds. A search that is over gives as many results for every batch entry as it has to:
the rows of a row-based search, and the best hypotheses of every entry for beams.
-/

set_option autoImplicit false

namespace StagedDecoding

def Request.share (request : Request) : StrategyKind → Nat
  | .beam => request.search.returnCount
  | _ => 1

/-- What a generation has to give: for every batch entry its share of continuations of its prompt,
none of them too long. -/
structure Request.Delivers (request : Request) (kind : StrategyKind) (outs : List (List Token)) :
    Prop where
  count : outs.length = request.batchSize * request.share kind
  begun : ∀ (i : Nat) (out : List Token), outs[i]? = some out →
    promptOf request.inputIds request.batchSize (i / request.share kind) <+: out
  fits : ∀ out ∈ outs, out.length ≤ request.settings.maxLength

theorem SearchConfig.returnCount_of_validate {context : Nat} {search valid : SearchConfig}
    (validated : search.validate context = .ok valid) :
    0 < valid.returnCount ∧ valid.returnCount ≤ valid.beams := by
  simp only [SearchConfig.validate, Outcome.throw_bind, Outcome.guard_eq_ok] at validated
  obtain ⟨-, -, asked, checked⟩ := validated
  simp only [Bool.or_eq_true, decide_eq_true_eq, not_or, Nat.not_lt] at asked
  split at checked
  · cases checked
  · obtain rfl := Outcome.pure_eq_ok.mp checked
    exact ⟨Nat.pos_of_ne_zero asked.1, asked.2⟩

theorem Config.search_of_validate {config valid : Config}
    (validated : config.validate = .ok valid) :
    config.search.validate config.model.context = .ok valid.search := by
  simp only [Config.validate, Outcome.throw_bind, Outcome.guard_eq_ok,
    Outcome.bind_eq_ok] at validated
  obtain ⟨-, -, _, -, unique⟩ := validated
  split at unique
  · cases unique
  · simp only [Outcome.bind_eq_ok, Outcome.pure_eq_ok] at unique
    obtain ⟨search, checked, rfl⟩ := unique
    exact checked

namespace Strategy

variable {request : Request} {before after strategy : Strategy} {results : List (List Token)}

def Gives (results : List (List Token)) : Strategy → Prop
  | .greedy g => g.histories.rows = results
  | .beam b => ∃ finals, b.Gives finals ∧ finals.map (·.tokens) = results
  | .speculative s => s.inner.histories.rows = results

theorem Gives.sequence {index : Nat} {out : List Token} (gives : strategy.Gives results)
    (found : results[index]? = some out) :
    ∃ after, Step.Returns (Strategy.sequence index) strategy out after ∧ after.Gives results := by
  cases strategy with
  | greedy g =>
    obtain rfl := gives
    exact ⟨.greedy g, returns_greedy (Greedy.sequence_row found), rfl⟩
  | speculative s =>
    obtain rfl := gives
    exact ⟨.speculative s, returns_speculative (returns_inside (Greedy.sequence_row found)), rfl⟩
  | beam b =>
    obtain ⟨finals, gives, rfl⟩ := gives
    obtain ⟨final, listed, rfl⟩ := Option.map_eq_some_iff.mp (List.getElem?_map ▸ found)
    obtain ⟨b', looked, gives'⟩ := gives.sequence listed
    exact ⟨.beam b', returns_beam looked, finals, gives', rfl⟩

def Gathers (request : Request) : Strategy → Prop
  | .beam b => b.Gathers request
  | _ => True

theorem Gathers.of_same (gathers : before.Gathers request) (same : SameCourse before after) :
    after.Gathers request := by
  cases same with
  | greedy _ _ => trivial
  | speculative _ _ => trivial
  | beam b scores => exact ⟨gathers.count, gathers.finished, gathers.stopped⟩

theorem Gathers.of_chosen (gathers : before.Gathers request) (rooted : before.Rooted request)
    (chosen : Chosen before after) : after.Gathers request := by
  cases chosen with
  | greedy _ => trivial
  | speculative _ => trivial
  | beam selected => exact Beam.Gathers.selectTop gathers rooted selected

theorem Open.single (opened : strategy.Open) (kind : strategy.kind ≠ .beam) :
    strategy.histories.rows.length = strategy.settings.batchSize := by
  cases strategy with
  | greedy g => exact opened.rows.count
  | beam _ => exact absurd rfl kind
  | speculative s => exact opened.1.rows.count

theorem create_gathers (created : create request.settings request.inputIds request.speculative =
    .ok strategy) : strategy.Gathers request := by
  cases created_of_create created with
  | speculative _ _ => trivial
  | beam _ started => exact Beam.Gathers.start started
  | greedy _ _ => trivial

theorem Open.delivers (opened : strategy.Open) (kind : strategy.kind ≠ .beam)
    (rooted : strategy.Rooted request) (fits : strategy.length ≤ request.settings.maxLength)
    (batch : 0 < request.batchSize) :
    strategy.Gives strategy.histories.rows ∧
      request.Delivers strategy.kind strategy.histories.rows := by
  have count := opened.single kind
  obtain ⟨gives, share⟩ : strategy.Gives strategy.histories.rows ∧
      request.share strategy.kind = 1 := by
    cases strategy with
    | greedy _ => exact ⟨rfl, rfl⟩
    | speculative _ => exact ⟨rfl, rfl⟩
    | beam _ => exact absurd rfl kind
  have sized : strategy.settings.batchSize = request.batchSize :=
    congrArg Settings.batchSize rooted.settings
  -- there is a row for every beam, and one for every entry
  have alone : request.beams = 1 := by
    apply Nat.eq_of_mul_eq_mul_left batch
    calc request.batchSize * request.beams
      _ = strategy.histories.rows.length := rooted.rows.count.symm
      _ = request.batchSize * 1 := by rw [count, sized, Nat.mul_one]
  refine ⟨gives, ?_, fun i out found => ?_, fun out member => ?_⟩
  · rw [count, share, sized, Nat.mul_one]
  · have begun := rooted.begun found
    rwa [alone, ← share] at begun
  · rw [rooted.rows.width out member]
    exact fits

theorem Gathers.delivers (gathers : strategy.Gathers request) (rooted : strategy.Rooted request)
    (opened : strategy.Open) (fits : strategy.length ≤ request.settings.maxLength)
    (batch : 0 < request.batchSize)
    (asked : 0 < request.search.returnCount ∧ request.search.returnCount ≤ request.beams) :
    ∃ results, strategy.Gives results ∧ request.Delivers strategy.kind results := by
  cases strategy with
  | greedy _ => exact ⟨_, opened.delivers nofun rooted fits batch⟩
  | speculative _ => exact ⟨_, opened.delivers nofun rooted fits batch⟩
  -- the other strategies give their rows, beams what they have gathered
  | beam b =>
    have beams : b.settings.beams = request.beams := rooted.beams
    have returns : b.settings.returnCount = request.search.returnCount :=
      congrArg Settings.returnCount (show b.settings = request.settings from rooted.settings)
    obtain ⟨count, each⟩ := Beam.Gathers.results gathers rooted fits asked.2
    refine ⟨(b.results request.search.returnCount).map (·.tokens), ⟨_, ?_, rfl⟩, ?_, ?_, ?_⟩
    · exact .going opened.2.1 opened.1.counted (returns ▸ asked.1)
        (returns ▸ asked.2.trans_eq beams.symm) (returns ▸ rfl)
    · rw [List.length_map, count]
      rfl
    · intro i out found
      obtain ⟨final, there, rfl⟩ := Option.map_eq_some_iff.mp (List.getElem?_map ▸ found)
      exact (each i final there).1
    · rw [List.forall_mem_map]
      intro final member
      obtain ⟨i, there⟩ := List.getElem?_of_mem member
      exact (each i final there).2

end Strategy

namespace Generator

variable {β : Type} {model : Model β} {request : Request} {vocab n : Nat} {moves : Prop}
  {g g' start last : Generator β}

theorem Rounds.returns_runToEnd {bound : Nat} (rounds : Rounds model n g last)
    (done : last.isDone = true) (enough : n ≤ bound) :
    Step.Returns (runToEnd model bound) g () last := by
  induction rounds generalizing bound with
  | @none g =>
    cases bound with
    | zero => exact Step.returns_pure.mpr ⟨rfl, rfl⟩
    | succ bound =>
      simp only [runToEnd, Step.returns_bind, Step.returns_get]
      refine ⟨g, g, ⟨rfl, rfl⟩, ?_⟩
      rw [if_pos done]
      exact Step.returns_pure.mpr ⟨rfl, rfl⟩
  | @next n g computed next last goes scored chose _ ih =>
    -- there is a round left, as this one is among those bounded
    obtain ⟨bound, rfl⟩ : ∃ less, bound = less + 1 := ⟨bound - 1, by omega⟩
    simp only [runToEnd, Step.returns_bind, Step.returns_get]
    refine ⟨g, g, ⟨rfl, rfl⟩, ?_⟩
    rw [if_neg (by simp [goes])]
    simp only [Step.returns_bind]
    exact ⟨(), computed, scored, (), next, chose, ih done (by omega)⟩

theorem sequences_total {results outs : List (List Token)} {indices : List Nat}
    (gives : g.strategy.Gives results)
    (found : List.Forall₂ (fun i out => results[i]? = some out) indices outs) :
    ∃ g', Step.Returns (sequences indices) g outs g' := by
  induction found generalizing g with
  | nil => exact ⟨g, Step.returns_pure.mpr ⟨rfl, rfl⟩⟩
  | cons here _ ih =>
    obtain ⟨strategy, looked, gives'⟩ := gives.sequence here
    obtain ⟨g', rest⟩ := ih (g := { g with strategy := strategy }) gives'
    simp only [sequences, sequence, Step.returns_bind, onStrategy_returns, Step.returns_pure]
    exact ⟨g', _, _, ⟨strategy, looked, rfl⟩, _, g', rest, rfl, rfl⟩

theorem Steady.round (steady : Steady request vocab moves g) (idle : g.pendingScores = false)
    (goes : g.isDone = false) (answered : Answered vocab moves model g)
    (picks : request.search.sample = false)
    (some : ∃ token < vocab, request.settings.isEnd token = false) :
    ∃ computed next, Step.Returns (computeScores model) g () computed ∧
      Step.Returns generateNextToken computed () next ∧ Steady request vocab moves next ∧
      next.pendingScores = false ∧ next.strategy.length = g.strategy.length + 1 ∧
      next.strategy.kind = g.strategy.kind ∧
      (g.strategy.Gathers request → next.strategy.Gathers request) := by
  obtain ⟨computed, scored⟩ := steady.compute_total answered idle (.inr goes)
  obtain ⟨steady', waits, -, -, same⟩ := steady.compute answered scored
  obtain ⟨next, chose⟩ :=
    steady'.generate_total waits (same.isDone.trans goes) fun _ => ⟨picks, some⟩
  obtain ⟨steady'', idle', -, constrained, same', commits⟩ := steady'.generate chose
  refine ⟨computed, next, scored, chose, steady'', idle', ?_, ?_, fun gathers => ?_⟩
  · simp only [Strategy.length, commits.histories, same'.histories, same.histories]
  · exact (generate_kind chose).trans same.kind
  · obtain ⟨-, before, _, same', choice, rfl⟩ := generateNextToken_chosen chose
    exact ((gathers.of_same same).of_same same').of_chosen (steady'.rooted.of_same same') choice

/-- The loop comes to an end before the histories are longer than allowed. -/
theorem Steady.rounds {room : Nat} (steady : Steady request vocab moves g)
    (idle : g.pendingScores = false)
    (enough : request.settings.maxLength ≤ g.strategy.length + room)
    (served : Served vocab moves model g) (picks : request.search.sample = false)
    (some : ∃ token < vocab, request.settings.isEnd token = false)
    (gathers : g.strategy.Gathers request) :
    ∃ n ≤ room, ∃ last, Rounds model n g last ∧ last.isDone = true ∧
      Steady request vocab moves last ∧ last.strategy.Gathers request ∧
      last.strategy.kind = g.strategy.kind := by
  induction room generalizing g with
  | zero =>
    -- histories without room left are full, and the search is over then
    have done : g.isDone = true := by
      by_contra goes
      have fits := steady.opened.room (Bool.eq_false_iff.mpr goes)
      rw [Histories.isFull, decide_eq_false_iff_not, steady.rooted.capacity] at fits
      exact fits enough
    exact ⟨0, Nat.le_refl 0, g, .none, done, steady, gathers, rfl⟩
  | succ room ih =>
    cases done : g.isDone with
    | true => exact ⟨0, Nat.zero_le _, g, .none, done, steady, gathers, rfl⟩
    | false =>
      obtain ⟨computed, next, scored, chose, steady', idle', longer, kind, gathers'⟩ :=
        steady.round idle done (served g .refl) picks some
      have round : Rounds model 1 g next := .next done scored chose .none
      obtain ⟨n, fits, last, rounds, stopped, steady'', gathers'', kind'⟩ :=
        ih steady' idle' (by omega) (served.later round.uses) (gathers' gathers)
      exact ⟨n + 1, Nat.succ_le_succ fits, last, .next done scored chose rounds, stopped, steady'',
        gathers'', kind'.trans kind⟩

theorem resultCount_of_gives {results : List (List Token)} (rooted : g.strategy.Rooted request)
    (config : g.config = request.search) (gives : g.strategy.Gives results)
    (delivers : request.Delivers g.strategy.kind results) : g.resultCount = results.length := by
  have rows : g.strategy.histories.rowCount = request.batchSize * request.beams := rooted.rows.count
  unfold resultCount
  cases strategy : g.strategy with
  | greedy _ =>
    rw [strategy] at gives
    exact congrArg List.length gives
  | speculative _ =>
    rw [strategy] at gives
    exact congrArg List.length gives
  | beam _ =>
    have count := delivers.count
    rw [strategy] at rows count
    dsimp only
    rw [rows, config, show max request.search.beams 1 = request.beams from rfl,
      Nat.mul_div_cancel _ request.beams_pos, count]
    rfl

theorem moves_of_created {config : Config} {device : Device} {registry : DeviceRegistry} {state : β}
    (created : Generator.create config request state device registry = .ok g)
    (kind : g.strategy.kind = .beam) : 1 < request.beams := by
  obtain ⟨-, made⟩ := strategy_of_create created
  generalize g.strategy = strategy at made kind
  cases Strategy.created_of_create made with
  | speculative _ _ => cases kind
  | beam several _ => exact several
  | greedy _ _ => cases kind

/-- On a model that answers what it is asked, generation ends and succeeds. It takes at most as many
rounds as the prompts leave room for, and gives every batch entry its share of results. -/
theorem generate_delivers {config valid : Config} {registry : DeviceRegistry} {state : β}
    (validated : config.validate = .ok valid) (search : request.search = valid.search)
    (supplies : valid.model.decoder.Supplies)
    (vocabulary : request.vocabulary = 0 ∨ vocab = request.vocabulary)
    (picks : request.search.sample = false)
    (some : ∃ token < vocab, request.settings.isEnd token = false)
    (created : Generator.create valid request state .host registry = .ok start)
    (served : Served vocab (1 < request.beams) model start) :
    ∃ n ≤ request.room, ∃ last outs after, Rounds model n start last ∧ last.isDone = true ∧
      Step.Returns (generate model) start outs after ∧ after.session = last.session ∧
      request.Delivers start.strategy.kind outs := by
  obtain ⟨steady, -, idle⟩ :=
    Steady.create supplies vocabulary (moves_of_created created) created
  obtain ⟨-, made⟩ := strategy_of_create created
  have length : start.strategy.length = request.promptLength :=
    (Strategy.create_prompts made).length
  have enough : request.settings.maxLength ≤ start.strategy.length + request.room := by
    rw [length, Request.room]
    omega
  obtain ⟨n, fits, last, rounds, done, steady', gathers', kind⟩ :=
    steady.rounds idle enough served picks some (Strategy.create_gathers made)
  obtain ⟨asked, few⟩ :=
    SearchConfig.returnCount_of_validate (Config.search_of_validate validated)
  rw [← search] at asked few
  obtain ⟨outs, gives, delivers⟩ := gathers'.delivers steady'.rooted steady'.opened steady'.fits
    steady'.prompted.batch ⟨asked, few.trans (Nat.le_max_left _ _)⟩
  have count := resultCount_of_gives steady'.rooted steady'.config gives delivers
  have each : List.Forall₂ (fun i out => outs[i]? = Option.some out)
      (List.range last.resultCount) outs := by
    rw [count, List.forall₂_iff_get]
    exact ⟨List.length_range, fun i here there => by simp⟩
  obtain ⟨after, listed⟩ := sequences_total gives each
  refine ⟨n, fits, last, outs, after, rounds, done, ?_, session_of_sequences listed,
    kind ▸ delivers⟩
  -- the loop may take a round more than there is room for, and sees that the search is done
  have bounded : n ≤ start.strategy.histories.capacity - start.strategy.histories.length + 1 := by
    rw [steady.rooted.capacity, show start.strategy.histories.length = _ from length]
    exact Nat.le_succ_of_le fits
  simp only [generate, Step.returns_bind, Step.returns_get]
  exact ⟨_, _, ⟨rfl, rfl⟩, (), last, rounds.returns_runToEnd done bounded, last, last, ⟨rfl, rfl⟩,
    listed⟩

theorem blank_delivers :
    let config : Config :=
      { Recital.config with search := { SearchConfig.standard with beams := 2, returnCount := 2 } }
    ∃ valid start outs after, config.validate = .ok valid ∧
      Generator.create valid (.ofConfig valid 2 [0, 1, 1, 2]) () .host .standard = .ok start ∧
      Step.Returns (generate Blank.run) start outs after ∧
      (Request.ofConfig valid 2 [0, 1, 1, 2]).Delivers .beam outs ∧ outs.length = 4 := by
  intro config
  have checked : (config.validate.toOption.bind fun valid =>
      (Generator.create valid (.ofConfig valid 2 [0, 1, 1, 2]) () .host .standard).toOption.map
        fun start => (valid.model, valid.search.sample, valid.search.returnCount,
          start.strategy.kind)) = some (Recital.config.model, false, 2, .beam) := by
    decide +kernel
  obtain ⟨valid, accepted, opened⟩ := Option.bind_eq_some_iff.mp checked
  obtain ⟨start, opened, facts⟩ := Option.map_eq_some_iff.mp opened
  simp only [Prod.mk.injEq] at facts
  obtain ⟨model, picks, returns, kind⟩ := facts
  have validated := Outcome.toOption_eq_some.mp accepted
  have created := Outcome.toOption_eq_some.mp opened
  have decoder : valid.model.decoder = Recital.decoder := congrArg ModelConfig.decoder model
  obtain ⟨n, -, last, outs, after, -, -, ran, -, delivers⟩ :=
    @generate_delivers Unit Blank.run (.ofConfig valid 2 [0, 1, 1, 2]) 4 start config valid
      .standard () validated rfl (decoder ▸ Blank.supplies)
      (.inr (congrArg ModelConfig.vocabulary model).symm) picks
      ⟨0, by decide, by
        rw [Settings.isEnd, show (Request.ofConfig valid 2 [0, 1, 1, 2]).settings.endTokens = [3]
          from congrArg ModelConfig.endTokens model]
        decide⟩
      created (Blank.serves decoder created)
  rw [kind] at delivers
  refine ⟨valid, start, outs, after, validated, created, ran, delivers, ?_⟩
  rw [delivers.count]
  exact congrArg (2 * ·) returns

end Generator

end StagedDecoding
