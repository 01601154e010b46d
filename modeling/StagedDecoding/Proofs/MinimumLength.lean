import StagedDecoding.Proofs.Progress
import StagedDecoding.Proofs.Waiting

/-! The minimum length is respected.

In a run of successful calls on a generator that does not sample, scores are constrained before they
are used: those of a step at the last position, those of a draft at every position that is read. If
what is left of them is a choice, every end token that is written, into a row, a hypothesis or a
result, stands where the minimum length has been reached.
-/

set_option autoImplicit false

open Relation

namespace StagedDecoding.Generator

variable {β : Type} {model : Model β} {elementary : Elementary} {request : Request}
  {start g g' : Generator β} {u : Unit}

/-- What the choices of a request depend on: it does not sample, and its penalty is a positive
number. -/
structure Ranks (request : Request) : Prop where
  picks : request.search.sample = false
  pos : 0 < request.search.repetitionPenalty
  finite : request.search.repetitionPenalty.isFinite = true

def Judges (model : Model β) (draft : List Token) (g : Generator β) (loaded : Strategy) : Prop :=
  ∃ tensor session,
    Step.Returns (Session.run model (g.strategy.length + (g.clip draft).length)
      (g.feed ++ g.clip draft) []) g.session tensor session ∧
    Step.Returns (Strategy.setScores tensor) g.strategy () loaded

/-- The scores that the verification of a draft reads leave a choice, once they are constrained:
those of the prompt step, and those after every part of the draft that is accepted. -/
structure Verifiable (model : Model β) (draft : List Token) (verdict : Verdict)
    (g : Generator β) : Prop where
  prompt : ∀ computed, g.session.first = true → Step.Returns (computeScores model) g () computed →
    computed.strategy.Clear computed.config
  draft : ∀ middle loaded row i raw, Begins model g middle → Judges model draft middle loaded →
    middle.strategy.histories.rows = [row] → i ≤ verdict.accepted.length →
    loaded.scores.scoresAt 0 i = .ok raw →
    Scores.Clear middle.strategy.settings.endTokens
      (Scores.constrained middle.config.minLength middle.config.repetitionPenalty
        middle.strategy.settings.endTokens (row ++ (middle.clip draft).take i) raw)

def Round (elementary : Elementary) (model : Model β) (g next : Generator β) : Prop :=
  g.isDone = false ∧ ∃ computed, Step.Returns (computeScores model) g () computed ∧
    Step.Returns (generateBy elementary) computed () next

/-- Every step of a generation to the end is made on scores that leave a choice. -/
def OrderlyRounds (elementary : Elementary) (model : Model β) (g : Generator β) : Prop :=
  ∀ middle computed, ReflTransGen (Round elementary model) g middle → middle.isDone = false →
    Step.Returns (computeScores model) middle () computed →
      computed.strategy.Orderly elementary computed.config

inductive OrderlyCall (elementary : Elementary) (model : Model β) :
    Generator β → Generator β → Prop where
  | compute {g g' : Generator β} :
      Step.Returns (computeScores model) g () g' → OrderlyCall elementary model g g'
  | choose {g g' : Generator β} : g.strategy.Orderly elementary g.config →
      Step.Returns (generateBy elementary) g () g' → OrderlyCall elementary model g g'
  | verify {g g' : Generator β} {draft : List Token} {verdict : Verdict} :
      g.Verifiable model draft verdict →
      Step.Returns (verifyCandidates model draft) g verdict g' → OrderlyCall elementary model g g'
  | complete {g g' : Generator β} {results : List (List Token)} :
      OrderlyRounds elementary model g →
      Step.Returns (completeBy elementary model) g results g' → OrderlyCall elementary model g g'
  | sequence {g g' : Generator β} {index : Nat} {tokens : List Token} :
      Step.Returns (Generator.sequence index) g tokens g' → OrderlyCall elementary model g g'

/-- A generator of a request, whose search waits for the minimum length. -/
structure Waits (elementary : Elementary) (request : Request) (g : Generator β) : Prop where
  patient : g.strategy.Patient
  settings : g.strategy.settings = request.settings
  promptLength : g.strategy.histories.promptLength = request.promptLength
  config : g.config = request.search
  regular : g.strategy.kind = .beam → elementary.Regular

theorem Waits.goes (waits : g.Waits elementary request) (goes : g.strategy.Goes g'.strategy)
    (config : g'.config = g.config) : g'.Waits elementary request :=
  ⟨goes.patient, goes.settings.trans waits.settings,
    goes.promptLength.trans waits.promptLength, config.trans waits.config,
    fun beam => waits.regular (goes.kind ▸ beam)⟩

theorem Waits.create {config : Config} {device : Device} {registry : DeviceRegistry} {state : β}
    (regular : 1 < request.beams → elementary.Regular)
    (created : Generator.create config request state device registry = .ok start) :
    start.Waits elementary request := by
  obtain ⟨prompted, made⟩ := strategy_of_create created
  have prompts := Strategy.create_prompts made
  have marked := Strategy.create_marked prompted made
  -- at the start there are only prompts, and no token behind them
  have short : ∀ row ∈ start.strategy.histories.rows,
      start.strategy.settings.Late start.strategy.histories.promptLength row := by
    intro row member
    apply Settings.late_of_length
    rw [prompts.promptLength, ← prompts.length]
    exact ((prompts.rooted prompted).rows.width row member).le
  refine ⟨?_, prompts.settings, prompts.promptLength, ?_, ?_⟩
  · generalize start.strategy = strategy at made marked short
    cases Strategy.created_of_create made with
    | speculative _ _ => exact ⟨marked, short⟩
    | beam _ began => exact Beam.Patient.start began
    | greedy _ _ => exact ⟨marked, short⟩
  · simp only [Generator.create, Outcome.bind_eq_ok, Outcome.pure_eq_ok] at created
    obtain ⟨_, _, _, _, _, _, rfl⟩ := created
    rfl
  · generalize start.strategy = strategy at made
    cases Strategy.created_of_create made with
    | speculative _ _ => simp [Strategy.kind]
    | beam several _ => exact fun _ => regular several
    | greedy _ _ => simp [Strategy.kind]

theorem Waits.compute (waits : g.Waits elementary request)
    (ran : Step.Returns (computeScores model) g u g') :
    g'.Waits elementary request ∧ g'.strategy.kind = g.strategy.kind := by
  obtain ⟨_, _, strategy, -, loaded, rfl⟩ := computeScores_returns.mp ran
  have goes := waits.patient.setScores loaded
  exact ⟨waits.goes goes rfl, goes.kind⟩

theorem Waits.generate (waits : g.Waits elementary request)
    (ranks : Ranks request) (clear : g.strategy.Clear g.config)
    (orderly : g.strategy.kind = .beam → g.strategy.Orderly elementary g.config)
    (ran : Step.Returns (generateBy elementary) g u g') :
    g'.Waits elementary request ∧ g'.strategy.kind = g.strategy.kind := by
  obtain ⟨-, lengthened, penalized, chosen, longer, fewer, chose, rfl⟩ := generateBy_returns ran
  have top : chooseBy elementary g.config = Strategy.selectTopBy elementary := by
    simp [chooseBy, waits.config, ranks.picks]
  rw [top] at chose
  have same : g.strategy.settings.minLength = g.config.minLength := by
    rw [waits.settings, waits.config]
    rfl
  have goes := waits.patient.choose waits.regular (waits.config ▸ ranks.pos)
    (waits.config ▸ ranks.finite) same clear orderly longer fewer chose
  exact ⟨waits.goes goes rfl, goes.kind⟩

theorem Waits.rowBased {other : Elementary} (waits : g.Waits elementary request)
    (kind : g.strategy.kind ≠ .beam) : g.Waits other request :=
  ⟨waits.patient, waits.settings, waits.promptLength, waits.config, fun beam => absurd beam kind⟩

theorem Waits.prompts {middle : Generator β} (waits : g.Waits elementary request)
    (kind : g.strategy.kind = .speculative) (ranks : Ranks request)
    (clear : ∀ computed, g.session.first = true →
      Step.Returns (computeScores model) g () computed → computed.strategy.Clear computed.config)
    (prompt : Begins model g middle) :
    middle.Waits elementary request ∧ middle.strategy.kind = .speculative := by
  unfold Begins at prompt
  split at prompt
  · next first =>
    obtain ⟨computed, scored, chose⟩ := prompt
    obtain ⟨ready, same⟩ := (waits.rowBased (by simp [kind]) : g.Waits .native request).compute
      scored
    rw [← generateBy_native] at chose
    obtain ⟨later, same'⟩ := ready.generate ranks (clear computed first scored)
      (by simp [same, kind]) chose
    have kind' := same'.trans (same.trans kind)
    exact ⟨later.rowBased (by simp [kind']), kind'⟩
  · exact prompt ▸ ⟨waits, kind⟩

theorem Waits.verify {draft : List Token} {verdict : Verdict} (waits : g.Waits elementary request)
    (ranks : Ranks request) (verifiable : g.Verifiable model draft verdict)
    (ran : Step.Returns (verifyCandidates model draft) g verdict g') :
    g'.Waits elementary request := by
  obtain ⟨kind, -, middle, prompt, rest⟩ := verifyCandidates_returns ran
  obtain ⟨ready, kind'⟩ := waits.prompts kind ranks verifiable.prompt prompt
  split at rest
  · exact rest.2 ▸ ready
  · next goes =>
    obtain ⟨tensor, session, loaded, row, asked, checked, kept, rolled, stepped, scored, looked,
      decided, settled, -, rfl⟩ := rest.steps
    have clear := fun only i raw => verifiable.draft middle loaded row i raw prompt
      ⟨tensor, session, stepped, scored⟩ only
    -- only a speculative strategy has drafts to verify
    obtain ⟨s, speculative⟩ := Strategy.exists_speculative kind'
    have settings := ready.settings
    have patient := ready.patient
    have going : middle.strategy.isDone = false := by simpa [isDone] using goes
    refine ready.goes ?_ rfl
    rw [speculative] at scored settings patient going clear ⊢
    rw [ready.config, settings] at clear
    have settings : s.inner.settings = request.settings := settings
    refine patient.verify going ?_ ?_ ?_ scored looked decided settled
    · exact settings ▸ ranks.pos
    · exact settings ▸ ranks.finite
    · rw [settings]
      exact clear

theorem Waits.sequence {index : Nat} {tokens : List Token} (waits : g.Waits elementary request)
    (ran : Step.Returns (Generator.sequence index) g tokens g') :
    g'.Waits elementary request ∧ request.settings.Late request.promptLength tokens := by
  obtain ⟨strategy, asked, rfl⟩ := onStrategy_returns.mp ran
  obtain ⟨goes, late⟩ := waits.patient.sequence asked
  exact ⟨waits.goes goes rfl, waits.settings ▸ waits.promptLength ▸ late⟩

theorem Waits.sequences {indices : List Nat} {results : List (List Token)}
    (waits : g.Waits elementary request)
    (ran : Step.Returns (Generator.sequences indices) g results g') :
    g'.Waits elementary request ∧
      ∀ tokens ∈ results, request.settings.Late request.promptLength tokens := by
  induction indices generalizing g results with
  | nil =>
    obtain ⟨rfl, rfl⟩ := Step.returns_pure.mp ran
    exact ⟨waits, by simp⟩
  | cons index rest ih =>
    simp only [Generator.sequences, Step.returns_bind, Step.returns_pure] at ran
    obtain ⟨first, middle, asked, later, _, listed, rfl, rfl⟩ := ran
    obtain ⟨waits', late⟩ := waits.sequence asked
    obtain ⟨last, others⟩ := ih waits' listed
    exact ⟨last, List.forall_mem_cons.mpr ⟨late, others⟩⟩

theorem rounds_of_runToEndBy {bound : Nat}
    (ran : Step.Returns (runToEndBy elementary model bound) g u g') :
    ReflTransGen (Round elementary model) g g' := by
  induction bound generalizing g with
  | zero =>
    obtain ⟨-, rfl⟩ := Step.returns_pure.mp ran
    exact .refl
  | succ bound ih =>
    simp only [runToEndBy, Step.returns_bind, Step.returns_get] at ran
    obtain ⟨_, _, ⟨rfl, rfl⟩, ran⟩ := ran
    split at ran
    · obtain ⟨-, rfl⟩ := Step.returns_pure.mp ran
      exact .refl
    · next goes =>
      simp only [Step.returns_bind] at ran
      obtain ⟨_, _, computed, _, _, generated, later⟩ := ran
      exact .head ⟨by simpa using goes, _, computed, generated⟩ (ih later)

theorem Waits.rounds (waits : g.Waits elementary request) (ranks : Ranks request)
    (orderly : OrderlyRounds elementary model g)
    (rounds : ReflTransGen (Round elementary model) g g') : g'.Waits elementary request := by
  induction rounds with
  | refl => exact waits
  | tail before last ih =>
    obtain ⟨goes, computed, scored, chose⟩ := last
    have leaves := orderly _ _ before goes scored
    have ready := (ih.compute scored).1
    exact (ready.generate ranks leaves.clear (fun _ => leaves) chose).1

/-- Generation to the end consists of such steps, so that its results end late as well. -/
theorem Waits.complete {results : List (List Token)} (waits : g.Waits elementary request)
    (ranks : Ranks request) (orderly : OrderlyRounds elementary model g)
    (ran : Step.Returns (completeBy elementary model) g results g') :
    g'.Waits elementary request ∧
      ∀ tokens ∈ results, request.settings.Late request.promptLength tokens := by
  simp only [completeBy, Step.returns_bind, Step.returns_get] at ran
  obtain ⟨_, _, ⟨rfl, rfl⟩, _, last, looped, _, _, ⟨rfl, rfl⟩, listed⟩ := ran
  exact (waits.rounds ranks orderly (rounds_of_runToEndBy looped)).sequences listed

theorem Waits.call (waits : g.Waits elementary request) (ranks : Ranks request)
    (call : OrderlyCall elementary model g g') : g'.Waits elementary request := by
  cases call with
  | compute ran => exact (waits.compute ran).1
  | choose orderly ran =>
    exact (waits.generate ranks orderly.clear (fun _ => orderly) ran).1
  | verify verifiable ran => exact waits.verify ranks verifiable ran
  | complete orderly ran => exact (waits.complete ranks orderly ran).1
  | sequence ran => exact (waits.sequence ran).1

theorem Waits.reached {config : Config} {device : Device} {registry : DeviceRegistry} {state : β}
    (regular : 1 < request.beams → elementary.Regular) (ranks : Ranks request)
    (created : Generator.create config request state device registry = .ok start)
    (reached : ReflTransGen (OrderlyCall elementary model) start g) :
    g.Waits elementary request := by
  induction reached with
  | refl => exact .create regular created
  | tail _ last ih => exact ih.call ranks last

/-- Wherever successful calls lead to: every end token that was written, into a row, a finished
hypothesis or a result, stands where the minimum length has been reached. -/
theorem ends_late {config : Config} {device : Device} {registry : DeviceRegistry} {state : β}
    (regular : 1 < request.beams → elementary.Regular) (picks : request.search.sample = false)
    (pos : 0 < request.search.repetitionPenalty)
    (finite : request.search.repetitionPenalty.isFinite = true)
    (created : Generator.create config request state device registry = .ok start)
    (reached : ReflTransGen (OrderlyCall elementary model) start g) :
    (∀ row ∈ g.strategy.histories.rows, request.settings.Late request.promptLength row) ∧
      (∀ b, g.strategy = .beam b → ∀ entry ∈ b.entries, ∀ final ∈ entry.finished.kept,
        request.settings.Late request.promptLength final.tokens) ∧
      (∀ index tokens g', Step.Returns (sequence index) g tokens g' →
        request.settings.Late request.promptLength tokens) ∧
      ∀ results g', OrderlyRounds elementary model g →
        Step.Returns (completeBy elementary model) g results g' →
          ∀ tokens ∈ results, request.settings.Late request.promptLength tokens := by
  have ranks : Ranks request := ⟨picks, pos, finite⟩
  have waits := Waits.reached regular ranks created reached
  refine ⟨fun row member => ?_, ?_, fun index tokens g' ran => (waits.sequence ran).2,
    fun results g' orderly ran => (waits.complete ranks orderly ran).2⟩
  · exact waits.settings ▸ waits.promptLength ▸ waits.patient.late row member
  · rintro b beam entry listed final kept
    have patient := waits.patient
    have settings := waits.settings
    have prompt := waits.promptLength
    rw [beam] at patient settings prompt
    exact settings ▸ prompt ▸ Beam.Patient.finished patient entry listed final kept

def steepElementary : Elementary := ⟨Beam.exactElementary.exp, fun _ => 0⟩

theorem steepElementary_regular : steepElementary.Regular := by
  have least : (0 : Float32) ≤ 0 ∧ (0 : Float32) ≤ 1 := by decide +kernel
  have most : (0 : Float32) ≤ 1 ∧ (1 : Float32) ≤ 1 := by decide +kernel
  have finite : (0 : Float32).isFinite = true := rfl
  refine ⟨by decide +kernel, fun x _ => ?_, fun _ _ _ => ⟨least.1, finite⟩⟩
  simp only [steepElementary, Beam.exactElementary]
  split
  · exact most
  · exact least

def heldBack : Scores := [0, -200, -200, Scores.negativeInfinity]

theorem heldBack_clear : heldBack.Clear [3] :=
  ⟨by decide +kernel, 0, 0, rfl, by decide, by decide +kernel⟩

theorem heldBack_bounded : ∀ base ∈ [0, Beam.inactiveScore],
    ∀ logProbability ∈ heldBack.logSoftmaxBy steepElementary,
      logProbability.isFinite = true → (logProbability + base).isFinite = true := by
  decide +kernel

/-- Two beams do not end after the prompt, although the end token has the best score. -/
theorem heldBack_ends_late :
    let request : Request := { Request.ofConfig Recital.config 1 [0, 0] with
      search := { SearchConfig.standard with beams := 2, minLength := 4, repetitionPenalty := 2 } }
    let model : Model Unit := Recital.run fun _ => [0, -200, -200, 200]
    ∃ start g, Generator.create Recital.config request () .host .standard = .ok start ∧
      ReflTransGen (OrderlyCall steepElementary model) start g ∧ g.pendingScores = false ∧
      ∀ row ∈ g.strategy.histories.rows, request.settings.Late request.promptLength row := by
  intro request model
  have checked : ((Generator.create Recital.config request () .host .standard).toOption.bind
      fun start => (computeScores model start).1.toOption.map fun _ =>
        let g := (computeScores model start).2
        ((List.range 2).map (g.strategy.seen g.config), g.strategy.bases,
          ((Session.run model start.strategy.length start.feed
            start.strategy.nextIndices) start.session).1.toOption.map fun tensor =>
              (tensor.shape, tensor.values.length))) =
      some (List.replicate 2 (some heldBack), [0, Beam.inactiveScore], some ([2, 2, 4], 16)) := by
    decide +kernel
  obtain ⟨start, opened, found⟩ := Option.bind_eq_some_iff.mp checked
  obtain ⟨_, ran, data⟩ := Option.map_eq_some_iff.mp found
  have created := Outcome.toOption_eq_some.mp opened
  have computed := Step.returns_of_result ran
  generalize (computeScores model start).2 = g at data computed
  simp only [Prod.mk.injEq] at data
  obtain ⟨seen, bases, given⟩ := data
  obtain ⟨tensor, session, strategy, stepped, loaded, rfl⟩ := computeScores_returns.mp computed
  obtain ⟨shape, count⟩ : tensor.shape = [2, 2, 4] ∧ tensor.values.length = 16 := by
    unfold Step.Returns at stepped
    simpa [stepped, Except.toOption] using given
  have filled : tensor.values.length = Tensor.volume tensor.shape := by
    rw [shape, count]
    rfl
  -- the scores fill the shape that two beams over four tokens need
  obtain ⟨prompted, made⟩ := strategy_of_create created
  have prompts := Strategy.create_prompts made
  have rows : start.strategy.histories.rows.length = 2 := by
    rw [prompts.rows]
    rfl
  have vocabulary : 4 = start.strategy.settings.vocabulary := by
    rw [prompts.settings]
    rfl
  obtain ⟨opened, scored⟩ := (Strategy.create_open prompted made).of_loaded
    (shape.trans (by rw [rows])) filled Nat.two_pos (.inr vocabulary) loaded
  have same := Strategy.setScores_returns loaded
  have settings : strategy.settings = request.settings := same.settings.trans prompts.settings
  have config : start.config = request.search :=
    (Waits.create (fun _ => steepElementary_regular) created).config
  have orderly : strategy.Orderly steepElementary start.config := by
    refine @Strategy.orderly_of_seen strategy steepElementary start.config heldBack
      (fun i bound => ?_) ?_ ?_
    · rw [same.histories, rows] at bound
      have member := List.mem_map_of_mem (f := strategy.seen start.config)
        (List.mem_range.mpr bound)
      rw [seen] at member
      exact List.eq_of_mem_replicate member
    · rw [settings]
      exact heldBack_clear
    · intro base member
      exact heldBack_bounded base (bases ▸ member)
  have room : strategy.histories.isFull = false := by
    rw [same.histories, Histories.isFull, prompts.capacity, prompts.length]
    exact decide_eq_false (by decide +kernel)
  obtain ⟨g, generated⟩ := @generateBy_total _ { start with
      session := session, strategy := strategy, pendingScores := true, pendingFeed := none }
    4 steepElementary rfl opened scored (by rw [same.histories, rows]; exact Nat.two_pos) room
    (fun _ => ⟨by rw [config]; rfl, 0, by decide, by rw [settings]; rfl⟩)
  have reached : ReflTransGen (OrderlyCall steepElementary model) start g :=
    (ReflTransGen.single (.compute computed)).tail (.choose orderly generated)
  obtain ⟨-, _, _, _, -, -, -, rfl⟩ := generateBy_returns generated
  exact ⟨start, _, created, reached, rfl, (ends_late (fun _ => steepElementary_regular) rfl
    (by decide +kernel) (by decide +kernel) created reached).1⟩

end StagedDecoding.Generator
