import StagedDecoding.Proofs.Recital
import StagedDecoding.Proofs.Synchrony

/-! The model always sees exactly the histories.

Take any model that only appends to its cache. Whatever calls were made, the inputs of its next
invocation show the rows of the strategy: what the pasts record and what is fed are together the
histories, with their mask and their positions.
-/

set_option autoImplicit false

namespace StagedDecoding

open Relation (ReflTransGen)

variable {β : Type}

def Model.logged (model : Model β) : Model (β × List Invocation) := fun invocation state =>
  let (result, after) := model invocation state.1
  (result, after, state.2 ++ [invocation])

namespace Reading

def ofLedger (decoder : DecoderConfig) (request : Request) (ledger : Ledger) : Reading where
  decoder := decoder
  request := request
  ledger := ledger
  carried := fun _ _ _ => True
  scored := fun _ _ _ => True

/-- The inputs of an invocation show some rows, the last tokens of which are fed. A name with
several roles has the first of token ids, positions, mask and cache. -/
structure Sees (reading : Reading) (rows : List (List Token)) (invocation : Invocation) :
    Prop where
  parts : ∃ view old new, view.Sized reading.request.rowCount old new ∧ 0 < new ∧
    view.seen = rows ∧
    invocation.inputs.get? reading.decoder.inputs.inputIds = some (matrix view.fed) ∧
    (∀ names ∈ reading.decoder.layerNames, names.1 ∉ reading.decoder.inputs.placed →
      ∃ tensor, invocation.inputs.get? names.1 = some tensor ∧
        reading.Recorded names.1 view.past tensor) ∧
    (reading.decoder.inputs.positionIds ≠ reading.decoder.inputs.inputIds →
      invocation.inputs.get? reading.decoder.inputs.positionIds =
        some (matrix (reading.positionRows view)))
  mask : reading.decoder.inputs.attentionMask ≠ reading.decoder.inputs.inputIds →
    reading.decoder.inputs.attentionMask ≠ reading.decoder.inputs.positionIds →
    invocation.inputs.get? reading.decoder.inputs.attentionMask =
      some (matrix (reading.maskRows rows))

variable {reading : Reading} {view : View} {model : Model β}

theorem Presents.sees {stage : StageConfig} {invocation : Invocation} {old new : Nat}
    (complete : reading.decoder.Complete)
    (sized : view.Sized reading.request.rowCount old new) (feeds : 0 < new)
    (presents : reading.Presents view stage invocation) :
    reading.Sees view.seen invocation := by
  obtain ⟨member, runs, -, -, shows⟩ := presents
  obtain ⟨declared, cached⟩ := complete stage member runs
  have cache := complete.cacheNames_eq member runs
  refine ⟨⟨view, old, new, sized, feeds, rfl, ?_, ?_, ?_⟩, ?_⟩
  · exact shows.ids (declared _ (by simp [InputNames.placed]))
  · exact fun names inside free => shows.pasts names (cache ▸ inside) (cached names inside).1 free
  · exact shows.positions (declared _ (by simp [InputNames.placed]))
  · exact shows.mask (declared _ (by simp [InputNames.placed]))

theorem Invoked.log {before after : β × List Invocation}
    (invoked : reading.Invoked view model.logged before after) :
    ∃ entries, after.2 = before.2 ++ entries ∧
      ∀ invocation ∈ entries, ∃ stage, reading.Presents view stage invocation := by
  induction invoked with
  | refl => exact ⟨[], by simp, by simp⟩
  | @tail middle after _ last ih =>
    obtain ⟨entries, same, each⟩ := ih
    obtain ⟨stage, invocation, outputs, presents, answered⟩ := last
    obtain ⟨-, rfl⟩ := Prod.mk.inj answered
    refine ⟨entries ++ [invocation], by simp [same], fun entry inside => ?_⟩
    rcases List.mem_append.mp inside with early | late
    · exact each entry early
    · obtain rfl := List.mem_singleton.mp late
      exact ⟨stage, presents⟩

theorem honours_of_appendOnly {decoder : DecoderConfig} {request : Request} {ledger : Ledger}
    (complete : decoder.Complete) (appends : model.AppendOnly decoder ledger) :
    (ofLedger decoder request ledger).Honours model.logged := by
  intro view old new sized feeds stage invocation presents state outputs after answered
  obtain ⟨member, runs, -, -, shows⟩ := presents
  obtain ⟨declared, cached⟩ := complete stage member runs
  obtain ⟨answered', -⟩ := Prod.mk.inj answered
  refine ⟨fun _ _ _ => trivial, fun names inside asked _ free tensor found => ?_,
    fun _ _ _ _ _ _ => trivial⟩
  have layer : names ∈ decoder.layerNames := complete.cacheNames_eq member runs ▸ inside
  obtain ⟨past, bound, recorded⟩ := shows.pasts names inside (cached names layer).1 free
  exact appends invocation state.1 outputs _ (Prod.ext answered' rfl) view _ old new sized feeds
    (shows.ids (declared _ (by simp [ofLedger, InputNames.placed]))) names layer asked past tensor
    bound found recorded

end Reading

theorem Strategy.Rooted.realLengths_eq {reading : Reading} {strategy : Strategy}
    (rooted : strategy.Rooted reading.request) :
    strategy.realLengths = (reading.maskRows strategy.histories.rows).map List.sum := by
  have kept : strategy.histories.promptKept = reading.request.promptLength := by
    rw [Histories.promptKept, rooted.promptLength, Nat.min_eq_left rooted.grown]
  simp only [realLengths, Histories.realLengths, kept, rooted.pad, Reading.maskRows, List.map_map]
  refine List.map_congr_left fun row member => ?_
  exact (Positions.sum_maskRow (rooted.rows.width row member ▸ rooted.grown)).symm

namespace Generator

variable {model : Model β} {reading : Reading} {g g' : Generator (β × List Invocation)}

def invocations (g : Generator (β × List Invocation)) : List Invocation := g.session.model.2

def Showing (reading : Reading) (rows : List (List Token))
    (g g' : Generator (β × List Invocation)) : Prop :=
  ∃ entries, g'.invocations = g.invocations ++ entries ∧
    ∀ invocation ∈ entries, reading.Sees rows invocation

/-- Whatever call comes next and succeeds, the model sees the histories. -/
structure Faithful (reading : Reading) (model : Model β)
    (g : Generator (β × List Invocation)) : Prop where
  compute : ∀ g', g.pendingScores = false →
    Step.Returns (computeScores model.logged) g () g' →
    Showing reading g.strategy.histories.rows g g' ∧
      ∃ positions, g'.session.buffers.positions = some positions ∧
        positions.next = g'.strategy.realLengths
  generate : ∀ g', Step.Returns generateNextToken g () g' → g'.invocations = g.invocations
  verify : ∀ draft verdict g', Step.Returns (verifyCandidates model.logged draft) g verdict g' →
    ∃ middle,
      (if g.session.first then
        ∃ computed, Step.Returns (computeScores model.logged) g () computed ∧
          Step.Returns generateNextToken computed () middle
      else middle = g) ∧
      Showing reading (middle.strategy.histories.rows.map (· ++ middle.clip draft)) middle g'

theorem showing_of_ran {view : View} {session : Session (β × List Invocation)} {tensor : Tensor}
    {rows : List (List Token)} (complete : reading.decoder.Complete)
    (ran : reading.Ran model.logged view g.session tensor session)
    (same : g'.session.model = session.model) (whole : view.seen = rows) :
    Showing reading rows g g' := by
  subst whole
  obtain ⟨old, new, sized, feeds⟩ := ran.sized
  obtain ⟨entries, appended, each⟩ := ran.invoked.log
  refine ⟨entries, by rw [invocations, same, appended]; rfl, fun invocation inside => ?_⟩
  obtain ⟨stage, presents⟩ := each invocation inside
  exact presents.sees complete sized feeds

/-- The session keeps up, or nothing more can be fed. -/
def Tracked (reading : Reading) (g : Generator β) : Prop :=
  InStep reading g ∨ Exhausted reading g

theorem counts_of_running (complete : reading.decoder.Complete)
    (running : ∃ stage ∈ reading.decoder.stages, stage.onPrompt ∨ stage.onToken) :
    reading.frame.counts = true := by
  obtain ⟨stage, member, runs⟩ := running
  have declared := (complete stage member runs).1 reading.decoder.inputs.attentionMask
    (by simp [InputNames.placed])
  simp [Reading.frame, DecoderConfig.declares_of_mem member declared]

theorem Exhausted.still {g : Generator β} {model : Model β}
    (complete : reading.decoder.Complete) (honours : reading.Honours model)
    (exhausted : Exhausted reading g) (g' : Generator β) :
    ¬ Step.Returns (computeScores model) g () g' ∧ ¬ Step.Returns generateNextToken g () g' ∧
      ∀ draft verdict, Step.Returns (verifyCandidates model draft) g verdict g' → g' = g := by
  have stuck := fun tokens tensor session =>
    @Exhausted.stuck _ model reading g tokens tensor session exhausted honours
      (counts_of_running complete exhausted.running)
  refine ⟨fun ran => ?_, fun ran => ?_, fun draft verdict ran => ?_⟩
  · obtain ⟨tensor, session, -, stepped, -⟩ := computeScores_returns.mp ran
    rw [Strategy.nextIndices_of_kind exhausted.kind] at stepped
    exact stuck [] tensor session (by simpa using stepped)
  · have waits := (generateNextToken_chosen ran).1
    simp [exhausted.idle] at waits
  · obtain ⟨-, -, middle, prompt, rest⟩ := verifyCandidates_returns ran
    obtain rfl : middle = g := by simpa [exhausted.later] using prompt
    split at rest
    · exact rest.2
    · obtain ⟨tensor, session, _, _, _, _, _, _, stepped, _⟩ := rest.steps
      exact absurd stepped (stuck _ tensor session)

theorem Tracked.call {g g' : Generator β} {model : Model β} (complete : reading.decoder.Complete)
    (honours : reading.Honours model) (tracked : Tracked reading g) (call : Call model g g') :
    Tracked reading g' := by
  rcases tracked with inStep | exhausted
  · cases call with
    | compute idle ran => exact .inl (inStep.compute honours idle ran).1
    | generate ran => exact .inl (inStep.generate ran).1
    | verify ran =>
      obtain ⟨-, -, middle, -, inStep', -, -, outcome⟩ := inStep.verifyCandidates honours ran
      rcases outcome with ⟨-, -, rfl⟩ | ⟨-, -, inStep'' | ⟨-, exhausted⟩⟩
      · exact .inl inStep'
      · exact .inl inStep''
      · exact .inr exhausted
  · obtain ⟨uncomputed, ungenerated, unmoved⟩ := exhausted.still complete honours g'
    cases call with
    | compute _ ran => exact absurd ran uncomputed
    | generate ran => exact absurd ran ungenerated
    | verify ran => exact unmoved _ _ ran ▸ .inr exhausted

theorem Tracked.faithful (complete : reading.decoder.Complete)
    (honours : reading.Honours model.logged) (tracked : Tracked reading g) :
    Faithful reading model g := by
  rcases tracked with inStep | exhausted
  · refine ⟨fun g' idle ran => ?_, fun g' ran => ?_, fun draft verdict g' ran => ?_⟩
    · obtain ⟨inStep', pending, -, view, tensor, passed, whole, loaded⟩ :=
        inStep.compute honours idle ran
      have counts : g'.session.buffers.positions.isSome = true :=
        (congrArg Frame.counts passed.frames.buffers).trans
          (counts_of_running complete passed.running)
      obtain ⟨positions, placed⟩ := Option.isSome_iff_exists.mp counts
      refine ⟨showing_of_ran complete passed rfl whole, positions, placed, ?_⟩
      rw [passed.remembers.next positions placed, whole, inStep'.rooted.realLengths_eq,
        (Strategy.setScores_returns loaded).histories]
    · rw [invocations, invocations, (inStep.generate ran).2.2.1]
    · obtain ⟨-, -, middle, prompt, inStep', -, -, outcome⟩ := inStep.verifyCandidates honours ran
      refine ⟨middle, prompt, ?_⟩
      rcases outcome with ⟨-, -, rfl⟩ | ⟨-, drafted, -⟩
      · exact ⟨[], by simp, by simp⟩
      · obtain ⟨s, s', row, view, tensor, session, before, -, verified, passed, same, -, whole⟩ :=
          drafted.outcome
        refine showing_of_ran complete passed same ?_
        rw [whole, before, Strategy.histories, verified.only, List.map_singleton]
  · -- no call reaches the model any more
    have still := exhausted.still complete honours
    refine ⟨fun g' _ ran => absurd ran (still g').1, fun g' ran => absurd ran (still g').2.1,
      fun draft verdict g' ran => ⟨g, by simp [exhausted.later], ?_⟩⟩
    obtain rfl := (still g').2.2 draft verdict ran
    exact ⟨[], by simp, by simp⟩

/-- After any run of successful calls, whatever call comes next: the model sees exactly the
histories, followed by the draft in verification. -/
theorem model_sees_histories {config : Config} {request : Request} {device : Device}
    {registry : DeviceRegistry} {ledger : Ledger} {state : β}
    {start : Generator (β × List Invocation)}
    (complete : config.model.decoder.Complete)
    (appends : model.AppendOnly config.model.decoder ledger)
    (created : Generator.create config request (state, []) device registry = .ok start)
    (reached : ReflTransGen (Call model.logged) start g) :
    Faithful (.ofLedger config.model.decoder request ledger) model g := by
  have honours : (Reading.ofLedger config.model.decoder request ledger).Honours model.logged :=
    Reading.honours_of_appendOnly complete appends
  refine Tracked.faithful complete honours ?_
  induction reached with
  | refl => exact .inl (InStep.create rfl created).1
  | tail _ call ih => exact ih.call complete honours call

def recite : Step (Generator (Unit × List Invocation)) (Bool × List (List Token)) := do
  let first ← get
  computeScores (Recital.run Recital.counting).logged
  generateNextToken
  let last ← get
  return (first.pendingScores, last.strategy.histories.rows)

/-- After a step on two prompts, a recital will see the histories again. -/
theorem recital_sees_histories :
    let request : Request := .ofConfig Recital.config 2 [0, 1, 1, 2]
    let model := Recital.run Recital.counting
    ∃ start g, Generator.create Recital.config request ((), []) .host .standard = .ok start ∧
      ReflTransGen (Call model.logged) start g ∧
      g.strategy.histories.rows = [[0, 1, 2], [1, 2, 3]] ∧
      Faithful (.ofLedger Recital.decoder request Recital.ledger) model g := by
  intro request model
  have checked : ((Generator.create Recital.config (.ofConfig Recital.config 2 [0, 1, 1, 2])
      ((), []) .host .standard).toOption.bind fun start => (recite start).1.toOption) =
      some (false, [[0, 1, 2], [1, 2, 3]]) := by
    decide +kernel
  obtain ⟨start, opened, recited⟩ := Option.bind_eq_some_iff.mp checked
  have created := Outcome.toOption_eq_some.mp opened
  have ran := Step.returns_of_result recited
  simp only [recite, Step.returns_bind, Step.returns_get, Step.returns_pure] at ran
  obtain ⟨_, _, ⟨rfl, rfl⟩, _, middle, computed, _, g, generated, _, _, ⟨rfl, rfl⟩, found, -⟩ := ran
  obtain ⟨idle, rows⟩ := Prod.mk.inj found
  have reached : ReflTransGen (Call model.logged) start g :=
    (ReflTransGen.single (.compute idle computed)).tail (.generate generated)
  exact ⟨start, g, created, reached, rows,
    model_sees_histories Recital.complete Recital.run_appendOnly created reached⟩

end Generator

end StagedDecoding
