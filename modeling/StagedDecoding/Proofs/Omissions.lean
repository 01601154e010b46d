import StagedDecoding.Config.Validation
import StagedDecoding.Proofs.Blank
import StagedDecoding.Proofs.Chronicles
import StagedDecoding.Proofs.Deliveries

/-! Missing outputs.

A step reports a missing output in three places: when the model leaves out what it is asked for,
when the cache has no present to go on from, and when nobody has given scores. The last two are not
the fault of the model. A session rules them out if in either phase a stage that runs declares the
scores, and one every present, and if no two of these share a name. A session that gets through
three steps has such a decoder, but the constructor accepts others as well.
-/

set_option autoImplicit false

namespace StagedDecoding

open Relation (ReflTransGen)

def Failure.Omits : Failure → Prop
  | .missingOutput _ _ => True
  | _ => False

/-- When the model answers, it gives whatever it is asked for. -/
def Model.Complete {β : Type} (model : Model β) : Prop :=
  ∀ invocation before outputs after, model invocation before = (.ok outputs, after) →
    ∀ name ∈ invocation.outputs, ∃ tensor, outputs.get? name = some tensor

namespace LayerCache

theorem ends_onSlots {operation : Step CacheSlot Unit} {wrong : Failure → Prop} {cache : LayerCache}
    (each : ∀ slot ∈ cache.slots,
      Step.Ends operation slot (fun _ _ => True) fun failure _ => wrong failure) :
    Step.Ends (onSlots operation) cache (fun _ _ => True) fun failure _ => wrong failure := by
  have slotwise : ∀ slots, (∀ slot ∈ slots,
      Step.Ends operation slot (fun _ _ => True) fun failure _ => wrong failure) →
      ∀ failure, (eachSlot operation slots).1 = .error failure → wrong failure := by
    intro slots
    induction slots with
    | nil => exact fun _ _ failed => by cases failed
    | cons slot rest ih =>
      intro each failure
      obtain ⟨first, others⟩ := List.forall_mem_cons.mp each
      unfold eachSlot
      split
      · next own changed failed =>
        rintro ⟨⟩
        exact (Step.ends_iff.mp first).2 _ _ failed
      · exact ih others failure
  refine Step.ends_iff.mpr ⟨fun _ _ _ => trivial, fun failure after failed => ?_⟩
  exact slotwise cache.slots each failure (congrArg Prod.fst failed)

theorem ends_advanceSlot {slot : CacheSlot} (given : slot.present.isSome = true)
    (indices : List Nat) :
    Step.Ends (advanceSlot indices) slot (fun _ _ => True) fun failure _ => ¬ failure.Omits := by
  obtain ⟨tensor, given⟩ := Option.isSome_iff_exists.mp given
  simp only [advanceSlot, Step.ends_bind, Step.ends_get, given, Step.ends_set]
  split
  · trivial
  · rw [Step.ends_bind, Step.ends_lift]
    cases tensor.selectRows indices with
    | ok _ => trivial
    | error _ => exact id

end LayerCache

namespace Positions

theorem ends_update (newTokens length : Nat) (p : Positions) :
    Step.Ends (update newTokens length) p (fun _ _ => True) fun failure _ => ¬ failure.Omits := by
  simp only [update, Step.throw_bind, Step.ends_bind, Step.ends_modify, Step.ends_get]
  split
  · exact id
  · trivial

end Positions

namespace Buffers

variable {before after ready : Buffers} {tokens : List Token} {indices : List Nat} {length : Nat}
  {u : Unit}

def Full (buffers : Buffers) : Prop := ∀ slot ∈ buffers.slots, slot.present.isSome = true

theorem ends_update (full : before.Full) :
    Step.Ends (update tokens indices length) before (fun _ _ => True)
      fun failure _ => ¬ failure.Omits := by
  unfold update
  simp only [Step.throw_bind, Step.ends_bind, Step.ends_get]
  split
  · exact id
  split
  · exact id
  rw [Step.ends_bind, Step.ends_lift]
  unfold idRows
  dsimp only
  split
  case isFalse => exact id
  change Step.Ends _ _ _ _
  rw [Step.ends_bind, Step.ends_set, Step.ends_bind, onPositions, Step.ends_withinOption]
  -- the positions are moved first, which leaves the slots alone
  have cached : ∀ placed : Buffers, placed.slots = before.slots →
      Step.Ends (onCache (LayerCache.update indices) >>= fun _ =>
        modify fun buffers => { buffers with scores := none }) placed (fun _ _ => True)
        fun failure _ => ¬ failure.Omits := by
    intro placed same
    rw [Step.ends_bind, onCache, Step.ends_withinOption]
    refine ⟨fun _ => trivial, fun cache kept => ?_⟩
    refine LayerCache.ends_onSlots fun slot member => LayerCache.ends_advanceSlot (full slot ?_) _
    rw [← same]
    simpa [slots, kept] using member
  refine ⟨fun _ => cached _ rfl, fun positions _ => ?_⟩
  exact (Positions.ends_update _ _ positions).imp (fun _ _ _ => cached _ rfl) fun _ _ => id

theorem full_of_update (ran : Step.Returns (update tokens indices length) before u after) :
    before.Full := by
  obtain ⟨-, -, -, placed, cached, placing, caching, -⟩ := update_returns ran
  obtain ⟨placedEq, -, -⟩ := onPositions_returns placing
  have same : placed.slots = before.slots := by rw [placedEq]; rfl
  unfold Full
  rw [← same]
  obtain ⟨absent, -⟩ | ⟨cache, next, kept, changed, -⟩ := Step.returns_withinOption.mp caching
  · simp [slots, absent]
  · have own : placed.slots = cache.slots := by simp [slots, kept]
    rw [own]
    refine forall_of_forall₂ (LayerCache.onSlots_returns.mp changed).flip
      fun next _ slot passed => ?_
    obtain ⟨_, given, -⟩ := LayerCache.advanceSlot_returns passed
    rw [given]
    rfl

theorem full_of_rollback {count : Nat} (ran : Step.Returns (rollback count) before u after) :
    after.Full := by
  simp only [rollback, Step.returns_bind] at ran
  obtain ⟨_, placed, -, caching⟩ := ran
  obtain ⟨-, -, slots⟩ := onCache_returns LayerCache.trimSlot_names caching
  intro slot member
  cases kept : after.cache with
  | none => simp [Buffers.slots, kept] at member
  | some cache =>
    obtain ⟨_, -, each⟩ := slots cache kept
    obtain ⟨old, -, passed⟩ := each slot (by simpa [Buffers.slots, kept] using member)
    obtain ⟨_, _, _, _, _, _, _, rfl⟩ := LayerCache.trimSlot_returns passed
    rfl

end Buffers

namespace Pipeline

variable {β : Type} {model : Model β} {primary : Device} {phase : Phase}

theorem ends_wire (buffers : Buffers) (pool : Named Tensor) (stage : Stage) :
    Step.Ends (wire primary buffers pool) stage (fun _ _ => True)
      fun failure _ => ¬ failure.Omits := by
  simp only [wire, Step.throw_bind, Step.ends_bind, Step.ends_modify, Step.ends_get]
  split
  · split
    · exact id
    · simp only [Step.ends_bind, Step.ends_modify]
      split <;> trivial
  · simp only [Step.ends_bind, Step.ends_modify]
    split
    · split
      · exact id
      · trivial
    · trivial

theorem ends_deliver {stage : Stage} {outputs : Named Tensor} {names : List String}
    (given : ∀ name ∈ names, ∃ tensor, outputs.get? name = some tensor) (pool : Named Tensor)
    (buffers : Buffers) :
    Step.Ends (deliver stage outputs names pool) buffers (fun _ _ => True)
      fun failure _ => ¬ failure.Omits := by
  induction names generalizing pool buffers with
  | nil => trivial
  | cons name rest ih =>
    obtain ⟨⟨tensor, found⟩, others⟩ := List.forall_mem_cons.mp given
    unfold deliver
    simp only [found, Step.ends_bind, Step.ends_get]
    split
    · rw [Step.ends_bind, Step.ends_attempt, Outcome.ends_iff]
      refine ⟨fun next _ => ih others pool next, fun failure refused => ?_⟩
      change Buffers.store name tensor buffers = .error failure at refused
      unfold Buffers.store at refused
      split at refused
      · cases refused
      · split at refused
        · cases refused
        · obtain rfl := Except.error.inj refused
          exact id
    · exact ih others _ buffers

theorem runStages_fails (complete : model.Complete) (stages : List Stage) (pool : Named Tensor)
    (buffers : Buffers) (state : β) (failure : Failure)
    (failed : (runStages model primary phase stages pool buffers state).1 = .error failure) :
    ¬ failure.Omits := by
  -- along the stages: one is not wired, or the model fails, or a tensor is not stored
  induction stages generalizing pool buffers state with
  | nil => cases failed
  | cons stage rest ih =>
    unfold runStages at failed
    split at failed
    case isFalse => exact ih _ _ _ failed
    split at failed
    · next own wired unwired =>
      obtain rfl := Except.error.inj failed
      exact (Step.ends_iff.mp (ends_wire buffers pool stage)).2 _ _ unwired
    · next wired connected =>
      split at failed
      · obtain rfl := Except.error.inj failed
        exact id
      · next outputs state' answered =>
        have given := complete _ _ _ _ answered
        split at failed
        · next own kept undelivered =>
          obtain rfl := Except.error.inj failed
          exact (Step.ends_iff.mp (ends_deliver given pool buffers)).2 _ _ undelivered
        · exact ih _ _ _ failed

end Pipeline

/-- No two outputs that are kept share a name, and in either phase there is a stage that runs and
declares the scores, and one for every present. -/
structure DecoderConfig.Sustains (decoder : DecoderConfig) : Prop extends decoder.Supplies where
  free : decoder.outputs.scores ∉ decoder.cacheNames.map (·.2)

namespace Session

variable {β : Type} {model : Model β} {session before after ready : Session β} {phase : Phase}
  {name : String} {tensor : Tensor}

theorem Declares.of_fixed (declares : session.Declares phase name)
    (fixed : after.fixed = session.fixed) : after.Declares phase name := by
  rw [declares_iff, fixed]
  exact declares_iff.mp declares

theorem frame_of_fixed (fixed : after.fixed = session.fixed) :
    after.buffers.frame = session.buffers.frame :=
  congrArg (fun fixed : Device × String × List StageConfig × Frame => fixed.2.2.2) fixed

theorem scoresName_of_fixed (fixed : after.fixed = session.fixed) :
    after.pipeline.scoresName = session.pipeline.scoresName :=
  congrArg (fun fixed : Device × String × List StageConfig × Frame => fixed.2.1) fixed

structure Sustained (session : Session β) : Prop where
  named : session.pipeline.scoresName = session.buffers.scoresName
  apart : session.buffers.frame.Apart
  declares : ∀ phase, ∀ name ∈ session.buffers.outputNames, session.Declares phase name

theorem Sustained.of_fixed (sustained : session.Sustained) (fixed : after.fixed = session.fixed) :
    after.Sustained := by
  have framed := frame_of_fixed fixed
  refine ⟨?_, framed ▸ sustained.apart, fun phase name member => ?_⟩
  · exact (scoresName_of_fixed fixed).trans
      (sustained.named.trans (congrArg Frame.scoresName framed).symm)
  · have outputs : after.buffers.outputNames = session.buffers.outputNames :=
      congrArg Frame.outputNames framed
    exact (sustained.declares phase name (outputs ▸ member)).of_fixed fixed

theorem ends_runPhase_iff {right : Tensor → Session β → Prop}
    {wrong : Failure → Session β → Prop} {result : Except Failure Unit} {stages : List Stage}
    {final : Buffers} {state : β}
    (ran : Pipeline.runStages model ready.pipeline.primary phase ready.pipeline.stages []
      ready.buffers ready.model = (result, stages, final, state)) :
    Step.Ends (runPhase model phase) ready right wrong ↔
      Outcome.Ends (do
          result
          match final.output ready.pipeline.scoresName with
          | some tensor => .ok tensor
          | none => .error (.missingOutput "pipeline" ready.pipeline.scoresName))
        (fun tensor => right tensor { ready with
          pipeline := { ready.pipeline with stages := stages }, buffers := final, model := state })
        fun failure => wrong failure { ready with
          pipeline := { ready.pipeline with stages := stages }, buffers := final,
          model := state } := by
  rw [runPhase, Step.ends_within]
  unfold Step.Ends Pipeline.runStep
  simp only [ran, ManagedBuffers.output]
  cases result with
  | error failure => rfl
  | ok =>
    cases given : final.output ready.pipeline.scoresName with
    | none => simp [Outcome.Ends, bind, Except.bind]
    | some tensor => simp [Outcome.Ends, bind, Except.bind]

theorem Sustained.delivers {stages : List Stage} {final : Buffers} {state : β}
    (sustained : ready.Sustained) (ran : Pipeline.runStages model ready.pipeline.primary phase
      ready.pipeline.stages [] ready.buffers ready.model = (.ok (), stages, final, state)) :
    final.Full ∧ ∃ tensor, final.output ready.pipeline.scoresName = some tensor := by
  obtain ⟨result, stages', final', state', calls, ran', -, accounts⟩ :=
    Pipeline.runStages_accounts model ready.pipeline.primary phase ready.pipeline.stages
      ready.buffers ready.model []
  obtain ⟨rfl, rfl, rfl, rfl⟩ : result = .ok () ∧ stages' = stages ∧ final' = final ∧
      state' = state := by
    simpa using ran'.symm.trans ran
  -- whatever is kept is declared by a stage that has run, and its call delivered it
  have has : ∀ name ∈ ready.buffers.outputNames, final'.Has name := by
    intro name member
    obtain ⟨stage, inside, runs, declared⟩ := sustained.declares phase name member
    exact accounts.has sustained.apart (List.mem_filter.mpr ⟨inside, runs⟩) declared
      (List.contains_iff_mem.mpr member)
  have framed : final'.frame = ready.buffers.frame :=
    Outcome.foldlM_preserves (P := fun buffers : Buffers =>
      buffers.frame = ready.buffers.frame)
      (fun _ _ _ _ framed kept =>
        (Buffers.has_of_storeOutputs sustained.apart framed kept).1) rfl
      (accounts.success () rfl).2.2
  have names : ready.buffers.outputNames = ready.buffers.scoresName :: final'.presentNames := by
    rw [Buffers.presentNames_eq, framed]
    exact sustained.apart.outputs
  have scoresName : final'.scoresName = ready.buffers.scoresName :=
    congrArg Frame.scoresName framed
  have scored : final'.scores.isSome = true :=
    (has _ (by simp [names])).scores scoresName
  refine ⟨fun slot member => ?_, ?_⟩
  · exact (has slot.presentName
      (names ▸ List.mem_cons_of_mem _ (List.mem_map_of_mem member))).presents slot member rfl
  · rw [Buffers.output, if_pos (sustained.named.trans scoresName.symm)]
    exact Option.isSome_iff_exists.mp scored

theorem Sustained.ends_runPhase (sustained : ready.Sustained) (complete : model.Complete) :
    Step.Ends (runPhase model phase) ready (fun _ after => after.buffers.Full)
      fun failure _ => ¬ failure.Omits := by
  obtain ⟨result, stages, final, state, calls, ran, -, -⟩ :=
    Pipeline.runStages_accounts model ready.pipeline.primary phase ready.pipeline.stages
      ready.buffers ready.model []
  rw [ends_runPhase_iff ran]
  cases result with
  | error failure =>
    exact Pipeline.runStages_fails complete _ _ _ _ failure (congrArg Prod.fst ran)
  | ok =>
    obtain ⟨full, tensor, output⟩ := sustained.delivers ran
    simp only [output]
    exact full

inductive Moves (model : Model β) : Session β → Session β → Prop where
  | run {before after : Session β} {length : Nat} {tokens : List Token} {indices : List Nat}
      {tensor : Tensor} :
      Step.Returns (run model length tokens indices) before tensor after → Moves model before after
  | rollback {before after : Session β} {count : Nat} :
      Step.Returns (rollback count) before () after → Moves model before after

structure Provided (session : Session β) : Prop where
  sustained : session.Sustained
  full : session.first = true ∨ session.buffers.Full

theorem Provided.ends_run (provided : before.Provided) (complete : model.Complete) (length : Nat)
    (tokens : List Token) (indices : List Nat) :
    Step.Ends (run model length tokens indices) before
      (fun _ after => after.buffers.Full) fun failure _ => ¬ failure.Omits := by
  simp only [run, Step.ends_bind, Step.ends_get]
  split
  · rw [Step.ends_bind, Step.ends_modify]
    have same : ({ before with first := false } : Session β).fixed = before.fixed := rfl
    exact (provided.sustained.of_fixed same).ends_runPhase complete
  · next later =>
    have full := provided.full.resolve_left later
    simp only [Step.ends_bind, onBuffers, Step.ends_within]
    refine Step.ends_iff.mpr ⟨fun _ buffers updated => ?_, fun failure buffers failed => ?_⟩
    · refine (provided.sustained.of_fixed ?_).ends_runPhase complete
      simp only [fixed, Reading.frame_of_update updated]
    · exact (Step.ends_iff.mp (Buffers.ends_update full)).2 failure buffers failed

theorem Provided.move (provided : before.Provided) (complete : model.Complete)
    (moves : Moves model before after) : after.Provided := by
  cases moves with
  | @run length tokens indices tensor ran =>
    exact ⟨provided.sustained.of_fixed (run_fixed ran).1, .inr ((Step.ends_iff.mp
      (provided.ends_run complete length tokens indices)).1 _ _ ran)⟩
  | @rollback count ran =>
    refine ⟨provided.sustained.of_fixed (rollback_fixed ran), .inr ?_⟩
    unfold rollback onBuffers at ran
    obtain ⟨buffers, rolled, rfl⟩ := Step.returns_within.mp ran
    exact Buffers.full_of_rollback rolled

theorem Provided.later (provided : session.Provided) (complete : model.Complete)
    (reached : ReflTransGen (Moves model) session before) : before.Provided := by
  induction reached with
  | refl => exact provided
  | tail _ moves ih => exact ih.move complete moves

structure Opened (decoder : DecoderConfig) (session : Session β) : Prop where
  first : session.first = true
  named : session.pipeline.scoresName = session.buffers.scoresName
  stages : session.pipeline.stages.map (·.config) = decoder.stages
  scoresName : session.buffers.scoresName = decoder.outputs.scores
  outputs : session.buffers.outputNames = decoder.outputs.scores :: decoder.cacheNames.map (·.2)
  slots : session.buffers.frame.slots.getD [] = decoder.cacheNames
  cleared : session.buffers.Cleared

theorem opened_of_create {config : Config} {request : Request} {state : β} {device : Device}
    {registry : DeviceRegistry}
    (created : Session.create config request state device registry = .ok session) :
    session.Opened config.model.decoder := by
  obtain ⟨buffers, filled, rfl⟩ := Session.create_eq_ok created
  have cleared := Buffers.cleared_of_create filled
  obtain ⟨ids, positions, cache, -, -, kept, rfl⟩ := Buffers.create_eq_ok filled
  have declares : ∀ name, (config.model.decoder.stages.map Stage.ofConfig).any (·.hasInput name) =
      config.model.decoder.declares name := by
    intro name
    rw [List.any_map]
    rfl
  rw [declares] at kept
  -- a cache is there exactly if a stage declares one, and has the configured slots
  have slots : (cache.map LayerCache.slotNames).getD [] = config.model.decoder.cacheNames := by
    unfold MadeIf at kept
    unfold DecoderConfig.cacheNames
    split at kept
    · next keeps =>
      obtain ⟨own, made, rfl⟩ := kept
      rw [if_pos keeps]
      exact (LayerCache.ofConfig_eq_ok made).1
    · next keeps =>
      subst kept
      rw [if_neg keeps]
      rfl
  refine ⟨rfl, rfl, by simp [Stage.ofConfig, Function.comp_def], rfl, ?_, slots, cleared⟩
  rw [← slots]
  cases cache with
  | none => rfl
  | some cache => simp [LayerCache.presentNames, LayerCache.slotNames]

theorem Opened.declares_iff {decoder : DecoderConfig} (opened : session.Opened decoder) :
    session.Declares phase name ↔ ∃ config ∈ decoder.stages,
      (Stage.ofConfig config).runsIn phase = true ∧ name ∈ config.outputs := by
  rw [Session.declares_iff, fixed, opened.stages]

theorem Opened.provided {decoder : DecoderConfig} (opened : session.Opened decoder)
    (sustains : decoder.Sustains) : session.Provided := by
  refine ⟨⟨opened.named, ⟨?_, ?_⟩, fun phase name member => ?_⟩, .inl opened.first⟩
  · rw [opened.slots]
    exact opened.outputs.trans (by rw [← opened.scoresName]; rfl)
  · have outputs : session.buffers.frame.outputNames = _ := opened.outputs
    rw [outputs]
    exact List.nodup_cons.mpr ⟨sustains.free, sustains.distinct⟩
  · rw [opened.outputs] at member
    exact opened.declares_iff.mpr (sustains.produced phase name member)

theorem declares_of_runPhase (cleared : ready.buffers.Cleared)
    (named : ready.pipeline.scoresName = ready.buffers.scoresName)
    (ran : Step.Returns (runPhase model phase) ready tensor after) :
    ready.Declares phase ready.buffers.scoresName ∧
      (∀ slot ∈ after.buffers.slots, slot.present.isSome = true →
        ready.Declares phase slot.presentName) ∧ after.buffers.Orderly := by
  obtain ⟨result, stages, final, state, calls, passed, -, accounts⟩ :=
    Pipeline.runStages_accounts model ready.pipeline.primary phase ready.pipeline.stages
      ready.buffers ready.model []
  have given := runPhase_scores ran
  obtain ⟨⟨pipeline, buffers, last⟩, stepped, rfl⟩ := Step.returns_within.mp ran
  obtain ⟨_, succeeded, rfl, -⟩ := Pipeline.runStep_returns stepped
  obtain ⟨rfl, rfl, rfl, rfl⟩ : result = .ok () ∧ stages = _ ∧ final = buffers ∧ state = last := by
    simpa using passed.symm.trans succeeded
  have gathered := accounts.gathered cleared
  -- what the model gave had been declared by the stage that asked for it
  have producer : ∀ {name tensor}, Episode.Gave (calls.map Call.entry) name tensor →
      ready.Declares phase name := by
    intro name tensor gave
    obtain ⟨stage, active, declared⟩ := accounts.declared gave
    obtain ⟨inside, runs⟩ := List.mem_filter.mp active
    exact ⟨stage, inside, runs, declared⟩
  refine ⟨?_, fun slot member there => ?_, accounts.orderly cleared⟩
  · have same : final.scoresName = ready.buffers.scoresName :=
      congrArg Frame.scoresName gathered.framed
    change final.output ready.pipeline.scoresName = some tensor at given
    rw [Buffers.output, if_pos (named.trans same.symm)] at given
    obtain ⟨raw, gave, -⟩ := gathered.scores tensor given
    exact producer gave
  · obtain ⟨own, present⟩ := Option.isSome_iff_exists.mp there
    exact producer (gathered.presents slot member own present)

variable {decoder : DecoderConfig} {first second third : Session β}

theorem Opened.produced (opened : session.Opened decoder) (fixed : ready.fixed = session.fixed)
    (cleared : ready.buffers.Cleared)
    (ran : Step.Returns (runPhase model phase) ready tensor after)
    (still : after.fixed = session.fixed) (full : after.buffers.Full) :
    (decoder.outputs.scores :: decoder.cacheNames.map (·.2)).Nodup ∧
      ∀ name ∈ decoder.outputs.scores :: decoder.cacheNames.map (·.2),
        ∃ stage ∈ decoder.stages, (Stage.ofConfig stage).runsIn phase = true ∧
          name ∈ stage.outputs := by
  have scoresName : ∀ {later : Session β}, later.fixed = session.fixed →
      later.buffers.scoresName = decoder.outputs.scores := fun fixed =>
    (congrArg Frame.scoresName (frame_of_fixed fixed)).trans opened.scoresName
  have presentNames : after.buffers.presentNames = decoder.cacheNames.map (·.2) := by
    rw [Buffers.presentNames_eq, frame_of_fixed still, opened.slots]
  have named : ready.pipeline.scoresName = ready.buffers.scoresName :=
    (scoresName_of_fixed fixed).trans
      (opened.named.trans (congrArg Frame.scoresName (frame_of_fixed fixed)).symm)
  obtain ⟨scores, presents, orderly⟩ := declares_of_runPhase cleared named ran
  have distinct := orderly.distinct full
  rw [scoresName still, presentNames] at distinct
  refine ⟨distinct, fun name member => opened.declares_iff.mp (Declares.of_fixed ?_ fixed.symm)⟩
  rcases List.mem_cons.mp member with rfl | member
  · exact scoresName fixed ▸ scores
  · rw [← presentNames] at member
    obtain ⟨slot, inside, rfl⟩ := List.mem_map.mp member
    exact presents slot inside (full slot inside)

/-- Three steps that succeed show that the decoder sustains them: the second finds all presents of
the prompt, and the third those of later steps. -/
theorem Opened.sustains {length₁ length₂ length₃ : Nat} {tokens₁ tokens₂ tokens₃ : List Token}
    {indices₁ indices₂ indices₃ : List Nat} {scores₁ scores₂ scores₃ : Tensor}
    (opened : session.Opened decoder)
    (ran₁ : Step.Returns (run model length₁ tokens₁ indices₁) session scores₁ first)
    (ran₂ : Step.Returns (run model length₂ tokens₂ indices₂) first scores₂ second)
    (ran₃ : Step.Returns (run model length₃ tokens₃ indices₃) second scores₃ third) :
    decoder.Sustains := by
  obtain ⟨fixed₁, later₁⟩ := run_fixed ran₁
  obtain ⟨fixed₂, later₂⟩ := run_fixed ran₂
  obtain ⟨ready₂, updated₂, passed₂⟩ := Reading.run_later later₁ ran₂
  obtain ⟨ready₃, updated₃, -⟩ := Reading.run_later later₂ ran₃
  have ready : ({ first with buffers := ready₂ } : Session β).fixed = session.fixed := by
    rw [← fixed₁]
    simp only [fixed, Reading.frame_of_update updated₂]
  have begun : ({ session with first := false } : Session β).fixed = session.fixed := rfl
  -- the update of the second step finds what the prompt left, that of the third what the second did
  obtain ⟨distinct, prompt⟩ := opened.produced begun opened.cleared
    (Reading.run_first opened.first ran₁) fixed₁ (Buffers.full_of_update updated₂)
  obtain ⟨-, token⟩ := opened.produced ready (Buffers.cleared_of_update updated₂).1 passed₂
    (fixed₂.trans fixed₁) (Buffers.full_of_update updated₃)
  obtain ⟨free, distinct⟩ := List.nodup_cons.mp distinct
  refine ⟨⟨distinct, fun phase => ?_⟩, free⟩
  cases phase with
  | prompt => exact prompt
  | token => exact token

/-- On a model that gives what it is asked for, a session whose decoder sustains it never misses an
output in a step after steps and rollbacks that succeeded. With any other decoder there are no three
steps that succeed. -/
theorem misses_nothing_iff_sustained {config : Config} {request : Request} {state : β}
    {device : Device} {registry : DeviceRegistry}
    (created : Session.create config request state device registry = .ok session)
    (complete : model.Complete) :
    (config.model.decoder.Sustains → ∀ before, ReflTransGen (Moves model) session before →
      ∀ length tokens indices stage output,
        (run model length tokens indices before).1 ≠ .error (.missingOutput stage output)) ∧
    ∀ first second third length₁ length₂ length₃ tokens₁ tokens₂ tokens₃ indices₁ indices₂ indices₃
      scores₁ scores₂ scores₃,
      Step.Returns (run model length₁ tokens₁ indices₁) session scores₁ first →
      Step.Returns (run model length₂ tokens₂ indices₂) first scores₂ second →
      Step.Returns (run model length₃ tokens₃ indices₃) second scores₃ third →
      config.model.decoder.Sustains := by
  have opened := opened_of_create created
  refine ⟨fun sustains before reached length tokens indices stage output missing => ?_,
    fun _ _ _ _ _ _ _ _ _ _ _ _ _ _ _ ran₁ ran₂ ran₃ => opened.sustains ran₁ ran₂ ran₃⟩
  have provided := (opened.provided sustains).later complete reached
  exact (Step.ends_iff.mp (provided.ends_run complete length tokens indices)).2 _ _
    (Prod.ext missing rfl) trivial

theorem blank_complete : Blank.run.Complete := by
  intro invocation before outputs after answered name asked
  obtain ⟨same, -⟩ := Prod.mk.inj answered
  obtain rfl := Except.ok.inj same
  exact ⟨_, by rw [Blank.get?_answers, if_pos asked]⟩

theorem recital_sustains : Recital.decoder.Sustains where
  toSupplies := Blank.supplies
  free := by
    rw [Blank.cacheNames_eq]
    decide

theorem recital_misses_nothing : ∃ session before,
    Session.create Recital.config (.ofConfig Recital.config 1 [0, 1]) () .host .standard =
      .ok session ∧ before.first = false ∧
    ∀ length tokens indices stage output,
      (run Blank.run length tokens indices before).1 ≠ .error (.missingOutput stage output) := by
  have checked : ((Session.create Recital.config (.ofConfig Recital.config 1 [0, 1]) () .host
      .standard).toOption.bind fun session =>
        (run Blank.run 2 [] [] session).1.toOption.map fun _ => ()) = some () := by
    decide +kernel
  obtain ⟨session, opened, ran⟩ := Option.bind_eq_some_iff.mp checked
  have created := Outcome.toOption_eq_some.mp opened
  obtain ⟨tensor, returned, -⟩ := Option.map_eq_some_iff.mp ran
  have prompted := Step.returns_of_result returned
  exact ⟨session, _, created, (run_fixed prompted).2,
    (misses_nothing_iff_sustained created blank_complete).1 recital_sustains _
      (.single (.run prompted))⟩

/-- A decoder whose only stage runs on the prompt alone. -/
def promptOnly : Config :=
  { Recital.config with
    model := { Recital.config.model with
      decoder := { Recital.decoder with
        stages := [{ StageConfig.named "decoder" with
          inputs := ["input_ids"], outputs := ["logits"], onToken := false }] } } }

/-- The constructor accepts it. The model gives all that it is asked for, and the second step misses
the scores. -/
theorem prompt_only_misses_scores : ∃ config session tensor first,
    promptOnly.validate = .ok config ∧
    Session.create config (.ofConfig config 1 [1, 2]) () .host .standard = .ok session ∧
    Blank.run.Complete ∧ Step.Returns (run Blank.run 2 [] []) session tensor first ∧
    (run Blank.run 3 [1] [] first).1 = .error (.missingOutput "pipeline" "logits") := by
  have checked : (promptOnly.validate.toOption.bind fun config =>
      (Session.create config (.ofConfig config 1 [1, 2]) () .host .standard).toOption.bind
        fun session => (run Blank.run 2 [] [] session).1.toOption.map fun _ =>
          match (run Blank.run 3 [1] [] (run Blank.run 2 [] [] session).2).1 with
          | .ok _ => none
          | .error failure => some failure) =
      some (some (.missingOutput "pipeline" "logits")) := by
    decide +kernel
  obtain ⟨config, valid, checked⟩ := Option.bind_eq_some_iff.mp checked
  obtain ⟨session, opened, checked⟩ := Option.bind_eq_some_iff.mp checked
  obtain ⟨tensor, returned, missed⟩ := Option.map_eq_some_iff.mp checked
  refine ⟨config, session, tensor, _, Outcome.toOption_eq_some.mp valid,
    Outcome.toOption_eq_some.mp opened, blank_complete, Step.returns_of_result returned, ?_⟩
  split at missed
  · cases missed
  · next failure found =>
    rw [found, Option.some.inj missed]

end Session

end StagedDecoding
