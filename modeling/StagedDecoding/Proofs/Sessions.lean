import StagedDecoding.Proofs.Remembering

/-! Sessions under a reading.

A new session holds the view of its prompts, with nothing in the past. Every step that returns has
shown its view to the model, and its scores are those of the view.
-/

set_option autoImplicit false

namespace StagedDecoding

namespace Request

variable {request : Request}

def promptRows (request : Request) : List (List Token) :=
  (Tensor.blocks request.promptLength request.batchSize request.inputIds).flatMap
    (List.replicate request.beams)

structure Prompted (request : Request) : Prop where
  batch : 0 < request.batchSize
  long : 0 < request.promptLength
  total : request.inputIds.length = request.batchSize * request.promptLength

theorem prompted_of_validate (valid : request.validate = .ok ()) : request.Prompted := by
  simp only [validate, Outcome.throw_bind, Outcome.guard_eq_ok] at valid
  obtain ⟨batch, prompts, -⟩ := valid
  simp only [Bool.or_eq_true, List.isEmpty_iff, ne_eq, decide_eq_true_eq, not_or,
    Decidable.not_not] at prompts
  obtain ⟨filled, divides⟩ := prompts
  have batch : 0 < request.batchSize := Nat.pos_of_ne_zero batch
  have total : request.inputIds.length = request.batchSize * request.promptLength :=
    (Nat.mul_div_cancel' (Nat.dvd_of_mod_eq_zero divides)).symm
  refine ⟨batch, Nat.pos_of_ne_zero fun none => filled ?_, total⟩
  rw [none, Nat.mul_zero] at total
  exact List.length_eq_zero_iff.mp total

theorem beams_pos (request : Request) : 0 < request.beams :=
  Nat.lt_of_lt_of_le Nat.one_pos (Nat.le_max_right _ _)

theorem rowCount_pos (prompted : request.Prompted) : 0 < request.rowCount :=
  Nat.mul_pos prompted.batch request.beams_pos

theorem promptRows_rectangular (prompted : request.Prompted) :
    Rectangular request.rowCount request.promptLength request.promptRows where
  count := by simp [promptRows, rowCount, List.length_flatMap]
  width := by
    intro row member
    obtain ⟨prompt, inside, member⟩ := List.mem_flatMap.mp member
    rw [List.eq_of_mem_replicate member]
    exact Tensor.length_of_mem_blocks prompted.total inside

theorem expandedIds_eq (prompted : request.Prompted) :
    request.expandedIds = request.promptRows.flatten := by
  have long := prompted.long
  unfold expandedIds promptRows
  dsimp only
  split
  case isTrue single =>
    have single : request.beams = 1 := by simpa [Nat.ne_of_gt long] using single
    have copies : List.replicate 1 = fun row : List Token => [row] := rfl
    rw [single, copies, List.flatMap_singleton', Tensor.flatten_blocks prompted.total]
  case isFalse =>
    have rows : (request.inputIds.length + request.promptLength - 1) / request.promptLength =
        request.batchSize := by
      rw [prompted.total, Nat.add_sub_assoc long, Nat.mul_comm, Nat.mul_add_div long,
        Nat.div_eq_of_lt (by omega), Nat.add_zero]
    rw [rows]
    simp [List.flatMap_def, List.flatten_flatten, Function.comp_def]

theorem blocks_expandedIds (prompted : request.Prompted) :
    request.expandedIds.length = request.rowCount * request.promptLength ∧
      Tensor.blocks request.promptLength request.rowCount request.expandedIds =
        request.promptRows := by
  have rectangular := promptRows_rectangular prompted
  rw [expandedIds_eq prompted]
  constructor
  · rw [List.length_flatten, List.map_congr_left rectangular.width, List.map_const',
      List.sum_replicate_nat, rectangular.count]
  · rw [← rectangular.count, Tensor.blocks_flatten rectangular.width]

end Request

/-- A part that is made exactly where it is needed. -/
def MadeIf {α : Type} (needed : Bool) (makes : α → Prop) (part : Option α) : Prop :=
  if needed then ∃ own, makes own ∧ part = some own else part = none

section

variable {α : Type} {needed : Bool} {makes : α → Prop} {part : Option α}

theorem MadeIf.isSome (optional : MadeIf needed makes part) : part.isSome = needed := by
  unfold MadeIf at optional
  cases needed with
  | true =>
    obtain ⟨own, -, rfl⟩ := optional
    rfl
  | false =>
    obtain rfl : part = none := optional
    rfl

theorem MadeIf.made (optional : MadeIf needed makes part) {own : α} (given : part = some own) :
    makes own := by
  unfold MadeIf at optional
  cases needed with
  | true =>
    obtain ⟨own', made, same⟩ := optional
    obtain rfl := Option.some.inj (given.symm.trans same)
    exact made
  | false =>
    obtain rfl : part = none := optional
    cases given

end

theorem LayerCache.ofConfig_eq_ok {decoder : DecoderConfig} {rows : Nat} {cache : LayerCache}
    (created : LayerCache.ofConfig decoder rows = .ok cache) :
    cache.slotNames = decoder.layerNames ∧ ∀ slot ∈ cache.slots, slot.present = none ∧
      ∃ type, slot.past =
        .filled type [rows, decoder.cacheHeads, 0, decoder.headSize] (.whole 0) := by
  simp only [ofConfig, Outcome.bind_eq_ok, Outcome.pure_eq_ok] at created
  obtain ⟨type, -, rfl⟩ := created
  constructor
  · simp [slotNames, DecoderConfig.layerNames, List.map_flatMap]
  · intro slot inside
    simp only [List.mem_flatMap, List.mem_cons, List.not_mem_nil, or_false] at inside
    obtain ⟨layer, -, rfl | rfl⟩ := inside
    · exact ⟨rfl, type, rfl⟩
    · exact ⟨rfl, type, rfl⟩

theorem Positions.ofPrompt_eq_ok {tokens : List Token} {rows : Nat} {pad : Token}
    {positions : Positions} (created : ofPrompt tokens rows pad = .ok positions) :
    positions = {
      ids := (Tensor.blocks (tokens.length / rows) rows tokens).map fun row =>
        runningCounts (maskOf pad row)
      mask := (Tensor.blocks (tokens.length / rows) rows tokens).map (maskOf pad)
      next := (Tensor.blocks (tokens.length / rows) rows tokens).map fun row =>
        (maskOf pad row).sum } := by
  unfold ofPrompt at created
  split at created
  · simp at created
  · rw [← Except.ok.inj created]
    simp [count_zero, Function.comp_def]

theorem Buffers.create_eq_ok {config : Config} {request : Request} {stages : List Stage}
    {buffers : Buffers} (created : Buffers.create config request stages = .ok buffers) :
    ∃ ids positions cache,
      Buffers.idRows request.rowCount request.expandedIds = .ok ids ∧
      MadeIf (stages.any (·.hasInput config.model.decoder.inputs.positionIds) ||
          stages.any (·.hasInput config.model.decoder.inputs.attentionMask))
        (fun own =>
          Positions.ofPrompt request.expandedIds request.rowCount request.pad = .ok own)
        positions ∧
      MadeIf (0 < config.model.decoder.layers &&
          stages.any (·.hasInput (layerName config.model.decoder.inputs.pastKeys 0)))
        (fun own => LayerCache.ofConfig config.model.decoder request.rowCount = .ok own) cache ∧
      buffers = {
        rows := request.rowCount
        names := config.model.decoder.inputs
        scoresName := config.model.decoder.outputs.scores
        inputIds := ids
        positions := positions
        cache := cache
        extraInputs := Named.ofPairs request.extraInputs
        scores := none
        inputNames := config.model.decoder.inputs.inputIds ::
          ((if stages.any (·.hasInput config.model.decoder.inputs.positionIds) then
              [config.model.decoder.inputs.positionIds] else []) ++
            (if stages.any (·.hasInput config.model.decoder.inputs.attentionMask) then
              [config.model.decoder.inputs.attentionMask] else []) ++
            (cache.map LayerCache.pastNames).getD [] ++ request.extraInputs.map (·.1))
        outputNames := config.model.decoder.outputs.scores ::
          (cache.map LayerCache.presentNames).getD [] } := by
  simp only [Buffers.create, Outcome.bind_eq_ok] at created
  obtain ⟨ids, laid, created⟩ := created
  refine ⟨ids, buffers.positions, buffers.cache, laid, ?_⟩
  -- with and without positions, with and without a cache
  split at created <;> split at created <;>
    simp only [Outcome.bind_eq_ok, Outcome.map_eq_ok, Outcome.pure_eq_ok] at created <;>
    obtain ⟨positions, placed, cache, kept, rfl⟩ := created
  · next counts keeps =>
    rw [MadeIf, if_pos counts, MadeIf, if_pos keeps]
    exact ⟨placed.imp fun _ => And.imp_right Eq.symm, kept.imp fun _ => And.imp_right Eq.symm, rfl⟩
  · next counts keeps =>
    rw [MadeIf, if_pos counts, MadeIf, if_neg keeps]
    exact ⟨placed.imp fun _ => And.imp_right Eq.symm, kept.symm, rfl⟩
  · next counts keeps =>
    rw [MadeIf, if_neg counts, MadeIf, if_pos keeps]
    exact ⟨placed.symm, kept.imp fun _ => And.imp_right Eq.symm, rfl⟩
  · next counts keeps =>
    rw [MadeIf, if_neg counts, MadeIf, if_neg keeps]
    exact ⟨placed.symm, kept.symm, rfl⟩

theorem Session.create_eq_ok {β : Type} {config : Config} {request : Request} {device : Device}
    {registry : DeviceRegistry} {state : β} {session : Session β}
    (created : Session.create config request state device registry = .ok session) :
    ∃ buffers, Buffers.create config request (config.model.decoder.stages.map Stage.ofConfig) =
        .ok buffers ∧
      session = {
        pipeline := ⟨config.model.decoder.stages.map Stage.ofConfig, device,
          config.model.decoder.outputs.scores⟩
        buffers := buffers
        model := state
        first := true } := by
  simp only [Session.create, Outcome.bind_eq_ok, Outcome.pure_eq_ok] at created
  obtain ⟨pipeline, opened, buffers, filled, _, -, rfl⟩ := created
  simp only [Pipeline.create, Outcome.bind_eq_ok, Outcome.throw_bind, Outcome.guard_eq_ok,
    Outcome.pure_eq_ok] at opened
  obtain ⟨_, -, -, -, rfl⟩ := opened
  exact ⟨buffers, filled, rfl⟩

namespace Reading

variable {reading : Reading}

def promptView (request : Request) : View where
  past := List.replicate request.rowCount []
  fed := request.promptRows

theorem promptView_seen (prompted : reading.request.Prompted) :
    (promptView reading.request).seen = reading.request.promptRows := by
  have count := (Request.promptRows_rectangular prompted).count
  refine List.ext_getElem (by simp [View.seen, promptView, count]) fun i _ _ => ?_
  simp [View.seen, promptView]

theorem promptView_sized (prompted : reading.request.Prompted) :
    (promptView reading.request).Sized reading.request.rowCount 0 reading.request.promptLength where
  past := ⟨List.length_replicate, fun _ member => by simp [List.eq_of_mem_replicate member]⟩
  fed := Request.promptRows_rectangular prompted

theorem positions_ofPrompt (prompted : reading.request.Prompted) {positions : Positions}
    (created : Positions.ofPrompt reading.request.expandedIds reading.request.rowCount
      reading.request.pad = .ok positions) :
    positions.ids = reading.positionRows (promptView reading.request) ∧
      positions.mask = reading.maskRows (promptView reading.request).seen ∧
      positions.next = (reading.maskRows (promptView reading.request).seen).map List.sum := by
  obtain ⟨total, cut⟩ := Request.blocks_expandedIds prompted
  have columns : reading.request.expandedIds.length / reading.request.rowCount =
      reading.request.promptLength := by
    rw [total, Nat.mul_div_cancel_left _ (Request.rowCount_pos prompted)]
  have rectangular := Request.promptRows_rectangular prompted
  have masks : reading.maskRows (promptView reading.request).seen =
      reading.request.promptRows.map (Positions.maskOf reading.request.pad) := by
    rw [promptView_seen prompted]
    exact List.map_congr_left fun row member =>
      Positions.maskRow_prompt (Nat.le_of_eq (rectangular.width row member))
  rw [Positions.ofPrompt_eq_ok created, columns, cut]
  refine ⟨?_, masks.symm, ?_⟩
  · -- nothing is in the past, so no position is dropped
    rw [positionRows, masks]
    refine List.ext_getElem (by simp [promptView, rectangular.count]) fun i _ _ => ?_
    simp [promptView]
  · rw [masks, List.map_map]
    rfl

theorem recorded_ofConfig {cache : LayerCache}
    (created : LayerCache.ofConfig reading.decoder reading.request.rowCount = .ok cache) :
    ∀ slot ∈ cache.slots, slot.present = none ∧
      reading.Recorded slot.pastName (List.replicate reading.request.rowCount []) slot.past := by
  intro slot inside
  obtain ⟨absent, type, filled⟩ := (LayerCache.ofConfig_eq_ok created).2 slot inside
  rw [filled]
  exact ⟨absent, records_empty type _ _⟩

theorem slotNames_ofConfig {cache : Option LayerCache}
    (kept : MadeIf (0 < reading.decoder.layers &&
        reading.decoder.declares (layerName reading.decoder.inputs.pastKeys 0))
      (fun own => LayerCache.ofConfig reading.decoder reading.request.rowCount = .ok own) cache) :
    cache.map LayerCache.slotNames = reading.frame.slots ∧
      (cache.map LayerCache.pastNames).getD [] = reading.decoder.cacheNames.map (·.1) ∧
      (cache.map LayerCache.presentNames).getD [] = reading.decoder.cacheNames.map (·.2) := by
  have slotNames : cache.map LayerCache.slotNames = reading.frame.slots := by
    simp only [frame]
    unfold MadeIf at kept
    split at kept
    case isTrue keeps =>
      obtain ⟨own, made, rfl⟩ := kept
      rw [if_pos keeps, DecoderConfig.cacheNames, if_pos keeps, Option.map_some,
        (LayerCache.ofConfig_eq_ok made).1]
    case isFalse keeps => rw [if_neg keeps, kept, Option.map_none]
  have listed : reading.frame.slots.getD [] = reading.decoder.cacheNames := by
    simp only [frame, DecoderConfig.cacheNames]
    split <;> rfl
  rw [← listed, ← slotNames]
  refine ⟨rfl, ?_, ?_⟩
  · cases cache <;> simp [LayerCache.pastNames, LayerCache.slotNames]
  · cases cache <;> simp [LayerCache.presentNames, LayerCache.slotNames]

theorem holds_create {config : Config} {stages : List Stage} {buffers : Buffers}
    (decoder : config.model.decoder = reading.decoder)
    (configs : stages = reading.decoder.stages.map Stage.ofConfig)
    (prompted : reading.request.Prompted)
    (created : Buffers.create config reading.request stages = .ok buffers) :
    buffers.frame = reading.frame ∧ reading.Holds (promptView reading.request) buffers ∧
      buffers.scores = none := by
  have declared : ∀ name, stages.any (·.hasInput name) = reading.decoder.declares name := by
    intro name
    rw [configs, List.any_map]
    rfl
  obtain ⟨ids, positions, cache, laid, placed, kept, rfl⟩ := Buffers.create_eq_ok created
  simp only [decoder, declared] at placed kept ⊢
  obtain ⟨slotNames, pastNames, presentNames⟩ := slotNames_ofConfig kept
  refine ⟨?_, ⟨⟨?_, ?_, ?_⟩, ?_, ?_, ?_, by simp⟩, trivial⟩
  · simp only [Buffers.frame, pastNames, presentNames, slotNames, placed.isSome]
    rfl
  · exact fun own given => (positions_ofPrompt prompted (placed.made given)).2.1
  · exact fun own given => (positions_ofPrompt prompted (placed.made given)).2.2
  · intro own given slot inside _ tensor present
    rw [(recorded_ofConfig (kept.made given) slot inside).1] at present
    simp at present
  · -- the ids are the prompts, one copy for each beam
    obtain ⟨total, cut⟩ := Request.blocks_expandedIds prompted
    have rows := Request.rowCount_pos prompted
    obtain ⟨-, rfl⟩ := Buffers.idRows_eq_ok.mp laid
    rw [Nat.max_eq_left rows, total, Nat.mul_div_cancel_left _ rows, cut]
    rfl
  · exact fun own given => (positions_ofPrompt prompted (placed.made given)).1
  · exact fun own given slot inside _ => (recorded_ofConfig (kept.made given) slot inside).2

variable {β : Type} {model : Model β}

structure Frames (reading : Reading) (session : Session β) : Prop where
  buffers : session.buffers.frame = reading.frame
  stages : session.pipeline.stages.map (·.config) = reading.decoder.stages
  scoresName : session.pipeline.scoresName = reading.decoder.outputs.scores

theorem create_session {config : Config} {device : Device} {registry : DeviceRegistry}
    {session : Session β} {state : β} (decoder : config.model.decoder = reading.decoder)
    (prompted : reading.request.Prompted)
    (created : Session.create config reading.request state device registry = .ok session) :
    reading.Frames session ∧ reading.Holds (promptView reading.request) session.buffers ∧
      session.buffers.scores = none ∧ session.first = true ∧ session.model = state := by
  obtain ⟨buffers, filled, rfl⟩ := Session.create_eq_ok created
  rw [decoder] at filled ⊢
  obtain ⟨framed, holds, unscored⟩ := holds_create decoder rfl prompted filled
  refine ⟨⟨framed, ?_, rfl⟩, holds, unscored, rfl, rfl⟩
  simp [Stage.ofConfig, Function.comp_def]

/-- A step that returns has shown its view to the model, and its scores are those of the view. -/
theorem runPhase_returns {view : View} {old new : Nat} {phase : Phase}
    {session after : Session β} {tensor : Tensor} (honours : reading.Honours model)
    (sized : view.Sized reading.request.rowCount old new) (feeds : 0 < new)
    (frames : reading.Frames session) (holds : reading.Holds view session.buffers)
    (ran : Step.Returns (Session.runPhase model phase) session tensor after) :
    reading.Frames after ∧ reading.Holds view after.buffers ∧
      reading.scored view tensor.shape tensor.floats ∧ after.first = session.first ∧
      reading.Invoked view model session.model after.model := by
  obtain ⟨⟨pipeline, buffers, state⟩, stepped, rfl⟩ := Step.returns_within.mp ran
  obtain ⟨stages, passed, rfl, given⟩ := Pipeline.runStep_returns stepped
  have start : reading.Serving view model session.model session.buffers [] session.model :=
    ⟨frames.buffers, holds, by simp, .refl⟩
  obtain ⟨configs, pool, last⟩ := Pipeline.runStages_preserves
    (P := fun buffers pool state => reading.Serving view model session.model buffers pool state)
    (fun stage member runs wired outputs pool pool' buffers buffers' state state' now served =>
      now.serve honours rfl sized feeds
        (frames.stages ▸ List.mem_map_of_mem member) runs served) start passed
  have named : buffers.scoresName = reading.decoder.outputs.scores :=
    congrArg Frame.scoresName last.framed
  have kept : buffers.scores = some tensor := by
    have given : buffers.output session.pipeline.scoresName = some tensor := given
    rwa [frames.scoresName, ← named, Buffers.output, if_pos rfl] at given
  exact ⟨⟨last.framed, configs.trans frames.stages, frames.scoresName⟩, last.holds,
    last.holds.scores tensor kept, rfl, last.invoked⟩

theorem exists_running {phase : Phase} {session after : Session β} {tensor : Tensor}
    (frames : reading.Frames session) (unscored : session.buffers.scores = none)
    (ran : Step.Returns (Session.runPhase model phase) session tensor after) :
    ∃ stage ∈ reading.decoder.stages, stage.onPrompt ∨ stage.onToken := by
  obtain ⟨⟨pipeline, buffers, state⟩, stepped, rfl⟩ := Step.returns_within.mp ran
  obtain ⟨stages, passed, -, given⟩ := Pipeline.runStep_returns stepped
  by_contra idle
  have idle : ∀ stage ∈ session.pipeline.stages, ¬ stage.runsIn phase := by
    intro stage member runs
    refine idle ⟨stage.config, frames.stages ▸ List.mem_map_of_mem member, ?_⟩
    cases phase with
    | prompt => exact .inl runs
    | token => exact .inr runs
  obtain ⟨-, pool, same⟩ := Pipeline.runStages_preserves
    (P := fun buffers _ _ => buffers = session.buffers)
    (fun stage member runs => absurd runs (idle stage member)) rfl passed
  have named : session.buffers.scoresName = reading.decoder.outputs.scores :=
    congrArg Frame.scoresName frames.buffers
  have given : buffers.output session.pipeline.scoresName = some tensor := given
  rw [same, frames.scoresName, ← named, Buffers.output, if_pos rfl, unscored] at given
  simp at given

theorem run_first {length : Nat} {tokens : List Token} {indices : List Nat}
    {session after : Session β} {tensor : Tensor} (first : session.first = true)
    (ran : Step.Returns (Session.run model length tokens indices) session tensor after) :
    Step.Returns (Session.runPhase model .prompt) { session with first := false } tensor after := by
  simp only [Session.run, Step.returns_bind, Step.returns_get] at ran
  obtain ⟨_, _, ⟨rfl, rfl⟩, ran⟩ := ran
  rw [if_pos first, Step.returns_bind] at ran
  obtain ⟨_, _, changed, ran⟩ := ran
  obtain rfl := Step.returns_modify.mp changed
  exact ran

theorem run_later {length : Nat} {tokens : List Token} {indices : List Nat}
    {session after : Session β} {tensor : Tensor} (later : session.first = false)
    (ran : Step.Returns (Session.run model length tokens indices) session tensor after) :
    ∃ buffers, Step.Returns (Buffers.update tokens indices length) session.buffers () buffers ∧
      Step.Returns (Session.runPhase model .token) { session with buffers := buffers } tensor
        after := by
  simp only [Session.run, Step.returns_bind, Step.returns_get] at ran
  obtain ⟨_, _, ⟨rfl, rfl⟩, ran⟩ := ran
  rw [if_neg (by simp [later]), Step.returns_bind] at ran
  obtain ⟨_, _, changed, ran⟩ := ran
  obtain ⟨buffers, updated, rfl⟩ := Step.returns_within.mp changed
  exact ⟨buffers, updated, ran⟩

end Reading

end StagedDecoding
