import StagedDecoding.Proofs.Pace
import StagedDecoding.Proofs.Recital

/-! A model that answers by shapes alone.

It has the stage of the model that recites. All its scores are equal, and its presents are as much
longer than the pasts as tokens are fed. So it serves every generator of that stage.
-/

set_option autoImplicit false

namespace StagedDecoding

theorem Tensor.isPacked_filled (type : ElementType) (shape : List Nat) (value : Scalar) :
    (Tensor.filled type shape value).isPacked = true := by
  -- each stride is the volume of what follows, which the fold carries along
  have folded : ∀ shape : List Nat, (shape.zip (packedStrides shape)).foldr
      (fun axis (state : Bool × Nat) =>
        (state.1 && (decide (axis.1 ≤ 1) || axis.2 == state.2), state.2 * axis.1)) (true, 1) =
      (true, volume shape) := by
    intro shape
    induction shape with
    | nil => rfl
    | cons extent rest ih =>
      simp only [packedStrides, List.zip_cons_cons, List.foldr_cons, ih]
      simp [volume, Nat.mul_comm]
  exact congrArg Prod.fst (folded shape)

namespace Blank

def size (inputs : Named Tensor) : List Nat :=
  ((inputs.get? "input_ids").map Tensor.shape).getD []

def extended (width : Nat) (past : Option Tensor) : Tensor :=
  match past.map Tensor.shape with
  | some [rows, heads, old, size] => .filled .f32 [rows, heads, old + width, size] (.real 0)
  | _ => .filled .f32 [] (.real 0)

def pastName (name : String) : String :=
  if name = "present.0.key" then "past_key_values.0.key" else "past_key_values.0.value"

def answer (inputs : Named Tensor) (name : String) : Tensor :=
  if name = "logits" then .filled .f32 (size inputs ++ [4]) (.real 0)
  else extended ((size inputs).getD 1 0) (inputs.get? (pastName name))

def run : Model Unit := fun invocation state =>
  (.ok (invocation.outputs.map fun name => (name, answer invocation.inputs name)), state)

theorem get?_answers (answer : String → Tensor) (names : List String) (name : String) :
    Named.get? name (names.map fun name => (name, answer name)) =
      if name ∈ names then some (answer name) else none := by
  induction names with
  | nil => rfl
  | cons first rest ih =>
    rw [List.map_cons, Named.get?_cons, ih]
    by_cases same : first = name
    · simp [same]
    · simp [same, Ne.symm same]

theorem cacheNames_eq : Recital.decoder.cacheNames =
    [("past_key_values.0.key", "present.0.key"),
      ("past_key_values.0.value", "present.0.value")] := by
  decide +kernel

theorem supplies : Recital.decoder.Supplies := by
  constructor
  · rw [cacheNames_eq]
    decide
  · rw [cacheNames_eq]
    intro phase name member
    refine ⟨_, List.mem_singleton.mpr rfl, by cases phase <;> rfl, ?_⟩
    revert name
    decide

variable {session : Session Unit} {buffers : Buffers} {moves : Prop}

structure Framed (frame : Frame) : Prop where
  names : frame.names = .standard
  scoresName : frame.scoresName = "logits"
  inputs : ∀ name ∈ ["input_ids", "past_key_values.0.key", "past_key_values.0.value"],
    name ∈ frame.inputNames
  slots : frame.slots.getD [] = Recital.decoder.cacheNames

theorem Framed.slots_eq (framed : Framed buffers.frame) :
    ∃ keys values, buffers.slots = [keys, values] ∧
      keys.pastName = "past_key_values.0.key" ∧ keys.presentName = "present.0.key" ∧
      values.pastName = "past_key_values.0.value" ∧ values.presentName = "present.0.value" := by
  have named := buffers.slotNames_eq_frame.trans (framed.slots.trans cacheNames_eq)
  obtain ⟨keys, rest, slots, first, later⟩ := List.map_eq_cons_iff.mp named
  obtain ⟨values, none, rfl, second, last⟩ := List.map_eq_cons_iff.mp later
  obtain rfl := List.map_eq_nil_iff.mp last
  obtain ⟨keysPast, keysPresent⟩ := Prod.mk.inj first
  obtain ⟨valuesPast, valuesPresent⟩ := Prod.mk.inj second
  exact ⟨keys, values, slots, keysPast, keysPresent, valuesPast, valuesPresent⟩

section

variable {stage wired : Stage} {primary : Device} (framed : Framed buffers.frame)
  (config : [stage.config] = Recital.decoder.stages)
  (wires : Step.Returns (Pipeline.wire primary buffers []) stage () wired)

include framed config wires

theorem shown {name : String}
    (read : name ∈ ["input_ids", "past_key_values.0.key", "past_key_values.0.value"]) :
    wired.bound.get? name = buffers.input name := by
  obtain ⟨-, bound, -⟩ := Pipeline.wire_returns wires
  have declared : stage.hasInput name = true := by
    have config := List.singleton_inj.mp config
    unfold Stage.hasInput
    rw [config]
    revert name
    decide
  have managed : ManagedBuffers.isInput name buffers = true := by
    have listed : name ∈ buffers.inputNames := framed.inputs name read
    simpa [ManagedBuffers.isInput, ManagedBuffers.inputNames] using listed
  rw [bound, if_pos declared, Pipeline.source, if_pos managed, Named.get?, List.find?_nil,
    Option.map_none, Option.or_none]
  rfl

theorem size_eq :
    size wired.bound = [buffers.inputIds.length, Positions.width buffers.inputIds] := by
  have ids : buffers.input "input_ids" = some buffers.idsTensor := by
    have named : buffers.names.inputIds = "input_ids" := congrArg InputNames.inputIds framed.names
    rw [← named, Buffers.input_ids]
  rw [size, shown framed config wires (by simp), ids]
  rfl

theorem shown_past {slot : CacheSlot} (inside : slot ∈ buffers.slots) :
    slot.presentName ≠ "logits" ∧
      wired.bound.get? (pastName slot.presentName) = some slot.past := by
  obtain ⟨keys, values, slots, keysPast, keysPresent, valuesPast, valuesPresent⟩ := framed.slots_eq
  obtain ⟨cache, kept, own⟩ :
      ∃ cache, buffers.cache = some cache ∧ cache.slots = [keys, values] := by
    cases cached : buffers.cache with
    | none => simp [Buffers.slots, cached] at slots
    | some cache => exact ⟨cache, rfl, by simpa [Buffers.slots, cached] using slots⟩
  -- a past is read from the cache, for it is no name of the ids, the mask or the positions
  have past : ∀ slot ∈ [keys, values], wired.bound.get? slot.pastName = some slot.past := by
    intro slot member
    have read : slot.pastName ∈ ["past_key_values.0.key", "past_key_values.0.value"] := by
      rcases List.mem_pair.mp member with rfl | rfl
      · simp [keysPast]
      · simp [valuesPast]
    have free : slot.pastName ∉ buffers.names.placed := by
      rw [show buffers.names = .standard from framed.names]
      revert read
      generalize slot.pastName = name
      revert name
      decide
    rw [shown framed config wires (List.mem_cons_of_mem _ read), Buffers.input_other free, kept,
      Option.bind_some, LayerCache.past, own]
    rcases List.mem_pair.mp member with rfl | rfl
    · simp
    · simp [keysPast, valuesPast]
  have named : slot.presentName ≠ "logits" ∧ pastName slot.presentName = slot.pastName := by
    rw [slots] at inside
    rcases List.mem_pair.mp inside with rfl | rfl
    · rw [keysPresent, keysPast]
      decide
    · rw [valuesPresent, valuesPast]
      decide
  exact ⟨named.1, named.2 ▸ past slot (slots ▸ inside)⟩

theorem answer_present {slot : CacheSlot} (inside : slot ∈ buffers.slots) :
    answer wired.bound slot.presentName =
      extended (Positions.width buffers.inputIds) (some slot.past) := by
  obtain ⟨named, past⟩ := shown_past framed config wires inside
  rw [answer, if_neg named, past, size_eq framed config wires]
  rfl

theorem fits (asked : List String) : buffers.Fits 4 moves asked
    (asked.map fun name => (name, answer wired.bound name)) := by
  constructor
  · intro name member
    exact ⟨_, by rw [get?_answers, if_pos member]⟩
  · intro member tensor found
    have named : buffers.scoresName = "logits" := framed.scoresName
    rw [named] at member found
    rw [get?_answers, if_pos member] at found
    obtain rfl := Option.some.inj found
    rw [answer, if_pos rfl, size_eq framed config wires]
    exact ⟨rfl, by simp [Tensor.filled, Tensor.packed]⟩
  · -- a present has the positions of its past and those that are fed
    intro slot inside member tensor found
    rw [get?_answers, if_pos member] at found
    obtain rfl := Option.some.inj found
    rw [answer_present framed config wires inside]
    constructor
    · intro rows heads old size shape
      simp only [extended, Option.map_some, shape]
      rfl
    · intro _
      unfold extended
      split <;> exact Tensor.isPacked_filled _ _ _

end

theorem asked_alone {model : Model Unit} {phase : Phase} {entered : Session Unit}
    {invocation : Invocation} {asked : Unit} {length : Nat} {tokens : List Token}
    {indices : List Nat}
    (staged : session.pipeline.stages.map (·.config) = Recital.decoder.stages)
    (framed : Framed session.buffers.frame)
    (enters : Session.Enters length tokens indices session phase entered)
    (asks : Pipeline.Asks model entered.pipeline.primary phase entered.pipeline.stages []
      entered.buffers entered.model invocation asked) :
    Framed entered.buffers.frame ∧ ∃ stage wired, [stage.config] = Recital.decoder.stages ∧
      Step.Returns (Pipeline.wire entered.pipeline.primary entered.buffers []) stage () wired ∧
      invocation = ⟨wired.id, wired.bound, wired.requested⟩ := by
  have same : entered.pipeline = session.pipeline ∧
      entered.buffers.frame = session.buffers.frame := by
    cases enters with
    | prompt _ => exact ⟨rfl, rfl⟩
    | token _ updated => exact ⟨rfl, Reading.frame_of_update updated⟩
  rw [← same.1] at staged
  rw [← same.2] at framed
  obtain ⟨stage, none, stages, config, last⟩ := List.map_eq_cons_iff.mp staged
  obtain rfl := List.map_eq_nil_iff.mp last
  rw [stages] at asks
  cases asks with
  | here _ wires => exact ⟨framed, stage, _, List.singleton_inj.mpr config, wires, rfl⟩
  | later _ _ none => cases none
  | idle _ none => cases none

theorem answered {length : Nat} {tokens : List Token} {indices : List Nat}
    (staged : session.pipeline.stages.map (·.config) = Recital.decoder.stages)
    (framed : Framed session.buffers.frame) :
    session.Answered 4 moves run length tokens indices := by
  intro phase entered invocation asked enters asks
  obtain ⟨framed, stage, wired, config, wires, rfl⟩ := asked_alone staged framed enters asks
  exact ⟨_, _, rfl, fits framed config wires _⟩

theorem framed_of_create {config : Config} {request : Request} {device : Device}
    {registry : DeviceRegistry} (decoder : config.model.decoder = Recital.decoder)
    (prompted : request.Prompted)
    (opened : Session.create config request () device registry = .ok session) :
    session.pipeline.stages.map (·.config) = Recital.decoder.stages ∧
      Framed session.buffers.frame := by
  let reading : Reading := ⟨Recital.decoder, request, fun _ _ _ _ => True, fun _ _ _ => True,
    fun _ _ _ => True⟩
  have frames := (@Reading.create_session reading Unit config device registry session () decoder
    prompted opened).1
  rw [frames.buffers]
  refine ⟨frames.stages, rfl, rfl, ?_, ?_⟩
  · intro name member
    have listed : name ∈ "input_ids" :: Recital.decoder.cacheNames.map (·.1) := by
      rw [cacheNames_eq]
      exact member
    rcases List.mem_cons.mp listed with rfl | past
    · exact List.mem_cons_self
    · simp only [reading, Reading.frame, List.mem_cons, List.mem_append]
      exact .inr (.inl (.inr past))
  · simp only [reading, Reading.frame, DecoderConfig.cacheNames]
    split <;> rfl

/-- A model that answers in every session of the stage serves every generator of it. -/
theorem served_of_answered {model : Model Unit} {config : Config} {request : Request}
    {device : Device} {registry : DeviceRegistry} {start : Generator Unit}
    (decoder : config.model.decoder = Recital.decoder)
    (answers : ∀ session : Session Unit,
      session.pipeline.stages.map (·.config) = Recital.decoder.stages →
      Framed session.buffers.frame → ∀ length tokens indices,
        session.Answered 4 moves model length tokens indices)
    (created : Generator.create config request () device registry = .ok start) :
    start.Served 4 moves model := by
  intro g reached length tokens indices
  have fixed : g.session.fixed = start.session.fixed := by
    induction reached with
    | refl => rfl
    | tail _ used ih => exact used.fixed.trans ih
  simp only [Generator.create, Outcome.bind_eq_ok, Outcome.pure_eq_ok] at created
  obtain ⟨_, valid, strategy, -, session, opened, rfl⟩ := created
  obtain ⟨staged, framed⟩ := framed_of_create decoder (Request.prompted_of_validate valid) opened
  obtain ⟨-, rest⟩ := Prod.mk.inj fixed
  obtain ⟨-, rest⟩ := Prod.mk.inj rest
  obtain ⟨stages, frame⟩ := Prod.mk.inj rest
  exact answers g.session (stages.trans staged) (frame ▸ framed) length tokens indices

theorem serves {config : Config} {request : Request} {device : Device} {registry : DeviceRegistry}
    {start : Generator Unit} (decoder : config.model.decoder = Recital.decoder)
    (created : Generator.create config request () device registry = .ok start) :
    start.Served 4 moves run :=
  served_of_answered decoder (fun _ staged framed _ _ _ => answered staged framed) created

end Blank

end StagedDecoding
