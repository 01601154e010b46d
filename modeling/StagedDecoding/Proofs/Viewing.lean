import Mathlib.Logic.Relation
import StagedDecoding.Proofs.Reading
import StagedDecoding.Proofs.Wiring

/-! Buffers that agree with a view show it to every stage.

Buffers hold a view when their inputs are those of the view, and whatever they kept of the outputs
is, too. They hold it before a step with nothing kept, and still do after it, because a model that
honours the reading is shown the view and gives the outputs of it.
-/

set_option autoImplicit false

namespace StagedDecoding

structure Frame where
  rows : Nat
  names : InputNames
  scoresName : String
  extraInputs : Named Tensor
  inputNames : List String
  outputNames : List String
  /-- Whether there are positions and a mask. -/
  counts : Bool
  /-- The names of past and present of every slot. -/
  slots : Option (List (String × String))

def LayerCache.slotNames (cache : LayerCache) : List (String × String) :=
  cache.slots.map fun slot => (slot.pastName, slot.presentName)

def Buffers.frame (buffers : Buffers) : Frame where
  rows := buffers.rows
  names := buffers.names
  scoresName := buffers.scoresName
  extraInputs := buffers.extraInputs
  inputNames := buffers.inputNames
  outputNames := buffers.outputNames
  counts := buffers.positions.isSome
  slots := buffers.cache.map LayerCache.slotNames

namespace Reading

variable {reading : Reading}

def frame (reading : Reading) : Frame where
  rows := reading.request.rowCount
  names := reading.decoder.inputs
  scoresName := reading.decoder.outputs.scores
  extraInputs := Named.ofPairs reading.request.extraInputs
  inputNames := reading.decoder.inputs.inputIds ::
    ((if reading.decoder.declares reading.decoder.inputs.positionIds then
        [reading.decoder.inputs.positionIds] else []) ++
      (if reading.decoder.declares reading.decoder.inputs.attentionMask then
        [reading.decoder.inputs.attentionMask] else []) ++
      reading.decoder.cacheNames.map (·.1) ++ reading.request.extraInputs.map (·.1))
  outputNames := reading.decoder.outputs.scores :: reading.decoder.cacheNames.map (·.2)
  counts := reading.decoder.declares reading.decoder.inputs.positionIds ||
    reading.decoder.declares reading.decoder.inputs.attentionMask
  slots :=
    if 0 < reading.decoder.layers &&
        reading.decoder.declares (layerName reading.decoder.inputs.pastKeys 0) then
      some reading.decoder.cacheNames
    else none

/-- Of some histories, the buffers have the mask, the counts and the presents. -/
structure Remembers (reading : Reading) (seen : List (List Token)) (buffers : Buffers) : Prop where
  mask : ∀ positions, buffers.positions = some positions →
    positions.mask = reading.maskRows seen
  next : ∀ positions, buffers.positions = some positions →
    positions.next = (reading.maskRows seen).map List.sum
  presents : ∀ cache, buffers.cache = some cache → ∀ slot ∈ cache.slots,
    slot.pastName ∉ reading.decoder.inputs.placed →
    ∀ tensor, slot.present = some tensor → reading.Recorded slot.pastName seen tensor

/-- The buffers have the inputs of a view, and of the outputs at most those of the view. -/
structure Holds (reading : Reading) (view : View) (buffers : Buffers) : Prop
    extends Remembers reading view.seen buffers where
  ids : buffers.inputIds = view.fed
  positionIds : ∀ positions, buffers.positions = some positions →
    positions.ids = reading.positionRows view
  pasts : ∀ cache, buffers.cache = some cache → ∀ slot ∈ cache.slots,
    slot.pastName ∉ reading.decoder.inputs.placed →
    reading.Recorded slot.pastName view.past slot.past
  scores : ∀ tensor, buffers.scores = some tensor →
    reading.scored view tensor.shape tensor.floats

end Reading

theorem Named.mem_ofPairs {α : Type} {pairs : List (String × α)} {entry : String × α}
    (member : entry ∈ Named.ofPairs pairs) : entry ∈ pairs := by
  have folded : ∀ (pairs : List (String × α)) (start : Named α),
      entry ∈ pairs.foldl (fun values pair => Named.insert pair.1 pair.2 values) start →
      entry ∈ start ∨ entry ∈ pairs := by
    intro pairs
    -- the entries that are there already come from the start
    induction pairs with
    | nil => exact fun start inside => .inl inside
    | cons pair rest ih =>
      intro start inside
      rcases ih (Named.insert pair.1 pair.2 start) inside with early | late
      · rcases Named.mem_insert early with rfl | early
        · exact .inr (by simp)
        · exact .inl early
      · exact .inr (List.mem_cons_of_mem pair late)
  simpa using folded pairs [] member

theorem Tensor.convert_f32 (tensor : Tensor) :
    (tensor.convert .f32).shape = tensor.shape ∧ (tensor.convert .f32).floats = tensor.floats := by
  unfold convert
  split
  · exact ⟨rfl, rfl⟩
  · constructor
    · rfl
    · simp [floats, packed, Scalar.convert, Scalar.toFloat]

namespace Buffers

variable {reading : Reading} {view : View} {buffers : Buffers}

theorem input_ids : buffers.input buffers.names.inputIds = some buffers.idsTensor := by
  simp [input]

theorem input_positions {positions : Positions} (placed : buffers.positions = some positions)
    (free : buffers.names.positionIds ≠ buffers.names.inputIds) :
    buffers.input buffers.names.positionIds = some positions.idsTensor := by
  simp [input, free, placed]

theorem input_mask {positions : Positions} (placed : buffers.positions = some positions)
    (free : buffers.names.attentionMask ≠ buffers.names.inputIds)
    (other : buffers.names.attentionMask ≠ buffers.names.positionIds) :
    buffers.input buffers.names.attentionMask = some positions.maskTensor := by
  simp [input, free, other, placed]

theorem input_other {name : String} (free : name ∉ buffers.names.placed) :
    buffers.input name =
      (buffers.cache.bind (·.past name)).or (buffers.extraInputs.get? name) := by
  simp only [InputNames.placed, List.mem_cons, List.not_mem_nil, or_false, not_or] at free
  obtain ⟨ids, positions, mask⟩ := free
  cases placed : buffers.positions <;> simp [input, ids, positions, mask, placed]

theorem slot_of_past {cache : LayerCache} {names : String × String}
    (member : names ∈ cache.slotNames) :
    ∃ slot ∈ cache.slots, slot.pastName = names.1 ∧ cache.past names.1 = some slot.past := by
  obtain ⟨own, inside, rfl⟩ := List.mem_map.mp member
  cases found : cache.slots.find? (·.pastName == own.pastName) with
  | none => simpa using List.find?_eq_none.mp found own inside
  | some slot =>
    exact ⟨slot, List.mem_of_find?_eq_some found, by simpa using List.find?_some found,
      by simp [LayerCache.past, found]⟩

theorem slots_of_store {cache next : LayerCache} {name : String} {tensor : Tensor}
    (stored : cache.store? name tensor = some next) :
    next.slotNames = cache.slotNames ∧ ∀ slot ∈ next.slots, slot ∈ cache.slots ∨
      ∃ old ∈ cache.slots, old.presentName = name ∧ slot = { old with present := some tensor } := by
  obtain ⟨i, found, rfl⟩ := Option.map_eq_some_iff.mp stored
  obtain ⟨bound, same, -⟩ := List.findIdx?_eq_some_iff_getElem.mp found
  constructor
  · refine List.ext_getElem (by simp [LayerCache.slotNames]) fun j _ _ => ?_
    by_cases here : i = j <;> simp [LayerCache.slotNames, here]
  · intro slot member
    obtain ⟨j, inside, rfl⟩ := List.mem_iff_getElem.mp member
    rw [List.length_modify] at inside
    by_cases here : i = j
    · subst here
      refine .inr ⟨cache.slots[i], List.getElem_mem bound, by simpa using same, ?_⟩
      simp
    · refine .inl ?_
      simp [here]

section

variable (framed : buffers.frame = reading.frame)

include framed

theorem slotNames_eq {cache : LayerCache} (kept : buffers.cache = some cache) :
    cache.slotNames = reading.decoder.cacheNames := by
  have slots := congrArg Frame.slots framed
  simp only [frame, Reading.frame, kept, Option.map_some] at slots
  split at slots
  · exact Option.some.inj slots
  · simp at slots

theorem exists_cache {names : String × String} (member : names ∈ reading.decoder.cacheNames) :
    ∃ cache, buffers.cache = some cache := by
  have slots := congrArg Frame.slots framed
  simp only [frame, Reading.frame] at slots
  unfold DecoderConfig.cacheNames at member
  split at member
  · next keeps =>
    rw [if_pos keeps, Option.map_eq_some_iff] at slots
    exact slots.imp fun _ both => both.1
  · simp at member

theorem no_past {name : String} (absent : name ∉ reading.decoder.cacheNames.map (·.1)) :
    buffers.cache.bind (·.past name) = none := by
  cases kept : buffers.cache with
  | none => rfl
  | some cache =>
    rw [← slotNames_eq framed kept] at absent
    have missed : cache.slots.find? (·.pastName == name) = none := by
      rw [List.find?_eq_none]
      intro slot inside same
      simp only [LayerCache.slotNames, List.map_map, List.mem_map, not_exists, not_and] at absent
      exact absent slot inside (by simpa using same)
    simp [LayerCache.past, missed]

theorem exists_positions {name : String} (declared : reading.decoder.declares name = true)
    (counted : name = reading.decoder.inputs.positionIds ∨
      name = reading.decoder.inputs.attentionMask) :
    ∃ positions, buffers.positions = some positions := by
  have counts := congrArg Frame.counts framed
  simp only [frame, Reading.frame] at counts
  refine Option.isSome_iff_exists.mp ?_
  rcases counted with rfl | rfl <;> simp [counts, declared]

theorem isInput_iff {name : String} (declared : reading.decoder.declares name = true) :
    ManagedBuffers.isInput name buffers = true ↔
      name ∈ reading.decoder.inputs.placed ∨ name ∈ reading.decoder.cacheNames.map (·.1) ∨
        name ∈ reading.request.extraInputs.map (·.1) := by
  have inputs : buffers.inputNames = reading.frame.inputNames := congrArg Frame.inputNames framed
  simp only [ManagedBuffers.isInput, ManagedBuffers.inputNames, inputs, Reading.frame,
    InputNames.placed, List.contains_eq_mem, decide_eq_true_eq, List.mem_cons, List.mem_append]
  constructor
  · rintro (here | ((here | here) | here) | here)
    · exact .inl (.inl here)
    · exact .inl (.inr (.inl (by split at here <;> simp_all)))
    · exact .inl (.inr (.inr (.inl (by split at here <;> simp_all))))
    · exact .inr (.inl here)
    · exact .inr (.inr here)
  · rintro ((rfl | rfl | rfl | none) | here | here)
    · exact .inl rfl
    · exact .inr (.inl (.inl (.inl (by simp [declared]))))
    · exact .inr (.inl (.inl (.inr (by simp [declared]))))
    · simp at none
    · exact .inr (.inl (.inr here))
    · exact .inr (.inr here)

theorem shows {stage wired : Stage} {pool : Named Tensor}
    (holds : reading.Holds view buffers)
    (pooled : ∀ entry ∈ pool, reading.carried entry.1 view entry.2)
    (member : stage.config ∈ reading.decoder.stages)
    (bound : ∀ name, wired.bound.get? name =
      if stage.hasInput name then Pipeline.source buffers pool name else none) :
    reading.Shows stage.config view wired.bound := by
  have names : buffers.names = reading.decoder.inputs := congrArg Frame.names framed
  have extras : buffers.extraInputs = Named.ofPairs reading.request.extraInputs :=
    congrArg Frame.extraInputs framed
  -- a declared managed name that has a tensor is bound to it, whatever the pool has
  have managed : ∀ name tensor, name ∈ stage.config.inputs →
      (name ∈ reading.decoder.inputs.placed ∨ name ∈ reading.decoder.cacheNames.map (·.1) ∨
        name ∈ reading.request.extraInputs.map (·.1)) →
      buffers.input name = some tensor → wired.bound.get? name = some tensor := by
    intro name tensor declared role given
    have isInput := (isInput_iff framed (DecoderConfig.declares_of_mem member declared)).mpr role
    have given' : ManagedBuffers.input name buffers = some tensor := given
    have declared' : stage.hasInput name = true := by simpa [Stage.hasInput] using declared
    simp [bound name, declared', Pipeline.source, isInput, given']
  refine ⟨fun declared => ?_, fun declared free => ?_, fun declared free other => ?_,
    fun names' inside declared free => ?_, fun name declared free absent tensor given => ?_,
    fun name free absent missing tensor given => ?_⟩
  -- three inputs of the step itself, whose names may coincide
  · refine managed _ _ declared (.inl (by simp [InputNames.placed])) ?_
    rw [← names, input_ids, idsTensor, holds.ids]
    rfl
  · obtain ⟨positions, placed⟩ :=
      exists_positions framed (DecoderConfig.declares_of_mem member declared) (.inl rfl)
    refine managed _ _ declared (.inl (by simp [InputNames.placed])) ?_
    rw [← names] at free ⊢
    rw [input_positions placed free, Positions.idsTensor, holds.positionIds positions placed]
    rfl
  · obtain ⟨positions, placed⟩ :=
      exists_positions framed (DecoderConfig.declares_of_mem member declared) (.inr rfl)
    refine managed _ _ declared (.inl (by simp [InputNames.placed])) ?_
    rw [← names] at free other ⊢
    rw [input_mask placed free other, Positions.maskTensor, holds.mask positions placed]
    rfl
  -- a past, which is that of the first slot of its name
  · obtain ⟨cache, kept⟩ := exists_cache framed inside
    obtain ⟨slot, here, same, past⟩ := slot_of_past ((slotNames_eq framed kept).symm ▸ inside)
    refine ⟨slot.past, managed _ _ declared (.inr (.inl (List.mem_map_of_mem inside))) ?_, ?_⟩
    · rw [input_other (names.symm ▸ free), kept, Option.bind_some, past, Option.some_or]
    · rw [← same] at free ⊢
      exact holds.pasts cache kept slot here free
  · refine managed _ _ declared (.inr (.inr ?_)) ?_
    · exact List.mem_map_of_mem (Named.mem_ofPairs (Named.mem_of_get? given))
    · rw [input_other (names.symm ▸ free), no_past framed absent, Option.none_or, extras, given]
  -- what is left comes from an earlier stage
  · have unmanaged : buffers.input name = none := by
      rw [input_other (names.symm ▸ free), no_past framed absent, Option.none_or, extras, missing]
    have unmanaged' : ManagedBuffers.input name buffers = none := unmanaged
    rw [bound name] at given
    split at given
    · simp only [Pipeline.source, unmanaged', ite_self, Option.none_or] at given
      exact pooled _ (Named.mem_of_get? given)
    · simp at given

theorem holds_store {name : String} {tensor : Tensor} {next : Buffers}
    (holds : reading.Holds view buffers) (stored : buffers.store name tensor = .ok next)
    (scored : name = reading.decoder.outputs.scores →
      reading.scored view tensor.shape tensor.floats)
    (recorded : ∀ names ∈ reading.decoder.cacheNames, names.2 = name →
      name ≠ reading.decoder.outputs.scores → names.1 ∉ reading.decoder.inputs.placed →
      reading.Recorded names.1 view.seen tensor) :
    next.frame = reading.frame ∧ reading.Holds view next := by
  have scoresName : buffers.scoresName = reading.decoder.outputs.scores :=
    congrArg Frame.scoresName framed
  unfold store at stored
  -- scores have a place of their own, every other output is a present
  split at stored
  case isTrue same =>
    obtain rfl := Except.ok.inj stored
    refine ⟨framed, { holds with scores := fun kept given => ?_ }⟩
    obtain rfl := Option.some.inj given
    obtain ⟨shape, floats⟩ := tensor.convert_f32
    rw [shape, floats]
    exact scored (same.trans scoresName)
  case isFalse differs =>
    split at stored
    case h_2 => simp at stored
    case h_1 cache taken =>
      obtain rfl := Except.ok.inj stored
      obtain ⟨before, kept, taken⟩ := Option.bind_eq_some_iff.mp taken
      obtain ⟨sameNames, slots⟩ := slots_of_store taken
      refine ⟨?_, { holds with presents := ?_, pasts := ?_ }⟩
      · rw [← framed]
        simp [frame, kept, sameNames]
      · intro cache' kept' slot inside free present given
        obtain rfl := Option.some.inj kept'
        rcases slots slot inside with old | ⟨old, there, same, rfl⟩
        · exact holds.presents before kept slot old free present given
        · obtain rfl := Option.some.inj given
          have listed : (old.pastName, old.presentName) ∈ reading.decoder.cacheNames := by
            rw [← slotNames_eq framed kept]
            exact List.mem_map_of_mem there
          exact recorded _ listed same (scoresName ▸ differs) free
      · intro cache' kept' slot inside free
        obtain rfl := Option.some.inj kept'
        rcases slots slot inside with old | ⟨old, there, -, rfl⟩
        · exact holds.pasts before kept slot old free
        · exact holds.pasts before kept old there free

end

end Buffers

namespace Reading

variable {reading : Reading} {view : View} {β : Type} {model : Model β}

/-- The model gets from one state to another by invocations that present a view. -/
def Invoked (reading : Reading) (view : View) (model : Model β) : β → β → Prop :=
  Relation.ReflTransGen fun before after => ∃ stage invocation outputs,
    reading.Presents view stage invocation ∧ model invocation before = (.ok outputs, after)

structure Serving (reading : Reading) (view : View) (model : Model β) (start : β)
    (buffers : Buffers) (pool : Named Tensor) (state : β) : Prop where
  framed : buffers.frame = reading.frame
  holds : reading.Holds view buffers
  pooled : ∀ entry ∈ pool, reading.carried entry.1 view entry.2
  invoked : reading.Invoked view model start state

theorem Serving.serve {rows old new : Nat} (honours : reading.Honours model)
    (counted : reading.request.rowCount = rows) (sized : view.Sized rows old new)
    (feeds : 0 < new) {start : β} {phase : Phase} {stage wired : Stage} {primary : Device}
    {outputs pool pool' : Named Tensor} {buffers buffers' : Buffers} {state state' : β}
    (member : stage.config ∈ reading.decoder.stages) (runs : stage.runsIn phase)
    (serving : Serving reading view model start buffers pool state)
    (served : Pipeline.Serves model primary stage wired outputs pool pool' buffers buffers' state
      state') :
    Serving reading view model start buffers' pool' state' := by
  obtain ⟨connected, answered, delivered⟩ := served
  obtain ⟨config, bound, requested⟩ := Pipeline.wire_returns connected
  have running : stage.config.onPrompt ∨ stage.config.onToken := by
    cases phase with
    | prompt => exact .inl runs
    | token => exact .inr runs
  have presented : reading.Presents view stage.config ⟨wired.id, wired.bound, wired.requested⟩ :=
    ⟨member, running, by simp only [Stage.id, config], fun name => (requested name).mp,
      Buffers.shows serving.framed serving.holds serving.pooled member bound⟩
  have gives := honours view old new (counted ▸ sized) feeds _ _ presented _ _ _ answered
  have invoked : reading.Invoked view model start state' :=
    serving.invoked.tail ⟨_, _, _, presented, answered⟩
  have forwarded : ∀ name, wired.forwardedName name =
      (Stage.ofConfig stage.config).forwardedName name := by
    intro name
    simp only [Stage.forwardedName, config, Stage.ofConfig]
  -- an output is kept by the buffers or goes to the pool, and is that of the view either way
  refine Pipeline.deliver_preserves (P := fun buffers pool =>
    Serving reading view model start buffers pool state') ?_ ?_
    ⟨serving.framed, serving.holds, serving.pooled, invoked⟩ delivered
  · intro name asked tensor found before poolNow next now _ stored
    obtain ⟨framed, holds⟩ := Buffers.holds_store now.framed now.holds stored
      (fun same => by subst same; exact gives.scores asked tensor found)
      (fun names listed same other free => by
        subst same
        exact gives.presents names listed asked other free tensor found)
    exact ⟨framed, holds, now.pooled, now.invoked⟩
  · intro name asked tensor found before poolNow now unmanaged
    refine ⟨now.framed, now.holds, fun entry inside => ?_, now.invoked⟩
    rcases Named.mem_insert inside with rfl | inside
    · have outputNames : before.outputNames = reading.frame.outputNames :=
        congrArg Frame.outputNames now.framed
      simp only [ManagedBuffers.isOutput, ManagedBuffers.outputNames, outputNames, Reading.frame,
        List.contains_eq_mem, decide_eq_true_eq, List.mem_cons, not_or] at unmanaged
      rw [forwarded]
      exact gives.others name asked unmanaged.1 unmanaged.2 tensor found
    · exact now.pooled entry inside

end Reading

end StagedDecoding
