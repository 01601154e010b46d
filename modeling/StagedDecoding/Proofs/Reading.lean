import StagedDecoding.Proofs.Ledger
import StagedDecoding.Proofs.Masks
import StagedDecoding.Session.Basic

/-! What the tensors of a step stand for.

A view tells for every row which tokens are recorded in the bound cache and which are fed now. A
reading relates tensors to views: the managed ones by their role, the scores and whatever the
stages hand to each other by relations of the model's own. A model honours a reading if it never
breaks it: whenever it answers to inputs that show a view, its outputs are those of that view.
-/

set_option autoImplicit false

namespace StagedDecoding

structure Rectangular {α : Type} (count width : Nat) (rows : List (List α)) : Prop where
  count : rows.length = count
  width : ∀ row ∈ rows, row.length = width

theorem Rectangular.width_eq {count width : Nat} {rows : List (List Nat)}
    (rectangular : Rectangular count width rows) {row : List Nat} (member : row ∈ rows) :
    Positions.width rows = width := by
  obtain ⟨first, rest, rfl⟩ := List.exists_cons_of_ne_nil (List.ne_nil_of_mem member)
  rw [Positions.width, List.headD_cons, rectangular.width first (by simp)]

/-- Of every row, the tokens recorded in the cache and the tokens fed. -/
structure View where
  past : List (List Token)
  fed : List (List Token)

namespace View

def seen (view : View) : List (List Token) :=
  List.zipWith (· ++ ·) view.past view.fed

structure Sized (rows old new : Nat) (view : View) : Prop where
  past : Rectangular rows old view.past
  fed : Rectangular rows new view.fed

theorem Sized.seen {rows old new : Nat} {view : View} (sized : view.Sized rows old new) :
    Rectangular rows (old + new) view.seen where
  count := by simp [View.seen, sized.past.count, sized.fed.count]
  width := by
    intro row member
    obtain ⟨i, bound, rfl⟩ := List.mem_iff_getElem.mp member
    simp [View.seen, sized.past.width, sized.fed.width]

end View

namespace DecoderConfig

def declares (name : String) (decoder : DecoderConfig) : Bool :=
  decoder.stages.any (·.inputs.contains name)

def layerNames (decoder : DecoderConfig) : List (String × String) :=
  (List.range decoder.layers).flatMap fun layer =>
    [(layerName decoder.inputs.pastKeys layer, layerName decoder.outputs.presentKeys layer),
      (layerName decoder.inputs.pastValues layer, layerName decoder.outputs.presentValues layer)]

def cacheNames (decoder : DecoderConfig) : List (String × String) :=
  if 0 < decoder.layers && decoder.declares (layerName decoder.inputs.pastKeys 0) then
    decoder.layerNames
  else []

theorem declares_of_mem {decoder : DecoderConfig} {stage : StageConfig} {name : String}
    (member : stage ∈ decoder.stages) (declared : name ∈ stage.inputs) :
    decoder.declares name = true := by
  simp only [declares, List.any_eq_true, List.contains_eq_mem, decide_eq_true_eq]
  exact ⟨stage, member, declared⟩

end DecoderConfig

def InputNames.placed (names : InputNames) : List String :=
  [names.inputIds, names.positionIds, names.attentionMask]

/-- Every stage that runs declares the token ids, the positions, the mask and the whole cache. -/
def DecoderConfig.Complete (decoder : DecoderConfig) : Prop :=
  ∀ stage ∈ decoder.stages, stage.onPrompt ∨ stage.onToken →
    (∀ name ∈ decoder.inputs.placed, name ∈ stage.inputs) ∧
    ∀ names ∈ decoder.layerNames, names.1 ∈ stage.inputs ∧ names.2 ∈ stage.outputs

theorem DecoderConfig.Complete.cacheNames_eq {decoder : DecoderConfig} {stage : StageConfig}
    (complete : decoder.Complete) (member : stage ∈ decoder.stages)
    (runs : stage.onPrompt ∨ stage.onToken) : decoder.cacheNames = decoder.layerNames := by
  unfold cacheNames
  split
  · rfl
  · next idle =>
    by_cases some : 0 < decoder.layers
    · have first : (layerName decoder.inputs.pastKeys 0,
          layerName decoder.outputs.presentKeys 0) ∈ decoder.layerNames :=
        List.mem_flatMap.mpr ⟨0, List.mem_range.mpr some, by simp⟩
      have declared := declares_of_mem member ((complete stage member runs).2 _ first).1
      simp [some, declared] at idle
    · simp [layerNames, Nat.eq_zero_of_not_pos some]

/-- How the tensors of a decoder are to be read. -/
structure Reading where
  decoder : DecoderConfig
  request : Request
  /-- What the cache holds for a history. -/
  ledger : Ledger
  /-- The tensors that stages hand to each other. -/
  carried : String → View → Tensor → Prop
  /-- The scores, by their shape and their values. -/
  scored : View → List Nat → List Float32 → Prop

namespace Reading

variable (reading : Reading)

def Recorded (name : String) (histories : List (List Token)) (tensor : Tensor) : Prop :=
  Records (reading.ledger name) reading.decoder.cacheHeads reading.decoder.headSize histories tensor

def maskRows (rows : List (List Token)) : List (List Nat) :=
  rows.map (Positions.maskRow reading.request.pad reading.request.promptLength)

def positionRows (view : View) : List (List Nat) :=
  List.zipWith (fun past mask => (Positions.runningCounts mask).drop past.length) view.past
    (reading.maskRows view.seen)

def matrix (rows : List (List Nat)) : Tensor :=
  .ofRows (Positions.width rows) rows

/-- The inputs of a stage agree with a view. A name with several roles has the first of token ids,
positions, mask, cache and extra inputs. -/
structure Shows (stage : StageConfig) (view : View) (inputs : Named Tensor) : Prop where
  ids : reading.decoder.inputs.inputIds ∈ stage.inputs →
    inputs.get? reading.decoder.inputs.inputIds = some (matrix view.fed)
  positions : reading.decoder.inputs.positionIds ∈ stage.inputs →
    reading.decoder.inputs.positionIds ≠ reading.decoder.inputs.inputIds →
    inputs.get? reading.decoder.inputs.positionIds = some (matrix (reading.positionRows view))
  mask : reading.decoder.inputs.attentionMask ∈ stage.inputs →
    reading.decoder.inputs.attentionMask ≠ reading.decoder.inputs.inputIds →
    reading.decoder.inputs.attentionMask ≠ reading.decoder.inputs.positionIds →
    inputs.get? reading.decoder.inputs.attentionMask = some (matrix (reading.maskRows view.seen))
  pasts : ∀ names ∈ reading.decoder.cacheNames, names.1 ∈ stage.inputs →
    names.1 ∉ reading.decoder.inputs.placed →
    ∃ tensor, inputs.get? names.1 = some tensor ∧ reading.Recorded names.1 view.past tensor
  extras : ∀ name ∈ stage.inputs, name ∉ reading.decoder.inputs.placed →
    name ∉ reading.decoder.cacheNames.map (·.1) →
    ∀ tensor, (Named.ofPairs reading.request.extraInputs).get? name = some tensor →
    inputs.get? name = some tensor
  others : ∀ name, name ∉ reading.decoder.inputs.placed →
    name ∉ reading.decoder.cacheNames.map (·.1) →
    (Named.ofPairs reading.request.extraInputs).get? name = none →
    ∀ tensor, inputs.get? name = some tensor → reading.carried name view tensor

structure Gives (stage : StageConfig) (view : View) (requested : List String)
    (outputs : Named Tensor) : Prop where
  scores : reading.decoder.outputs.scores ∈ requested →
    ∀ tensor, outputs.get? reading.decoder.outputs.scores = some tensor →
    reading.scored view tensor.shape tensor.floats
  presents : ∀ names ∈ reading.decoder.cacheNames, names.2 ∈ requested →
    names.2 ≠ reading.decoder.outputs.scores → names.1 ∉ reading.decoder.inputs.placed →
    ∀ tensor, outputs.get? names.2 = some tensor → reading.Recorded names.1 view.seen tensor
  others : ∀ name ∈ requested, name ≠ reading.decoder.outputs.scores →
    name ∉ reading.decoder.cacheNames.map (·.2) →
    ∀ tensor, outputs.get? name = some tensor →
    reading.carried ((Stage.ofConfig stage).forwardedName name) view tensor

def Presents (view : View) (stage : StageConfig) (invocation : Invocation) : Prop :=
  stage ∈ reading.decoder.stages ∧ (stage.onPrompt ∨ stage.onToken) ∧
    invocation.stage = stage.id ∧ (∀ name ∈ invocation.outputs, name ∈ stage.outputs) ∧
    reading.Shows stage view invocation.inputs

/-- Whenever the model answers to inputs that show a view, its outputs are those of the view. -/
def Honours {β : Type} (model : Model β) : Prop :=
  ∀ view old new, view.Sized reading.request.rowCount old new → 0 < new →
    ∀ stage invocation, reading.Presents view stage invocation →
    ∀ state outputs after, model invocation state = (.ok outputs, after) →
    reading.Gives stage view invocation.outputs outputs

end Reading

/-- A present is the past of its name, extended in every row by the tokens that are fed. -/
def Model.AppendOnly {β : Type} (decoder : DecoderConfig) (ledger : Ledger) (model : Model β) : Prop :=
  ∀ invocation state outputs after, model invocation state = (.ok outputs, after) →
    ∀ (view : View) (rows old new : Nat), view.Sized rows old new → 0 < new →
    invocation.inputs.get? decoder.inputs.inputIds = some (Reading.matrix view.fed) →
    ∀ names ∈ decoder.layerNames, names.2 ∈ invocation.outputs →
    ∀ past present, invocation.inputs.get? names.1 = some past →
    outputs.get? names.2 = some present →
    Records (ledger names.1) decoder.cacheHeads decoder.headSize view.past past →
    Records (ledger names.1) decoder.cacheHeads decoder.headSize view.seen present

end StagedDecoding
