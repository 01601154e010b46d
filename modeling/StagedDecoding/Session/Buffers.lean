import StagedDecoding.Pipeline.Basic
import StagedDecoding.Request
import StagedDecoding.Session.LayerCache
import StagedDecoding.Session.Positions

/-! The managed buffers of a session.

Token ids are always there. Positions, mask and cache exist only if some stage declares their
names; inputs of the caller are bound unchanged in every step.
-/

set_option autoImplicit false

namespace StagedDecoding

structure Buffers where
  rows : Nat
  names : InputNames
  scoresName : String
  /-- The tokens to feed, by row. -/
  inputIds : List (List Token)
  positions : Option Positions
  cache : Option LayerCache
  extraInputs : Named Tensor
  scores : Option Tensor
  inputNames : List String
  outputNames : List String
  deriving Repr

namespace Buffers

def idRows (rows : Nat) (tokens : List Token) : Except Failure (List (List Token)) :=
  let columns := tokens.length / max rows 1
  if rows * columns = tokens.length then .ok (Tensor.blocks columns rows tokens)
  else .error (.tensor .elementCount)

def create (config : Config) (request : Request) (stages : List Stage) :
    Except Failure Buffers := do
  let decoder := config.model.decoder
  let names := decoder.inputs
  let declared (name : String) : Bool := stages.any (·.hasInput name)
  let rows := request.rowCount
  let prompt := request.expandedIds
  let inputIds ← idRows rows prompt
  let wantsIds := declared names.positionIds
  let wantsMask := declared names.attentionMask
  let positions ←
    if wantsIds || wantsMask then some <$> Positions.ofPrompt prompt rows request.pad
    else pure none
  let cache ←
    if 0 < decoder.layers && declared (layerName names.pastKeys 0) then
      some <$> LayerCache.ofConfig decoder rows
    else pure none
  return {
    rows := rows
    names := names
    scoresName := decoder.outputs.scores
    inputIds := inputIds
    positions := positions
    cache := cache
    extraInputs := Named.ofPairs request.extraInputs
    scores := none
    inputNames := names.inputIds ::
      ((if wantsIds then [names.positionIds] else []) ++
        (if wantsMask then [names.attentionMask] else []) ++
        (cache.map LayerCache.pastNames).getD [] ++ request.extraInputs.map (·.1))
    outputNames := decoder.outputs.scores :: (cache.map LayerCache.presentNames).getD [] }

def idsTensor (buffers : Buffers) : Tensor :=
  .ofRows (Positions.width buffers.inputIds) buffers.inputIds

/-- The tensor of a managed input. The first source that knows the name has it. -/
def input (name : String) (buffers : Buffers) : Option Tensor :=
  if name = buffers.names.inputIds then some buffers.idsTensor
  else
    let placed := buffers.positions.bind fun positions =>
      if name = buffers.names.positionIds then some positions.idsTensor
      else if name = buffers.names.attentionMask then some positions.maskTensor
      else none
    let past := buffers.cache.bind (·.past name)
    (placed.or past).or (buffers.extraInputs.get? name)

def store (name : String) (tensor : Tensor) (buffers : Buffers) : Except Failure Buffers :=
  if name = buffers.scoresName then
    .ok { buffers with scores := some (tensor.convert .f32) }
  else
    match buffers.cache.bind (·.store? name tensor) with
    | some cache => .ok { buffers with cache := some cache }
    | none => .error (.pipeline (.notManaged name))

def output (name : String) (buffers : Buffers) : Option Tensor :=
  if name = buffers.scoresName then buffers.scores
  else buffers.cache.bind (·.present name)

instance : ManagedBuffers Buffers where
  inputNames := Buffers.inputNames
  input := input
  outputNames := Buffers.outputNames
  store := store
  output := output

def onPositions (step : Step Positions Unit) : Step Buffers Unit :=
  .withinOption Buffers.positions
    (fun positions buffers => { buffers with positions := some positions }) step

def onCache (step : Step LayerCache Unit) : Step Buffers Unit :=
  .withinOption Buffers.cache (fun cache buffers => { buffers with cache := some cache }) step

/-- Prepare the inputs of the next step from chosen tokens, the same number for every row. Indices
name the parent of every row if rows have moved. -/
def update (tokens : List Token) (indices : List Nat) (length : Nat) : Step Buffers Unit := do
  let buffers ← get
  if !tokens.isEmpty && buffers.rows = 0 then throw (.defect .divisor)
  if tokens.isEmpty || tokens.length % buffers.rows ≠ 0 then
    throw (.shape (.nextMultiple buffers.rows) (.count tokens.length))
  let inputIds ← idRows buffers.rows tokens
  set { buffers with inputIds := inputIds }
  onPositions (Positions.update (tokens.length / buffers.rows) length)
  onCache (LayerCache.update indices)
  modify fun buffers => { buffers with scores := none }

def rollback (count : Nat) : Step Buffers Unit := do
  onPositions (Positions.rollback count)
  onCache (LayerCache.rollback count)

end Buffers

end StagedDecoding
