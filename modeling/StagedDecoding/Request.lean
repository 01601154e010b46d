import StagedDecoding.Config.Basic
import StagedDecoding.Strategy.Settings

/-! One request: a prompt for every batch entry and the settings to decode it with. -/

set_option autoImplicit false

namespace StagedDecoding

structure Request where
  search : SearchConfig
  batchSize : Nat
  /-- The prompts, row after row, all of one length. -/
  inputIds : List Token
  pad : Token
  endTokens : List Token
  vocabulary : Nat
  context : Nat
  /-- Further inputs of the caller, bound by name in every step. -/
  extraInputs : List (String × Tensor)
  /-- Whether drafts are to be verified. -/
  speculative : Bool
  deriving Repr

namespace Request

def ofConfig (config : Config) (batchSize : Nat) (inputIds : List Token) : Request where
  search := config.search
  batchSize := batchSize
  inputIds := inputIds
  pad := config.model.pad
  endTokens := config.model.endTokens
  vocabulary := config.model.vocabulary
  context := config.model.context
  extraInputs := []
  speculative := false

def beams (request : Request) : Nat := max request.search.beams 1

def rowCount (request : Request) : Nat := request.batchSize * request.beams

def promptLength (request : Request) : Nat := request.inputIds.length / request.batchSize

def expandedIds (request : Request) : List Token :=
  let length := request.promptLength
  if request.beams = 1 || length = 0 then request.inputIds
  else
    let rows := (request.inputIds.length + length - 1) / length
    (Tensor.blocks length rows request.inputIds).flatMap fun row =>
      (List.replicate request.beams row).flatten

def settings (request : Request) : Settings where
  batchSize := request.batchSize
  beams := request.beams
  returnCount := request.search.returnCount
  maxLength :=
    if request.search.maxLength = 0 then request.context else request.search.maxLength
  vocabulary := request.vocabulary
  pad := request.pad
  endTokens := request.endTokens
  lengthPenalty := request.search.lengthPenalty
  earlyStopping := request.search.earlyStopping
  seed := request.search.seed
  minLength := request.search.minLength
  repetitionPenalty := request.search.repetitionPenalty

def validate (request : Request) : Except Failure Unit := do
  if request.batchSize = 0 then throw (.config .emptyBatch)
  if request.inputIds.isEmpty || request.inputIds.length % request.batchSize ≠ 0 then
    throw (.shape (.nonemptyPromptMultiple request.batchSize) (.count request.inputIds.length))
  if request.endTokens.isEmpty then throw (.config .requestWithoutEndToken)

end Request

end StagedDecoding
