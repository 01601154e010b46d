import StagedDecoding.Config.Basic

/-! Conditions across the fields of a configuration, and defaults derived from other fields. -/

set_option autoImplicit false

namespace StagedDecoding

/-- The first element that occurs again later in a list, at its second occurrence. -/
def firstRepeated : List String → List String → Option String
  | _, [] => none
  | seen, id :: rest => if seen.contains id then some id else firstRepeated (id :: seen) rest

def DecoderConfig.fillSizes (decoder : DecoderConfig) : DecoderConfig :=
  { decoder with
    cacheHeads := if decoder.cacheHeads = 0 then decoder.attentionHeads else decoder.cacheHeads
    headSize :=
      if decoder.headSize = 0 && 0 < decoder.attentionHeads then
        decoder.hiddenSize / decoder.attentionHeads
      else decoder.headSize }

namespace SearchConfig

/-- Fields that a document may hold, but only with their default values. -/
def unsupported (search : SearchConfig) : List (String × Bool) :=
  [("no_repeat_ngram_size", search.noRepeatSize ≠ 0),
    ("diversity_penalty", search.diversityPenalty != 0),
    ("past_present_share_buffer", search.shareBuffer)]

def validate (context : Nat) (search : SearchConfig) : Except Failure SearchConfig := do
  let maxLength := if search.maxLength = 0 then context else search.maxLength
  if context < maxLength then throw (.config (.lengthBeyondContext maxLength context))
  if search.beams = 0 then throw (.config .noBeams)
  if search.returnCount = 0 || search.beams < search.returnCount then
    throw (.config (.returnCount search.beams))
  match search.unsupported.find? (·.2) with
  | some (name, _) => throw (.config (.unsupportedField name))
  | none => return { search with maxLength := maxLength }

end SearchConfig

def Config.validate (config : Config) : Except Failure Config := do
  let model := config.model
  if model.context = 0 then throw (.config .noContext)
  if model.endTokens.isEmpty then throw (.config .noEndToken)
  let decoder := model.decoder.fillSizes
  let _ ← elementType decoder.cacheType
  match firstRepeated [] (decoder.stages.map (·.id)) with
  | some id => throw (.pipeline (.duplicateStage id))
  | none => pure ()
  let search ← config.search.validate model.context
  return ⟨{ model with decoder := decoder }, search⟩

end StagedDecoding
