import StagedDecoding.Failure
import StagedDecoding.Named
import StagedDecoding.Scores.Basic

/-! The configuration of a decoder: its model, its stages, and how to search. -/

set_option autoImplicit false

namespace StagedDecoding

structure Provider where
  name : String
  options : Named String
  deriving DecidableEq, Repr

structure SessionOptions where
  logId : Option String
  profiling : Option String
  intraThreads : Option Nat
  interThreads : Option Nat
  logSeverity : Option Int
  memoryArena : Option Bool
  memoryPattern : Option Bool
  providers : List Provider
  deriving DecidableEq, Repr

namespace SessionOptions

def empty : SessionOptions :=
  ⟨none, none, none, none, none, none, none, []⟩

def listsProvider (name : String) (options : SessionOptions) : Bool :=
  options.providers.any (·.name == name)

end SessionOptions

structure StageConfig where
  id : String
  filename : Option String
  inputs : List String
  outputs : List String
  options : Option SessionOptions
  onPrompt : Bool
  onToken : Bool
  /-- New names of outputs for the stages that follow. -/
  forward : Named String
  deriving DecidableEq, Repr

def StageConfig.named (id : String) : StageConfig :=
  ⟨id, none, [], [], none, true, true, []⟩

/-- Names of the inputs that a session fills. The last two are patterns with a place for the
number of a layer. -/
structure InputNames where
  inputIds : String
  embeddings : String
  attentionMask : String
  positionIds : String
  pastKeys : String
  pastValues : String
  deriving DecidableEq, Repr

def InputNames.standard : InputNames :=
  ⟨"input_ids", "inputs_embeds", "attention_mask", "position_ids",
    "past_key_values.%d.key", "past_key_values.%d.value"⟩

structure OutputNames where
  scores : String
  presentKeys : String
  presentValues : String
  deriving DecidableEq, Repr

def OutputNames.standard : OutputNames :=
  ⟨"logits", "present.%d.key", "present.%d.value"⟩

structure DecoderConfig where
  filename : Option String
  options : Option SessionOptions
  hiddenSize : Nat
  attentionHeads : Nat
  cacheHeads : Nat
  layers : Nat
  headSize : Nat
  cacheType : String
  inputs : InputNames
  outputs : OutputNames
  stages : List StageConfig
  deriving DecidableEq, Repr

def DecoderConfig.standard : DecoderConfig :=
  ⟨none, none, 0, 0, 0, 0, 0, "float32", .standard, .standard, []⟩

def elementType (name : String) : Except Failure ElementType :=
  if name = "float32" then .ok .f32
  else if name = "float16" then .ok .f16
  else .error (.config (.tensorType name))

structure ModelConfig where
  family : String
  vocabulary : Nat
  context : Nat
  pad : Token
  /-- The first one is the primary end token. -/
  endTokens : List Token
  beginning : Option Token
  decoder : DecoderConfig
  deriving DecidableEq, Repr

def ModelConfig.primaryEnd (model : ModelConfig) : Token :=
  model.endTokens.headD model.pad

structure SearchConfig where
  minLength : Nat
  /-- Zero stands for the context length of the model. -/
  maxLength : Nat
  beams : Nat
  returnCount : Nat
  topK : Nat
  topP : Float32
  temperature : Float32
  repetitionPenalty : Float32
  lengthPenalty : Float32
  noRepeatSize : Nat
  diversityPenalty : Float32
  seed : Option UInt64
  sample : Bool
  shareBuffer : Bool
  earlyStopping : Bool
  deriving Repr

def SearchConfig.standard : SearchConfig :=
  ⟨0, 0, 1, 1, 50, 0, 1, 1, 1, 0, 0, none, false, false, true⟩

structure Config where
  model : ModelConfig
  search : SearchConfig
  deriving Repr

def expandPattern (digits : List Char) : List Char → List Char
  | [] => []
  | '%' :: 'd' :: rest => digits ++ expandPattern digits rest
  | c :: rest => c :: expandPattern digits rest

def layerName (pattern : String) (layer : Nat) : String :=
  String.ofList (expandPattern layer.repr.toList pattern.toList)

end StagedDecoding
