import StagedDecoding.Config.Validation
import StagedDecoding.Json.Decode

/-! Configurations as documents.

The document has the records `model` and `search`. Stages and providers are lists of records with
a single key, which is the identity of the entry.
-/

set_option autoImplicit false

namespace StagedDecoding

open Json (Decoder FieldDecoder)

namespace Provider

def decodeList : Decoder (List Provider) := fun tree =>
  (·.map fun (name, options) => ⟨name, options⟩) <$>
    Decoder.pairs (Decoder.dictionary .text) tree

end Provider

namespace SessionOptions

def fields : List (FieldDecoder SessionOptions) :=
  [.of "log_id" (.optional .text) fun v s => { s with logId := v },
    .of "enable_profiling" (.optional .text) fun v s => { s with profiling := v },
    .of "intra_op_num_threads" (.optional .word) fun v s => { s with intraThreads := v },
    .of "inter_op_num_threads" (.optional .word) fun v s => { s with interThreads := v },
    .of "log_severity_level" (.optional .signed) fun v s => { s with logSeverity := v },
    .of "enable_cpu_mem_arena" (.optional .boolean) fun v s => { s with memoryArena := v },
    .of "enable_mem_pattern" (.optional .boolean) fun v s => { s with memoryPattern := v },
    .of "provider_options" Provider.decodeList fun v s => { s with providers := v }]

def decode : Decoder SessionOptions := .structured fields .empty

end SessionOptions

namespace StageConfig

def fields : List (FieldDecoder StageConfig) :=
  [.of "filename" (.optional .text) fun v s => { s with filename := v },
    .of "inputs" (.list .text) fun v s => { s with inputs := v },
    .of "outputs" (.list .text) fun v s => { s with outputs := v },
    .of "session_options" (.optional SessionOptions.decode) fun v s => { s with options := v },
    .of "run_on_prompt" .boolean fun v s => { s with onPrompt := v },
    .of "run_on_token_gen" .boolean fun v s => { s with onToken := v },
    .of "output_names_forwarder" (.dictionary .text) fun v s => { s with forward := v }]

def decode : Decoder StageConfig := .structured fields (.named "")

def decodeList : Decoder (List StageConfig) := fun tree =>
  (·.map fun (id, stage) => { stage with id := id }) <$> Decoder.pairs decode tree

end StageConfig

namespace InputNames

def fields : List (FieldDecoder InputNames) :=
  [.of "input_ids" .text fun v s => { s with inputIds := v },
    .of "inputs_embeds" .text fun v s => { s with embeddings := v },
    .of "attention_mask" .text fun v s => { s with attentionMask := v },
    .of "position_ids" .text fun v s => { s with positionIds := v },
    .of "past_key_names" .text fun v s => { s with pastKeys := v },
    .of "past_value_names" .text fun v s => { s with pastValues := v }]

def decode : Decoder InputNames := .structured fields .standard

end InputNames

namespace OutputNames

def fields : List (FieldDecoder OutputNames) :=
  [.of "logits" .text fun v s => { s with scores := v },
    .of "present_key_names" .text fun v s => { s with presentKeys := v },
    .of "present_value_names" .text fun v s => { s with presentValues := v }]

def decode : Decoder OutputNames := .structured fields .standard

end OutputNames

namespace DecoderConfig

def fields : List (FieldDecoder DecoderConfig) :=
  [.of "filename" (.optional .text) fun v s => { s with filename := v },
    .of "session_options" (.optional SessionOptions.decode) fun v s => { s with options := v },
    .of "hidden_size" .long fun v s => { s with hiddenSize := v },
    .of "num_attention_heads" .long fun v s => { s with attentionHeads := v },
    .of "num_key_value_heads" .long fun v s => { s with cacheHeads := v },
    .of "num_hidden_layers" .long fun v s => { s with layers := v },
    .of "head_size" .long fun v s => { s with headSize := v },
    .of "kv_cache_type" .text fun v s => { s with cacheType := v },
    .of "inputs" InputNames.decode fun v s => { s with inputs := v },
    .of "outputs" OutputNames.decode fun v s => { s with outputs := v },
    .of "pipeline" StageConfig.decodeList fun v s => { s with stages := v }]

def decode : Decoder DecoderConfig := .structured fields .standard

end DecoderConfig

structure ModelDraft where
  family : String
  vocabulary : Option Nat
  context : Option Nat
  pad : Token
  endTokens : Option (List Token)
  beginning : Option Token
  decoder : Option DecoderConfig

namespace ModelDraft

def fields : List (FieldDecoder ModelDraft) :=
  [.of "type" .text fun v s => { s with family := v },
    .of "vocab_size" .long fun v s => { s with vocabulary := some v },
    .of "context_length" .long fun v s => { s with context := some v },
    .of "pad_token_id" .word fun v s => { s with pad := v },
    .of "eos_token_id" .tokens fun v s => { s with endTokens := some v },
    .of "bos_token_id" (.optional .word) fun v s => { s with beginning := v },
    .of "decoder" DecoderConfig.decode fun v s => { s with decoder := some v }]

def complete (draft : ModelDraft) : Except Json.Fault ModelConfig :=
  match draft.vocabulary, draft.context, draft.endTokens, draft.decoder with
  | some vocabulary, some context, some endTokens, some decoder =>
    .ok ⟨draft.family, vocabulary, context, draft.pad, endTokens, draft.beginning, decoder⟩
  | _, _, _, _ => .error .mistyped

end ModelDraft

def ModelConfig.decode : Decoder ModelConfig := fun tree => do
  (← Decoder.structured ModelDraft.fields ⟨"", none, none, 0, none, none, none⟩ tree).complete

namespace SearchConfig

def fields : List (FieldDecoder SearchConfig) :=
  [.of "min_length" .long fun v s => { s with minLength := v },
    .of "max_length" .long fun v s => { s with maxLength := v },
    .of "num_beams" .long fun v s => { s with beams := v },
    .of "num_return_sequences" .long fun v s => { s with returnCount := v },
    .of "top_k" .long fun v s => { s with topK := v },
    .of "top_p" .float fun v s => { s with topP := v },
    .of "temperature" .float fun v s => { s with temperature := v },
    .of "repetition_penalty" .float fun v s => { s with repetitionPenalty := v },
    .of "length_penalty" .float fun v s => { s with lengthPenalty := v },
    .of "no_repeat_ngram_size" .long fun v s => { s with noRepeatSize := v },
    .of "diversity_penalty" .float fun v s => { s with diversityPenalty := v },
    .of "random_seed" (.optional .long) fun v s => { s with seed := v.map UInt64.ofNat },
    .of "do_sample" .boolean fun v s => { s with sample := v },
    .of "past_present_share_buffer" .boolean fun v s => { s with shareBuffer := v },
    .of "early_stopping" .boolean fun v s => { s with earlyStopping := v }]

def decode : Decoder SearchConfig := .structured fields .standard

end SearchConfig

namespace Config

def fields : List (FieldDecoder (Option ModelConfig × SearchConfig)) :=
  [.of "model" ModelConfig.decode fun v s => (some v, s.2),
    .of "search" SearchConfig.decode fun v s => (s.1, v)]

def decode : Decoder Config := fun tree => do
  match ← Decoder.structured fields (none, .standard) tree with
  | (some model, search) => return ⟨model, search⟩
  | (none, _) => throw .mistyped

def ofText (text : String) : Except Failure Config :=
  match Json.decodeText decode text with
  | .ok config => config.validate
  | .error fault => .error (.unreadable fault)

end Config

end StagedDecoding
