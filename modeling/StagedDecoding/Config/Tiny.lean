import StagedDecoding.Config.Validation

/-! A small configuration to try pipelines with. -/

set_option autoImplicit false

namespace StagedDecoding.Config

def tiny (stages : List StageConfig) : Except Failure Config :=
  Config.validate {
    model := {
      family := "decoder-pipeline"
      vocabulary := 16
      context := 32
      pad := 0
      endTokens := [2]
      beginning := some 1
      decoder := { DecoderConfig.standard with
        hiddenSize := 8
        attentionHeads := 2
        cacheHeads := 2
        layers := 1
        headSize := 4
        stages := stages } }
    search := .standard }

end StagedDecoding.Config
