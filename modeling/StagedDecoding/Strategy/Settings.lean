import StagedDecoding.Scores.Basic

/-! What a search strategy has to know about the batch it drives. -/

set_option autoImplicit false

namespace StagedDecoding

structure Settings where
  batchSize : Nat
  beams : Nat
  returnCount : Nat
  maxLength : Nat
  /-- The number of tokens; zero accepts scores over any vocabulary. -/
  vocabulary : Nat
  pad : Token
  endTokens : List Token
  lengthPenalty : Float32
  earlyStopping : Bool
  seed : Option UInt64
  /-- Constraints that draft verification applies by itself. -/
  minLength : Nat
  repetitionPenalty : Float32
  deriving Repr

def Settings.rowCount (settings : Settings) : Nat :=
  settings.batchSize * settings.beams

def Settings.isEnd (settings : Settings) (token : Token) : Bool :=
  settings.endTokens.contains token

end StagedDecoding
