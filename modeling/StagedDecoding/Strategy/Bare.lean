import StagedDecoding.Histories

/-! The least that a strategy can be: histories that nothing ever moves. -/

set_option autoImplicit false

namespace StagedDecoding

structure BareStrategy where
  kind : StrategyKind
  histories : Histories
  deriving DecidableEq, Repr

namespace BareStrategy

def start (kind : StrategyKind) (inputIds : List Token) (batch capacity : Nat) :
    Except Failure BareStrategy := do
  return ⟨kind, ← Histories.start inputIds batch 1 capacity⟩

def realLengths (s : BareStrategy) : List Nat :=
  List.replicate s.histories.rowCount s.histories.length

def refusals (s : BareStrategy) : List Failure :=
  Operation.optional.map (.unsupportedOperation s.kind)

end BareStrategy

end StagedDecoding
