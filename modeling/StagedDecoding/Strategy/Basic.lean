import StagedDecoding.Strategy.Beam
import StagedDecoding.Strategy.Speculative

/-! The search strategies behind one set of operations.

A step loads scores, may constrain them, and then selects or samples, which commits tokens. An
operation that a strategy does not have is refused, never skipped.
-/

set_option autoImplicit false

namespace StagedDecoding

inductive Strategy where
  | greedy (state : Greedy)
  | beam (state : Beam)
  | speculative (state : Speculative)
  deriving Repr

namespace Strategy

def create (settings : Settings) (inputIds : List Token) (speculative : Bool) :
    Except Failure Strategy :=
  if speculative then Strategy.speculative <$> Speculative.start settings inputIds
  else if 1 < settings.beams then Strategy.beam <$> Beam.start settings inputIds
  else Strategy.greedy <$> Greedy.start settings inputIds false

def kind : Strategy → StrategyKind
  | .greedy _ => .greedy
  | .beam _ => .beam
  | .speculative _ => .speculative

def settings : Strategy → Settings
  | .greedy g => g.settings
  | .beam b => b.settings
  | .speculative s => s.inner.settings

def histories : Strategy → Histories
  | .greedy g => g.histories
  | .beam b => b.histories
  | .speculative s => s.inner.histories

/-- The tokens of the latest selection: one per row, or a committed run. -/
def nextTokens : Strategy → List Token
  | .greedy g => g.nextTokens
  | .beam b => b.nextTokens
  | .speculative s => s.inner.nextTokens

/-- The parent of every row after the latest selection, empty where rows never move. -/
def nextIndices : Strategy → List Nat
  | .greedy _ => []
  | .beam b => b.nextIndices
  | .speculative _ => []

def isDone : Strategy → Bool
  | .greedy g => g.done
  | .beam b => b.done
  | .speculative s => s.inner.done

def length (s : Strategy) : Nat := s.histories.length

def realLengths (s : Strategy) : List Nat :=
  s.histories.realLengths s.settings.pad

def byCases {α : Type} (greedy : Step Greedy α) (beam : Step Beam α)
    (speculative : Step Speculative α) : Step Strategy α
  | .greedy g => let (result, g) := greedy g; (result, .greedy g)
  | .beam b => let (result, b) := beam b; (result, .beam b)
  | .speculative s => let (result, s) := speculative s; (result, .speculative s)

def rowBased {α : Type} (operation : Operation) (step : Step Greedy α) : Step Strategy α :=
  byCases step (throw (.unsupportedOperation .beam operation)) (Speculative.inside step)

def draftOnly {α : Type} (operation : Operation) (step : Step Speculative α) : Step Strategy α :=
  byCases (throw (.unsupportedOperation .greedy operation))
    (throw (.unsupportedOperation .beam operation)) step

def setScores (tensor : Tensor) : Step Strategy Unit :=
  byCases (Greedy.setScores tensor) (Beam.setScores tensor) (Speculative.setScores tensor)

def selectTop : Step Strategy Unit :=
  byCases Greedy.selectTop (Beam.selectTop .native) (Speculative.inside Greedy.selectTop)

def sampleTop (k : Nat) (temperature : Float32) : Step Strategy Unit :=
  rowBased .sampleTop (Greedy.sample ⟨some k, none, temperature⟩)

def sampleShare (p temperature : Float32) : Step Strategy Unit :=
  rowBased .sampleShare (Greedy.sample ⟨none, some p, temperature⟩)

def sampleTopShare (k : Nat) (p temperature : Float32) : Step Strategy Unit :=
  rowBased .sampleTopShare (Greedy.sample ⟨some k, some p, temperature⟩)

def constrainLength (minLength : Nat) : Step Strategy Unit :=
  byCases (Greedy.constrainLength minLength) (Beam.constrainLength minLength)
    (Speculative.inside (Greedy.constrainLength minLength))

def penalize (penalty : Float32) : Step Strategy Unit :=
  byCases (Greedy.penalize penalty) (Beam.penalize penalty)
    (Speculative.inside (Greedy.penalize penalty))

def dropLast (count : Nat) : Step Strategy Unit :=
  rowBased .dropLast (Greedy.dropLast count)

def setNextTokens (tokens : List Token) : Step Strategy Unit :=
  rowBased .setNextTokens (Greedy.setNextTokens tokens)

def checkCandidates (tokens : List Token) (count : Nat) : Step Strategy Verdict :=
  draftOnly .checkCandidates (Speculative.checkCandidates tokens count)

def constrainLengthAt (minLength position : Nat) : Step Strategy Unit :=
  draftOnly .constrainLengthAt (Speculative.constrainLengthAt minLength position)

def penalizeAt (penalty : Float32) (position : Nat) : Step Strategy Unit :=
  draftOnly .penalizeAt (Speculative.penalizeAt penalty position)

def finalize (count : Nat) : Step Strategy (List Scored) :=
  byCases (throw (.unsupportedOperation .greedy .finalize)) (Beam.finalize count)
    (throw (.unsupportedOperation .speculative .finalize))

/-- A result by its index; for beam search the first question fixes the results. -/
def sequence (index : Nat) : Step Strategy (List Token) :=
  byCases (Greedy.sequence index) (Beam.sequence index)
    (Speculative.inside (Greedy.sequence index))

end Strategy

end StagedDecoding
