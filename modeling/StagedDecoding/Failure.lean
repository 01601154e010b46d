import StagedDecoding.Json.Fault
import StagedDecoding.Strategy.Kind
import StagedDecoding.Tensor.Basic

/-! Every way in which decoding can fail, and the wording of each.

A failure is a cause with its data. The wording is derived from it in one place, so that no other
module composes text for people.
-/

set_option autoImplicit false

namespace StagedDecoding

inductive Direction where
  | input
  | output
  deriving DecidableEq, Repr

def Direction.text : Direction → String
  | .input => "input"
  | .output => "output"

def extentsText (extents : List Nat) : String :=
  "[" ++ ", ".intercalate (extents.map Nat.repr) ++ "]"

inductive Requirement where
  | inputMultiple (rows : Nat)
  | promptMultiple (rows : Nat)
  | nonemptyPromptMultiple (rows : Nat)
  | nextMultiple (rows : Nat)
  | rowCount (rows : Nat)
  | singleRow
  | parentBelow (rows : Nat)
  | indexBelow (count : Nat)
  | positionBelow (positions : Nat)
  | candidatesUpTo (count : Nat)
  | survivors (beams : Nat)
  | scoreRank
  | scoreShape (rows vocabulary : Nat)
  | maskWidth (width : Nat)
  deriving DecidableEq, Repr

def Requirement.text : Requirement → String
  | .inputMultiple rows => s!"a multiple of {rows} input ids"
  | .promptMultiple rows => s!"a multiple of {rows} prompt tokens"
  | .nonemptyPromptMultiple rows => s!"a non-empty multiple of {rows} prompt tokens"
  | .nextMultiple rows => s!"a multiple of {rows} next tokens"
  | .rowCount rows => s!"{rows} rows"
  | .singleRow => "a single row"
  | .parentBelow rows => s!"parent row below {rows}"
  | .indexBelow count => s!"index below {count}"
  | .positionBelow positions => s!"token index below {positions}"
  | .candidatesUpTo count => s!"at most {count} candidates"
  | .survivors beams => s!"{beams} surviving beams"
  | .scoreRank => "logits of rank 2 or 3"
  | .scoreShape rows vocabulary => s!"[{rows}, _, {vocabulary}]"
  | .maskWidth width => s!"attention mask of width {width}"

inductive Measure where
  | count (n : Nat)
  | extents (shape : List Nat)
  deriving DecidableEq, Repr

def Measure.text : Measure → String
  | .count n => n.repr
  | .extents shape => extentsText shape

inductive PipelineFault where
  | noStages
  | noProducer (name : String)
  | duplicateStage (id : String)
  | producedLater (stage input later : String)
  | notManaged (name : String)
  deriving DecidableEq, Repr

def PipelineFault.text : PipelineFault → String
  | .noStages => "pipeline has no stages"
  | .noProducer name => s!"no stage produces {name}"
  | .duplicateStage id => s!"duplicate stage id {id}"
  | .producedLater stage input later =>
    s!"stage {stage} consumes {input}, which is only produced by later stage {later}"
  | .notManaged name => s!"{name} is not a managed output"

inductive ConfigFault where
  | noContext
  | noEndToken
  | tensorType (name : String)
  | lengthBeyondContext (length context : Nat)
  | noBeams
  | returnCount (beams : Nat)
  | unsupportedField (name : String)
  | settingsWithoutBeams
  | resultCount (beams : Nat)
  | severalSequences
  | emptyBatch
  | requestWithoutEndToken
  deriving DecidableEq, Repr

def ConfigFault.text : ConfigFault → String
  | .noContext => "model.context_length must be greater than zero"
  | .noEndToken => "model.eos_token_id must name at least one token"
  | .tensorType name => s!"unsupported tensor type {name}"
  | .lengthBeyondContext length context =>
    s!"search.max_length {length} exceeds model.context_length {context}"
  | .noBeams => "search.num_beams must be at least 1"
  | .returnCount beams => s!"search.num_return_sequences must be in 1..={beams}"
  | .unsupportedField name => s!"search.{name} is not supported"
  | .settingsWithoutBeams => "num_beams must be at least 1"
  | .resultCount beams => s!"num_return_sequences must be in 1..={beams}"
  | .severalSequences => "speculative search drives a single sequence"
  | .emptyBatch => "batch_size must be at least 1"
  | .requestWithoutEndToken => "at least one end token is required"

inductive ModelFault where
  | refused (reason : String)
  | tensor (fault : TensorFault)
  deriving DecidableEq, Repr

/-- A broken assumption of this library itself. Operations report one instead of continuing with
a made-up value. -/
inductive Defect where
  | index
  | divisor
  | underflow
  deriving DecidableEq, Repr

inductive Failure where
  | deviceMismatch (stage tensor : String) (direction : Direction) (device : String)
  | unsupportedDevice (name : String)
  | model (stage : String) (fault : ModelFault)
  | missingOutput (stage output : String)
  | unsupportedOperation (strategy : StrategyKind) (operation : Operation)
  | pipeline (fault : PipelineFault)
  | config (fault : ConfigFault)
  | unreadable (fault : Json.Fault)
  | shape (expected : Requirement) (actual : Measure)
  | overflow (capacity : Nat)
  | rollback (requested available : Nat)
  | scoresMissing
  | tensor (fault : TensorFault)
  | defect (kind : Defect)
  deriving DecidableEq, Repr

def Failure.message : Failure → String
  | .deviceMismatch stage name direction device =>
    s!"managed {direction.text} {name} resides on the primary device type ({device}), " ++
      s!"but stage {stage} is expecting it to reside elsewhere"
  | .unsupportedDevice name => s!"device type {name} is not supported in pipeline models"
  | .model stage (.refused reason) => s!"stage {stage} failed: {reason}"
  | .model stage (.tensor _) => s!"stage {stage} failed: tensor error"
  | .missingOutput stage output => s!"stage {stage} did not produce requested output {output}"
  | .unsupportedOperation strategy operation =>
    s!"{strategy.text} search does not support {operation.text}"
  | .pipeline fault => "invalid pipeline: " ++ fault.text
  | .config fault => "invalid config: " ++ fault.text
  | .unreadable _ => "config parse error"
  | .shape expected actual => s!"shape mismatch: expected {expected.text}, got {actual.text}"
  | .overflow capacity => s!"sequence overflow: capacity {capacity} reached"
  | .rollback requested available =>
    s!"invalid rollback: requested {requested}, available {available}"
  | .scoresMissing => "logits must be computed before selecting the next token"
  | .tensor _ => "tensor error"
  | .defect _ => "internal error"

/-- An operation on a state that may fail. The state is there afterwards either way, because a
failure may leave part of the operation done. -/
abbrev Step (σ α : Type) := ExceptT Failure (StateM σ) α

namespace Step

def within {σ τ α : Type} (part : σ → τ) (replace : τ → σ → σ) (step : Step τ α) : Step σ α :=
  fun state =>
    let (result, changed) := step (part state)
    (result, replace changed state)

def withinOption {σ τ : Type} (part : σ → Option τ) (replace : τ → σ → σ) (step : Step τ Unit) :
    Step σ Unit := fun state =>
  match part state with
  | none => (.ok (), state)
  | some value =>
    let (result, changed) := step value
    (result, replace changed state)

/-- An operation that changes the state only when it succeeds. -/
def attempt {σ : Type} (change : σ → Except Failure σ) : Step σ Unit := fun state =>
  match change state with
  | .ok next => (.ok (), next)
  | .error failure => (.error failure, state)

def inspect {σ α : Type} (view : σ → Except Failure α) : Step σ α := fun state =>
  (view state, state)

end Step

/-- An element that is there by construction of the list. -/
def fetch {α : Type} (values : List α) (i : Nat) : Except Failure α :=
  match values[i]? with
  | some value => .ok value
  | none => .error (.defect .index)

def store {α : Type} (values : List α) (i : Nat) (value : α) : Except Failure (List α) :=
  if i < values.length then .ok (values.set i value) else .error (.defect .index)

def divide (n divisor : Nat) : Except Failure (Nat × Nat) :=
  if divisor = 0 then .error (.defect .divisor) else .ok (n / divisor, n % divisor)

def tensorStep {α : Type} : Except TensorFault α → Except Failure α
  | .ok value => .ok value
  | .error fault => .error (.tensor fault)

end StagedDecoding
