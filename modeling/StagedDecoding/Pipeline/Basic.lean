import StagedDecoding.Model.Basic
import StagedDecoding.Pipeline.Stage

/-! Running the stages of a decoder for one step.

A stage gets its inputs from two sources. Managed buffers belong to the session and outlive the
step. Everything else that a stage gives goes into a pool that lives for one step, where a later
tensor replaces an earlier one of its name. A name that is in both comes from the buffers.
-/

set_option autoImplicit false

namespace StagedDecoding

/-- Buffers that a session fills and keeps between steps. -/
class ManagedBuffers (μ : Type) where
  /-- The names of managed inputs, in the order in which they are bound. -/
  inputNames : μ → List String
  input : String → μ → Option Tensor
  outputNames : μ → List String
  store : String → Tensor → μ → Except Failure μ
  output : String → μ → Option Tensor

namespace ManagedBuffers

variable {μ : Type} [ManagedBuffers μ]

def isInput (name : String) (buffers : μ) : Bool := (inputNames buffers).contains name

def isOutput (name : String) (buffers : μ) : Bool := (outputNames buffers).contains name

end ManagedBuffers

structure Pipeline where
  stages : List Stage
  primary : Device
  scoresName : String
  deriving Repr

namespace Pipeline

variable {μ : Type} [ManagedBuffers μ] {β : Type}

def create (configs : List StageConfig) (primary : Device) (registry : DeviceRegistry)
    (scoresName : String) : Except Failure Pipeline := do
  registry.require primary
  if configs.isEmpty then throw (.pipeline .noStages)
  let stages := configs.map Stage.ofConfig
  if !stages.any (·.hasOutput scoresName) then throw (.pipeline (.noProducer scoresName))
  return ⟨stages, primary, scoresName⟩

/-- Look for inputs that are neither managed nor given by an earlier stage, but by a later one. -/
def checkStages (buffers : μ) (available : List String) : List Stage → Except Failure Unit
  | [] => .ok ()
  | stage :: later => do
    for input in stage.declaredInputs do
      if !ManagedBuffers.isInput input buffers && !available.contains input then
        match later.find? (·.produces input) with
        | some producer =>
          throw (.pipeline (.producedLater stage.id input producer.id))
        | none => pure ()
    let outputs := stage.config.outputs.map stage.forwardedName
    checkStages buffers (available ++ outputs) later

def validateDataflow (buffers : μ) (pipeline : Pipeline) : Except Failure Unit :=
  checkStages buffers [] pipeline.stages

def bindManaged (buffers : μ) (stage : Stage) : Stage :=
  (ManagedBuffers.inputNames buffers).foldl (fun stage name =>
    if stage.hasInput name then
      match ManagedBuffers.input name buffers with
      | some tensor => stage.bind name tensor
      | none => stage
    else stage) stage

def bindPool (pool : Named Tensor) (stage : Stage) : Stage :=
  pool.foldl (fun stage (name, tensor) =>
    if stage.hasInput name && !stage.isBound name then stage.bind name tensor else stage) stage

/-- Request the managed outputs that a stage declares, then all its other outputs. -/
def requestOutputs (buffers : μ) (stage : Stage) : Stage :=
  (((ManagedBuffers.outputNames buffers).filter (stage.hasOutput ·)) ++ stage.config.outputs).foldl
    (fun stage name => stage.request name) stage

/-- Wire a stage for a step. A stage that does not support the primary device may not declare any
managed name. -/
def wire (primary : Device) (buffers : μ) (pool : Named Tensor) : Step Stage Unit := do
  modify Stage.clear
  let stage ← get
  let supported := stage.supports primary
  match (ManagedBuffers.inputNames buffers).find? (stage.hasInput ·) with
  | some name =>
    if !supported then throw (.deviceMismatch stage.id name .input primary.name)
  | none => pure ()
  modify fun stage => bindPool pool (bindManaged buffers stage)
  match (ManagedBuffers.outputNames buffers).find? (stage.hasOutput ·) with
  | some name =>
    if !supported then throw (.deviceMismatch stage.id name .output primary.name)
  | none => pure ()
  modify (requestOutputs buffers)

/-- Give the outputs of a stage to the buffers or to the pool, in the order of the request. The
result is the new pool; buffers keep what they got before a failure. -/
def deliver (stage : Stage) (outputs : Named Tensor) :
    List String → Named Tensor → Step μ (Named Tensor)
  | [], pool => pure pool
  | name :: rest, pool => do
    match outputs.get? name with
    | none => throw (.missingOutput stage.id name)
    | some tensor =>
      if ManagedBuffers.isOutput name (← get) then
        Step.attempt (ManagedBuffers.store name tensor)
        deliver stage outputs rest pool
      else deliver stage outputs rest (pool.insert (stage.forwardedName name) tensor)

def runStages (model : Model β) (primary : Device) (phase : Phase) :
    List Stage → Named Tensor → μ → β → Except Failure Unit × List Stage × μ × β
  | [], _, buffers, state => (.ok (), [], buffers, state)
  | stage :: rest, pool, buffers, state =>
    if stage.runsIn phase then
      match wire primary buffers pool stage with
      | (.error failure, stage) => (.error failure, stage :: rest, buffers, state)
      | (.ok (), stage) =>
        match model ⟨stage.id, stage.bound, stage.requested⟩ state with
        | (.error fault, state) => (.error (.model stage.id fault), stage :: rest, buffers, state)
        | (.ok outputs, state) =>
          match deliver stage outputs stage.requested pool buffers with
          | (.error failure, buffers) => (.error failure, stage :: rest, buffers, state)
          | (.ok pool, buffers) =>
            let (result, rest, buffers, state) :=
              runStages model primary phase rest pool buffers state
            (result, stage :: rest, buffers, state)
    else
      let (result, rest, buffers, state) := runStages model primary phase rest pool buffers state
      (result, stage.clear :: rest, buffers, state)

/-- Run all stages of a step. The result is the tensor that the buffers then hold under the name of
the scores. -/
def runStep (model : Model β) (phase : Phase) : Step (Pipeline × μ × β) Tensor :=
  fun (pipeline, buffers, state) =>
    let (result, stages, buffers, state) :=
      runStages model pipeline.primary phase pipeline.stages [] buffers state
    let next := ({ pipeline with stages := stages }, buffers, state)
    match result with
    | .error failure => (.error failure, next)
    | .ok () =>
      match ManagedBuffers.output pipeline.scoresName buffers with
      | some tensor => (.ok tensor, next)
      | none => (.error (.missingOutput "pipeline" pipeline.scoresName), next)

end Pipeline

end StagedDecoding
