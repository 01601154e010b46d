import StagedDecoding.Session.Buffers

/-! A session: a pipeline with its buffers and the state of its model.

The first step runs on the prompt. Every later one first advances the buffers by the tokens that
were chosen. A session is of no further use after a failure.
-/

set_option autoImplicit false

namespace StagedDecoding

structure Session (β : Type) where
  pipeline : Pipeline
  buffers : Buffers
  model : β
  /-- Whether no step has been run yet. -/
  first : Bool
  deriving Repr

namespace Session

variable {β : Type}

def create (config : Config) (request : Request) (model : β) (device : Device)
    (registry : DeviceRegistry) : Except Failure (Session β) := do
  let decoder := config.model.decoder
  let pipeline ← Pipeline.create decoder.stages device registry decoder.outputs.scores
  let buffers ← Buffers.create config request pipeline.stages
  pipeline.validateDataflow buffers
  return ⟨pipeline, buffers, model, true⟩

def onBuffers (step : Step Buffers Unit) : Step (Session β) Unit :=
  .within Session.buffers (fun buffers s => { s with buffers := buffers }) step

def runPhase (model : Model β) (phase : Phase) : Step (Session β) Tensor :=
  .within (fun s => (s.pipeline, s.buffers, s.model))
    (fun (pipeline, buffers, state) s =>
      { s with pipeline := pipeline, buffers := buffers, model := state })
    (Pipeline.runStep model phase)

/-- Run one step and return its scores. The arguments matter in every step but the first. -/
def run (model : Model β) (length : Nat) (tokens : List Token) (indices : List Nat) :
    Step (Session β) Tensor := do
  if (← get).first then
    modify fun s => { s with first := false }
    runPhase model .prompt
  else
    onBuffers (Buffers.update tokens indices length)
    runPhase model .token

def rollback (count : Nat) : Step (Session β) Unit :=
  onBuffers (Buffers.rollback count)

end Session

end StagedDecoding
