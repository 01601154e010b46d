import StagedDecoding.Config.Basic
import StagedDecoding.Device

/-! One stage of a decoder and how it is wired in the current step.

What a stage declares comes from its configuration and never changes. Which inputs are bound and
which outputs are requested is decided anew in every step.
-/

set_option autoImplicit false

namespace StagedDecoding

inductive Phase where
  /-- The first step, over the whole prompt. -/
  | prompt
  /-- Any later step, over the tokens that were chosen. -/
  | token
  deriving DecidableEq, Repr

structure Stage where
  config : StageConfig
  bound : Named Tensor
  requested : List String
  deriving Repr

namespace Stage

def ofConfig (config : StageConfig) : Stage := ⟨config, [], []⟩

def id (stage : Stage) : String := stage.config.id

def hasInput (name : String) (stage : Stage) : Bool := stage.config.inputs.contains name

def hasOutput (name : String) (stage : Stage) : Bool := stage.config.outputs.contains name

def declaredInputs (stage : Stage) : List String := stage.config.inputs.eraseDups

/-- The host is supported by every stage, and so is every device by a stage without options.
Other stages have to list it among their providers. -/
def supports (device : Device) (stage : Stage) : Bool :=
  device.isHost ||
    match stage.config.options with
    | none => true
    | some options => options.listsProvider device.name

def runsIn (phase : Phase) (stage : Stage) : Bool :=
  match phase with
  | .prompt => stage.config.onPrompt
  | .token => stage.config.onToken

def forwardedName (output : String) (stage : Stage) : String :=
  (stage.config.forward.get? output).getD output

def produces (name : String) (stage : Stage) : Bool :=
  stage.config.outputs.any fun output => output == name || stage.forwardedName output == name

def clear (stage : Stage) : Stage := { stage with bound := [], requested := [] }

def isBound (name : String) (stage : Stage) : Bool := stage.bound.contains name

def bind (name : String) (tensor : Tensor) (stage : Stage) : Stage :=
  { stage with bound := stage.bound.insert name tensor }

def request (name : String) (stage : Stage) : Stage :=
  if stage.requested.contains name then stage
  else { stage with requested := stage.requested ++ [name] }

end Stage

end StagedDecoding
