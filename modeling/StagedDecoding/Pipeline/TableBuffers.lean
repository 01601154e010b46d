import StagedDecoding.Pipeline.Basic

/-! Managed buffers as plain tables, which stay as they are from step to step. -/

set_option autoImplicit false

namespace StagedDecoding

structure TableBuffers where
  inputNames : List String
  inputs : Named Tensor
  outputNames : List String
  outputs : Named Tensor
  deriving Repr

namespace TableBuffers

def ofInputs (inputs : List (String × Option Tensor)) (outputNames : List String) :
    TableBuffers where
  inputNames := inputs.map (·.1)
  inputs := Named.ofPairs (inputs.filterMap fun (name, tensor) => tensor.map (name, ·))
  outputNames := outputNames
  outputs := []

instance : ManagedBuffers TableBuffers where
  inputNames := TableBuffers.inputNames
  input name tables := tables.inputs.get? name
  outputNames := TableBuffers.outputNames
  store name tensor tables := .ok { tables with outputs := tables.outputs.insert name tensor }
  output name tables := tables.outputs.get? name

end TableBuffers

end StagedDecoding
