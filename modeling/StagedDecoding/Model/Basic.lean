import StagedDecoding.Failure
import StagedDecoding.Named

/-! Models, which run the stages of a decoder.

A model is a function on states of its own. It is told which stage to run, which inputs it has and
which outputs are wanted, and it gives tensors under their names.
-/

set_option autoImplicit false

namespace StagedDecoding

structure Invocation where
  stage : String
  inputs : Named Tensor
  outputs : List String
  deriving Repr

abbrev Model (β : Type) := Invocation → β → Except ModelFault (Named Tensor) × β

end StagedDecoding
