import StagedDecoding.Text.Lowercase

/-! How events are to be written down, as chosen by an environment variable. -/

set_option autoImplicit false

namespace StagedDecoding

inductive LogFormat where
  | pretty
  | json
  deriving DecidableEq, Repr

/-- The format that a variable asks for, in any case. Everything else is written for people. -/
def LogFormat.ofVariable (value : Option String) : LogFormat :=
  if Text.lowercase (value.getD "") = "json" then .json else .pretty

end StagedDecoding
