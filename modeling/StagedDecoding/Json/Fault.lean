/-! Why the text of a document could not be read as a value of the wanted form. -/

set_option autoImplicit false

namespace StagedDecoding.Json

/-- The class of the first fault met when a text is read from left to right. -/
inductive Fault where
  /-- The text is not well formed at this point. -/
  | malformed
  /-- The text ends before its value does. -/
  | truncated
  /-- The text is well formed so far, but its value has the wrong form. -/
  | mistyped
  deriving DecidableEq, Repr

end StagedDecoding.Json
