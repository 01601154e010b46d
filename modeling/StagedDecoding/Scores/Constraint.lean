import StagedDecoding.Scores.Basic

/-! Constraints on the next token, written into its scores. -/

set_option autoImplicit false

namespace StagedDecoding.Scores

/-- Rule out some tokens. Tokens outside the vocabulary have no score to change. -/
def suppress (tokens : List Token) (scores : Scores) : Scores :=
  tokens.foldl (fun scores token => scores.set token negativeInfinity) scores

/-- A score made less attractive: positive ones are divided, all others multiplied. -/
def penalized (penalty score : Float32) : Float32 :=
  if score > 0 then score / penalty else score * penalty

def penalize (penalty : Float32) (history : List Token) (scores : Scores) : Scores :=
  history.eraseDups.foldl (fun scores token => scores.modify token (penalized penalty)) scores

end StagedDecoding.Scores
