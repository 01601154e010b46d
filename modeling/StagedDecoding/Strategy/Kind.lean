/-! The search strategies and the operations that not every one of them has. -/

set_option autoImplicit false

namespace StagedDecoding

inductive StrategyKind where
  | greedy
  | beam
  | speculative
  deriving DecidableEq, Repr

def StrategyKind.text : StrategyKind → String
  | .greedy => "greedy"
  | .beam => "beam"
  | .speculative => "speculative greedy"

inductive Operation where
  | sampleTop
  | sampleShare
  | sampleTopShare
  | dropLast
  | setNextTokens
  | checkCandidates
  | constrainLengthAt
  | penalizeAt
  | finalize
  | selectAfterFinalize
  | verifyWithPendingScores
  deriving DecidableEq, Repr

def Operation.text : Operation → String
  | .sampleTop => "sample_top_k"
  | .sampleShare => "sample_top_p"
  | .sampleTopShare => "sample_top_k_top_p"
  | .dropLast => "drop_last_tokens"
  | .setNextTokens => "set_next_tokens"
  | .checkCandidates => "check_candidates"
  | .constrainLengthAt => "apply_min_length_at"
  | .penalizeAt => "apply_repetition_penalty_at"
  | .finalize => "finalize"
  | .selectAfterFinalize => "select_top after finalize"
  | .verifyWithPendingScores => "verify_candidates with pending logits"

def Operation.optional : List Operation :=
  [.sampleTop, .sampleShare, .sampleTopShare, .dropLast, .setNextTokens, .checkCandidates,
    .constrainLengthAt, .penalizeAt, .finalize]

end StagedDecoding
