import StagedDecoding.Scores.Basic

/-! The best finished hypotheses of one batch entry.

At most as many as there are beams are kept, in the order of completion. Each carries its score
per token, with a power of the length that tunes how much long ones are favoured. Powers are those of
the platform unless others are given.
-/

set_option autoImplicit false

namespace StagedDecoding

structure Scored where
  tokens : List Token
  score : Float32
  deriving Repr

structure Hypotheses where
  beams : Nat
  lengthPenalty : Float32
  earlyStopping : Bool
  kept : List Scored
  /-- The lowest score kept, infinity when there is none. -/
  worst : Float32
  deriving Repr

namespace Hypotheses

def empty (beams : Nat) (lengthPenalty : Float32) (earlyStopping : Bool) : Hypotheses :=
  ⟨beams, lengthPenalty, earlyStopping, [], Scores.infinity⟩

def normalized (lengthPenalty logProbability : Float32) (length : Nat)
    (power : Float32 → Float32 → Float32 := Float32.pow) : Float32 :=
  logProbability / power (UInt64.ofNat (max length 1)).toFloat32 lengthPenalty

/-- The index of the lowest score; among equal ones the last. -/
def worstIndex (kept : List Scored) : Nat :=
  match kept with
  | [] => 0
  | first :: rest => go 0 first.score 1 rest
where
  go (worst : Nat) (value : Float32) : Nat → List Scored → Nat
    | _, [] => worst
    | i, next :: rest =>
      if next.score ≤ value then go i next.score (i + 1) rest else go worst value (i + 1) rest

/-- Offer a completed sequence. Over capacity the lowest score leaves, the latest among equals. -/
def add (tokens : List Token) (logProbability : Float32) (h : Hypotheses)
    (power : Float32 → Float32 → Float32 := Float32.pow) : Hypotheses :=
  let score := normalized h.lengthPenalty logProbability tokens.length power
  if h.beams ≤ h.kept.length && score ≤ h.worst then h
  else
    let extended := h.kept ++ [⟨tokens, score⟩]
    let kept :=
      if h.beams < extended.length then extended.eraseIdx (worstIndex extended) else extended
    { h with kept := kept, worst := (kept.map (·.score)).foldl Scores.smaller Scores.infinity }

/-- Whether an entry stops: the best sum of its beams, normalized at their present length, does not
exceed the lowest score. -/
def isDone (best : Float32) (length : Nat) (h : Hypotheses)
    (power : Float32 → Float32 → Float32 := Float32.pow) : Bool :=
  if h.kept.length < h.beams then false
  else h.earlyStopping || h.worst ≥ normalized h.lengthPenalty best length power

/-- The hypotheses by descending score; equal scores keep the order of completion. -/
def ranked (h : Hypotheses) : List Scored :=
  h.kept.mergeSort fun a b => !(a.score < b.score)

end Hypotheses

end StagedDecoding
