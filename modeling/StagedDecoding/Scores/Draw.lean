import StagedDecoding.Scores.Basic
import StagedDecoding.Random.WordStream

/-! Sampling one token: truncation of a distribution and the draw from it. -/

set_option autoImplicit false

namespace StagedDecoding.Scores

def ranked (probabilities : Scores) : List (Nat × Float32) :=
  ((List.range probabilities.length).zip probabilities).mergeSort fun a b => !(a.2 < b.2)

def clear (indices : List Nat) (probabilities : Scores) : Scores :=
  indices.foldl (fun probabilities i => probabilities.set i 0) probabilities

def keepTop (k : Nat) (probabilities : Scores) : Scores :=
  if k = 0 || probabilities.length ≤ k then probabilities
  else clear ((ranked probabilities).drop k |>.map (·.1)) probabilities

/-- How many of the probabilities are needed for their running sum to reach a goal. All of them
when it never does. -/
def countToReach (goal : Float32) : Float32 → Scores → Nat
  | _, [] => 0
  | sum, p :: rest =>
    if sum + p ≥ goal then 1 else 1 + countToReach goal (sum + p) rest

/-- Keep the most probable indices that together hold the share `p` of the mass. -/
def keepNucleus (p : Float32) (probabilities : Scores) : Scores :=
  let order := ranked probabilities
  let sorted := order.map (·.2)
  let kept := countToReach (p * total sorted) 0 sorted
  clear ((order.drop kept).map (·.1)) probabilities

/-- The first index at which the running sum exceeds `target`, else the last positive one. -/
def locate (target : Float32) : Nat → Float32 → Nat → Scores → Token
  | _, _, lastPositive, [] => lastPositive
  | i, sum, lastPositive, p :: rest =>
    let lastPositive := if p > 0 then i else lastPositive
    if target < sum + p then i else locate target (i + 1) (sum + p) lastPositive rest

/-- Draw an index with a chance proportional to its entry. Without mass the best index is taken
and the stream is left alone. -/
def draw (probabilities : Scores) (stream : WordStream) : Token × WordStream :=
  let mass := total probabilities
  if mass ≤ 0 then (argmax probabilities, stream)
  else
    let (word, stream) := stream.next
    (locate (WordStream.unit word * mass) 0 0 0 probabilities, stream)

/-- How to sample: how many tokens to keep, which share of the mass to keep, at what temperature.
Both truncations are optional. -/
structure Sampling where
  top : Option Nat
  share : Option Float32
  temperature : Float32
  deriving Repr

def sample (sampling : Sampling) (scores : Scores) (stream : WordStream)
    (elementary : Elementary := .native) : Token × WordStream :=
  let probabilities := tempered sampling.temperature scores elementary
  let probabilities := match sampling.top with
    | some k => keepTop k probabilities
    | none => probabilities
  let probabilities := match sampling.share with
    | some p => keepNucleus p probabilities
    | none => probabilities
  draw probabilities stream

end StagedDecoding.Scores
