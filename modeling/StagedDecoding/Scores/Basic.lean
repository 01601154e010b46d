/-! Scores over a vocabulary and their normal forms.

All arithmetic is binary32, in the order written here; sums run from left to right. Comparisons
never make a NaN win: the larger and the smaller of two scores ignore it, and the best index stays
where it is when it meets one.
-/

set_option autoImplicit false

namespace StagedDecoding

abbrev Token := Nat

abbrev Scores := List Float32

/-- The elementary functions that scores go through. They belong to the platform. -/
structure Elementary where
  exp : Float32 → Float32
  log : Float32 → Float32

def Elementary.native : Elementary := ⟨Float32.exp, Float32.log⟩

namespace Scores

def negativeInfinity : Float32 := -(1 / 0)

def infinity : Float32 := 1 / 0

/-- The larger of two numbers; a NaN gives way to the other one. -/
def larger (a b : Float32) : Float32 :=
  if a.isNaN then b else if b.isNaN then a else if a < b then b else a

def smaller (a b : Float32) : Float32 :=
  if a.isNaN then b else if b.isNaN then a else if b < a then b else a

def maximum (scores : Scores) : Float32 :=
  scores.foldl larger negativeInfinity

def total (scores : Scores) : Float32 :=
  scores.foldl (· + ·) 0

def bestAfter (best : Nat) (value : Float32) : Nat → Scores → Nat
  | _, [] => best
  | i, score :: rest =>
    if value < score then bestAfter i score (i + 1) rest else bestAfter best value (i + 1) rest

def argmax : Scores → Token
  | [] => 0
  | score :: rest => bestAfter 0 score 1 rest

/-- Exponentials after a shift by the maximum, divided by their sum. Scores that are all negative
infinity have no mass at all. -/
def softmax (scores : Scores) (elementary : Elementary := .native) : Scores :=
  let largest := scores.maximum
  if largest == negativeInfinity then scores.map fun _ => 0
  else
    let weights := scores.map fun score => elementary.exp (score - largest)
    let sum := total weights
    if sum > 0 then
      let inverse := 1 / sum
      weights.map (· * inverse)
    else weights

/-- The softmax of scores divided by a temperature; a temperature that is not positive acts as
one. -/
def tempered (temperature : Float32) (scores : Scores) (elementary : Elementary := .native) :
    Scores :=
  let t := if temperature > 0 then temperature else 1
  if t == 1 then softmax scores elementary else softmax (scores.map (· / t)) elementary

def logSoftmaxBy (elementary : Elementary) (scores : Scores) : Scores :=
  let largest := scores.maximum
  let mass := elementary.log (total (scores.map fun score => elementary.exp (score - largest)))
  scores.map fun score => score - largest - mass

def logSoftmax : Scores → Scores := logSoftmaxBy .native

end Scores

end StagedDecoding
