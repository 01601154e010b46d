import StagedDecoding.Proofs.BeamShape
import StagedDecoding.Proofs.Predictions

/-! What a selection reads.

Before a selection, scores are loaded and constrained, in any order and as often as one likes. What
a row is left with follows from the tensor loaded last, from the constraints since then and from
the history of that row alone.
-/

set_option autoImplicit false

namespace StagedDecoding

def Tensor.lastScores (tensor : Tensor) (row : Nat) : Option Scores :=
  match tensor.shape with
  | [rows, vocabulary] =>
    (LoadedScores.layOut rows 1 vocabulary tensor.floats)[row]?.bind (·.getLast?)
  | [rows, positions, vocabulary] =>
    (LoadedScores.layOut rows positions vocabulary tensor.floats)[row]?.bind (·.getLast?)
  | _ => none

/-- What is done to the scores of a search before it selects. -/
inductive Preparation where
  | load (tensor : Tensor)
  | constrainLength (minLength : Nat)
  | penalize (penalty : Float32)

def Beam.prepare : Preparation → Step Beam Unit
  | .load tensor => setScores tensor
  | .constrainLength minLength => constrainLength minLength
  | .penalize penalty => penalize penalty

def Greedy.prepare : Preparation → Step Greedy Unit
  | .load tensor => setScores tensor
  | .constrainLength minLength => constrainLength minLength
  | .penalize penalty => penalize penalty

namespace Preparation

def apply (endTokens : List Token) (row : Nat) (history : List Token) (found : Option Scores) :
    Preparation → Option Scores
  | .load tensor => tensor.lastScores row
  | .constrainLength minLength =>
    found.map fun own =>
      if minLength ≤ history.length then own else Scores.suppress endTokens own
  | .penalize penalty =>
    found.map fun own => if penalty == 1 then own else Scores.penalize penalty history own

def read (endTokens : List Token) (row : Nat) (history : List Token)
    (preparations : List Preparation) : Option Scores :=
  preparations.foldl (apply endTokens row history) none

/-- Fresh scores are what some preparations leave. -/
def Left (endTokens : List Token) (histories : Histories) (preparations : List Preparation)
    (scores : LoadedScores) : Prop :=
  scores.fresh = true → ∀ row history, histories.rows[row]? = some history →
    (scores.last row).toOption = read endTokens row history preparations

end Preparation

namespace LoadedScores

variable {rows vocabulary : Nat} {everyPosition : Bool} {tensor : Tensor} {scores : LoadedScores}

theorem last_toOption (wide : ∀ row ∈ scores.rows, ∀ own ∈ row, own.length = scores.vocabulary)
    (row : Nat) :
    (scores.last row).toOption = scores.rows[row]?.bind (·[scores.positions - 1]?) := by
  refine Option.ext fun own => ?_
  rw [Outcome.toOption_eq_some, last, scoresAt_eq_ok, Option.bind_eq_some_iff]
  constructor
  · rintro ⟨positions, there, here, -⟩
    exact ⟨positions, there, here⟩
  · rintro ⟨positions, there, here⟩
    exact ⟨positions, there, here,
      wide _ (List.mem_of_getElem? there) _ (List.mem_of_getElem? here)⟩

theorem load_last (loaded : load rows vocabulary everyPosition tensor = .ok scores) (row : Nat) :
    (scores.last row).toOption = tensor.lastScores row := by
  have wide := load_wide loaded
  obtain ⟨n, v, shape, -, -, -, rfl⟩ := load_eq_ok.mp loaded
  have own : tensor.lastScores row =
      (layOut rows n v tensor.floats)[row]?.bind (·.getLast?) := by
    unfold Tensor.lastScores
    rcases shape with shape | ⟨rfl, shape⟩ <;> rw [shape]
  have final : (layOut rows n v tensor.floats)[row]?.bind (·[n - 1]?) =
      (layOut rows n v tensor.floats)[row]?.bind (·.getLast?) := by
    refine Option.bind_congr fun positions found => ?_
    obtain ⟨_, -, rfl⟩ := List.mem_map.mp (List.mem_of_getElem? found)
    rw [List.getLast?_eq_getElem?, Tensor.blocks_length]
  rw [last_toOption wide, own, ← final]
  split
  · rfl
  · simp only [List.getElem?_map, Option.bind_map]
    refine Option.bind_congr fun positions _ => ?_
    simp

end LoadedScores

namespace Preparation

variable {endTokens : List Token} {histories : Histories} {preparations : List Preparation}
  {scores after : LoadedScores}

theorem read_append (row : Nat) (history : List Token) (last : Preparation) :
    read endTokens row history (preparations ++ [last]) =
      apply endTokens row history (read endTokens row history preparations) last :=
  List.foldl_append

theorem Left.of_stale (stale : scores.fresh = false) :
    Left endTokens histories preparations scores := by
  intro fresh
  simp [stale] at fresh

theorem Left.load {rows vocabulary : Nat} {everyPosition : Bool} {tensor : Tensor}
    (loaded : LoadedScores.load rows vocabulary everyPosition tensor = .ok after) :
    Left endTokens histories (preparations ++ [.load tensor]) after := by
  intro _ row history _
  rw [read_append, LoadedScores.load_last loaded]
  rfl

theorem toOption_map {α β : Type} (f : α → β) (x : Except Failure α) :
    (f <$> x).toOption = x.toOption.map f := by
  cases x <;> rfl

theorem Left.constrainLength {minLength : Nat}
    (left : Left endTokens histories preparations scores)
    (level : ∀ row ∈ histories.rows, row.length = histories.length)
    (constrained : scores.constrainLength minLength endTokens histories = .ok after) :
    Left endTokens histories (preparations ++ [.constrainLength minLength]) after := by
  intro _ row history found
  have before := left (LoadedScores.constrainLength_eq_ok.mp constrained).1 row history found
  rw [read_append, LoadedScores.constrainLength_last constrained, toOption_map, before,
    ← level history (List.mem_of_getElem? found)]
  rfl

theorem Left.penalize {penalty : Float32} (left : Left endTokens histories preparations scores)
    (penalized : scores.penalize penalty histories = .ok after) :
    Left endTokens histories (preparations ++ [.penalize penalty]) after := by
  intro _ row history found
  have before := left (LoadedScores.penalize_eq_ok.mp penalized).1 row history found
  rw [read_append, LoadedScores.penalize_last found penalized, toOption_map, before]
  rfl

end Preparation

theorem Beam.prepare_returns {preparation : Preparation} {preparations : List Preparation}
    {b b' : Beam} {u : Unit} (ran : Step.Returns (prepare preparation) b u b') :
    ∃ scores, b' = { b with scores := scores } ∧
      ((∀ row ∈ b.histories.rows, row.length = b.histories.length) →
        Preparation.Left b.settings.endTokens b.histories preparations b.scores →
        Preparation.Left b.settings.endTokens b.histories (preparations ++ [preparation])
          scores) := by
  cases preparation with
  | load tensor =>
    simp only [prepare, setScores, Step.returns_attempt, Outcome.bind_eq_ok,
      Outcome.pure_eq_ok] at ran
    obtain ⟨scores, loaded, rfl⟩ := ran
    exact ⟨scores, rfl, fun _ _ => .load loaded⟩
  | constrainLength minLength =>
    simp only [prepare, constrainLength, Step.returns_attempt, Outcome.bind_eq_ok,
      Outcome.pure_eq_ok] at ran
    obtain ⟨scores, constrained, rfl⟩ := ran
    exact ⟨scores, rfl, fun level left => left.constrainLength level constrained⟩
  | penalize penalty =>
    simp only [prepare, penalize, Step.returns_attempt, Outcome.bind_eq_ok,
      Outcome.pure_eq_ok] at ran
    obtain ⟨scores, penalized, rfl⟩ := ran
    exact ⟨scores, rfl, fun _ left => left.penalize penalized⟩

end StagedDecoding
