import Mathlib.Data.List.Nodup
import StagedDecoding.Scores.Constraint
import StagedDecoding.Strategy.Settings

/-! The constraints on scores, token by token.

Constraints are written into the scores one token after another. What a token ends up with depends
on that token alone: whether it is an end token, whether the history has it, and its first score.
-/

set_option autoImplicit false

namespace StagedDecoding.Scores

theorem suppress_eq (tokens : List Token) (scores : Scores) :
    suppress tokens scores =
      scores.mapIdx fun token score => if token ∈ tokens then negativeInfinity else score := by
  unfold suppress
  induction tokens generalizing scores with
  | nil => exact List.ext_getElem (by simp) fun i _ _ => by simp
  | cons first rest ih =>
    rw [List.foldl_cons, ih]
    refine List.ext_getElem (by simp) fun i _ _ => ?_
    simp only [List.getElem_mapIdx, List.getElem_set, List.mem_cons]
    by_cases later : i ∈ rest
    · simp [later]
    · by_cases here : first = i
      · simp [here]
      · simp [later, here, Ne.symm here]

theorem length_suppress (tokens : List Token) (scores : Scores) :
    (suppress tokens scores).length = scores.length := by
  rw [suppress_eq, List.length_mapIdx]

theorem nodup_eraseDups {α : Type} [BEq α] [LawfulBEq α] : (values : List α) →
    values.eraseDups.Nodup
  | [] => by simp
  | value :: rest => by
    have shorter : (rest.filter fun other => !other == value).length < rest.length + 1 :=
      Nat.lt_succ_of_le (List.length_filter_le _ _)
    rw [List.eraseDups_cons, List.nodup_cons, List.mem_eraseDups]
    exact ⟨by simp, nodup_eraseDups _⟩
termination_by values => values.length

theorem penalize_eq (penalty : Float32) (history : List Token) (scores : Scores) :
    penalize penalty history scores =
      scores.mapIdx fun token score => if token ∈ history then penalized penalty score else score := by
  have folded : ∀ (tokens : List Token) (scores : Scores), tokens.Nodup →
      tokens.foldl (fun scores token => scores.modify token (penalized penalty)) scores =
        scores.mapIdx fun token score =>
          if token ∈ tokens then penalized penalty score else score := by
    intro tokens
    induction tokens with
    | nil => exact fun scores _ => List.ext_getElem (by simp) fun i _ _ => by simp
    | cons first rest ih =>
      intro scores distinct
      obtain ⟨absent, distinct⟩ := List.nodup_cons.mp distinct
      rw [List.foldl_cons, ih _ distinct]
      refine List.ext_getElem (by simp) fun i _ _ => ?_
      by_cases here : first = i
      · subst here
        simp [absent]
      · simp [here, Ne.symm here]
  simp only [penalize, folded _ _ (nodup_eraseDups history), List.mem_eraseDups]

theorem length_penalize (penalty : Float32) (history : List Token) (scores : Scores) :
    (penalize penalty history scores).length = scores.length := by
  rw [penalize_eq, List.length_mapIdx]

/-- The scores of a row after both constraints: end tokens are ruled out while the history is too
short, then every token of the history is penalized. -/
def constrained (minLength : Nat) (penalty : Float32) (endTokens history : List Token)
    (scores : Scores) : Scores :=
  scores.mapIdx fun token score =>
    let kept := if history.length < minLength ∧ token ∈ endTokens then negativeInfinity else score
    if penalty != 1 ∧ token ∈ history then penalized penalty kept else kept

theorem constrained_eq (minLength : Nat) (penalty : Float32) (endTokens history : List Token)
    (scores : Scores) :
    let kept := if minLength ≤ history.length then scores else suppress endTokens scores
    (if penalty == 1 then kept else penalize penalty history kept) =
      constrained minLength penalty endTokens history scores := by
  by_cases long : minLength ≤ history.length <;> by_cases neutral : penalty == 1 <;>
    refine List.ext_getElem (by simp [long, neutral, constrained, suppress_eq, penalize_eq])
      fun i _ _ => ?_ <;>
    simp [long, neutral, constrained, suppress_eq, penalize_eq, bne, ← Nat.not_le]

end StagedDecoding.Scores

def StagedDecoding.Settings.best (settings : Settings) (history : List Token) (scores : Scores) :
    Token :=
  Scores.argmax (Scores.constrained settings.minLength settings.repetitionPenalty
    settings.endTokens history scores)
