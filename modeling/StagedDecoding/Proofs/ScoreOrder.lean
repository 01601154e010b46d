import Mathlib.Data.Prod.Lex
import StagedDecoding.Scores.Basic

/-! The order of scores.

Comparison of scores is that of IEEE numbers. Without NaN it is a total order of keys, in which the
two zeros have one key. So incumbents that are replaced only by larger scores end up as the first
of the largest.
-/

set_option autoImplicit false

open Float.Model (UnpackedFloat)

namespace StagedDecoding.Scores

/-- Keys in the order of the numbers: by class, then by exponent and mantissa. -/
def numberKey : UnpackedFloat → Int ×ₗ Int ×ₗ Int
  | .infinity .negative => toLex (-2, toLex (0, 0))
  | .finite .negative mantissa exponent _ => toLex (-1, toLex (-exponent, -mantissa))
  | .notANumber => toLex (0, toLex (0, 0))
  | .zero _ => toLex (0, toLex (0, 0))
  | .finite .positive mantissa exponent _ => toLex (1, toLex (exponent, mantissa))
  | .infinity .positive => toLex (2, toLex (0, 0))

theorem lt_iff_numberKey {a b : UnpackedFloat} (left : a ≠ .notANumber) (right : b ≠ .notANumber) :
    a.lt b = true ↔ numberKey a < numberKey b := by
  unfold UnpackedFloat.lt
  rw [beq_iff_eq]
  rcases a with (_ | _) | _ | _ | ⟨_ | _, m₁, e₁, _⟩ <;>
    rcases b with (_ | _) | _ | _ | ⟨_ | _, m₂, e₂, _⟩ <;>
    try first | exact absurd rfl left | exact absurd rfl right
  all_goals
    dsimp only [UnpackedFloat.compare, numberKey]
    simp [Prod.Lex.toLex_lt_toLex]
  case infinity.negative.infinity.positive => rfl
  case finite.negative.finite.negative =>
    rw [Ordering.then_eq_gt, compare_gt_iff_gt, compare_eq_iff_eq, compare_gt_iff_gt]
  case finite.positive.finite.positive =>
    rw [Ordering.then_eq_lt, compare_lt_iff_lt, compare_eq_iff_eq, compare_lt_iff_lt]

def key (score : Float32) : Int ×ₗ Int ×ₗ Int := numberKey score.toModel.unpack

theorem unpack_ne_of_isNaN {score : Float32} (clean : score.isNaN = false) :
    score.toModel.unpack ≠ .notANumber := by
  intro unpacked
  have clean : score.toModel.unpack.isNaN = false := clean
  rw [unpacked] at clean
  cases clean

theorem lt_iff_key {a b : Float32} (left : a.isNaN = false) (right : b.isNaN = false) :
    a < b ↔ key a < key b := by
  have same : a < b ↔ a.toModel.unpack.lt b.toModel.unpack = true := by
    change decide (a.toModel < b.toModel) = true ↔ _
    rw [decide_eq_true_iff]
    rfl
  exact same.trans (lt_iff_numberKey (unpack_ne_of_isNaN left) (unpack_ne_of_isNaN right))

theorem compare_swap (a b : UnpackedFloat) : b.compare a = (a.compare b).map Ordering.swap := by
  rcases a with (_ | _) | _ | _ | ⟨_ | _, m₁, e₁, _⟩ <;>
    rcases b with (_ | _) | _ | _ | ⟨_ | _, m₂, e₂, _⟩ <;> try rfl
  all_goals
    dsimp only [UnpackedFloat.compare]
    simp only [Option.map_some, Ordering.swap_then, Ordering.swap_swap,
      Std.OrientedOrd.eq_swap (a := e₂), Std.OrientedOrd.eq_swap (a := m₂)]

theorem exists_compare {a b : UnpackedFloat} (left : a ≠ .notANumber) (right : b ≠ .notANumber) :
    ∃ order, a.compare b = some order := by
  rcases a with (_ | _) | _ | _ | ⟨_ | _, m₁, e₁, _⟩ <;>
    rcases b with (_ | _) | _ | _ | ⟨_ | _, m₂, e₂, _⟩ <;>
    first | exact absurd rfl left | exact absurd rfl right | exact ⟨_, rfl⟩

theorem le_iff_numberKey {a b : UnpackedFloat} (left : a ≠ .notANumber) (right : b ≠ .notANumber) :
    a.le b = true ↔ numberKey a ≤ numberKey b := by
  obtain ⟨order, found⟩ := exists_compare left right
  rw [← not_lt, ← lt_iff_numberKey right left, UnpackedFloat.le, UnpackedFloat.lt, compare_swap a,
    found]
  cases order <;> decide

theorem le_iff_key {a b : Float32} (left : a.isNaN = false) (right : b.isNaN = false) :
    a ≤ b ↔ key a ≤ key b := by
  have same : a ≤ b ↔ a.toModel.unpack.le b.toModel.unpack = true := by
    change decide (a.toModel ≤ b.toModel) = true ↔ _
    rw [decide_eq_true_iff]
    rfl
  exact same.trans (le_iff_numberKey (unpack_ne_of_isNaN left) (unpack_ne_of_isNaN right))

theorem le_refl {score : Float32} (number : score.isNaN = false) : score ≤ score :=
  (le_iff_key number number).mpr le_rfl

theorem lt_trans {a b c : Float32} (left : a.isNaN = false) (middle : b.isNaN = false)
    (right : c.isNaN = false) (below : a < b) (above : b < c) : a < c := by
  rw [lt_iff_key left middle] at below
  rw [lt_iff_key middle right] at above
  exact (lt_iff_key left right).mpr (below.trans above)

theorem lt_of_not_lt_of_lt {a b c : Float32} (left : a.isNaN = false) (middle : b.isNaN = false)
    (right : c.isNaN = false) (within : ¬ b < a) (above : b < c) : a < c := by
  rw [lt_iff_key middle left, not_lt] at within
  rw [lt_iff_key middle right] at above
  exact (lt_iff_key left right).mpr (within.trans_lt above)

def IsFirstMax (scores : Scores) (best : Token) : Prop :=
  ∃ score, scores[best]? = some score ∧ (∀ other ∈ scores, ¬ score < other) ∧
    ∀ i < best, ∀ other, scores[i]? = some other → other < score

theorem bestAfter_isFirstMax {scores rest : Scores}
    (clean : ∀ score ∈ scores, score.isNaN = false) {i best : Nat} {value : Float32}
    (left : scores.drop i = rest) (found : scores[best]? = some value)
    (largest : ∀ j < i, ∀ other, scores[j]? = some other → ¬ value < other)
    (first : ∀ j < best, ∀ other, scores[j]? = some other → other < value) :
    IsFirstMax scores (bestAfter best value i rest) := by
  induction rest generalizing i best value with
  | nil =>
    refine ⟨value, found, fun other member => ?_, first⟩
    obtain ⟨j, there⟩ := List.getElem?_of_mem member
    have bound := (List.getElem?_eq_some_iff.mp there).1
    have short := List.drop_eq_nil_iff.mp left
    exact largest j (Nat.lt_of_lt_of_le bound short) other there
  | cons score rest ih =>
    have here : scores[i]? = some score := by
      rw [← List.head?_drop, left, List.head?_cons]
    have later : scores.drop (i + 1) = rest := by
      rw [← List.tail_drop, left, List.tail_cons]
    have proper : ∀ {j : Nat} {other : Float32}, scores[j]? = some other → other.isNaN = false :=
      fun there => clean _ (List.mem_of_getElem? there)
    unfold bestAfter
    split
    case isTrue exceeds =>
      -- the new incumbent exceeds the old one, and with it all that came before
      refine ih later here (fun j early other there => ?_) (fun j early other there => ?_)
      · rcases Nat.lt_succ_iff_lt_or_eq.mp early with before | rfl
        · exact fun above => largest j before other there
            (lt_trans (proper found) (proper here) (proper there) exceeds above)
        · obtain rfl := Option.some.inj (here.symm.trans there)
          rw [lt_iff_key (proper here) (proper here)]
          exact lt_irrefl _
      · exact lt_of_not_lt_of_lt (proper there) (proper found) (proper here)
          (largest j early other there) exceeds
    case isFalse within =>
      refine ih later found (fun j early other there => ?_) first
      rcases Nat.lt_succ_iff_lt_or_eq.mp early with before | rfl
      · exact largest j before other there
      · obtain rfl := Option.some.inj (here.symm.trans there)
        exact within

/-- Without NaN, the best token is the first with the largest score. -/
theorem argmax_isFirstMax {scores : Scores} (some : scores ≠ [])
    (clean : ∀ score ∈ scores, score.isNaN = false) : IsFirstMax scores (argmax scores) := by
  cases scores with
  | nil => exact absurd rfl some
  | cons score rest =>
    have proper := clean score (by simp)
    refine bestAfter_isFirstMax clean rfl rfl (fun j early other there => ?_) (by simp)
    obtain rfl : j = 0 := Nat.lt_one_iff.mp early
    obtain rfl := Option.some.inj there
    rw [lt_iff_key proper proper]
    exact lt_irrefl _

end StagedDecoding.Scores
