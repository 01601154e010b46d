import Mathlib.Algebra.GroupWithZero.Nat
import Mathlib.Data.List.GetD
import StagedDecoding.Proofs.Blocks
import StagedDecoding.Session.Positions

/-! What mask and positions say about a row.

Both depend on the whole row: a pad token counts for nothing if it stands in the prompt, and like
any other token if it was generated. The session computes them in parts, as tokens arrive.
-/

set_option autoImplicit false

namespace StagedDecoding.Positions

variable {pad : Token} {promptLength : Nat} {row other tokens : List Token}

/-- The mask of a row: zero exactly at the pad tokens of the prompt. -/
def maskRow (pad : Token) (promptLength : Nat) (row : List Token) : List Nat :=
  row.mapIdx fun i token => if i < promptLength ∧ token = pad then 0 else 1

def runningCounts (mask : List Nat) : List Nat :=
  mask.mapIdx fun i m => if m = 0 then 0 else (mask.take i).sum

@[simp] theorem maskRow_length : (maskRow pad promptLength row).length = row.length := by
  simp [maskRow]

@[simp] theorem runningCounts_length (mask : List Nat) :
    (runningCounts mask).length = mask.length := by
  simp [runningCounts]

theorem maskRow_prompt (short : row.length ≤ promptLength) :
    maskRow pad promptLength row = maskOf pad row := by
  refine List.ext_getElem (by simp [maskOf]) fun i bound _ => ?_
  have inside : i < promptLength := by
    rw [maskRow_length] at bound
    omega
  simp [maskRow, maskOf, inside]

theorem maskRow_append (long : promptLength ≤ row.length) :
    maskRow pad promptLength (row ++ tokens) =
      maskRow pad promptLength row ++ List.replicate tokens.length 1 := by
  have generated : ∀ i, ¬ i + row.length < promptLength := by omega
  simp [maskRow, List.mapIdx_append, generated, List.mapIdx_eq_replicate_iff]

theorem maskRow_take (count : Nat) :
    maskRow pad promptLength (row.take count) = (maskRow pad promptLength row).take count := by
  refine List.ext_getElem (by simp) fun i _ _ => ?_
  simp [maskRow]

theorem maskRow_congr (sized : row.length = other.length)
    (same : row.take promptLength = other.take promptLength) :
    maskRow pad promptLength row = maskRow pad promptLength other := by
  refine List.ext_getElem (by simp [sized]) fun i here there => ?_
  simp only [maskRow_length] at here there
  by_cases inside : i < promptLength
  · have token : row[i] = other[i] := by
      have found : (row.take promptLength)[i]? = (other.take promptLength)[i]? := by rw [same]
      simpa [List.getElem?_take, inside, here, there] using found
    simp [maskRow, token]
  · simp [maskRow, inside]

theorem sum_maskRow (long : promptLength ≤ row.length) :
    (maskRow pad promptLength row).sum =
      (row.take promptLength).countP (· != pad) + (row.length - promptLength) := by
  have prompt : ∀ tokens : List Token, (maskOf pad tokens).sum = tokens.countP (· != pad) := by
    intro tokens
    induction tokens with
    | nil => rfl
    | cons token rest ih =>
      by_cases same : token = pad <;> simp_all [maskOf, Nat.add_comm]
  have cut : maskRow pad promptLength (row.take promptLength ++ row.drop promptLength) =
      maskRow pad promptLength (row.take promptLength) ++
        List.replicate (row.drop promptLength).length 1 := maskRow_append (by simp [long])
  rw [List.take_append_drop] at cut
  rw [cut, maskRow_prompt (by rw [List.length_take]; omega), List.sum_append, prompt]
  simp

theorem runningCounts_append_ones (mask : List Nat) (count : Nat) :
    runningCounts (mask ++ List.replicate count 1) =
      runningCounts mask ++ (List.range count).map (mask.sum + ·) := by
  simp only [runningCounts, List.mapIdx_append]
  congr 1
  · refine List.ext_getElem (by simp) fun i bound _ => ?_
    have inside : i ≤ mask.length := by
      simp at bound
      omega
    simp [List.take_append_of_le_length inside]
  · refine List.ext_getElem (by simp) fun i bound _ => ?_
    have inside : i ≤ count := by
      simp at bound
      omega
    have whole : mask.take (i + mask.length) = mask := List.take_of_length_le (by omega)
    simp [List.take_append, inside, whole]

theorem count_eq (pad : Token) (start : Nat) (row : List Token) :
    count pad start row =
      ((maskOf pad row).mapIdx fun i m =>
          if m = 0 then 0 else start + ((maskOf pad row).take i).sum,
        start + (maskOf pad row).sum) := by
  induction row generalizing start with
  | nil => rfl
  | cons token rest ih =>
    by_cases same : token = pad
    · simp [count, same, ih start, maskOf, List.mapIdx_cons]
    · simp [count, same, ih (start + 1), maskOf, List.mapIdx_cons, Nat.add_assoc]

theorem count_zero (pad : Token) (row : List Token) :
    count pad 0 row = (runningCounts (maskOf pad row), (maskOf pad row).sum) := by
  rw [count_eq, runningCounts]
  simp only [Nat.zero_add]

end StagedDecoding.Positions
