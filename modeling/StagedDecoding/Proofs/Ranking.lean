import StagedDecoding.Proofs.ScoreOrder
import StagedDecoding.Strategy.Beam

/-! The order of expansions.

Expansions are listed by beam and token, and a stable sort by descending score keeps that order
among equals. Scores that are not NaN have keys of a total order, so the result is sorted by a
relation that leaves nothing open, and its first entries are the best ones.
-/

set_option autoImplicit false

namespace StagedDecoding

/-- A stable sort by descending keys keeps the order of the list among equal keys. The comparison
has to agree with the keys on the list only. -/
theorem mergeSort_stable {α κ : Type} [LinearOrder κ] (key : α → κ) {place : α → Nat}
    {values : List α} {precedes : α → α → Bool}
    (agrees : ∀ x ∈ values, ∀ y ∈ values, precedes x y = true ↔ key y ≤ key x)
    (listed : values.Pairwise fun x y => place x < place y) :
    (values.mergeSort precedes).Pairwise fun x y =>
      key y < key x ∨ key y ≤ key x ∧ place x < place y := by
  let le : α → α → Bool := fun x y => decide (key y ≤ key x)
  have same : values.mergeSort precedes = values.mergeSort le := by
    simpa using List.map_mergeSort (f := id) (l := values) (s := le) fun x first y second =>
      Bool.eq_iff_iff.mpr ((agrees x first y second).trans decide_eq_true_iff.symm)
  have trans : ∀ x y z, le x y → le y z → le x z := by
    simp only [le, decide_eq_true_eq]
    exact fun x y z first second => second.trans first
  have total : ∀ x y, (le x y || le y x) = true := by
    simp only [le, Bool.or_eq_true, decide_eq_true_eq]
    exact fun x y => le_total (key y) (key x)
  -- the list with its indices is sorted without ties
  have sorted := List.pairwise_mergeSort (List.zipIdxLE_trans trans) (List.zipIdxLE_total total)
    values.zipIdx
  have perm := List.mergeSort_perm values.zipIdx (List.zipIdxLE le)
  have distinct : (values.zipIdx.mergeSort (List.zipIdxLE le)).Pairwise fun a b => a.2 ≠ b.2 := by
    rw [← List.pairwise_map (R := (· ≠ ·)), ← List.Nodup, (perm.map Prod.snd).nodup_iff,
      List.zipIdx_map_snd]
    exact List.nodup_range'
  have placed : ∀ a ∈ values.zipIdx, ∀ b ∈ values.zipIdx, a.2 < b.2 → place a.1 < place b.1 := by
    intro a first b second earlier
    obtain ⟨inside, here⟩ := List.getElem?_eq_some_iff.mp (List.mem_zipIdx_iff_getElem?.mp first)
    obtain ⟨within, there⟩ := List.getElem?_eq_some_iff.mp (List.mem_zipIdx_iff_getElem?.mp second)
    rw [← here, ← there]
    exact List.pairwise_iff_getElem.mp listed a.2 b.2 inside within earlier
  rw [same, ← List.mergeSort_zipIdx, List.pairwise_map]
  refine (sorted.and distinct).imp_of_mem fun {a b} first second ⟨before, other⟩ => ?_
  have earlier := placed a (perm.subset first) b (perm.subset second)
  simp only [List.zipIdxLE, le, decide_eq_true_eq] at before
  split at before
  case isTrue within =>
    split at before
    case isTrue =>
      exact .inr ⟨within, earlier (lt_of_le_of_ne (of_decide_eq_true before) other)⟩
    case isFalse above => exact .inl (not_le.mp above)
  case isFalse => cases before

namespace Expansion

def place (vocabulary : Nat) (x : Expansion) : Nat := x.beam * vocabulary + x.token

/-- Higher scores come first, and equal ones in the order of their places. -/
def Before (vocabulary : Nat) (x y : Expansion) : Prop :=
  y.score < x.score ∨ ¬ x.score < y.score ∧ x.place vocabulary < y.place vocabulary

/-- The first `count` of all expansions, in their order. -/
structure Best (vocabulary count : Nat) (all chosen : List Expansion) : Prop where
  counted : chosen.length = count
  ordered : chosen.Pairwise (Before vocabulary)
  /-- What is not chosen comes after all that is. -/
  ahead : ∃ rest, (chosen ++ rest).Perm all ∧
    ∀ x ∈ chosen, ∀ y ∈ rest, x.Before vocabulary y

theorem ranked_before {vocabulary : Nat} {all : List Expansion}
    (clean : ∀ x ∈ all, x.score.isNaN = false)
    (listed : all.Pairwise fun x y => x.place vocabulary < y.place vocabulary) :
    (all.mergeSort fun x y => !(x.score < y.score)).Pairwise (Before vocabulary) := by
  have agrees : ∀ x ∈ all, ∀ y ∈ all,
      (!decide (x.score < y.score)) = true ↔ Scores.key y.score ≤ Scores.key x.score := by
    intro x first y second
    rw [Bool.not_eq_true', decide_eq_false_iff_not,
      Scores.lt_iff_key (clean x first) (clean y second), not_lt]
  have sorted := mergeSort_stable (fun x : Expansion => Scores.key x.score) agrees listed
  refine sorted.imp_of_mem fun {x y} first second before => ?_
  have left := clean x (List.mem_mergeSort.mp first)
  have right := clean y (List.mem_mergeSort.mp second)
  unfold Before
  rw [Scores.lt_iff_key right left, Scores.lt_iff_key left right, not_lt]
  exact before

theorem best_take {vocabulary count : Nat} {all ranked : List Expansion}
    (sorted : ranked.Pairwise (Before vocabulary)) (perm : ranked.Perm all)
    (enough : count ≤ all.length) : Best vocabulary count all (ranked.take count) where
  counted := by rw [List.length_take, perm.length_eq, Nat.min_eq_left enough]
  ordered := sorted.sublist (List.take_sublist _ _)
  ahead := by
    refine ⟨ranked.drop count, by rwa [List.take_append_drop], ?_⟩
    rw [← List.take_append_drop count ranked] at sorted
    exact (List.pairwise_append.mp sorted).2.2

end Expansion

end StagedDecoding
