import StagedDecoding.Proofs.Constraints
import StagedDecoding.Proofs.Sums

/-! Log probabilities of scores that leave a choice.

The shifted exponentials lie between zero and one, and that of the largest score is one. So their sum
is finite and at least one, and its logarithm is finite and not negative. Log probabilities are then
at most zero, finite for the largest score, and negative infinity for tokens that are ruled out.
-/

set_option autoImplicit false

namespace StagedDecoding

/-- What holds of the exponential and the logarithm on every platform. -/
structure Elementary.Regular (elementary : Elementary) : Prop where
  exp_zero : elementary.exp 0 = 1
  exp_range : ∀ x, x ≤ 0 → 0 ≤ elementary.exp x ∧ elementary.exp x ≤ 1
  log_range : ∀ x, 1 ≤ x → x.isFinite = true →
    0 ≤ elementary.log x ∧ (elementary.log x).isFinite = true

namespace Scores

/-- No score is NaN or infinity, and some token that ends nothing is not ruled out. -/
structure Clear (endTokens : List Token) (scores : Scores) : Prop where
  below : ∀ score ∈ scores, score < infinity
  going : ∃ token score, scores[token]? = some score ∧ token ∉ endTokens ∧ negativeInfinity < score

variable {scores : Scores} {endTokens : List Token} {elementary : Elementary}

theorem isNaN_of_lt {x y : Float32} (below : x < y) : x.isNaN = false ∧ y.isNaN = false := by
  rw [lt_iff_unpack] at below
  change x.toModel.unpack.isNaN = false ∧ y.toModel.unpack.isNaN = false
  generalize x.toModel.unpack = x, y.toModel.unpack = y at below ⊢
  rcases x with (_ | _) | _ | _ | ⟨_ | _, _, _, _⟩ <;>
    rcases y with (_ | _) | _ | _ | ⟨_ | _, _, _, _⟩ <;>
    first
    | exact ⟨rfl, rfl⟩
    | cases below

theorem isFinite_of_lt {x : Float32} (above : negativeInfinity < x) (below : x < infinity) :
    x.isFinite = true := by
  rw [lt_iff_unpack] at above below
  change x.toModel.unpack.isFinite = true
  generalize x.toModel.unpack = x at above below ⊢
  rcases x with (_ | _) | _ | _ | _ <;> first | rfl | cases above; done | cases below

theorem lt_of_isFinite {x : Float32} (finite : x.isFinite = true) : negativeInfinity < x := by
  rw [lt_iff_unpack]
  change x.toModel.unpack.isFinite = true at finite
  generalize x.toModel.unpack = x at finite
  rcases x with _ | _ | _ | _ <;> first | cases finite; done | rfl

theorem lt_of_lt_of_le {x y z : Float32} (below : x < y) (within : y ≤ z) : x < z := by
  obtain ⟨left, middle⟩ := isNaN_of_lt below
  have right := (isNaN_of_le within).2
  rw [lt_iff_key left middle] at below
  rw [le_iff_key middle right] at within
  exact (lt_iff_key left right).mpr (below.trans_le within)

theorem foldl_larger {incumbent : Float32} (proper : incumbent.isNaN = false)
    (clean : ∀ score ∈ scores, score.isNaN = false) :
    (scores.foldl larger incumbent = incumbent ∨ scores.foldl larger incumbent ∈ scores) ∧
      incumbent ≤ scores.foldl larger incumbent ∧
      ∀ score ∈ scores, score ≤ scores.foldl larger incumbent := by
  have refl : ∀ {x : Float32}, x.isNaN = false → x ≤ x := fun own =>
    (le_iff_key own own).mpr le_rfl
  induction scores generalizing incumbent with
  | nil => exact ⟨.inl rfl, refl proper, by simp⟩
  | cons score rest ih =>
    have own := clean score (by simp)
    have later : ∀ other ∈ rest, other.isNaN = false := fun other member =>
      clean other (by simp [member])
    rw [List.foldl_cons]
    -- neither is undefined, so the comparison decides
    have chosen : larger incumbent score = if incumbent < score then score else incumbent := by
      simp only [larger, proper, own, Bool.false_eq_true, if_false]
    rw [chosen]
    split
    · next exceeds =>
      obtain ⟨found, above, rest⟩ := ih own later
      have higher : incumbent ≤ score := by
        rw [lt_iff_key proper own] at exceeds
        exact (le_iff_key proper own).mpr exceeds.le
      refine ⟨.inr ?_, le_trans higher above, ?_⟩
      · rcases found with same | member
        · rw [same]
          exact List.mem_cons_self
        · exact List.mem_cons_of_mem _ member
      · exact List.forall_mem_cons.mpr ⟨above, rest⟩
    · next within =>
      obtain ⟨found, above, rest⟩ := ih proper later
      have under : score ≤ incumbent := by
        rw [lt_iff_key proper own, not_lt] at within
        exact (le_iff_key own proper).mpr within
      exact ⟨found.imp_right (List.mem_cons_of_mem _), above,
        List.forall_mem_cons.mpr ⟨le_trans under above, rest⟩⟩

theorem Clear.proper (clear : Clear endTokens scores) : ∀ score ∈ scores, score.isNaN = false :=
  fun score member => (isNaN_of_lt (clear.below score member)).1

theorem Clear.maximum (clear : Clear endTokens scores) :
    scores.maximum ∈ scores ∧ scores.maximum.isFinite = true ∧
      ∀ score ∈ scores, score ≤ scores.maximum := by
  obtain ⟨found, -, above⟩ := @foldl_larger scores negativeInfinity rfl clear.proper
  obtain ⟨token, score, there, -, exceeds⟩ := clear.going
  have higher : negativeInfinity < scores.maximum :=
    lt_of_lt_of_le exceeds (above score (List.mem_of_getElem? there))
  have member : scores.maximum ∈ scores := by
    refine found.resolve_left fun same => ?_
    rw [Scores.maximum, same] at higher
    exact absurd higher (by decide)
  exact ⟨member, isFinite_of_lt higher (clear.below _ member), above⟩

theorem grains_one : grains 1 = 2 ^ 149 := by decide +kernel

theorem foldl_add {weights : Scores} {sum : Float32}
    (bounded : ∀ weight ∈ weights, 0 ≤ weight ∧ weight ≤ 1) (finite : sum.isFinite = true)
    (pos : 0 ≤ grains sum) (small : grains sum ≤ 2 ^ 174) :
    (weights.foldl (· + ·) sum).isFinite = true ∧
      grains sum ≤ grains (weights.foldl (· + ·) sum) ∧
      grains (weights.foldl (· + ·) sum) ≤ 2 ^ 174 ∧
      ∀ weight ∈ weights, weight ≤ weights.foldl (· + ·) sum := by
  induction weights generalizing sum with
  | nil => exact ⟨finite, le_rfl, small, by simp⟩
  | cons weight rest ih =>
    obtain ⟨low, high⟩ := bounded weight (by simp)
    have own : weight.isFinite = true := isFinite_of_between rfl rfl low high
    have positive : 0 ≤ grains weight := (le_iff_grains rfl own).mp low
    have least : grains weight ≤ 2 ^ 149 := grains_one ▸ (le_iff_grains own rfl).mp high
    obtain ⟨finite', above, higher, small'⟩ := add_small finite own pos positive small least
    obtain ⟨final, grown, within, others⟩ :=
      ih (fun other member => bounded other (by simp [member])) finite' (pos.trans above) small'
    refine ⟨final, above.trans grown, within, List.forall_mem_cons.mpr ⟨?_, others⟩⟩
    exact (le_iff_grains own final).mpr (higher.trans grown)

theorem Clear.mass (clear : Clear endTokens scores) (regular : elementary.Regular) :
    let mass := elementary.log
      (total (scores.map fun score => elementary.exp (score - scores.maximum)))
    0 ≤ mass ∧ mass.isFinite = true := by
  obtain ⟨member, finite, above⟩ := clear.maximum
  obtain ⟨sum, -, -, largest⟩ := @foldl_add
    (scores.map fun score => elementary.exp (score - scores.maximum)) 0 (by
      rw [List.forall_mem_map]
      exact fun score member => regular.exp_range _ (sub_le_zero (above score member) finite))
    rfl le_rfl (by decide)
  refine regular.log_range _ (largest _ (List.mem_map.mpr ⟨_, member, ?_⟩)) sum
  rw [sub_self finite, regular.exp_zero]

theorem Clear.logSoftmax_le (clear : Clear endTokens scores) (regular : elementary.Regular) :
    ∀ logProbability ∈ scores.logSoftmaxBy elementary, logProbability ≤ 0 := by
  obtain ⟨-, finite, above⟩ := clear.maximum
  obtain ⟨pos, mass⟩ := clear.mass regular
  rw [logSoftmaxBy, List.forall_mem_map]
  intro score member
  exact sub_le_zero (le_trans (sub_le_zero (above score member) finite) pos) mass

theorem Clear.logSoftmax_out (clear : Clear endTokens scores) (regular : elementary.Regular)
    {token : Token} (out : scores[token]? = some negativeInfinity) :
    (scores.logSoftmaxBy elementary)[token]? = some negativeInfinity := by
  obtain ⟨-, finite, -⟩ := clear.maximum
  obtain ⟨-, mass⟩ := clear.mass regular
  rw [logSoftmaxBy, List.getElem?_map, out, Option.map_some,
    infinite_sub negativeInfinity_unpack finite, infinite_sub negativeInfinity_unpack mass]

theorem Clear.logSoftmax_going (clear : Clear endTokens scores) (regular : elementary.Regular)
    (out : ∀ token ∈ endTokens, ∀ score, scores[token]? = some score → score = negativeInfinity) :
    ∃ token logProbability, token ∉ endTokens ∧
      (scores.logSoftmaxBy elementary)[token]? = some logProbability ∧
      logProbability.isFinite = true := by
  obtain ⟨member, finite, -⟩ := clear.maximum
  obtain ⟨-, mass⟩ := clear.mass regular
  obtain ⟨token, found⟩ := List.getElem?_of_mem member
  refine ⟨token, _, fun ends => ?_, by rw [logSoftmaxBy, List.getElem?_map, found]; rfl, ?_⟩
  · rw [out token ends _ found] at finite
    cases finite
  · dsimp only
    rw [sub_self finite]
    exact zero_sub_isFinite mass

end Scores

end StagedDecoding
