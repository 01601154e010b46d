import StagedDecoding.Proofs.Signs

/-! Chances of scores after a division by the temperature.

A score divided by a tiny temperature may overflow. As long as the largest quotient is finite, the
shifted exponentials lie between zero and one and the largest of them is one, so that some chance is
positive, and none that belongs to negative infinity. Otherwise no chance is positive at all.
-/

set_option autoImplicit false

open Float.Model (Format UnpackedFloat)
open Float.Model.UnpackedFloat (Sign ExtendedMantissa)

namespace StagedDecoding

structure Elementary.Exponential (elementary : Elementary) : Prop where
  exp_zero : elementary.exp 0 = 1
  exp_range : ∀ x, x ≤ 0 → 0 ≤ elementary.exp x ∧ elementary.exp x ≤ 1
  exp_negativeInfinity : elementary.exp Scores.negativeInfinity = 0
  exp_undefined : ∀ x, x.isNaN = true → (elementary.exp x).isNaN = true

namespace Binary32

theorem Holds.exact {mantissa unit : Nat} {left : ExtendedMantissa}
    (holds : Holds (mantissa * unit) unit left) (pos : 0 < unit) :
    left = ⟨mantissa, false, false⟩ := by
  obtain ⟨above, below⟩ := holds.cut pos
  have same : left.mantissa = mantissa :=
    Nat.le_antisymm (Nat.le_of_mul_le_mul_right above pos)
      (Nat.le_of_lt_succ (Nat.lt_of_mul_lt_mul_right below))
  obtain ⟨_, round, sticky⟩ := left
  subst same
  have half : ∀ mantissa : Nat, (2 * mantissa + 1) * unit = 2 * (mantissa * unit) + unit :=
    fun mantissa => by ring
  cases round <;> cases sticky <;> simp only [Holds, half] at holds
  · rfl
  all_goals omega

theorem Canonical.lastPlace_eq {mantissa : Nat} {exponent : Int}
    (canonical : Canonical mantissa exponent) : lastPlace mantissa exponent = exponent :=
  (targetExponent_eq _ _).symm.trans canonical.targetExponent

theorem Canonical.one_mul {mantissa : Nat} {exponent : Int} (canonical : Canonical mantissa exponent)
    {one : 0 < 2 ^ 23} :
    ∃ final last, ∃ rounded : Canonical final last,
      UnpackedFloat.mul Format.binary32 (.finite .positive (2 ^ 23) (-23) one)
        (.finite .positive mantissa exponent canonical.pos) =
          .finite .positive final last rounded.pos := by
  have long := log2_mul_two_pow canonical.pos 23
  have place := canonical.lastPlace_eq
  -- one is written with 23 zeros, and just these are dropped from the product again
  have dropped : excess (mantissa * 2 ^ 23) (-23 + exponent) = 23 := by
    unfold lastPlace at place
    rw [excess, lastPlace, long]
    omega
  have shifted : UnpackedFloat.shiftToTargetExponent Format.binary32 (2 ^ 23 * mantissa)
      (-23 + exponent) .exact = (⟨mantissa, false, false⟩, exponent) := by
    rw [Nat.mul_comm, shiftToTargetExponent_eq, dropped,
      (holds_shift (mantissa * 2 ^ 23) 23).exact (Nat.two_pow_pos _)]
    exact Prod.ext rfl (by change -23 + exponent + 23 = exponent; omega)
  obtain ⟨final, last, rounded, -, settled⟩ := roundWithAccuracy_carried .positive shifted
    canonical.normal canonical.pos (Nat.le_of_lt canonical.small) canonical.low
  exact ⟨final, last, rounded, settled⟩

theorem inverse_rounds {mantissa : Nat} {exponent : Int} {one : 0 < 2 ^ 23}
    (canonical : Canonical mantissa exponent) (small : units mantissa exponent ≤ 2 ^ 174) :
    let inverse := UnpackedFloat.div Format.binary32 (.finite .positive (2 ^ 23) (-23) one)
      (.finite .positive mantissa exponent canonical.pos)
    Rounds (count inverse) inverse ∧ 0 < count inverse := by
  obtain ⟨left, place, x, cut, division, rounds, counted⟩ :=
    div_finite .positive .positive one canonical.pos
      (show (-149 : Int) ≤ -23 by decide) canonical.low
  have some : 0 < left.roundedMantissa := by
    -- only a quotient under the smallest number could be rounded to zero
    by_contra none
    have kept := (roundedMantissa_bounds left).1
    obtain rfl : place = -149 := cut.large.resolve_right (by omega)
    have bound := (cut.holds.cut (Nat.mul_pos (units_pos canonical.pos) (Nat.two_pow_pos _))).2
    have zero : left.mantissa = 0 := by omega
    have number : units (2 ^ 23) (-23) = 2 ^ 149 := rfl
    have unit : 2 ^ (-149 + 149 : Int).toNat = 1 := rfl
    rw [zero, number, unit, Nat.zero_add, Nat.one_mul, Nat.mul_one] at bound
    omega
  rw [division]
  refine ⟨rounds, ?_⟩
  rw [counted]
  exact Int.natCast_pos.mpr (units_pos some)

end Binary32

namespace Scores

open Binary32

def divisor (temperature : Float32) : Float32 :=
  if temperature > 0 then temperature else 1

def scaled (temperature : Float32) (scores : Scores) : Scores :=
  if divisor temperature == 1 then scores else scores.map (· / divisor temperature)

def weights (elementary : Elementary) (scores : Scores) : Scores :=
  scores.map fun score => elementary.exp (score - scores.maximum)

/-- Some chance is positive, and only where the score is above negative infinity. -/
structure Backed (scores chances : Scores) : Prop where
  above : ∀ chance ∈ chances, ¬ chance < 0
  nonzero : ∃ chance ∈ chances, 0 < chance
  allowed : ∀ (i : Nat) (chance : Float32), chances[i]? = some chance → 0 < chance →
    ∃ score, scores[i]? = some score ∧ negativeInfinity < score

variable {elementary : Elementary} {scores chances : Scores} {incumbent x y sum : Float32}

theorem one_mul_pos (pos : 0 < x) : 0 < 1 * x := by
  have written := written_unpack x.toModel
  have one : (1 : Float32).toModel.unpack = .finite .positive (2 ^ 23) (-23) (by decide) := rfl
  rw [lt_iff_unpack] at pos ⊢
  change (UnpackedFloat.zero .positive).lt (Float32.Model.pack (UnpackedFloat.mul Format.binary32
    (1 : Float32).toModel.unpack x.toModel.unpack)).unpack = true
  rw [one]
  generalize x.toModel.unpack = x at written pos ⊢
  rcases x with (_ | _) | _ | _ | ⟨_ | _, mantissa, exponent, some⟩
  case infinity.positive => rfl
  case finite.positive =>
    obtain ⟨final, last, rounded, product⟩ := written.1.one_mul
    rw [product, unpack_pack_finite .positive rounded]
    split <;> rfl
  all_goals cases pos

theorem inverse_pos (pos : 0 < sum) (finite : sum.isFinite = true) (small : grains sum ≤ 2 ^ 174) :
    0 < 1 / sum := by
  have written := written_unpack sum.toModel
  have one : (1 : Float32).toModel.unpack = .finite .positive (2 ^ 23) (-23) (by decide) := rfl
  rw [lt_iff_unpack] at pos ⊢
  rw [unpack_div, one]
  change sum.toModel.unpack.isFinite = true at finite
  change count sum.toModel.unpack ≤ 2 ^ 174 at small
  generalize sum.toModel.unpack = sum at written pos finite small ⊢
  rcases sum with _ | _ | _ | ⟨_ | _, mantissa, exponent, some⟩
  case finite.positive =>
    have bound : units mantissa exponent ≤ 2 ^ 174 := Int.ofNat_le.mp small
    obtain ⟨rounds, above⟩ := inverse_rounds written.1 bound
    exact rounds.lt above
  all_goals first | cases finite; done | cases pos

theorem foldl_larger_filter (number : incumbent.isNaN = false) :
    scores.foldl larger incumbent =
      (scores.filter fun score => !score.isNaN).foldl larger incumbent := by
  induction scores generalizing incumbent with
  | nil => rfl
  | cons score rest ih =>
    cases own : score.isNaN with
    | true =>
      have passed : larger incumbent score = incumbent := by
        simp only [larger, number, own, Bool.false_eq_true, if_false, if_true]
      rw [List.foldl_cons, passed, List.filter_cons_of_neg (by simp only [own]; decide), ih number]
    | false =>
      have next : (larger incumbent score).isNaN = false := by
        simp only [larger, number, own, Bool.false_eq_true, if_false]
        split
        · exact own
        · exact number
      rw [List.foldl_cons, List.filter_cons_of_pos (by simp only [own]; decide), List.foldl_cons, ih next]

theorem maximum_spec (scores : Scores) :
    (scores.maximum = negativeInfinity ∨ scores.maximum ∈ scores) ∧
      negativeInfinity ≤ scores.maximum ∧
      ∀ score ∈ scores, score.isNaN = true ∨ score ≤ scores.maximum := by
  obtain ⟨found, above, others⟩ := @foldl_larger (scores.filter fun score => !score.isNaN)
    negativeInfinity rfl fun score member => by simpa using (List.mem_filter.mp member).2
  rw [← foldl_larger_filter rfl] at found above others
  refine ⟨found.imp_right fun member => (List.mem_filter.mp member).1, above,
    fun score member => ?_⟩
  cases own : score.isNaN with
  | true => exact .inl rfl
  | false => exact .inr (others score (List.mem_filter.mpr ⟨member, by rw [own]; rfl⟩))

theorem unpack_of_not_above (out : ¬ negativeInfinity < x) :
    x.toModel.unpack = .infinity .negative ∨ x.toModel.unpack = .notANumber := by
  rw [not_lt_iff, negativeInfinity_unpack] at out
  generalize x.toModel.unpack = x at out ⊢
  rcases x with (_ | _) | _ | _ | _ <;>
    first
    | exact .inl rfl
    | exact .inr rfl
    | cases out

theorem sub_undefined (undefined : x.toModel.unpack = .notANumber) : (x - y).isNaN = true := by
  apply isNaN_of_unpack
  change (Float32.Model.pack
    (UnpackedFloat.sub Format.binary32 x.toModel.unpack y.toModel.unpack)).unpack = _
  have none : UnpackedFloat.sub Format.binary32 .notANumber y.toModel.unpack = .notANumber := by
    cases y.toModel.unpack <;> rfl
  rw [undefined, none]
  rfl

theorem sub_infinite (infinite : y.toModel.unpack = .infinity .positive) :
    (x - y).isNaN = true ∨ x - y = negativeInfinity := by
  by_cases undefined : (x - y).isNaN = true
  · exact .inl undefined
  · right
    change ¬ (Float32.Model.pack (UnpackedFloat.sub Format.binary32 x.toModel.unpack
      y.toModel.unpack)).unpack.isNaN = true at undefined
    change Float32.ofModel (Float32.Model.pack
      (UnpackedFloat.sub Format.binary32 x.toModel.unpack y.toModel.unpack)) = _
    rw [infinite] at undefined ⊢
    generalize x.toModel.unpack = x at undefined ⊢
    rcases x with (_ | _) | _ | _ | _ <;> first | rfl | exact absurd rfl undefined

end Scores

namespace Elementary.Exponential

open Scores Binary32

variable {elementary : Elementary} {x largest : Float32}

theorem weight_range (exponential : elementary.Exponential) (finite : largest.isFinite = true)
    (within : x.isNaN = true ∨ x ≤ largest) :
    (elementary.exp (x - largest)).isNaN = true ∨
      0 ≤ elementary.exp (x - largest) ∧ elementary.exp (x - largest) ≤ 1 :=
  within.imp (fun undefined => exponential.exp_undefined _ (sub_undefined (unpack_eq_of_isNaN undefined)))
    fun below => exponential.exp_range _ (sub_le_zero below finite)

theorem lt_of_weight_pos (exponential : elementary.Exponential) (finite : largest.isFinite = true)
    (pos : 0 < elementary.exp (x - largest)) : negativeInfinity < x := by
  by_contra out
  rcases unpack_of_not_above out with infinite | undefined
  · rw [infinite_sub infinite finite, exponential.exp_negativeInfinity] at pos
    exact absurd pos (by decide)
  · have number := (isNaN_of_lt pos).2
    rw [exponential.exp_undefined _ (sub_undefined undefined)] at number
    cases number

theorem weight_neither (exponential : elementary.Exponential)
    (infinite : largest.toModel.unpack = .infinity .positive) :
    ¬ elementary.exp (x - largest) < 0 ∧ ¬ 0 < elementary.exp (x - largest) := by
  rcases @sub_infinite x largest infinite with undefined | same
  · have none := exponential.exp_undefined _ undefined
    refine ⟨fun below => ?_, fun above => ?_⟩
    · rw [(isNaN_of_lt below).1] at none
      cases none
    · rw [(isNaN_of_lt above).2] at none
      cases none
  · rw [same, exponential.exp_negativeInfinity]
    exact ⟨by decide, by decide⟩

end Elementary.Exponential

namespace Scores

open Binary32

variable {elementary : Elementary} {scores chances : Scores} {temperature factor : Float32}

theorem softmax_eq (above : negativeInfinity < scores.maximum) :
    softmax scores elementary =
      if total (weights elementary scores) > 0 then
        (weights elementary scores).map (· * (1 / total (weights elementary scores)))
      else weights elementary scores := by
  have apart : (scores.maximum == negativeInfinity) = false := by
    change scores.maximum.toModel.unpack.beq (.infinity .negative) = false
    rw [lt_iff_unpack, negativeInfinity_unpack] at above
    generalize scores.maximum.toModel.unpack = largest at above ⊢
    rcases largest with (_ | _) | _ | _ | _ <;> first | rfl | cases above
  unfold softmax
  dsimp only
  rw [if_neg (by rw [apart]; decide)]
  rfl

theorem one_mem_weights (exponential : elementary.Exponential)
    (finite : scores.maximum.isFinite = true) : 1 ∈ weights elementary scores := by
  obtain ⟨found, -, -⟩ := maximum_spec scores
  have member : scores.maximum ∈ scores := found.resolve_left fun same => by
    rw [same] at finite
    cases finite
  refine List.mem_map.mpr ⟨_, member, ?_⟩
  rw [sub_self finite, exponential.exp_zero]

theorem weights_range (exponential : elementary.Exponential)
    (finite : scores.maximum.isFinite = true) :
    ∀ weight ∈ weights elementary scores, weight.isNaN = true ∨ 0 ≤ weight ∧ weight ≤ 1 := by
  obtain ⟨-, -, others⟩ := maximum_spec scores
  rw [weights, List.forall_mem_map]
  exact fun score member => exponential.weight_range finite (others score member)

theorem weights_backed (exponential : elementary.Exponential)
    (finite : scores.maximum.isFinite = true) : Backed scores (weights elementary scores) := by
  refine ⟨fun weight member below => ?_, ⟨1, one_mem_weights exponential finite, by decide⟩,
    fun i weight found pos => ?_⟩
  · rcases weights_range exponential finite weight member with undefined | ⟨least, -⟩
    · rw [(isNaN_of_lt below).1] at undefined
      cases undefined
    · exact not_lt_of_le least below
  · rw [weights, List.getElem?_map, Option.map_eq_some_iff] at found
    obtain ⟨score, there, rfl⟩ := found
    exact ⟨score, there, exponential.lt_of_weight_pos finite pos⟩

theorem Backed.scale (backed : Backed scores chances) (one : 1 ∈ chances) (pos : 0 < factor) :
    Backed scores (chances.map (· * factor)) := by
  have zero : (0 : Float32) ≤ factor := by
    have number := isNaN_of_lt pos
    rw [lt_iff_key number.1 number.2] at pos
    exact (le_iff_key number.1 number.2).mpr pos.le
  refine ⟨?_, ⟨1 * factor, List.mem_map_of_mem one, one_mul_pos pos⟩, fun i chance found some => ?_⟩
  · rw [List.forall_mem_map]
    exact fun chance member => mul_not_lt (backed.above chance member) (not_lt_of_le zero)
  · rw [List.getElem?_map, Option.map_eq_some_iff] at found
    obtain ⟨own, there, rfl⟩ := found
    refine backed.allowed i own there ?_
    by_contra none
    exact (mul_neither (backed.above own (List.mem_of_getElem? there)) none factor).2 some

/-- With a finite maximum some chance is positive, and none of a score that is ruled out. -/
theorem softmax_backed (exponential : elementary.Exponential)
    (finite : scores.maximum.isFinite = true) : Backed scores (softmax scores elementary) := by
  have backed := weights_backed exponential finite
  have one := one_mem_weights exponential finite
  rw [softmax_eq (lt_of_isFinite finite)]
  split
  · next pos =>
    -- a positive sum is a number, and then so is every weight
    have bounded : ∀ weight ∈ weights elementary scores, 0 ≤ weight ∧ weight ≤ 1 :=
      fun weight member => (weights_range exponential finite weight member).resolve_left
        fun undefined => by
          have none : (total (weights elementary scores)).isNaN = true :=
            foldl_undefined (.inr ⟨weight, member, undefined⟩)
          rw [(isNaN_of_lt pos).2] at none
          cases none
    obtain ⟨sum, -, small, -⟩ := @foldl_add _ 0 bounded rfl le_rfl (by decide)
    exact backed.scale one (inverse_pos pos sum small)
  · exact backed

/-- With an infinite maximum no chance is positive. -/
theorem softmax_neither (exponential : elementary.Exponential)
    (infinite : scores.maximum.isFinite = false) :
    ∀ chance ∈ softmax scores elementary, ¬ chance < 0 ∧ ¬ 0 < chance := by
  have least := (maximum_spec scores).2.1
  by_cases above : negativeInfinity < scores.maximum
  · have overflow : scores.maximum.toModel.unpack = .infinity .positive := by
      rw [lt_iff_unpack, negativeInfinity_unpack] at above
      change scores.maximum.toModel.unpack.isFinite = false at infinite
      generalize scores.maximum.toModel.unpack = largest at above infinite
      rcases largest with (_ | _) | _ | _ | _ <;>
        first | rfl | cases above; done | cases infinite
    have none : ∀ weight ∈ weights elementary scores, ¬ weight < 0 ∧ ¬ 0 < weight := by
      rw [weights, List.forall_mem_map]
      exact fun _ _ => exponential.weight_neither overflow
    rw [softmax_eq above]
    -- it makes no difference whether the weights are divided by their sum
    split
    · rw [List.forall_mem_map]
      exact fun weight member => mul_neither (none weight member).1 (none weight member).2 _
    · exact none
  · have lowest : (scores.maximum == negativeInfinity) = true := by
      change scores.maximum.toModel.unpack.beq (.infinity .negative) = true
      have number := (isNaN_of_le least).2
      rcases unpack_of_not_above above with low | undefined
      · rw [low]
        rfl
      · rw [isNaN_of_unpack undefined] at number
        cases number
    unfold softmax
    dsimp only
    rw [if_pos lowest, List.forall_mem_map]
    exact fun _ _ => ⟨by decide, by decide⟩

theorem tempered_eq (temperature : Float32) (scores : Scores) (elementary : Elementary) :
    tempered temperature scores elementary = softmax (scaled temperature scores) elementary :=
  (apply_ite (softmax · elementary) _ _ _).symm

theorem div_not_above {x t : Float32} (out : ¬ negativeInfinity < x) (pos : 0 < t) :
    ¬ negativeInfinity < x / t := by
  rw [not_lt_iff, negativeInfinity_unpack, unpack_div]
  rw [lt_iff_unpack] at pos
  have low := unpack_of_not_above out
  generalize x.toModel.unpack = x, t.toModel.unpack = t at low pos ⊢
  rcases low with rfl | rfl
  · rcases t with (_ | _) | _ | _ | ⟨_ | _, _, _, _⟩ <;> first | rfl | cases pos
  · cases t <;> rfl

theorem scaled_above {i : Nat} {x : Float32} (found : (scaled temperature scores)[i]? = some x)
    (above : negativeInfinity < x) :
    ∃ score, scores[i]? = some score ∧ negativeInfinity < score := by
  unfold scaled at found
  split at found
  · exact ⟨x, found, above⟩
  · have pos : 0 < divisor temperature := by
      unfold divisor
      split
      · assumption
      · decide
    rw [List.getElem?_map, Option.map_eq_some_iff] at found
    obtain ⟨score, there, rfl⟩ := found
    exact ⟨score, there, not_not.mp fun out => div_not_above out pos above⟩

end Scores

end StagedDecoding
