import StagedDecoding.Proofs.Binary32

/-! Sums and differences of binary32 numbers are rounded to the nearest number.

The bits that are dropped from a mantissa leave two behind, which tell on which side of the middle
they were. So a rounded number is a multiple of the last place that is kept, and no further from the
exact one than half of it.
-/

set_option autoImplicit false

open Float.Model (Format UnpackedFloat totalExponent)
open Float.Model.UnpackedFloat (Sign Accuracy ExtendedMantissa)

namespace StagedDecoding.Binary32

/-- How often a unit fits into a number, and where in the next one what is left over ends. -/
def Holds (number unit : Nat) : ExtendedMantissa → Prop
  | ⟨mantissa, false, false⟩ => number = mantissa * unit
  | ⟨mantissa, false, true⟩ => mantissa * unit < number ∧ 2 * number < (2 * mantissa + 1) * unit
  | ⟨mantissa, true, false⟩ => 2 * number = (2 * mantissa + 1) * unit
  | ⟨mantissa, true, true⟩ =>
    (2 * mantissa + 1) * unit < 2 * number ∧ number < (mantissa + 1) * unit

theorem Holds.shiftRightOne {number unit : Nat} {left : ExtendedMantissa}
    (holds : Holds number unit left) (pos : 0 < unit) :
    Holds number (unit * 2) left.shiftRightOne := by
  obtain ⟨mantissa, round, sticky⟩ := left
  obtain ⟨half, rfl | rfl⟩ := mantissa.even_or_odd'
  · have halved : 2 * half / 2 = half := by omega
    have even : 2 * half % 2 = 0 := by omega
    cases round <;> cases sticky <;>
      simp only [ExtendedMantissa.shiftRightOne, halved, even, Holds, bne_self_eq_false,
        Bool.or_false, Bool.or_true] at holds ⊢
    case false.false => linarith
    all_goals exact ⟨by linarith, by linarith⟩
  · have halved : (2 * half + 1) / 2 = half := by omega
    have odd : (2 * half + 1) % 2 = 1 := by omega
    cases round <;> cases sticky <;>
      simp only [ExtendedMantissa.shiftRightOne, halved, odd, Holds, bne,
        Bool.or_false, Bool.or_true] at holds ⊢
    case false.false =>
      change 2 * number = (2 * half + 1) * (unit * 2)
      linarith
    all_goals exact ⟨by linarith, by linarith⟩

theorem Holds.shift {number unit : Nat} {left : ExtendedMantissa} (holds : Holds number unit left)
    (pos : 0 < unit) (dropped : Nat) : Holds number (unit * 2 ^ dropped) (left >>> dropped) := by
  change Holds number _ (dropped.repeat ExtendedMantissa.shiftRightOne _)
  induction dropped with
  | zero =>
    rw [Nat.pow_zero, Nat.mul_one]
    exact holds
  | succ dropped ih =>
    rw [Nat.pow_succ, ← Nat.mul_assoc]
    exact ih.shiftRightOne (Nat.mul_pos pos (Nat.two_pow_pos _))

theorem holds_shift (number dropped : Nat) :
    Holds number (2 ^ dropped)
      (ExtendedMantissa.ofMantissaAndAccuracy number .exact >>> dropped) := by
  have whole : Holds number 1 (ExtendedMantissa.ofMantissaAndAccuracy number .exact) :=
    (Nat.mul_one number).symm
  simpa using whole.shift Nat.one_pos dropped

theorem Holds.cut {number unit : Nat} {left : ExtendedMantissa}
    (holds : Holds number unit left) (pos : 0 < unit) :
    left.mantissa * unit ≤ number ∧ number < (left.mantissa + 1) * unit := by
  obtain ⟨mantissa, round, sticky⟩ := left
  cases round <;> cases sticky <;> simp only [Holds] at holds ⊢ <;>
    exact ⟨by linarith, by linarith⟩

theorem roundedMantissa_bounds (left : ExtendedMantissa) :
    left.mantissa ≤ left.roundedMantissa ∧ left.roundedMantissa ≤ left.mantissa + 1 := by
  obtain ⟨mantissa, round, sticky⟩ := left
  cases round <;> cases sticky <;>
    simp only [ExtendedMantissa.roundedMantissa, ExtendedMantissa.accuracy,
      Accuracy.roundToNearestEven] <;>
    omega

theorem Holds.rounded {number unit : Nat} {left : ExtendedMantissa}
    (holds : Holds number unit left) :
    2 * (left.roundedMantissa * unit) ≤ 2 * number + unit ∧
      2 * number ≤ 2 * (left.roundedMantissa * unit) + unit := by
  obtain ⟨mantissa, round, sticky⟩ := left
  cases round <;> cases sticky <;>
    simp only [ExtendedMantissa.roundedMantissa, ExtendedMantissa.accuracy,
      Accuracy.roundToNearestEven, Holds] at holds ⊢
  case true.false =>
    rcases Nat.mod_two_eq_zero_or_one mantissa with even | odd
    · rw [even]
      exact ⟨by linarith, by linarith⟩
    · rw [odd]
      exact ⟨by linarith, by linarith⟩
  all_goals exact ⟨by linarith, by linarith⟩

/-- A multiple of the last place that is kept of a number, no further from it than half of that
place. -/
structure Near (exact rounded : Nat) : Prop where
  grid : 2 ^ (exact.log2 - 23) ∣ rounded
  above : 2 * rounded ≤ 2 * exact + 2 ^ (exact.log2 - 23)
  below : 2 * exact ≤ 2 * rounded + 2 ^ (exact.log2 - 23)

theorem log2_mul_two_pow {number : Nat} (pos : 0 < number) (places : Nat) :
    (number * 2 ^ places).log2 = number.log2 + places := by
  have some := Nat.ne_of_gt pos
  refine (Nat.log2_eq_iff (Nat.ne_of_gt (Nat.mul_pos pos (Nat.two_pow_pos _)))).mpr ⟨?_, ?_⟩
  · rw [Nat.pow_add]
    exact Nat.mul_le_mul_right _ (Nat.log2_self_le some)
  · rw [Nat.add_right_comm, Nat.pow_add]
    exact Nat.mul_lt_mul_of_pos_right Nat.lt_log2_self (Nat.two_pow_pos _)

theorem log2_units {mantissa : Nat} {exponent : Int} (pos : 0 < mantissa) :
    (units mantissa exponent).log2 = mantissa.log2 + (exponent + 149).toNat :=
  log2_mul_two_pow pos _

theorem Canonical.near {mantissa : Nat} {exponent : Int} (canonical : Canonical mantissa exponent) :
    Near (units mantissa exponent) (units mantissa exponent) := by
  have few := log2_le_of_small canonical.pos canonical.small
  refine ⟨?_, Nat.le_add_right _ _, Nat.le_add_right _ _⟩
  rw [log2_units canonical.pos]
  exact (Nat.pow_dvd_pow 2 (by omega)).mul_left _

def excess (mantissa : Nat) (exponent : Int) : Nat :=
  (lastPlace mantissa exponent - exponent).toNat

theorem shiftToTargetExponent_eq (mantissa : Nat) (exponent : Int) (accuracy : Accuracy) :
    UnpackedFloat.shiftToTargetExponent Format.binary32 mantissa exponent accuracy =
      (ExtendedMantissa.ofMantissaAndAccuracy mantissa accuracy >>> excess mantissa exponent,
        exponent + excess mantissa exponent) := by
  unfold UnpackedFloat.shiftToTargetExponent
  rw [targetExponent_eq]
  rfl

/-- A mantissa with all bits that there is room for. A rounded one may have carried over into one
bit more. -/
theorem carried {mantissa : Nat} {exponent : Int} (large : exponent = -149 ∨ 2 ^ 23 ≤ mantissa)
    (some : 0 < mantissa) (small : mantissa ≤ 2 ^ 24) (low : -149 ≤ exponent) :
    ∃ final place, Canonical final place ∧ units final place = units mantissa exponent ∧
      UnpackedFloat.shiftToTargetExponent Format.binary32 mantissa exponent .exact =
        (⟨final, false, false⟩, place) := by
  rw [shiftToTargetExponent_eq]
  rcases Nat.lt_or_eq_of_le small with small | rfl
  · have canonical : Canonical mantissa exponent := ⟨some, small, low, large⟩
    have none : excess mantissa exponent = 0 := by
      rw [excess, ← targetExponent_eq, canonical.targetExponent, Int.sub_self]
      rfl
    refine ⟨mantissa, exponent, canonical, rfl, ?_⟩
    rw [none, Int.natCast_zero, Int.add_zero]
    rfl
  · have one : excess (2 ^ 24) exponent = 1 := by
      rw [excess, lastPlace, Nat.log2_two_pow]
      omega
    refine ⟨2 ^ 23, exponent + 1, ⟨by decide, by decide, by omega, .inr le_rfl⟩, ?_, ?_⟩
    · have next : (exponent + 1 + 149).toNat = (exponent + 149).toNat + 1 := by omega
      rw [units, units, next]
      ring
    · rw [one]
      rfl

theorem roundWithAccuracy_carried {mantissa : Nat} {exponent place : Int} {accuracy : Accuracy}
    {left : ExtendedMantissa} (sign : Sign)
    (shifted : UnpackedFloat.shiftToTargetExponent Format.binary32 mantissa exponent accuracy =
      (left, place))
    (large : place = -149 ∨ 2 ^ 23 ≤ left.roundedMantissa) (some : 0 < left.roundedMantissa)
    (small : left.roundedMantissa ≤ 2 ^ 24) (low : -149 ≤ place) :
    ∃ final last, ∃ canonical : Canonical final last,
      units final last = units left.roundedMantissa place ∧
        UnpackedFloat.roundWithAccuracy Format.binary32 sign mantissa exponent accuracy =
          .finite sign final last canonical.pos := by
  -- a carry makes a second shift necessary, which drops a zero
  obtain ⟨final, last, canonical, landed, again⟩ := carried large some small low
  refine ⟨final, last, canonical, landed, ?_⟩
  unfold UnpackedFloat.roundWithAccuracy
  rw [shifted]
  dsimp only
  rw [again]
  exact dif_neg (Nat.ne_of_gt canonical.pos)

section Shift

variable {mantissa : Nat} {exponent : Int} {left : ExtendedMantissa}

theorem add_excess (within : exponent ≤ lastPlace mantissa exponent) :
    exponent + excess mantissa exponent = lastPlace mantissa exponent := by
  unfold excess
  omega

theorem excess_bounds (within : exponent ≤ lastPlace mantissa exponent) :
    mantissa / 2 ^ excess mantissa exponent < 2 ^ 24 ∧
      (lastPlace mantissa exponent = -149 ∨
        2 ^ 23 ≤ mantissa / 2 ^ excess mantissa exponent) := by
  have kept := add_excess within
  unfold lastPlace at kept ⊢
  refine ⟨?_, or_iff_not_imp_left.mpr fun high => ?_⟩
  · rw [Nat.div_lt_iff_lt_mul (Nat.two_pow_pos _), ← Nat.pow_add]
    exact Nat.lt_of_lt_of_le Nat.lt_log2_self (Nat.pow_le_pow_right (by omega) (by omega))
  · have some : mantissa ≠ 0 := by
      rintro rfl
      rw [Nat.log2_zero] at high kept
      omega
    rw [Nat.le_div_iff_mul_le (Nat.two_pow_pos _), ← Nat.pow_add]
    exact Nat.le_trans (Nat.pow_le_pow_right (by omega) (by omega)) (Nat.log2_self_le some)

/-- A shift leaves 24 bits, or one more that is all zeros. Only under the least exponent it may leave
fewer. -/
theorem shift_bounds (pos : 0 < mantissa) (low : -149 ≤ exponent)
    (within : exponent ≤ lastPlace mantissa exponent)
    (shifted : ExtendedMantissa.ofMantissaAndAccuracy mantissa .exact >>> excess mantissa exponent =
      left) :
    (lastPlace mantissa exponent = -149 ∨ 2 ^ 23 ≤ left.roundedMantissa) ∧
      0 < left.roundedMantissa ∧ left.roundedMantissa ≤ 2 ^ 24 := by
  obtain ⟨below, above⟩ :=
    (shifted ▸ holds_shift mantissa (excess mantissa exponent)).cut (Nat.two_pow_pos _)
  have cut := Nat.div_eq_of_lt_le below above
  obtain ⟨kept, most⟩ := roundedMantissa_bounds left
  obtain ⟨small, large⟩ := excess_bounds within
  refine ⟨large.imp_right fun full => by omega, ?_, by omega⟩
  rcases large with least | full
  · have none : excess mantissa exponent = 0 := by
      unfold excess
      omega
    rw [none, Nat.pow_zero, Nat.div_one] at cut
    omega
  · omega

theorem shift_near (pos : 0 < mantissa) (low : -149 ≤ exponent)
    (within : exponent ≤ lastPlace mantissa exponent)
    (shifted : ExtendedMantissa.ofMantissaAndAccuracy mantissa .exact >>> excess mantissa exponent =
      left) :
    Near (units mantissa exponent)
      (units left.roundedMantissa (lastPlace mantissa exponent)) := by
  obtain ⟨above, below⟩ := shifted ▸ (holds_shift mantissa (excess mantissa exponent)).rounded
  have kept := add_excess within
  generalize excess mantissa exponent = dropped at kept above below
  generalize isPlace : lastPlace mantissa exponent = place at kept ⊢
  unfold lastPlace at isPlace
  have length : (units mantissa exponent).log2 - 23 = dropped + (exponent + 149).toNat := by
    rw [log2_units pos]
    omega
  -- the units that a shift drops are made up for by the exponent
  have scaled : units left.roundedMantissa place =
      left.roundedMantissa * 2 ^ dropped * 2 ^ (exponent + 149).toNat := by
    have moved : (place + 149).toNat = dropped + (exponent + 149).toNat := by omega
    rw [units, moved, Nat.pow_add, Nat.mul_assoc]
  refine ⟨?_, ?_, ?_⟩ <;> rw [length, Nat.pow_add, scaled]
  · exact Nat.mul_dvd_mul_right (Nat.dvd_mul_left _ _) _
  · have := Nat.mul_le_mul_right (2 ^ (exponent + 149).toNat) above
    rw [units]
    linarith
  · have := Nat.mul_le_mul_right (2 ^ (exponent + 149).toNat) below
    rw [units]
    linarith

theorem exists_widened (pos : 0 < mantissa) (low : -149 ≤ exponent) :
    ∃ wide lower, UnpackedFloat.decreaseExponent mantissa exponent (lastPlace mantissa exponent) =
        (wide, lower) ∧ 0 < wide ∧ -149 ≤ lower ∧ lower ≤ lastPlace wide lower ∧
      units wide lower = units mantissa exponent := by
  obtain ⟨more, isMore⟩ : ∃ more, (exponent - lastPlace mantissa exponent).toNat = more := ⟨_, rfl⟩
  have long := log2_mul_two_pow pos more
  unfold lastPlace at isMore
  refine ⟨mantissa * 2 ^ more, exponent - more, ?_, Nat.mul_pos pos (Nat.two_pow_pos _), by omega,
    ?_, ?_⟩
  · simp only [UnpackedFloat.decreaseExponent, Nat.shiftLeft_eq, lastPlace, isMore]
  · rw [lastPlace, long]
    omega
  · have moved : (exponent + 149).toNat = more + (exponent - more + 149).toNat := by omega
    rw [units, units, moved, Nat.pow_add, Nat.mul_assoc]

/-- A number is rounded to a canonical one near to it. -/
theorem round_near (pos : 0 < mantissa) (low : -149 ≤ exponent) (sign : Sign) :
    ∃ final place, ∃ canonical : Canonical final place,
      UnpackedFloat.round Format.binary32 sign mantissa exponent =
          .finite sign final place canonical.pos ∧
        Near (units mantissa exponent) (units final place) := by
  obtain ⟨wide, lower, widened, some, low, within, same⟩ := exists_widened pos low
  obtain ⟨left, shifted⟩ : ∃ left,
      ExtendedMantissa.ofMantissaAndAccuracy wide .exact >>> excess wide lower = left := ⟨_, rfl⟩
  obtain ⟨large, kept, bounded⟩ := shift_bounds some low within shifted
  have near := shift_near some low within shifted
  have first : UnpackedFloat.shiftToTargetExponent Format.binary32 wide lower .exact =
      (left, lastPlace wide lower) := by
    rw [shiftToTargetExponent_eq, shifted, add_excess within]
  obtain ⟨final, place, canonical, landed, settled⟩ :=
    roundWithAccuracy_carried sign first large kept bounded (low.trans within)
  refine ⟨final, place, canonical, ?_, same ▸ landed ▸ near⟩
  unfold UnpackedFloat.round
  rw [targetExponent_eq]
  dsimp only
  rw [widened]
  exact settled

end Shift

end StagedDecoding.Binary32
