import StagedDecoding.Proofs.Sums

/-! Quotients of scores.

A quotient is cut off at its last place and rounded by what is left over. The larger of two quotients
has the higher last place, or at the same one as many units at least, so it is never rounded under the
smaller one. A score that is not positive therefore does not fall when it is divided by more.
-/

set_option autoImplicit false

open Float.Model (Format UnpackedFloat totalExponent)
open Float.Model.UnpackedFloat (Sign ExtendedMantissa)

namespace StagedDecoding.Binary32

section Holds

variable {number unit : Nat} {left : ExtendedMantissa}

theorem holds_quotient (number : Nat) (pos : 0 < unit) :
    Holds number unit (.ofMantissaAndAccuracy (number / unit)
      (UnpackedFloat.accuracyOfFraction (number % unit) unit)) := by
  have whole : number / unit * unit + number % unit = number := Nat.div_add_mod' number unit
  have rest := Nat.mod_lt number pos
  generalize number / unit = quotient, number % unit = remainder at whole rest ⊢
  unfold UnpackedFloat.accuracyOfFraction
  split
  case isTrue none =>
    change number = quotient * unit
    omega
  case isFalse some =>
    rcases lt_trichotomy (2 * remainder) unit with below | half | above
    · rw [compare_lt_iff_lt.mpr below]
      exact ⟨by omega, by linarith⟩
    · rw [compare_eq_iff_eq.mpr half]
      change 2 * number = (2 * quotient + 1) * unit
      linarith
    · rw [compare_gt_iff_gt.mpr above]
      exact ⟨by linarith, by linarith⟩

theorem Holds.scale (holds : Holds number unit left) {times : Nat} (some : 0 < times) :
    Holds (number * times) (unit * times) left := by
  obtain ⟨mantissa, round, sticky⟩ := left
  cases round <;> cases sticky <;> simp only [Holds] at holds ⊢
  case false.false => rw [holds, Nat.mul_assoc]
  case true.false =>
    have scaled : 2 * number * times = (2 * mantissa + 1) * unit * times := by rw [holds]
    linarith
  all_goals
    have low := Nat.mul_lt_mul_of_pos_right holds.1 some
    have high := Nat.mul_lt_mul_of_pos_right holds.2 some
    exact ⟨by linarith, by linarith⟩

theorem Holds.rounded_mono {number' : Nat} {left' : ExtendedMantissa}
    (holds : Holds number unit left) (holds' : Holds number' unit left') (pos : 0 < unit)
    (below : number ≤ number') : left.roundedMantissa ≤ left'.roundedMantissa := by
  have within : left.mantissa ≤ left'.mantissa := by
    by_contra beyond
    have past : (left'.mantissa + 1) * unit ≤ left.mantissa * unit :=
      Nat.mul_le_mul_right unit (Nat.not_le.mp beyond)
    have low := (holds.cut pos).1
    have high := (holds'.cut pos).2
    omega
  rcases Nat.lt_or_eq_of_le within with fewer | same
  · have high := (roundedMantissa_bounds left).2
    have low := (roundedMantissa_bounds left').1
    omega
  · -- what is left over decides
    obtain ⟨mantissa, round, sticky⟩ := left
    obtain ⟨mantissa', round', sticky'⟩ := left'
    obtain rfl : mantissa = mantissa' := same
    cases round <;> cases sticky <;> cases round' <;> cases sticky' <;>
      simp only [ExtendedMantissa.roundedMantissa, ExtendedMantissa.accuracy,
        UnpackedFloat.Accuracy.roundToNearestEven, Holds] at holds holds' ⊢ <;>
      first
      | omega
      | linarith

end Holds

/-- A quotient of two counts that is cut off at its last place. -/
structure Cut (number divisor : Nat) (left : ExtendedMantissa) (place : Int) : Prop where
  holds : Holds (number * 2 ^ 149) (divisor * 2 ^ (place + 149).toNat) left
  small : left.mantissa < 2 ^ 24
  low : -149 ≤ place
  large : place = -149 ∨ 2 ^ 23 ≤ left.mantissa

theorem Cut.units_mono {n₁ n₂ d₁ d₂ : Nat} {left₁ left₂ : ExtendedMantissa} {place₁ place₂ : Int}
    (first : Cut n₁ d₁ left₁ place₁) (second : Cut n₂ d₂ left₂ place₂) (pos₁ : 0 < d₁)
    (pos₂ : 0 < d₂) (below : n₁ * d₂ ≤ n₂ * d₁) :
    units left₁.roundedMantissa place₁ ≤ units left₂.roundedMantissa place₂ := by
  have low₁ := first.low
  have low₂ := second.low
  have holds₁ := first.holds.scale pos₂
  have holds₂ := second.holds.scale pos₁
  have ordered : n₁ * 2 ^ 149 * d₂ ≤ n₂ * 2 ^ 149 * d₁ := by linarith
  unfold units
  obtain ⟨p₁, isFirst⟩ : ∃ p, (place₁ + 149).toNat = p := ⟨_, rfl⟩
  obtain ⟨p₂, isSecond⟩ : ∃ p, (place₂ + 149).toNat = p := ⟨_, rfl⟩
  rw [isFirst] at holds₁ ⊢
  rw [isSecond] at holds₂ ⊢
  have unit₁ : d₁ * 2 ^ p₁ * d₂ = d₁ * d₂ * 2 ^ p₁ := by ring
  have unit₂ : d₂ * 2 ^ p₂ * d₁ = d₁ * d₂ * 2 ^ p₂ := by ring
  rw [unit₁] at holds₁
  rw [unit₂] at holds₂
  have pos := Nat.mul_pos pos₁ pos₂
  generalize d₁ * d₂ = divisor at pos holds₁ holds₂
  rcases lt_trichotomy p₁ p₂ with earlier | rfl | later
  · -- even a full mantissa carries over into no more than the least one of the next place
    have full : 2 ^ 23 ≤ left₂.mantissa := second.large.resolve_left (by omega)
    have kept := (roundedMantissa_bounds left₂).1
    have most : left₁.roundedMantissa ≤ 2 ^ 24 :=
      (roundedMantissa_bounds left₁).2.trans first.small
    calc left₁.roundedMantissa * 2 ^ p₁ ≤ 2 ^ 24 * 2 ^ p₁ := Nat.mul_le_mul_right _ most
      _ = 2 ^ 23 * 2 ^ (p₁ + 1) := by ring
      _ ≤ left₂.roundedMantissa * 2 ^ p₂ :=
        Nat.mul_le_mul (full.trans kept) (Nat.pow_le_pow_right (by omega) earlier)
  · exact Nat.mul_le_mul_right _
      (holds₁.rounded_mono holds₂ (Nat.mul_pos pos (Nat.two_pow_pos _)) ordered)
  · -- the first quotient would be the larger one
    exfalso
    have full : 2 ^ 23 ≤ left₁.mantissa := first.large.resolve_left (by omega)
    have cut₁ := (holds₁.cut (Nat.mul_pos pos (Nat.two_pow_pos _))).1
    have cut₂ := (holds₂.cut (Nat.mul_pos pos (Nat.two_pow_pos _))).2
    refine Nat.lt_irrefl (2 ^ 23 * (divisor * 2 ^ p₁)) ?_
    calc 2 ^ 23 * (divisor * 2 ^ p₁) ≤ left₁.mantissa * (divisor * 2 ^ p₁) :=
          Nat.mul_le_mul_right _ full
      _ < (left₂.mantissa + 1) * (divisor * 2 ^ p₂) := by omega
      _ ≤ 2 ^ 24 * (divisor * 2 ^ p₂) := Nat.mul_le_mul_right _ second.small
      _ = 2 ^ 23 * (divisor * 2 ^ (p₂ + 1)) := by ring
      _ ≤ 2 ^ 23 * (divisor * 2 ^ p₁) :=
        Nat.mul_le_mul_left _ (Nat.mul_le_mul_left _ (Nat.pow_le_pow_right (by omega) later))

section Divide

variable {m₁ m₂ : Nat} {e₁ e₂ : Int}

def widening (m₁ : Nat) (e₁ : Int) (m₂ : Nat) (e₂ : Int) : Nat :=
  (24 + m₂.log2 - m₁.log2 : Int).toNat ⊓ (e₁ - e₂ + 149).toNat

theorem divCore_eq (m₁ : Nat) (e₁ : Int) (m₂ : Nat) (e₂ : Int) :
    UnpackedFloat.divCore Format.binary32 m₁ e₁ m₂ e₂ =
      (m₁ * 2 ^ widening m₁ e₁ m₂ e₂ / m₂, e₁ - e₂ - widening m₁ e₁ m₂ e₂,
        UnpackedFloat.accuracyOfFraction (m₁ * 2 ^ widening m₁ e₁ m₂ e₂ % m₂) m₂) := by
  have least : Format.binary32.targetExponent (totalExponent m₁ e₁ - totalExponent m₂ e₂) =
      max (m₁.log2 + e₁ - (m₂.log2 + e₂) - 24) (-149) := by
    change max ((m₁.log2 : Int) + 1 + e₁ - (m₂.log2 + 1 + e₂) - (24 : Nat)) (-149) = _
    omega
  have lower : min (e₁ - e₂) (max (m₁.log2 + e₁ - (m₂.log2 + e₂) - 24) (-149)) =
      e₁ - e₂ - widening m₁ e₁ m₂ e₂ := by
    unfold widening
    omega
  have more : (e₁ - e₂ - (e₁ - e₂ - widening m₁ e₁ m₂ e₂)).toNat = widening m₁ e₁ m₂ e₂ := by
    omega
  unfold UnpackedFloat.divCore
  rw [least, lower]
  dsimp only
  rw [more, Nat.shiftLeft_eq]

theorem widening_enough (some₁ : 0 < m₁) (some₂ : 0 < m₂) :
    e₁ - e₂ - widening m₁ e₁ m₂ e₂ ≤
      lastPlace (m₁ * 2 ^ widening m₁ e₁ m₂ e₂ / m₂) (e₁ - e₂ - widening m₁ e₁ m₂ e₂) := by
  by_cases high : e₁ - e₂ - widening m₁ e₁ m₂ e₂ ≤ -149
  · exact high.trans (le_max_right _ _)
  have more : m₂.log2 + 1 + 23 ≤ m₁.log2 + widening m₁ e₁ m₂ e₂ := by
    unfold widening at high ⊢
    omega
  have large : 2 ^ 23 ≤ m₁ * 2 ^ widening m₁ e₁ m₂ e₂ / m₂ := by
    rw [Nat.le_div_iff_mul_le some₂]
    calc 2 ^ 23 * m₂ ≤ 2 ^ 23 * 2 ^ (m₂.log2 + 1) :=
          Nat.mul_le_mul_left _ (Nat.le_of_lt Nat.lt_log2_self)
      _ = 2 ^ (m₂.log2 + 1 + 23) := by ring
      _ ≤ 2 ^ (m₁.log2 + widening m₁ e₁ m₂ e₂) := Nat.pow_le_pow_right (by omega) more
      _ = 2 ^ m₁.log2 * 2 ^ widening m₁ e₁ m₂ e₂ := Nat.pow_add ..
      _ ≤ m₁ * 2 ^ widening m₁ e₁ m₂ e₂ :=
        Nat.mul_le_mul_right _ (Nat.log2_self_le (Nat.ne_of_gt some₁))
  have long := (Nat.le_log2 (by omega)).mpr large
  unfold lastPlace
  omega

theorem Holds.counted {more dropped : Nat} {left : ExtendedMantissa} {place : Int}
    (holds : Holds (m₁ * 2 ^ more) (m₂ * 2 ^ dropped) left) (low₁ : -149 ≤ e₁) (low₂ : -149 ≤ e₂)
    (low : -149 ≤ place) (most : (more : Int) ≤ e₁ + 298)
    (kept : e₁ - e₂ - more + dropped = place) :
    Holds (units m₁ e₁ * 2 ^ 149) (units m₂ e₂ * 2 ^ (place + 149).toNat) left := by
  have number : units m₁ e₁ * 2 ^ 149 = m₁ * 2 ^ more * 2 ^ (e₁ + 298 - more).toNat := by
    have places : (e₁ + 149).toNat + 149 = more + (e₁ + 298 - more).toNat := by omega
    rw [units, Nat.mul_assoc, ← Nat.pow_add, places, Nat.pow_add, Nat.mul_assoc]
  have unit : units m₂ e₂ * 2 ^ (place + 149).toNat =
      m₂ * 2 ^ dropped * 2 ^ (e₁ + 298 - more).toNat := by
    have places : (e₂ + 149).toNat + (place + 149).toNat =
        dropped + (e₁ + 298 - more).toNat := by omega
    rw [units, Nat.mul_assoc, ← Nat.pow_add, places, Nat.pow_add, Nat.mul_assoc]
  rw [number, unit]
  exact holds.scale (Nat.two_pow_pos _)

theorem exists_cut (some₁ : 0 < m₁) (some₂ : 0 < m₂) (low₁ : -149 ≤ e₁) (low₂ : -149 ≤ e₂) :
    ∃ quotient exponent accuracy left place,
      UnpackedFloat.divCore Format.binary32 m₁ e₁ m₂ e₂ = (quotient, exponent, accuracy) ∧
        UnpackedFloat.shiftToTargetExponent Format.binary32 quotient exponent accuracy =
          (left, place) ∧
        Cut (units m₁ e₁) (units m₂ e₂) left place := by
  have within := @widening_enough m₁ m₂ e₁ e₂ some₁ some₂
  have most : (widening m₁ e₁ m₂ e₂ : Int) ≤ e₁ + 298 := by
    unfold widening
    omega
  have core := divCore_eq m₁ e₁ m₂ e₂
  generalize widening m₁ e₁ m₂ e₂ = more at within most core
  obtain ⟨small, large⟩ := excess_bounds within
  have kept := add_excess within
  have holds := (holds_quotient (m₁ * 2 ^ more) some₂).shift some₂
    (excess (m₁ * 2 ^ more / m₂) (e₁ - e₂ - more))
  have pos : 0 < m₂ * 2 ^ excess (m₁ * 2 ^ more / m₂) (e₁ - e₂ - more) :=
    Nat.mul_pos some₂ (Nat.two_pow_pos _)
  rw [Nat.div_div_eq_div_mul, Nat.div_eq_of_lt_le (holds.cut pos).1 (holds.cut pos).2]
    at small large
  have low : -149 ≤ lastPlace (m₁ * 2 ^ more / m₂) (e₁ - e₂ - more) := le_max_right _ _
  refine ⟨_, _, _, _, _, core, shiftToTargetExponent_eq .., ?_⟩
  rw [kept]
  exact ⟨holds.counted low₁ low₂ low most kept, small, low, large⟩

theorem div_finite (s₁ s₂ : Sign) (some₁ : 0 < m₁) (some₂ : 0 < m₂) (low₁ : -149 ≤ e₁)
    (low₂ : -149 ≤ e₂) :
    ∃ left place x, Cut (units m₁ e₁) (units m₂ e₂) left place ∧
      UnpackedFloat.div Format.binary32 (.finite s₁ m₁ e₁ some₁) (.finite s₂ m₂ e₂ some₂) = x ∧
      Rounds (count x) x ∧ count x = (s₁ / s₂).apply (units left.roundedMantissa place) := by
  obtain ⟨quotient, exponent, accuracy, left, place, core, shifted, cut⟩ :=
    exists_cut some₁ some₂ low₁ low₂
  obtain ⟨kept, bounded⟩ := roundedMantissa_bounds left
  have large : place = -149 ∨ 2 ^ 23 ≤ left.roundedMantissa := cut.large.imp_right kept.trans'
  have division : UnpackedFloat.div Format.binary32 (.finite s₁ m₁ e₁ some₁)
      (.finite s₂ m₂ e₂ some₂) =
        UnpackedFloat.roundWithAccuracy Format.binary32 (s₁ / s₂) quotient exponent accuracy := by
    unfold UnpackedFloat.div
    dsimp only
    rw [core]
  refine ⟨left, place, _, cut, division, ?_⟩
  rcases Nat.eq_zero_or_pos left.roundedMantissa with none | some
  · -- underflow, which the least exponent alone allows
    obtain rfl : place = -149 := large.resolve_right (by omega)
    have settled : UnpackedFloat.roundWithAccuracy Format.binary32 (s₁ / s₂) quotient exponent
        accuracy = .zero (s₁ / s₂) := by
      unfold UnpackedFloat.roundWithAccuracy
      rw [shifted]
      dsimp only
      rw [none]
      rfl
    rw [settled, none, units, Nat.zero_mul]
    refine ⟨rfl, ?_⟩
    cases s₁ / s₂ <;> rfl
  · obtain ⟨final, last, canonical, landed, settled⟩ :=
      roundWithAccuracy_carried (s₁ / s₂) shifted large some (by have := cut.small; omega) cut.low
    rw [settled, count, landed]
    exact ⟨.intro rfl (landed ▸ units_pos canonical.pos) canonical (landed ▸ canonical.near), rfl⟩

end Divide

theorem div_rounds {x y : UnpackedFloat} (left : Written x) (right : Written y)
    (finite : (UnpackedFloat.div Format.binary32 x y).isFinite = true) :
    Rounds (count (UnpackedFloat.div Format.binary32 x y))
      (UnpackedFloat.div Format.binary32 x y) := by
  rcases x with _ | _ | _ | ⟨s₁, m₁, e₁, some₁⟩ <;>
    rcases y with _ | _ | _ | ⟨s₂, m₂, e₂, some₂⟩
  case finite.finite =>
    obtain ⟨_, _, quotient, -, division, rounds, -⟩ :=
      div_finite s₁ s₂ some₁ some₂ left.1.low right.1.low
    rw [division]
    exact rounds
  all_goals
    unfold UnpackedFloat.div at finite ⊢
    first
    | rfl
    | cases finite

theorem unpack_pack {x : UnpackedFloat} (rounds : x.isFinite = true → Rounds (count x) x) :
    (Float32.Model.pack x).unpack = landed x := by
  rcases x with (_ | _) | _ | _ | _
  · rfl
  · rfl
  · rfl
  · exact (rounds rfl).unpack_pack
  · exact (rounds rfl).unpack_pack

theorem infinity_le_numberKey (x : UnpackedFloat) :
    Scores.numberKey (.infinity .negative) ≤ Scores.numberKey x := by
  rcases x with (_ | _) | _ | _ | ⟨_ | _, _, _, _⟩ <;> dsimp only [Scores.numberKey] <;>
    simp [Prod.Lex.toLex_le_toLex]

theorem numberKey_landed_negative {mantissa : Nat} {exponent : Int} (some : 0 < mantissa)
    (sign : Sign) : Scores.numberKey (landed (.finite .negative mantissa exponent some)) ≤
      Scores.numberKey (.zero sign) := by
  unfold landed
  dsimp only
  split <;> simp [Scores.numberKey, Prod.Lex.toLex_le_toLex]

/-- Negative results keep their order when too large ones overflow. -/
theorem Canonical.numberKey_landed_le {m₁ m₂ : Nat} {e₁ e₂ : Int} (first : Canonical m₁ e₁)
    (second : Canonical m₂ e₂) (below : units m₂ e₂ ≤ units m₁ e₁) :
    Scores.numberKey (landed (.finite .negative m₁ e₁ first.pos)) ≤
      Scores.numberKey (landed (.finite .negative m₂ e₂ second.pos)) := by
  have order := first.units_lt second
  by_cases fits : e₁ ≤ 104
  · have also : e₂ ≤ 104 := by omega
    have left : Written (.finite .negative m₁ e₁ first.pos) := ⟨first, fits⟩
    have right : Written (.finite .negative m₂ e₂ second.pos) := ⟨second, also⟩
    rw [landed, landed, if_pos fits, if_pos also, ← not_lt,
      numberKey_lt_iff_count right left rfl rfl]
    dsimp only [count, Sign.apply]
    omega
  · rw [landed, if_neg fits]
    exact infinity_le_numberKey _

theorem numberKey_landed_le {x y : UnpackedFloat} (left : Rounds (count x) x)
    (right : Rounds (count y) y) (below : count x ≤ count y) (negative : count y ≤ 0) :
    Scores.numberKey (landed x) ≤ Scores.numberKey (landed y) := by
  rcases y with _ | _ | s₂ | ⟨_ | _, m₂, e₂, some₂⟩
  · exact right.elim
  · exact right.elim
  · -- zero is above everything that is negative, also where this overflows
    rcases x with _ | _ | s₁ | ⟨_ | _, m₁, e₁, some₁⟩
    · exact left.elim
    · exact left.elim
    · exact le_rfl
    · exact numberKey_landed_negative some₁ s₂
    · have some := @units_pos _ e₁ some₁
      simp only [count, Sign.apply] at below
      omega
  · have some := @units_pos _ e₂ some₂
    rcases x with _ | _ | s₁ | ⟨_ | _, m₁, e₁, some₁⟩ <;>
      simp only [count, Sign.apply] at below
    · exact left.elim
    · exact left.elim
    · omega
    · exact left.1.numberKey_landed_le right.1 (by omega)
    · omega
  · have some := @units_pos _ e₂ some₂
    simp only [count, Sign.apply] at negative
    omega

def Unsigned : UnpackedFloat → Prop
  | .infinity sign | .zero sign | .finite sign _ _ _ => sign = .positive
  | .notANumber => False

section Order

variable {a b c d : UnpackedFloat}

theorem div_cases (negative : a.le (.zero .positive) = true) (unsigned : Unsigned c)
    (number : UnpackedFloat.div Format.binary32 a c ≠ .notANumber) :
    UnpackedFloat.div Format.binary32 a c = .infinity .negative ∧
        (a = .infinity .negative ∨ c = .zero .positive) ∨
      (∃ sign, UnpackedFloat.div Format.binary32 a c = .zero sign ∧
        ((∃ own, a = .zero own) ∨ c = .infinity .positive)) ∨
      ∃ m₁ e₁ some₁ m₂ e₂ some₂,
        a = .finite .negative m₁ e₁ some₁ ∧ c = .finite .positive m₂ e₂ some₂ := by
  rcases a with (_ | _) | _ | own | ⟨_ | _, m₁, e₁, some₁⟩ <;>
    rcases c with (_ | _) | _ | (_ | _) | ⟨_ | _, m₂, e₂, some₂⟩ <;>
    first
    | cases negative; done
    | cases unsigned; done
    | exact absurd rfl number
    | exact .inl ⟨rfl, .inl rfl⟩
    | exact .inl ⟨rfl, .inr rfl⟩
    | exact .inr (.inl ⟨_, rfl, .inl ⟨_, rfl⟩⟩)
    | exact .inr (.inl ⟨_, rfl, .inr rfl⟩)
    | exact .inr (.inr ⟨_, _, _, _, _, _, rfl, rfl⟩)

theorem le_zero_of_le (below : a.le b = true) (negative : b.le (.zero .positive) = true) :
    a.le (.zero .positive) = true := by
  rcases a with (_ | _) | _ | _ | ⟨_ | _, _, _, _⟩ <;>
    rcases b with (_ | _) | _ | _ | ⟨_ | _, _, _, _⟩ <;>
    first
    | rfl
    | cases negative; done
    | cases below

theorem div_negative {m n : Nat} {e f : Int} {some : 0 < m} {pos : 0 < n}
    (dividend : Written (.finite .negative m e some)) (divisor : Written (.finite .positive n f pos)) :
    ∃ left place x, Cut (units m e) (units n f) left place ∧
      UnpackedFloat.div Format.binary32 (.finite .negative m e some) (.finite .positive n f pos) =
        x ∧
      Rounds (count x) x ∧ count x = -units left.roundedMantissa place ∧ count x ≤ 0 := by
  obtain ⟨left, place, x, cut, division, rounds, counted⟩ :=
    div_finite .negative .positive some pos dividend.1.low divisor.1.low
  exact ⟨left, place, x, cut, division, rounds, counted,
    counted.trans_le (Int.neg_nonpos_of_nonneg (Int.natCast_nonneg _))⟩

/-- A number that is not positive does not fall when it is divided by more. -/
theorem div_mono (writtenA : Written a) (writtenB : Written b) (writtenC : Written c)
    (writtenD : Written d) (below : a.le b = true) (negative : b.le (.zero .positive) = true)
    (unsignedC : Unsigned c) (unsignedD : Unsigned d) (more : c.le d = true)
    (left : UnpackedFloat.div Format.binary32 a c ≠ .notANumber)
    (right : UnpackedFloat.div Format.binary32 b d ≠ .notANumber) :
    Scores.numberKey (landed (UnpackedFloat.div Format.binary32 a c)) ≤
      Scores.numberKey (landed (UnpackedFloat.div Format.binary32 b d)) := by
  rcases div_cases (le_zero_of_le below negative) unsignedC left with
    ⟨bottom, -⟩ | ⟨_, zero, why⟩ | ⟨m₁, e₁, some₁, n₁, f₁, pos₁, rfl, rfl⟩
  · rw [bottom]
    exact infinity_le_numberKey _
  · -- a quotient of zero has a dividend of zero or an infinite divisor, and then so has the other one
    rcases div_cases negative unsignedD right with
      ⟨-, rfl | rfl⟩ | ⟨_, top, -⟩ | ⟨m₂, e₂, some₂, n₂, f₂, pos₂, rfl, rfl⟩
    · obtain ⟨_, rfl⟩ | rfl := why
      · cases below
      · rcases a with (_ | _) | _ | _ | ⟨_ | _, _, _, _⟩ <;>
          first
          | cases zero; done
          | cases below
    · obtain ⟨_, rfl⟩ | rfl := why
      · rcases c with (_ | _) | _ | _ | ⟨_ | _, _, _, _⟩ <;>
          first
          | cases zero; done
          | cases unsignedC; done
          | cases more
      · cases more
    · rw [zero, top]
      exact le_rfl
    · obtain ⟨_, rfl⟩ | rfl := why
      · cases below
      · cases more
  · obtain ⟨_, _, quotient₁, cut₁, division₁, rounds₁, counted₁, negative₁⟩ :=
      div_negative writtenA writtenC
    rw [division₁]
    rcases div_cases negative unsignedD right with
      ⟨-, rfl | rfl⟩ | ⟨sign, top, -⟩ | ⟨m₂, e₂, some₂, n₂, f₂, pos₂, rfl, rfl⟩
    · cases below
    · cases more
    · have none : Rounds (count (.zero sign)) (.zero sign) := rfl
      rw [top]
      exact numberKey_landed_le rounds₁ none negative₁ le_rfl
    · obtain ⟨_, _, quotient₂, cut₂, division₂, rounds₂, counted₂, negative₂⟩ :=
        div_negative writtenB writtenD
      rw [division₂]
      have dividends : units m₂ e₂ ≤ units m₁ e₁ := by
        rw [le_iff_count writtenA writtenB rfl rfl] at below
        simp only [count, Sign.apply] at below
        omega
      have divisors : units n₁ f₁ ≤ units n₂ f₂ := by
        rw [le_iff_count writtenC writtenD rfl rfl] at more
        simp only [count, Sign.apply] at more
        omega
      have quotients := cut₂.units_mono cut₁ (units_pos pos₂) (units_pos pos₁)
        (Nat.mul_le_mul dividends divisors)
      exact numberKey_landed_le rounds₁ rounds₂ (by omega) negative₂

end Order

end StagedDecoding.Binary32

namespace StagedDecoding.Scores

open Binary32

theorem unpack_div (x y : Float32) :
    (x / y).toModel.unpack =
      landed (UnpackedFloat.div Format.binary32 x.toModel.unpack y.toModel.unpack) :=
  unpack_pack (div_rounds (written_unpack _) (written_unpack _))

theorem unsigned_unpack {x : Float32} (unsigned : 0 < x ∨ x = 0) : Unsigned x.toModel.unpack := by
  rcases unsigned with positive | rfl
  · rw [lt_iff_unpack] at positive
    generalize x.toModel.unpack = x at positive
    rcases x with (_ | _) | _ | _ | ⟨_ | _, _, _, _⟩ <;>
      first
      | rfl
      | cases positive
  · rfl

theorem div_le_div {a b c d : Float32} (below : a ≤ b) (negative : b ≤ 0) (first : 0 < c ∨ c = 0)
    (second : 0 < d ∨ d = 0) (more : c ≤ d) (left : (a / c).isNaN = false)
    (right : (b / d).isNaN = false) : a / c ≤ b / d := by
  rw [le_iff_key left right, key, key]
  have numbers : ∀ {x y : Float32}, (x / y).isNaN = false →
      UnpackedFloat.div Format.binary32 x.toModel.unpack y.toModel.unpack ≠ .notANumber :=
    fun {x y} number undefined => unpack_ne_of_isNaN number (by rw [unpack_div, undefined]; rfl)
  have unpacked := div_mono (written_unpack _) (written_unpack _) (written_unpack _)
    (written_unpack _) (le_iff_unpack.mp below) (le_iff_unpack.mp negative) (unsigned_unpack first)
    (unsigned_unpack second) (le_iff_unpack.mp more) (numbers left) (numbers right)
  rwa [← unpack_div, ← unpack_div] at unpacked

end StagedDecoding.Scores
