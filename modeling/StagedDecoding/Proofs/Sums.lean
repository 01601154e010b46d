import StagedDecoding.Proofs.Rounding

/-! Sums and differences of finite scores.

A finite score is a signed count of the smallest positive one, and the order of scores is that of
their counts. The count of a sum or a difference is rounded, with its sign kept, unless it
overflows. Sums of numbers from zero to one stay finite, and never fall under what was added.
-/

set_option autoImplicit false

open Float.Model (Format UnpackedFloat totalExponent)
open Float.Model.UnpackedFloat (Sign)

namespace StagedDecoding.Binary32

def count : UnpackedFloat → Int
  | .finite sign mantissa exponent _ => sign.apply (units mantissa exponent)
  | _ => 0

theorem numberKey_lt_iff_count {x y : UnpackedFloat} (left : Written x) (right : Written y)
    (leftFinite : x.isFinite = true) (rightFinite : y.isFinite = true) :
    Scores.numberKey x < Scores.numberKey y ↔ count x < count y := by
  rcases x with _ | _ | _ | ⟨_ | _, m₁, e₁, some₁⟩ <;>
    rcases y with _ | _ | _ | ⟨_ | _, m₂, e₂, some₂⟩ <;>
    first
    | cases leftFinite; done
    | cases rightFinite; done
    | skip
  all_goals
    dsimp only [Scores.numberKey, count, Sign.apply]
    simp only [Prod.Lex.toLex_lt_toLex, lt_irrefl, true_and, false_or]
  case finite.negative.finite.negative =>
    have order := right.1.units_lt left.1
    omega
  case finite.positive.finite.positive =>
    have order := left.1.units_lt right.1
    omega
  all_goals
    try have some₁ := @units_pos _ e₁ some₁
    try have some₂ := @units_pos _ e₂ some₂
    omega

theorem le_iff_count {x y : UnpackedFloat} (left : Written x) (right : Written y)
    (leftFinite : x.isFinite = true) (rightFinite : y.isFinite = true) :
    x.le y = true ↔ count x ≤ count y := by
  have number : ∀ {z : UnpackedFloat}, z.isFinite = true → z ≠ .notANumber := by
    rintro z finite rfl
    cases finite
  rw [Scores.le_iff_numberKey (number leftFinite) (number rightFinite), ← not_lt, ← not_lt,
    numberKey_lt_iff_count right left rightFinite leftFinite]

/-- What an exact count is rounded to: to a canonical number of its sign, near to it. -/
def Rounds (exact : Int) : UnpackedFloat → Prop
  | .zero _ => exact = 0
  | .finite sign mantissa exponent _ =>
    Canonical mantissa exponent ∧ exact ≠ 0 ∧ exact = sign.apply exact.natAbs ∧
      Near exact.natAbs (units mantissa exponent)
  | _ => False

theorem natAbs_apply (sign : Sign) (number : Nat) : (sign.apply number).natAbs = number := by
  cases sign <;> simp only [Sign.apply] <;> omega

theorem Rounds.intro {exact : Int} {sign : Sign} {number : Nat}
    (signed : exact = sign.apply number) {mantissa : Nat} {exponent : Int}
    (pos : 0 < number) (canonical : Canonical mantissa exponent)
    (near : Near number (units mantissa exponent)) :
    Rounds exact (.finite sign mantissa exponent canonical.pos) := by
  have size : exact.natAbs = number := by rw [signed, natAbs_apply]
  exact ⟨canonical, Int.natAbs_ne_zero.mp (by omega), size ▸ signed, size ▸ near⟩

theorem Written.rounds {x : UnpackedFloat} (written : Written x) (finite : x.isFinite = true) :
    Rounds (count x) x := by
  rcases x with _ | _ | _ | ⟨sign, mantissa, exponent, some⟩
  · cases finite
  · cases finite
  · rfl
  · exact .intro rfl (units_pos some) written.1 written.1.near

theorem Written.grid {x : UnpackedFloat} (written : Written x) (finite : x.isFinite = true) :
    2 ^ ((count x).natAbs.log2 - 23) ∣ (count x).natAbs := by
  rcases x with _ | _ | _ | ⟨sign, mantissa, exponent, some⟩
  · cases finite
  · cases finite
  · exact Nat.dvd_zero _
  · rw [count, natAbs_apply]
    exact written.1.near.grid

theorem round_rounds {number : Nat} {exponent : Int} (some : 0 < number) (low : -149 ≤ exponent)
    (sign : Sign) : Rounds (sign.apply number * 2 ^ (exponent + 149).toNat)
      (UnpackedFloat.round Format.binary32 sign number exponent) := by
  obtain ⟨final, place, canonical, rounded, near⟩ := round_near some low sign
  rw [rounded]
  refine .intro ?_ (units_pos some) canonical near
  cases sign <;> simp [Sign.apply, units]

theorem normalize_rounds (mantissa : Int) {exponent : Int} (low : -149 ≤ exponent) :
    Rounds (mantissa * 2 ^ (exponent + 149).toNat)
      (UnpackedFloat.normalize Format.binary32 mantissa exponent .positive) := by
  unfold UnpackedFloat.normalize
  rcases lt_trichotomy mantissa 0 with below | rfl | above
  · have size : Sign.negative.apply (-mantissa).toNat = mantissa := by
      simp only [Sign.apply]
      omega
    rw [compare_lt_iff_lt.mpr below]
    conv => arg 1; rw [← size]
    exact round_rounds (by omega) low .negative
  · rw [compare_eq_iff_eq.mpr rfl]
    exact Int.zero_mul _
  · have size : Sign.positive.apply mantissa.toNat = mantissa := by
      simp only [Sign.apply]
      omega
    rw [compare_gt_iff_gt.mpr above]
    conv => arg 1; rw [← size]
    exact round_rounds (by omega) low .positive

theorem apply_decreaseExponent (sign : Sign) (mantissa : Nat) {exponent least : Int}
    (low : -149 ≤ least) (below : least ≤ exponent) :
    sign.apply (UnpackedFloat.decreaseExponent mantissa exponent least).1 *
      2 ^ (least + 149).toNat = sign.apply (units mantissa exponent) := by
  have places : (exponent + 149).toNat = (exponent - least).toNat + (least + 149).toNat := by omega
  have same : units mantissa exponent =
      (UnpackedFloat.decreaseExponent mantissa exponent least).1 * 2 ^ (least + 149).toNat := by
    rw [units, places, Nat.pow_add, UnpackedFloat.decreaseExponent, Nat.shiftLeft_eq, Nat.mul_assoc]
  rw [same]
  cases sign <;> simp [Sign.apply]

theorem add_rounds {x y : UnpackedFloat} (left : Written x) (right : Written y)
    (leftFinite : x.isFinite = true) (rightFinite : y.isFinite = true) :
    Rounds (count x + count y) (UnpackedFloat.add Format.binary32 x y) := by
  have leftRounds := left.rounds leftFinite
  have rightRounds := right.rounds rightFinite
  rcases x with _ | _ | s₁ | ⟨s₁, m₁, e₁, some₁⟩
  · cases leftFinite
  · cases leftFinite
  · rw [show count (.zero s₁) = 0 from rfl, Int.zero_add]
    rcases y with _ | _ | s₂ | _
    · cases rightFinite
    · cases rightFinite
    · unfold UnpackedFloat.add
      dsimp only
      split <;> rfl
    · exact rightRounds
  · rcases y with _ | _ | s₂ | ⟨s₂, m₂, e₂, some₂⟩
    · cases rightFinite
    · cases rightFinite
    · rw [show count (.zero s₂) = 0 from rfl, Int.add_zero]
      exact leftRounds
    · -- with the lower exponent for both, the mantissas add as integers
      have low : -149 ≤ min e₁ e₂ := le_min left.1.low right.1.low
      unfold UnpackedFloat.add
      dsimp only [count]
      rw [← apply_decreaseExponent s₁ m₁ low (min_le_left _ _),
        ← apply_decreaseExponent s₂ m₂ low (min_le_right _ _), ← Int.add_mul]
      exact normalize_rounds _ low

theorem sub_rounds {x y : UnpackedFloat} (left : Written x) (right : Written y)
    (leftFinite : x.isFinite = true) (rightFinite : y.isFinite = true) :
    Rounds (count x - count y) (UnpackedFloat.sub Format.binary32 x y) := by
  have leftRounds := left.rounds leftFinite
  rcases x with _ | _ | s₁ | ⟨s₁, m₁, e₁, some₁⟩
  · cases leftFinite
  · cases leftFinite
  · rw [show count (.zero s₁) = 0 from rfl, Int.zero_sub]
    rcases y with _ | _ | s₂ | ⟨s₂, m₂, e₂, some₂⟩
    · cases rightFinite
    · cases rightFinite
    · unfold UnpackedFloat.sub
      dsimp only
      split <;> rfl
    · -- a number taken from zero is the number with its sign turned
      refine .intro ?_ (units_pos some₂) right.1 right.1.near
      cases s₂ <;> simp [count, Sign.apply]
  · rcases y with _ | _ | s₂ | ⟨s₂, m₂, e₂, some₂⟩
    · cases rightFinite
    · cases rightFinite
    · rw [show count (.zero s₂) = 0 from rfl, Int.sub_zero]
      exact leftRounds
    · have low : -149 ≤ min e₁ e₂ := le_min left.1.low right.1.low
      unfold UnpackedFloat.sub
      dsimp only [count]
      rw [← apply_decreaseExponent s₁ m₁ low (min_le_left _ _),
        ← apply_decreaseExponent s₂ m₂ low (min_le_right _ _), ← Int.sub_mul]
      exact normalize_rounds _ low

/-- What a result becomes when it is packed: too large numbers overflow. -/
def landed : UnpackedFloat → UnpackedFloat
  | .finite sign mantissa exponent pos =>
    if exponent ≤ 104 then .finite sign mantissa exponent pos else .infinity sign
  | x => x

theorem Rounds.unpack_pack {exact : Int} {x : UnpackedFloat} (rounds : Rounds exact x) :
    (Float32.Model.pack x).unpack = landed x := by
  rcases x with _ | _ | sign | ⟨sign, mantissa, exponent, some⟩
  · exact rounds.elim
  · exact rounds.elim
  · cases sign <;> rfl
  · exact unpack_pack_finite sign rounds.1

theorem add_le_of_dvd {place low high : Nat} (below : place ∣ low) (above : place ∣ high)
    (less : low < high) : low + place ≤ high := by
  have apart := Nat.le_of_dvd (Nat.sub_pos_of_lt less) (Nat.dvd_sub above below)
  omega

theorem Near.lower {exact rounded bound : Nat} (near : Near exact rounded) (within : bound ≤ exact)
    (grid : 2 ^ (bound.log2 - 23) ∣ bound) : bound ≤ rounded := by
  have unit := Nat.two_pow_pos (exact.log2 - 23)
  have core : ∀ {bound : Nat}, bound ≤ exact → 2 ^ (exact.log2 - 23) ∣ bound → bound ≤ rounded := by
    intro bound within grid
    by_contra less
    have step := add_le_of_dvd near.grid grid (Nat.not_le.mp less)
    have below := near.below
    omega
  rcases Nat.eq_zero_or_pos bound with rfl | pos
  · exact Nat.zero_le _
  have some := Nat.ne_of_gt pos
  have someExact : exact ≠ 0 := by omega
  rcases Nat.lt_or_ge bound.log2 exact.log2 with shorter | same
  · calc bound ≤ 2 ^ (bound.log2 + 1) := Nat.le_of_lt Nat.lt_log2_self
      _ ≤ 2 ^ exact.log2 := Nat.pow_le_pow_right (by omega) shorter
      _ ≤ rounded := core (Nat.log2_self_le someExact) (Nat.pow_dvd_pow 2 (Nat.sub_le _ _))
  · refine core within (Nat.dvd_trans (Nat.pow_dvd_pow 2 ?_) grid)
    omega

theorem Near.upper {exact rounded bound : Nat} (near : Near exact rounded)
    (within : 2 * exact < 2 * bound + 2 ^ (exact.log2 - 23))
    (grid : 2 ^ (exact.log2 - 23) ∣ bound) : rounded ≤ bound := by
  by_contra more
  have step := add_le_of_dvd grid near.grid (Nat.not_le.mp more)
  have above := near.above
  have unit := Nat.two_pow_pos (exact.log2 - 23)
  omega

theorem Rounds.le_zero {exact : Int} {x : UnpackedFloat} (rounds : Rounds exact x)
    (below : exact ≤ 0) (zero : Sign) : (landed x).le (.zero zero) = true := by
  rcases x with _ | _ | sign | ⟨_ | _, mantissa, exponent, some⟩
  · exact rounds.elim
  · exact rounds.elim
  · rfl
  · unfold landed
    dsimp only
    split <;> rfl
  · obtain ⟨-, some, signed, -⟩ := rounds
    change exact = exact.natAbs at signed
    omega

/-- A small number and one that is at most one add up to a finite one, no smaller than either. -/
theorem Rounds.small {left right : Int} {x : UnpackedFloat} (rounds : Rounds (left + right) x)
    (leftPos : 0 ≤ left) (rightPos : 0 ≤ right) (leftSmall : left ≤ 2 ^ 174)
    (rightSmall : right ≤ 2 ^ 149) (leftGrid : 2 ^ (left.natAbs.log2 - 23) ∣ left.natAbs)
    (rightGrid : 2 ^ (right.natAbs.log2 - 23) ∣ right.natAbs) :
    (landed x).isFinite = true ∧ left ≤ count (landed x) ∧ right ≤ count (landed x) ∧
      count (landed x) ≤ 2 ^ 174 := by
  obtain ⟨left, rfl⟩ := Int.eq_ofNat_of_zero_le leftPos
  obtain ⟨right, rfl⟩ := Int.eq_ofNat_of_zero_le rightPos
  rcases x with _ | _ | sign | ⟨sign, mantissa, exponent, some⟩
  · exact rounds.elim
  · exact rounds.elim
  · have none : (left : Int) + right = 0 := rounds
    refine ⟨rfl, ?_⟩
    change (left : Int) ≤ 0 ∧ (right : Int) ≤ 0 ∧ (0 : Int) ≤ 2 ^ 174
    omega
  · obtain ⟨canonical, some, signed, near⟩ := rounds
    have size : ((left : Int) + right).natAbs = left + right := by omega
    rw [size] at near signed
    obtain rfl : sign = .positive := by
      cases sign
      · simp only [Sign.apply] at signed
        omega
      · rfl
    have upper : units mantissa exponent ≤ 2 ^ 174 := by
      rcases Nat.lt_or_ge (left + right) (2 ^ 174) with within | beyond
      · have short : (left + right).log2 < 174 := (Nat.log2_lt (by omega)).mpr within
        refine near.upper ?_ (Nat.pow_dvd_pow 2 (by omega))
        have unit := Nat.two_pow_pos ((left + right).log2 - 23)
        omega
      · -- up here, what is added is less than half of the last place
        have long : (left + right).log2 = 174 := (Nat.log2_eq_iff (by omega)).mpr (by omega)
        refine near.upper ?_ (Nat.pow_dvd_pow 2 (by omega))
        rw [long]
        omega
    have exponentSmall : exponent ≤ 104 := by
      have power : 2 ^ (exponent + 149).toNat ≤ 2 ^ 174 :=
        Nat.le_trans (Nat.le_mul_of_pos_left _ canonical.pos) upper
      have := (Nat.pow_le_pow_iff_right (by decide)).mp power
      omega
    have kept : landed (.finite .positive mantissa exponent canonical.pos) =
      .finite .positive mantissa exponent canonical.pos := if_pos exponentSmall
    have leftLower := near.lower (Nat.le_add_right left right) leftGrid
    have rightLower := near.lower (Nat.le_add_left right left) rightGrid
    rw [kept]
    refine ⟨rfl, ?_, ?_, ?_⟩ <;> simp only [count, Sign.apply] <;> omega

end StagedDecoding.Binary32

namespace StagedDecoding.Scores

open Binary32

theorem le_iff_unpack {x y : Float32} :
    x ≤ y ↔ x.toModel.unpack.le y.toModel.unpack = true := by
  change decide (x.toModel ≤ y.toModel) = true ↔ _
  rw [decide_eq_true_iff]
  rfl

theorem lt_iff_unpack {x y : Float32} :
    x < y ↔ x.toModel.unpack.lt y.toModel.unpack = true := by
  change decide (x.toModel < y.toModel) = true ↔ _
  rw [decide_eq_true_iff]
  rfl

theorem isNaN_of_isFinite {x : Float32} (finite : x.isFinite = true) : x.isNaN = false := by
  change x.toModel.unpack.isFinite = true at finite
  change x.toModel.unpack.isNaN = false
  generalize x.toModel.unpack = x at finite ⊢
  cases x <;> first | rfl | cases finite

theorem isNaN_of_le {x y : Float32} (within : x ≤ y) : x.isNaN = false ∧ y.isNaN = false := by
  rw [le_iff_unpack] at within
  change x.toModel.unpack.isNaN = false ∧ y.toModel.unpack.isNaN = false
  generalize x.toModel.unpack = x, y.toModel.unpack = y at within ⊢
  rcases x with (_ | _) | _ | _ | ⟨_ | _, _, _, _⟩ <;>
    rcases y with (_ | _) | _ | _ | ⟨_ | _, _, _, _⟩ <;>
    first
    | exact ⟨rfl, rfl⟩
    | cases within

theorem le_trans {x y z : Float32} (first : x ≤ y) (second : y ≤ z) : x ≤ z := by
  obtain ⟨left, middle⟩ := isNaN_of_le first
  have right := (isNaN_of_le second).2
  rw [le_iff_key left middle] at first
  rw [le_iff_key middle right] at second
  exact (le_iff_key left right).mpr (first.trans second)

theorem finite_or_infinite {x y : Float32} (within : x ≤ y) (finite : y.isFinite = true) :
    x.isFinite = true ∨ x.toModel.unpack = .infinity .negative := by
  rw [le_iff_unpack] at within
  change y.toModel.unpack.isFinite = true at finite
  change x.toModel.unpack.isFinite = true ∨ _
  generalize x.toModel.unpack = x, y.toModel.unpack = y at within finite ⊢
  rcases x with (_ | _) | _ | _ | _
  · exact .inr rfl
  · rcases y with (_ | _) | _ | _ | ⟨_ | _, _, _, _⟩ <;> first | cases finite; done | cases within
  · rcases y with (_ | _) | _ | _ | ⟨_ | _, _, _, _⟩ <;> cases within
  · exact .inl rfl
  · exact .inl rfl

theorem isFinite_of_between {low x high : Float32} (lowFinite : low.isFinite = true)
    (highFinite : high.isFinite = true) (above : low ≤ x) (below : x ≤ high) :
    x.isFinite = true := by
  refine (finite_or_infinite below highFinite).resolve_right fun infinite => ?_
  rw [le_iff_unpack, infinite] at above
  change low.toModel.unpack.isFinite = true at lowFinite
  generalize low.toModel.unpack = low at above lowFinite
  rcases low with (_ | _) | _ | _ | ⟨_ | _, _, _, _⟩ <;>
    first | cases lowFinite; done | cases above

def grains (score : Float32) : Int := count score.toModel.unpack

theorem le_iff_grains {x y : Float32} (left : x.isFinite = true) (right : y.isFinite = true) :
    x ≤ y ↔ grains x ≤ grains y := by
  rw [le_iff_unpack]
  exact le_iff_count (written_unpack _) (written_unpack _) left right

theorem unpack_sub {x y : Float32} (left : x.isFinite = true) (right : y.isFinite = true) :
    (x - y).toModel.unpack =
      landed (UnpackedFloat.sub Format.binary32 x.toModel.unpack y.toModel.unpack) :=
  (sub_rounds (written_unpack _) (written_unpack _) left right).unpack_pack

theorem unpack_add {x y : Float32} (left : x.isFinite = true) (right : y.isFinite = true) :
    (x + y).toModel.unpack =
      landed (UnpackedFloat.add Format.binary32 x.toModel.unpack y.toModel.unpack) :=
  (add_rounds (written_unpack _) (written_unpack _) left right).unpack_pack

theorem infinite_sub {x y : Float32} (infinite : x.toModel.unpack = .infinity .negative)
    (finite : y.isFinite = true) : x - y = negativeInfinity := by
  change y.toModel.unpack.isFinite = true at finite
  change Float32.ofModel (Float32.Model.pack
    (UnpackedFloat.sub Format.binary32 x.toModel.unpack y.toModel.unpack)) = _
  rw [infinite]
  generalize y.toModel.unpack = y at finite
  cases y <;> first | rfl | cases finite

theorem infinite_add {x y : Float32} (infinite : x.toModel.unpack = .infinity .negative)
    (finite : y.isFinite = true) : x + y = negativeInfinity := by
  change y.toModel.unpack.isFinite = true at finite
  change Float32.ofModel (Float32.Model.pack
    (UnpackedFloat.add Format.binary32 x.toModel.unpack y.toModel.unpack)) = _
  rw [infinite]
  generalize y.toModel.unpack = y at finite
  cases y <;> first | rfl | cases finite

theorem negativeInfinity_unpack : negativeInfinity.toModel.unpack = .infinity .negative := rfl

theorem sub_le_zero {x y : Float32} (within : x ≤ y) (finite : y.isFinite = true) :
    x - y ≤ 0 := by
  rcases finite_or_infinite within finite with left | infinite
  · rw [le_iff_unpack, unpack_sub left finite]
    refine (sub_rounds (written_unpack _) (written_unpack _) left finite).le_zero ?_ .positive
    exact Int.sub_nonpos_of_le ((le_iff_grains left finite).mp within)
  · rw [infinite_sub infinite finite]
    decide

theorem sub_self {x : Float32} (finite : x.isFinite = true) : x - x = 0 := by
  have left := written_unpack x.toModel
  change x.toModel.unpack.isFinite = true at finite
  change Float32.ofModel (Float32.Model.pack
    (UnpackedFloat.sub Format.binary32 x.toModel.unpack x.toModel.unpack)) = _
  generalize x.toModel.unpack = x at finite left
  rcases x with _ | _ | (_ | _) | ⟨sign, mantissa, exponent, some⟩
  · cases finite
  · cases finite
  · rfl
  · rfl
  · unfold UnpackedFloat.sub
    dsimp only
    rw [Int.sub_self]
    rfl

theorem zero_sub_isFinite {x : Float32} (finite : x.isFinite = true) : (0 - x).isFinite = true := by
  have right := written_unpack x.toModel
  have zero : (0 : Float32).isFinite = true := rfl
  change (0 - x).toModel.unpack.isFinite = true
  rw [unpack_sub zero finite]
  change x.toModel.unpack.isFinite = true at finite
  change (landed (UnpackedFloat.sub Format.binary32 (.zero .positive) x.toModel.unpack)).isFinite =
    true
  generalize x.toModel.unpack = x at finite right
  rcases x with _ | _ | (_ | _) | ⟨sign, mantissa, exponent, some⟩
  · cases finite
  · cases finite
  · rfl
  · rfl
  · change (landed (.finite (-sign) mantissa exponent some)).isFinite = true
    rw [landed, if_pos right.2]
    rfl

theorem add_small {x y : Float32} (left : x.isFinite = true) (right : y.isFinite = true)
    (leftPos : 0 ≤ grains x) (rightPos : 0 ≤ grains y) (leftSmall : grains x ≤ 2 ^ 174)
    (rightSmall : grains y ≤ 2 ^ 149) :
    (x + y).isFinite = true ∧ grains x ≤ grains (x + y) ∧ grains y ≤ grains (x + y) ∧
      grains (x + y) ≤ 2 ^ 174 := by
  have rounds := add_rounds (written_unpack x.toModel) (written_unpack y.toModel) left right
  have sum := rounds.small leftPos rightPos leftSmall rightSmall
    ((written_unpack x.toModel).grid left) ((written_unpack y.toModel).grid right)
  rw [← unpack_add left right] at sum
  exact sum

end StagedDecoding.Scores
