import StagedDecoding.Proofs.LogSoftmax
import StagedDecoding.Proofs.Quotients

/-! Sums and products of numbers that are not negative.

Rounding and packing keep the sign of a number. So a running sum of numbers that are not negative has
no minus sign, whatever its size and even if it is no number any more. A zero added to it changes
nothing, and a positive number makes it positive for good. A product of such numbers is not negative
either, and one with a zero is a zero or no number.
-/

set_option autoImplicit false

open Float.Model (Format UnpackedFloat)
open Float.Model.UnpackedFloat (Sign Accuracy)

namespace StagedDecoding.Binary32

/-- A number without a minus sign, or no number at all. -/
def Unminused (x : UnpackedFloat) : Prop :=
  Unsigned x ∨ x = .notANumber

variable {x y : UnpackedFloat}

theorem unsigned_roundWithAccuracy (mantissa : Nat) (exponent : Int) (accuracy : Accuracy) :
    Unsigned
      (UnpackedFloat.roundWithAccuracy Format.binary32 .positive mantissa exponent accuracy) := by
  unfold UnpackedFloat.roundWithAccuracy
  dsimp only
  split <;> rfl

theorem unsigned_normalize {mantissa : Int} (above : 0 ≤ mantissa) (exponent : Int) :
    Unsigned (UnpackedFloat.normalize Format.binary32 mantissa exponent .positive) := by
  unfold UnpackedFloat.normalize
  split
  · next below =>
    rw [compare_lt_iff_lt] at below
    omega
  · rfl
  · exact unsigned_roundWithAccuracy ..

theorem mul_above (left : x.lt (.zero .positive) = false) (right : y.lt (.zero .positive) = false) :
    Unminused (UnpackedFloat.mul Format.binary32 x y) ∨
      ∃ sign, UnpackedFloat.mul Format.binary32 x y = .zero sign := by
  rcases x with (_ | _) | _ | _ | ⟨_ | _, _, _, _⟩ <;>
    rcases y with (_ | _) | _ | _ | ⟨_ | _, _, _, _⟩ <;>
    first
    | cases left; done
    | cases right; done
    | exact .inl (.inl rfl)
    | exact .inl (.inr rfl)
    | exact .inr ⟨_, rfl⟩
    | exact .inl (.inl (unsigned_roundWithAccuracy ..))

theorem mul_of_neither (neither : (∃ sign, x = .zero sign) ∨ x = .notANumber) (y : UnpackedFloat) :
    (∃ sign, UnpackedFloat.mul Format.binary32 x y = .zero sign) ∨
      UnpackedFloat.mul Format.binary32 x y = .notANumber := by
  rcases neither with ⟨sign, rfl⟩ | rfl
  · cases y <;> first | exact .inl ⟨_, rfl⟩ | exact .inr rfl
  · exact .inr rfl

theorem Unminused.add (left : Unminused x) (above : y.lt (.zero .positive) = false) :
    Unminused (UnpackedFloat.add Format.binary32 x y) := by
  rcases left with left | rfl
  · rcases x with s₁ | _ | s₁ | ⟨s₁, m₁, e₁, _⟩ <;>
      rcases y with (_ | _) | _ | (_ | _) | ⟨_ | _, m₂, e₂, _⟩ <;>
      first
      | exact left.elim
      | cases above; done
      | obtain rfl : s₁ = .positive := left
        first
        | exact .inl rfl
        | exact .inr rfl
        | exact .inl (unsigned_normalize
            (Int.add_nonneg (Int.natCast_nonneg _) (Int.natCast_nonneg _)) _)
  · exact .inr rfl

theorem add_notANumber (none : x = .notANumber ∨ y = .notANumber) :
    UnpackedFloat.add Format.binary32 x y = .notANumber := by
  rcases none with rfl | rfl
  · rfl
  · cases x <;> rfl

theorem unminused_decoded (exponent : BitVec 8) (mantissa : BitVec 23) :
    Unminused (decoded .positive exponent mantissa) := by
  unfold decoded
  split
  · split
    · exact .inl rfl
    · exact .inr rfl
  · split
    · split <;> exact .inl rfl
    · exact .inl rfl

theorem Unminused.packed (unminused : Unminused x) : Unminused (Float32.Model.pack x).unpack := by
  rcases unminused with unsigned | rfl
  · rcases x with sign | _ | sign | ⟨sign, mantissa, exponent, some⟩
    · obtain rfl : sign = .positive := unsigned
      exact .inl rfl
    · exact unsigned.elim
    · obtain rfl : sign = .positive := unsigned
      exact .inl rfl
    · obtain rfl : sign = .positive := unsigned
      change Unminused (UnpackedFloat.unpack Format.binary32 (UnpackedFloat.pack Format.binary32 _))
      rw [pack_finite]
      split
      · exact .inl rfl
      · split <;> rw [unpack_packComponents] <;> exact unminused_decoded ..
  · exact .inr rfl

theorem Unminused.not_lt (unminused : Unminused x) : x.lt (.zero .positive) = false := by
  rcases unminused with unsigned | rfl
  · rcases x with sign | _ | sign | ⟨sign, _, _, _⟩
    · obtain rfl : sign = .positive := unsigned
      rfl
    · exact unsigned.elim
    · rfl
    · obtain rfl : sign = .positive := unsigned
      rfl
  · rfl

theorem Rounds.lt {exact : Int} (rounds : Rounds exact x) (pos : 0 < exact) :
    (UnpackedFloat.zero .positive).lt (landed x) = true := by
  rcases x with _ | _ | _ | ⟨sign, mantissa, exponent, some⟩
  · exact rounds.elim
  · exact rounds.elim
  · have none : exact = 0 := rounds
    omega
  · obtain ⟨-, -, signed, -⟩ := rounds
    cases sign
    · simp only [Sign.apply] at signed
      omega
    · unfold landed
      dsimp only
      split <;> rfl

theorem count_of_not_lt (above : x.lt (.zero .positive) = false) : 0 ≤ count x := by
  rcases x with _ | _ | _ | ⟨_ | _, _, _, _⟩
  · exact le_rfl
  · exact le_rfl
  · exact le_rfl
  · cases above
  · exact Int.natCast_nonneg _

theorem count_of_not_le (above : x.le (.zero .positive) = false) (finite : x.isFinite = true) :
    0 < count x := by
  rcases x with _ | _ | _ | ⟨_ | _, _, e, some⟩
  · cases finite
  · cases finite
  · cases above
  · cases above
  · have pos := @units_pos _ e some
    simp only [count, Sign.apply]
    omega

end StagedDecoding.Binary32

namespace StagedDecoding.Scores

open Binary32

variable {sum x y : Float32}

theorem unpack_eq_of_isNaN (undefined : x.isNaN = true) :
    x.toModel.unpack = .notANumber := by
  change x.toModel.unpack.isNaN = true at undefined
  generalize x.toModel.unpack = x at undefined ⊢
  cases x <;> first | rfl | cases undefined

theorem isNaN_of_unpack (undefined : x.toModel.unpack = .notANumber) : x.isNaN = true := by
  change x.toModel.unpack.isNaN = true
  rw [undefined]
  rfl

theorem not_lt_iff : ¬ x < y ↔ x.toModel.unpack.lt y.toModel.unpack = false := by
  rw [lt_iff_unpack, Bool.not_eq_true]

theorem not_le_iff : ¬ x ≤ y ↔ x.toModel.unpack.le y.toModel.unpack = false := by
  rw [le_iff_unpack, Bool.not_eq_true]

theorem not_lt_of_le (within : y ≤ x) : ¬ x < y := by
  obtain ⟨left, right⟩ := isNaN_of_le within
  rw [lt_iff_key right left, not_lt]
  exact (le_iff_key left right).mp within

theorem unminused_zero : Unminused (0 : Float32).toModel.unpack :=
  .inl rfl

theorem unminused_add (left : Unminused sum.toModel.unpack) (above : ¬ x < 0) :
    Unminused (sum + x).toModel.unpack :=
  (left.add (not_lt_iff.mp above)).packed

theorem unminused_foldl {entries : Scores} (left : Unminused sum.toModel.unpack)
    (above : ∀ x ∈ entries, ¬ x < 0) :
    Unminused (entries.foldl (· + ·) sum).toModel.unpack := by
  induction entries generalizing sum with
  | nil => exact left
  | cons x rest ih =>
    obtain ⟨first, others⟩ := List.forall_mem_cons.mp above
    exact ih (unminused_add left first) others

theorem mul_not_lt (left : ¬ x < 0) (right : ¬ y < 0) : ¬ x * y < 0 := by
  rw [not_lt_iff] at left right ⊢
  change (Float32.Model.pack (UnpackedFloat.mul Format.binary32 x.toModel.unpack
    y.toModel.unpack)).unpack.lt (.zero .positive) = false
  rcases mul_above left right with unminused | ⟨sign, zero⟩
  · exact unminused.packed.not_lt
  · rw [zero]
    cases sign <;> rfl

theorem mul_congr (factor : Float32) (same : x.toModel.unpack = y.toModel.unpack) :
    factor * x = factor * y := by
  change Float32.ofModel (Float32.Model.pack
    (UnpackedFloat.mul Format.binary32 factor.toModel.unpack x.toModel.unpack)) = _
  rw [same]
  rfl

theorem unpack_of_neither (above : ¬ x < 0) (none : ¬ 0 < x) :
    (∃ sign, x.toModel.unpack = .zero sign) ∨ x.toModel.unpack = .notANumber := by
  rw [not_lt_iff] at above none
  generalize x.toModel.unpack = x at above none ⊢
  rcases x with (_ | _) | _ | sign | ⟨_ | _, _, _, _⟩ <;>
    first
    | exact .inl ⟨_, rfl⟩
    | exact .inr rfl
    | cases above; done
    | cases none

theorem mul_neither (above : ¬ x < 0) (none : ¬ 0 < x) (y : Float32) :
    ¬ x * y < 0 ∧ ¬ 0 < x * y := by
  rw [not_lt_iff, not_lt_iff]
  change (Float32.Model.pack (UnpackedFloat.mul Format.binary32 x.toModel.unpack
    y.toModel.unpack)).unpack.lt (.zero .positive) = false ∧
    (UnpackedFloat.zero .positive).lt (Float32.Model.pack (UnpackedFloat.mul Format.binary32
      x.toModel.unpack y.toModel.unpack)).unpack = false
  rcases mul_of_neither (unpack_of_neither above none) y.toModel.unpack with ⟨sign, zero⟩ | none
  · rw [zero]
    cases sign <;> exact ⟨rfl, rfl⟩
  · rw [none]
    exact ⟨rfl, rfl⟩

theorem add_undefined (undefined : sum.isNaN = true ∨ x.isNaN = true) :
    (sum + x).isNaN = true := by
  apply isNaN_of_unpack
  change (Float32.Model.pack
    (UnpackedFloat.add Format.binary32 sum.toModel.unpack x.toModel.unpack)).unpack = _
  rw [add_notANumber (undefined.imp unpack_eq_of_isNaN unpack_eq_of_isNaN)]
  rfl

theorem foldl_undefined {entries : Scores}
    (undefined : sum.isNaN = true ∨ ∃ x ∈ entries, x.isNaN = true) :
    (entries.foldl (· + ·) sum).isNaN = true := by
  induction entries generalizing sum with
  | nil => exact undefined.resolve_right (by simp)
  | cons x rest ih =>
    refine ih ?_
    rcases undefined with first | ⟨y, member, none⟩
    · exact .inl (add_undefined (.inl first))
    · rcases List.mem_cons.mp member with rfl | later
      · exact .inl (add_undefined (.inr none))
      · exact .inr ⟨y, later, none⟩

theorem unpack_add_zero (left : Unminused sum.toModel.unpack) {sign : Sign}
    (zero : x.toModel.unpack = .zero sign) : (sum + x).toModel.unpack = sum.toModel.unpack := by
  have written := written_unpack sum.toModel
  -- only the sum of two zeros could lose a sign
  have same : UnpackedFloat.add Format.binary32 sum.toModel.unpack (.zero sign) =
      sum.toModel.unpack := by
    generalize sum.toModel.unpack = sum at left
    rcases left with unsigned | rfl
    · rcases sum with own | _ | own | _
      · rfl
      · rfl
      · obtain rfl : own = .positive := unsigned
        cases sign <;> rfl
      · rfl
    · rfl
  change (Float32.Model.pack
    (UnpackedFloat.add Format.binary32 sum.toModel.unpack x.toModel.unpack)).unpack = _
  rw [zero, same, unpack_pack written.rounds]
  generalize sum.toModel.unpack = sum at written
  rcases sum with _ | _ | _ | _
  · rfl
  · rfl
  · rfl
  · exact if_pos written.2

theorem unpack_foldl_zeros {zeros : Scores} (left : Unminused sum.toModel.unpack)
    (none : ∀ x ∈ zeros, ∃ sign, x.toModel.unpack = .zero sign) :
    (zeros.foldl (· + ·) sum).toModel.unpack = sum.toModel.unpack := by
  induction zeros generalizing sum with
  | nil => rfl
  | cons x rest ih =>
    obtain ⟨⟨sign, zero⟩, others⟩ := List.forall_mem_cons.mp none
    have same := unpack_add_zero left zero
    exact (ih (same ▸ left) others).trans same

theorem add_not_le (left : ¬ sum < 0) (right : ¬ x < 0) (some : ¬ sum ≤ 0 ∨ ¬ x ≤ 0) :
    ¬ sum + x ≤ 0 := by
  rw [not_le_iff, not_le_iff] at some
  rw [not_lt_iff] at left right
  by_cases finite : sum.isFinite = true ∧ x.isFinite = true
  · obtain ⟨own, other⟩ := finite
    refine fun within => not_lt_of_le within ?_
    rw [lt_iff_unpack, unpack_add own other]
    refine (add_rounds (written_unpack _) (written_unpack _) own other).lt ?_
    have first := count_of_not_lt left
    have second := count_of_not_lt right
    rcases some with some | some
    · have pos := count_of_not_le some own
      omega
    · have pos := count_of_not_le some other
      omega
  · -- nothing is rounded: an infinite part makes the sum infinite, and what is no number spoils it
    change ¬ (sum.toModel.unpack.isFinite = true ∧ x.toModel.unpack.isFinite = true) at finite
    have large : UnpackedFloat.add Format.binary32 sum.toModel.unpack x.toModel.unpack =
          .infinity .positive ∨
        UnpackedFloat.add Format.binary32 sum.toModel.unpack x.toModel.unpack = .notANumber := by
      generalize sum.toModel.unpack = sum, x.toModel.unpack = x at finite left right
      rcases sum with (_ | _) | _ | _ | ⟨_ | _, _, _, _⟩ <;>
        rcases x with (_ | _) | _ | _ | ⟨_ | _, _, _, _⟩ <;>
        first
        | exact .inl rfl
        | exact .inr rfl
        | cases left; done
        | cases right; done
        | exact absurd (And.intro rfl rfl) finite
    rw [not_le_iff]
    change (Float32.Model.pack (UnpackedFloat.add Format.binary32 sum.toModel.unpack
      x.toModel.unpack)).unpack.le (.zero .positive) = false
    rcases large with large | large <;> rw [large] <;> rfl

theorem foldl_not_le {entries : Scores} (left : Unminused sum.toModel.unpack)
    (above : ∀ x ∈ entries, ¬ x < 0) (some : ¬ sum ≤ 0 ∨ ∃ x ∈ entries, ¬ x ≤ 0) :
    ¬ entries.foldl (· + ·) sum ≤ 0 := by
  induction entries generalizing sum with
  | nil => exact some.resolve_right (by simp)
  | cons x rest ih =>
    obtain ⟨first, others⟩ := List.forall_mem_cons.mp above
    have own : ¬ sum < 0 := not_lt_iff.mpr left.not_lt
    -- the positive part is in the sum already, or comes next, or is still to come
    refine ih (unminused_add left first) others ?_
    rcases some with some | ⟨y, member, some⟩
    · exact .inl (add_not_le own first (.inl some))
    · rcases List.mem_cons.mp member with rfl | later
      · exact .inl (add_not_le own first (.inr some))
      · exact .inr ⟨y, later, some⟩

end StagedDecoding.Scores
