import Mathlib
import StagedDecoding.Proofs.ScoreOrder

/-! Binary32 numbers as whole multiples of the smallest one.

Every finite number has a mantissa of at most 24 bits, and one of exactly 24 bits unless its exponent
is the least. Counted in units of the smallest positive number it is an integer, and the order of
numbers is that of their counts. Packing and unpacking changes no such number, unless its exponent
is too large.
-/

set_option autoImplicit false

open Float.Model (Format UnpackedFloat totalExponent)
open Float.Model.UnpackedFloat (Sign)

namespace StagedDecoding.Binary32

/-- A mantissa and an exponent in the only form in which numbers are written. -/
structure Canonical (mantissa : Nat) (exponent : Int) : Prop where
  pos : 0 < mantissa
  small : mantissa < 2 ^ 24
  low : -149 ≤ exponent
  normal : exponent = -149 ∨ 2 ^ 23 ≤ mantissa

def units (mantissa : Nat) (exponent : Int) : Nat := mantissa * 2 ^ (exponent + 149).toNat

theorem units_pos {mantissa : Nat} {exponent : Int} (pos : 0 < mantissa) :
    0 < units mantissa exponent :=
  Nat.mul_pos pos (Nat.two_pow_pos _)

/-- The exponent of the last place that is kept of a number. -/
def lastPlace (mantissa : Nat) (exponent : Int) : Int :=
  max (mantissa.log2 + exponent - 23) (-149)

theorem targetExponent_eq (mantissa : Nat) (exponent : Int) :
    Format.binary32.targetExponent (totalExponent mantissa exponent) =
      lastPlace mantissa exponent := by
  unfold lastPlace
  change max ((mantissa.log2 : Int) + 1 + exponent - (24 : Nat)) (-149) = _
  omega

theorem log2_of_normal {mantissa : Nat} (large : 2 ^ 23 ≤ mantissa) (small : mantissa < 2 ^ 24) :
    mantissa.log2 = 23 :=
  (Nat.log2_eq_iff (by omega)).mpr ⟨large, small⟩

theorem log2_le_of_small {mantissa : Nat} (pos : 0 < mantissa) (small : mantissa < 2 ^ 24) :
    mantissa.log2 ≤ 23 :=
  Nat.lt_succ_iff.mp ((Nat.log2_lt (Nat.ne_of_gt pos)).mpr small)

theorem Canonical.targetExponent {mantissa : Nat} {exponent : Int}
    (canonical : Canonical mantissa exponent) :
    Format.binary32.targetExponent (totalExponent mantissa exponent) = exponent := by
  rw [targetExponent_eq, lastPlace]
  have few := log2_le_of_small canonical.pos canonical.small
  have low := canonical.low
  rcases canonical.normal with rfl | large
  · omega
  · rw [log2_of_normal large canonical.small]
    omega

theorem Canonical.units_lt {m₁ m₂ : Nat} {e₁ e₂ : Int} (first : Canonical m₁ e₁)
    (second : Canonical m₂ e₂) : units m₁ e₁ < units m₂ e₂ ↔ e₁ < e₂ ∨ e₁ = e₂ ∧ m₁ < m₂ := by
  have below : ∀ {m₁ m₂ : Nat} {e₁ e₂ : Int}, Canonical m₁ e₁ → Canonical m₂ e₂ → e₁ < e₂ →
      units m₁ e₁ < units m₂ e₂ := by
    intro m₁ m₂ e₁ e₂ first second earlier
    have large : 2 ^ 23 ≤ m₂ := second.normal.resolve_left (by have := first.low; omega)
    have one : (e₁ + 149).toNat + 1 ≤ (e₂ + 149).toNat := by
      have := first.low
      omega
    calc units m₁ e₁ < 2 ^ 24 * 2 ^ (e₁ + 149).toNat :=
          Nat.mul_lt_mul_of_pos_right first.small (Nat.two_pow_pos _)
      _ = 2 ^ 23 * 2 ^ ((e₁ + 149).toNat + 1) := by ring
      _ ≤ m₂ * 2 ^ (e₂ + 149).toNat := Nat.mul_le_mul large (Nat.pow_le_pow_right (by omega) one)
  rcases lt_trichotomy e₁ e₂ with earlier | rfl | later
  · exact iff_of_true (below first second earlier) (.inl earlier)
  · simp only [units, lt_irrefl, true_and, false_or]
    exact Nat.mul_lt_mul_right (Nat.two_pow_pos _)
  · exact iff_of_false (Nat.lt_asymm (below second first later)) (by omega)

def Written : UnpackedFloat → Prop
  | .finite _ mantissa exponent _ => Canonical mantissa exponent ∧ exponent ≤ 104
  | _ => True

theorem finite_congr {m₁ m₂ : Nat} {e₁ e₂ : Int} (sign : Sign) (some : 0 < m₁) (same : m₁ = m₂)
    (place : e₁ = e₂) :
    UnpackedFloat.finite sign m₁ e₁ some = .finite sign m₂ e₂ (same ▸ some) := by
  subst same place
  rfl

def decoded (sign : Sign) (exponent : BitVec 8) (mantissa : BitVec 23) : UnpackedFloat :=
  if exponent = -1#8 then
    if mantissa = 0#23 then .infinity sign else .notANumber
  else if exponent = 0#8 then
    if some : 0 < mantissa.toNat then .finite sign mantissa.toNat (-149) some else .zero sign
  else .finite sign (2 ^ 23 + mantissa.toNat) (exponent.toNat - 150) (Nat.add_pos_left (by decide) _)

theorem unpack_eq (word : BitVec 32) : UnpackedFloat.unpack Format.binary32 word =
    decoded (Sign.ofBitVec (@UnpackedFloat.unpackSign Format.binary32 word))
      (@UnpackedFloat.unpackExponent Format.binary32 word)
      (@UnpackedFloat.unpackMantissa Format.binary32 word) := by
  have bias : Format.binary32.exponentBias = 127 := rfl
  unfold UnpackedFloat.unpack decoded
  dsimp only
  have none : (@UnpackedFloat.unpackMantissa Format.binary32 word) = 0#23 ↔
      ¬ 0 < (@UnpackedFloat.unpackMantissa Format.binary32 word).toNat := by
    rw [Nat.not_lt, Nat.le_zero_eq]
    exact BitVec.toNat_inj.symm
  -- the leading bit that is not written counts above all others
  have whole : (1#1 ++ @UnpackedFloat.unpackMantissa Format.binary32 word).toNat =
      2 ^ 23 + (@UnpackedFloat.unpackMantissa Format.binary32 word).toNat := by
    rw [BitVec.toNat_append, ← Nat.shiftLeft_add_eq_or_of_lt (BitVec.isLt _)]
    rfl
  by_cases full : (@UnpackedFloat.unpackExponent Format.binary32 word) = -1#8
  · rw [if_pos full, if_pos full]
  rw [if_neg full, if_neg full]
  by_cases subnormal : (@UnpackedFloat.unpackExponent Format.binary32 word) = 0#8
  · rw [if_pos subnormal, if_pos subnormal]
    by_cases zero : 0 < (@UnpackedFloat.unpackMantissa Format.binary32 word).toNat
    · rw [dif_neg (by rwa [none, not_not]), dif_pos zero, subnormal, bias]
      rfl
    · rw [dif_pos (none.mpr zero), dif_neg zero]
  · rw [if_neg subnormal, if_neg subnormal]
    refine finite_congr _ _ whole ?_
    rw [bias]
    rfl

theorem unpackSign_packComponents (sign : Sign) (exponent : BitVec 8) (mantissa : BitVec 23) :
    Sign.ofBitVec (@UnpackedFloat.unpackSign Format.binary32
      (UnpackedFloat.packComponents Format.binary32 sign exponent mantissa)) = sign := by
  have part : @UnpackedFloat.unpackSign Format.binary32
      (UnpackedFloat.packComponents Format.binary32 sign exponent mantissa) = sign.toBitVec := by
    change (sign.toBitVec ++ exponent ++ mantissa).extractLsb' 31 1 = sign.toBitVec
    rw [BitVec.extractLsb'_append_eq_of_le (by decide),
      BitVec.extractLsb'_append_eq_of_le (by decide)]
    cases sign <;> rfl
  rw [part]
  cases sign <;> rfl

theorem unpack_packComponents (sign : Sign) (exponent : BitVec 8) (mantissa : BitVec 23) :
    UnpackedFloat.unpack Format.binary32
      (UnpackedFloat.packComponents Format.binary32 sign exponent mantissa) =
      decoded sign exponent mantissa := by
  rw [unpack_eq, unpackSign_packComponents, UnpackedFloat.unpackExponent_packComponents,
    UnpackedFloat.unpackMantissa_packComponents]

theorem written_unpack (x : Float32.Model) : Written x.unpack := by
  unfold Float32.Model.unpack
  rw [unpack_eq]
  generalize @UnpackedFloat.unpackMantissa Format.binary32 x.toBits.toBitVec = mantissa
  generalize @UnpackedFloat.unpackExponent Format.binary32 x.toBits.toBitVec = exponent
  have short : mantissa.toNat < 2 ^ 23 := mantissa.isLt
  have few : exponent.toNat < 2 ^ 8 := exponent.isLt
  unfold decoded
  -- the exponent field tells infinite, subnormal and normal numbers apart
  by_cases full : exponent = -1#8
  · rw [if_pos full]
    split <;> trivial
  rw [if_neg full]
  have bounded : exponent.toNat ≠ 255 := fun same => full (BitVec.eq_of_toNat_eq same)
  by_cases subnormal : exponent = 0#8
  · rw [if_pos subnormal]
    by_cases some : 0 < mantissa.toNat
    · rw [dif_pos some]
      exact ⟨⟨some, by omega, le_rfl, .inl rfl⟩, by omega⟩
    · rw [dif_neg some]
      trivial
  · rw [if_neg subnormal]
    have some : exponent.toNat ≠ 0 := fun zero => subnormal (BitVec.eq_of_toNat_eq zero)
    exact ⟨⟨by omega, by omega, by omega, .inr (by omega)⟩, by omega⟩

theorem pack_finite (sign : Sign) {mantissa : Nat} (exponent : Int) (some : 0 < mantissa) :
    UnpackedFloat.pack Format.binary32 (.finite sign mantissa exponent some) =
      if 2 ^ 8 ≤ (exponent + 150).toNat + 1 then UnpackedFloat.packedInfinity Format.binary32 sign
      else if mantissa.log2 + 1 = 24 then
        UnpackedFloat.packComponents Format.binary32 sign (BitVec.ofNat 8 (exponent + 150).toNat)
          (BitVec.ofNat 23 mantissa)
      else
        UnpackedFloat.packComponents Format.binary32 sign 0#8 (BitVec.ofNat 23 mantissa) := by
  have biased : (exponent + 150).toNat =
      (exponent + Format.binary32.exponentBias + (23 : Nat)).toNat := by
    have bias : Format.binary32.exponentBias = 127 := rfl
    rw [bias]
    omega
  rw [biased]
  rfl

theorem unpack_pack_finite {mantissa : Nat} {exponent : Int} (sign : Sign)
    (canonical : Canonical mantissa exponent) :
    (Float32.Model.pack (.finite sign mantissa exponent canonical.pos)).unpack =
      if exponent ≤ 104 then .finite sign mantissa exponent canonical.pos
      else .infinity sign := by
  have low := canonical.low
  have small := canonical.small
  change UnpackedFloat.unpack Format.binary32 (UnpackedFloat.pack Format.binary32 _) = _
  rw [pack_finite]
  -- 104 is the largest exponent that fits into eight bits
  by_cases large : 104 < exponent
  · rw [if_pos (show 2 ^ 8 ≤ (exponent + 150).toNat + 1 by omega),
      if_neg (show ¬ exponent ≤ 104 by omega), UnpackedFloat.packedInfinity, unpack_packComponents]
    rfl
  rw [if_neg (show ¬ 2 ^ 8 ≤ (exponent + 150).toNat + 1 by omega),
    if_pos (show exponent ≤ 104 by omega)]
  -- without the leading bit, the exponent is the lowest one
  rcases Nat.lt_or_ge mantissa (2 ^ 23) with subnormal | normal
  · have short : ¬ mantissa.log2 + 1 = 24 := by
      have := (Nat.log2_lt (Nat.ne_of_gt canonical.pos)).mpr subnormal
      omega
    obtain rfl : exponent = -149 := canonical.normal.resolve_right (by omega)
    have bits : (BitVec.ofNat 23 mantissa).toNat = mantissa := by
      rw [BitVec.toNat_ofNat, Nat.mod_eq_of_lt subnormal]
    rw [if_neg short, unpack_packComponents]
    unfold decoded
    rw [if_neg (by decide), if_pos rfl, dif_pos (by rw [bits]; exact canonical.pos)]
    exact finite_congr _ _ bits rfl
  · have long : mantissa.log2 + 1 = 24 := by
      rw [log2_of_normal normal small]
    have bits : (BitVec.ofNat 23 mantissa).toNat = mantissa - 2 ^ 23 := by
      rw [BitVec.toNat_ofNat]
      omega
    have place : (BitVec.ofNat 8 (exponent + 150).toNat).toNat = (exponent + 150).toNat := by
      rw [BitVec.toNat_ofNat]
      omega
    rw [if_pos long, unpack_packComponents]
    unfold decoded
    have unfull : BitVec.ofNat 8 (exponent + 150).toNat ≠ -1#8 := fun full => by
      have := congrArg BitVec.toNat full
      rw [place] at this
      change (exponent + 150).toNat = 255 at this
      omega
    have some : BitVec.ofNat 8 (exponent + 150).toNat ≠ 0#8 := fun zero => by
      have := congrArg BitVec.toNat zero
      rw [place] at this
      change (exponent + 150).toNat = 0 at this
      omega
    rw [if_neg unfull, if_neg some]
    exact finite_congr _ _ (by omega) (by omega)

end StagedDecoding.Binary32
