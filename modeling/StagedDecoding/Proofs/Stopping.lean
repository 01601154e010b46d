import StagedDecoding.Proofs.Quotients
import StagedDecoding.Proofs.Refusals

/-! When an entry may stop.

An entry stops once the best sum of its beams, normalized at their present length, does not exceed
the lowest score it kept. Sums are not positive, so they score the higher the larger the power of the
length is that divides them. Nothing that comes later is taken exactly if the bound holds for the
largest power still ahead. At the present length this is so if powers do not grow with the length,
and for positive penalties it need not be.
-/

set_option autoImplicit false

namespace StagedDecoding.Hypotheses

variable {power : Float32 → Float32 → Float32} {lengthPenalty : Float32}

def divisor (power : Float32 → Float32 → Float32) (lengthPenalty : Float32) (length : Nat) :
    Float32 :=
  power (UInt64.ofNat (max length 1)).toFloat32 lengthPenalty

/-- No sequence between two lengths changes the ranking, whatever its sum is, up to the best one. -/
def Decided (power : Float32 → Float32 → Float32) (best : Float32) (length longest : Nat)
    (h : Hypotheses) : Prop :=
  ∀ offer : List Token × Float32, length ≤ offer.1.length → offer.1.length ≤ longest →
    offer.2 ≤ best → (gradedBy power h.lengthPenalty offer).score.isNaN = false →
    (h.add offer.1 offer.2 power).ranked = h.ranked

/-- A length between two others with the largest power. Powers have no sign and may underflow. -/
structure Widest (power : Float32 → Float32 → Float32) (lengthPenalty : Float32)
    (length longest widest : Nat) : Prop where
  low : length ≤ widest
  high : widest ≤ longest
  unsigned : ∀ n, length ≤ n → n ≤ longest →
    0 < divisor power lengthPenalty n ∨ divisor power lengthPenalty n = 0
  largest : ∀ n, length ≤ n → n ≤ longest →
    divisor power lengthPenalty n ≤ divisor power lengthPenalty widest

variable {h : Hypotheses} {beams : Nat} {offered : List Scored} {best : Float32}
  {length longest widest : Nat}

theorem Widest.normalized_le (powers : Widest power lengthPenalty length longest widest)
    (negative : best ≤ 0) (number : (normalized lengthPenalty best widest power).isNaN = false)
    {sum : Float32} {n : Nat} (late : length ≤ n) (early : n ≤ longest) (below : sum ≤ best)
    (score : (normalized lengthPenalty sum n power).isNaN = false) :
    normalized lengthPenalty sum n power ≤ normalized lengthPenalty best widest power :=
  Scores.div_le_div below negative (powers.unsigned n late early)
    (powers.unsigned widest powers.low powers.high) (powers.largest n late early) score number

theorem Retains.decided_iff (retains : h.Retains beams offered) (clean : Numbers h.kept)
    (full : h.beams ≤ h.kept.length) (negative : best ≤ 0)
    (powers : Widest power h.lengthPenalty length longest widest)
    (number : (normalized h.lengthPenalty best widest power).isNaN = false) :
    h.Decided power best length longest ↔
      normalized h.lengthPenalty best widest power ≤ h.worst := by
  constructor
  · intro decided
    -- of all sequences still to come this one scores highest
    let offer : List Token × Float32 := (List.replicate widest 0, best)
    have long : offer.1.length = widest := List.length_replicate
    have same : (gradedBy power h.lengthPenalty offer).score =
        normalized h.lengthPenalty best widest power := by
      rw [gradedBy, long]
    have proper := (Scores.isNaN_of_le negative).1
    have still := decided offer (long.symm ▸ powers.low) (long.symm ▸ powers.high)
      (Scores.le_refl proper) (same.symm ▸ number)
    rw [← same, retains.le_worst clean (same.symm ▸ number)]
    exact ((retains.ranked_add_iff clean offer (same.symm ▸ number)).mp still).2
  · intro bound offer late early below score
    have refused := Scores.le_trans
      (powers.normalized_le negative number late early below score) bound
    rw [add_refused full refused]

/-- A stopped entry is decided exactly if the best sum with the largest power that is still ahead
does not exceed the lowest score. If the present length has that power, it always is. -/
theorem stopped_decided_iff (power : Float32 → Float32 → Float32) (beams : Nat)
    (lengthPenalty : Float32) (offers : List (List Token × Float32))
    (clean : Numbers (offers.map (gradedBy power lengthPenalty))) (best : Float32)
    (negative : best ≤ 0) (length longest widest : Nat)
    (powers : Widest power lengthPenalty length longest widest)
    (number : (normalized lengthPenalty best widest power).isNaN = false) :
    let h := offerAllBy power offers (.empty beams lengthPenalty false)
    h.isDone best length power = true →
      (h.Decided power best length longest ↔
        normalized lengthPenalty best widest power ≤ h.worst) ∧
      (divisor power lengthPenalty widest ≤ divisor power lengthPenalty length →
        h.Decided power best length longest) := by
  intro h stopped
  have same : h.lengthPenalty = lengthPenalty := lengthPenalty_offerAllBy offers
  have waits : h.earlyStopping = false := earlyStopping_offerAllBy offers
  have retains : h.Retains beams (offers.map (gradedBy power lengthPenalty)) :=
    Retains.empty.offerAll offers clean
  have kept : Numbers h.kept := fun x member => clean x (retains.subset member)
  rw [isDone_iff, waits, same] at stopped
  obtain ⟨full, stopped⟩ := stopped
  have bound := stopped.resolve_left Bool.false_ne_true
  have decided := retains.decided_iff kept full negative (same.symm ▸ powers) (same.symm ▸ number)
  rw [same] at decided
  refine ⟨decided, fun narrow => decided.mpr ?_⟩
  have proper := (Scores.isNaN_of_le negative).1
  have ends := powers.low.trans powers.high
  have shrinks : normalized lengthPenalty best widest power ≤
      normalized lengthPenalty best length power :=
    Scores.div_le_div (Scores.le_refl proper) negative
      (powers.unsigned widest powers.low powers.high) (powers.unsigned length le_rfl ends) narrow
      number (Scores.isNaN_of_le bound).1
  exact Scores.le_trans shrinks bound

/-- Divided by its length, the best sum stays under the lowest score. So it does if it is not
divided at all. -/
theorem stopped_decided_counted :
    let power : Float32 → Float32 → Float32 := fun length _ => length
    let h := offerAllBy power [([1, 2], -2)] (.empty 1 1 false)
    let one : Float32 → Float32 → Float32 := fun _ _ => 1
    let own := offerAllBy one [([1, 2], -2)] (.empty 1 0 false)
    h.isDone (-32) 4 power = true ∧ h.Decided power (-32) 4 16 ∧
      own.isDone (-8) 4 one = true ∧ own.Decided one (-8) 4 16 := by
  intro power h one own
  have lengths : Widest power 1 4 16 16 :=
    ⟨by decide, by decide, fun n late early => .inl (by interval_cases n <;> decide +kernel),
      fun n late early => by interval_cases n <;> decide +kernel⟩
  have positive : (0 : Float32) < 1 := by decide +kernel
  have same : (1 : Float32) ≤ 1 := by decide +kernel
  have ones : Widest one 0 4 16 4 :=
    ⟨by decide, by decide, fun _ _ _ => .inl positive, fun _ _ _ => same⟩
  have stopped : h.isDone (-32) 4 power = true := by decide +kernel
  have ended : own.isDone (-8) 4 one = true := by decide +kernel
  refine ⟨stopped, ?_, ended, ?_⟩
  · exact (stopped_decided_iff power 1 1 [([1, 2], -2)] (by decide +kernel) (-32) (by decide +kernel)
      4 16 16 lengths (by decide +kernel) stopped).1.mpr (by decide +kernel)
  · exact (stopped_decided_iff one 1 0 [([1, 2], -2)] (by decide +kernel) (-8) (by decide +kernel)
      4 16 4 ones (by decide +kernel) ended).2 (by decide +kernel)

/-- At four tokens the best sum scores less than the only hypothesis. Four times as long it enters the
results, although the entry has stopped. -/
theorem stopped_undecided :
    let power : Float32 → Float32 → Float32 := fun length _ => length
    let h := offerAllBy power [([1, 2], -2)] (.empty 1 1 false)
    h.isDone (-8) 4 power = true ∧
      (h.add (List.replicate 16 3) (-8) power).ranked ≠ h.ranked := by
  intro power h
  refine ⟨by decide +kernel, fun same => ?_⟩
  have kept : h.kept.map (·.tokens) = [[1, 2]] := by decide +kernel
  have taken : (h.add (List.replicate 16 3) (-8) power).kept.map (·.tokens) =
      [List.replicate 16 3] := by decide +kernel
  have ranks := (ranked_perm (h.add (List.replicate 16 3) (-8) power)).symm
  rw [same] at ranks
  have swapped := (ranks.trans (ranked_perm h)).map (·.tokens)
  rw [kept, taken] at swapped
  exact absurd (List.singleton_perm_singleton.mp swapped) (by decide)

end StagedDecoding.Hypotheses
