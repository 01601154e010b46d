import StagedDecoding.Proofs.BestHypotheses

/-! Which offers an entry refuses.

All that an entry knows of the offers it let go is the lowest score it kept. That is enough: an offer
is refused exactly if it would not be among the best of all offers, its own number included. Among
equal scores the earlier offer wins.
-/

set_option autoImplicit false

namespace StagedDecoding

def ranking (values : List Scored) : List (Scored × Nat) :=
  values.zipIdx.mergeSort fun a b => !(a.1.score < b.1.score)

theorem map_ranking (values : List Scored) :
    (ranking values).map Prod.fst = bestFirst values := by
  have forgotten := List.map_mergeSort (f := Prod.fst) (l := values.zipIdx)
    (r := fun a b => !(a.1.score < b.1.score)) (s := fun a b => !(a.score < b.score))
    fun _ _ _ _ => rfl
  rwa [List.zipIdx_map_fst] at forgotten

theorem ranking_eq {values : List Scored} (clean : Numbers values) :
    ranking values = numbered Scored.key values := by
  have number : ∀ x ∈ values.zipIdx, x.1.score.isNaN = false := fun x member =>
    clean x.1 (List.fst_mem_of_mem_zipIdx member)
  simpa [ranking, numbered] using List.map_mergeSort (f := id) (l := values.zipIdx)
    (s := fun a b => decide (Scored.key b.1 ≤ Scored.key a.1)) fun x first y second => by
      rw [id, id, Bool.eq_iff_iff, Bool.not_eq_true', decide_eq_false_iff_not, decide_eq_true_iff,
        Scores.lt_iff_key (number x first) (number y second), not_lt]
      rfl

namespace Hypotheses

variable {power : Float32 → Float32 → Float32} {h : Hypotheses} {beams : Nat}
  {offered : List Scored}

theorem Retains.full_iff (retains : h.Retains beams offered) :
    h.beams ≤ h.kept.length ↔ beams ≤ offered.length := by
  rw [retains.sized, retains.length]
  omega

/-- An offer that is taken leaves a trace in the ranking: one more, or something lower goes. -/
theorem Retains.ranked_add_iff (retains : h.Retains beams offered) (clean : Numbers h.kept)
    (offer : List Token × Float32)
    (number : (gradedBy power h.lengthPenalty offer).score.isNaN = false) :
    (h.add offer.1 offer.2 power).ranked = h.ranked ↔ beams ≤ offered.length ∧
      ∀ x ∈ h.kept, (gradedBy power h.lengthPenalty offer).key ≤ x.key := by
  let next := gradedBy power h.lengthPenalty offer
  have low : next.score ≤ h.worst ↔ ∀ x ∈ h.kept, next.key ≤ x.key := retains.le_worst clean number
  constructor
  · intro same
    by_contra goes
    rw [← retains.full_iff, ← low, not_and] at goes
    obtain ⟨kept, trimmed, added⟩ := add_taken goes
    have stays : kept.Perm h.kept := by
      have ranks := ranked_perm (h.add offer.1 offer.2 power)
      rw [same, added] at ranks
      exact ranks.symm.trans (ranked_perm h)
    split at trimmed
    case isFalse =>
      have longer := stays.length_eq
      rw [trimmed, List.length_append, List.length_singleton] at longer
      omega
    case isTrue crowded =>
      rw [List.length_append, List.length_singleton] at crowded
      have numbers : Numbers (h.kept ++ [next]) := fun x member =>
        (List.mem_append.mp member).elim (clean x) fun last => List.mem_singleton.mp last ▸ number
      obtain ⟨earlier, lowest, later, whole, erased, before, behind⟩ :=
        worstIndex_split (by simp) numbers
      rw [trimmed, erased] at stays
      -- what left is what came in, and it was the lowest
      have rest : (h.kept ++ [next]).Perm ([lowest] ++ h.kept) := by
        rw [whole]
        exact List.perm_middle.trans (stays.cons lowest)
      have swapped := (List.perm_append_right_iff _).mp (List.perm_append_comm.trans rest)
      obtain rfl : next = lowest := List.singleton_perm_singleton.mp swapped
      refine goes (Nat.le_of_lt_succ crowded) (low.mpr fun x member => ?_)
      rcases List.mem_append.mp (stays.symm.subset member) with member | member
      · exact before x member
      · exact (behind x member).le
  · rintro ⟨many, below⟩
    rw [add_refused (retains.full_iff.mpr many) (low.mpr below)]

theorem Retains.add_eq_self_iff (retains : h.Retains beams offered) (clean : Numbers h.kept)
    (offer : List Token × Float32)
    (number : (gradedBy power h.lengthPenalty offer).score.isNaN = false) :
    h.add offer.1 offer.2 power = h ↔ (h.add offer.1 offer.2 power).ranked = h.ranked := by
  refine ⟨congrArg ranked, fun same => ?_⟩
  obtain ⟨many, below⟩ := (retains.ranked_add_iff clean offer number).mp same
  exact add_refused (retains.full_iff.mpr many) ((retains.le_worst clean number).mpr below)

/-- An entry keeps the best of all that it was offered, and refuses an offer exactly if it would not
be among these. -/
theorem keeps_best (power : Float32 → Float32 → Float32) (beams : Nat) (lengthPenalty : Float32)
    (earlyStopping : Bool) (offers : List (List Token × Float32))
    (clean : Numbers (offers.map (gradedBy power lengthPenalty))) :
    let h := offerAllBy power offers (.empty beams lengthPenalty earlyStopping)
    h.ranked = ((ranking (offers.map (gradedBy power lengthPenalty))).take beams).map Prod.fst ∧
      h.kept.length = min beams offers.length ∧
      ∀ offer, (gradedBy power lengthPenalty offer).score.isNaN = false →
        (h.add offer.1 offer.2 power = h ↔
          ∀ place ∈ (ranking ((offers ++ [offer]).map (gradedBy power lengthPenalty))).take beams,
            place.2 ≠ offers.length) := by
  intro h
  have same : h.lengthPenalty = lengthPenalty := lengthPenalty_offerAllBy offers
  have retains : h.Retains beams (offers.map (gradedBy power lengthPenalty)) :=
    Retains.empty.offerAll offers clean
  have kept : Numbers h.kept := fun x member => clean x (retains.subset member)
  refine ⟨?_, ?_, fun offer number => ?_⟩
  · rw [ranked, ← bestFirst, bestFirst_eq kept, retains.best, List.map_take, map_ranking,
      bestFirst_eq clean]
  · rw [retains.length, List.length_map]
  · have numbers : Numbers ((offers ++ [offer]).map (gradedBy power lengthPenalty)) := by
      rw [List.map_append, List.map_singleton]
      exact fun x member => (List.mem_append.mp member).elim (clean x)
        fun last => List.mem_singleton.mp last ▸ number
    have counted : offers.length = (offers.map (gradedBy power lengthPenalty)).length :=
      (List.length_map _).symm
    rw [← same] at number
    rw [retains.add_eq_self_iff kept offer number, retains.ranked_add_iff kept offer number,
      ranking_eq numbers, List.map_append, List.map_singleton, counted, absent_iff,
      ← retains.best, same]
    exact and_congr_right fun _ =>
      ⟨fun below y member => below y ((descending_perm h.kept).subset member),
        fun below y member => below y ((descending_perm h.kept).symm.subset member)⟩

/-- Two hypotheses of three, with powers that are the lengths. The first one left, and an offer that
is no better than the two others is not among the best two. -/
theorem keeps_best_tied :
    let power : Float32 → Float32 → Float32 := fun length _ => length
    let offers : List (List Token × Float32) := [([1, 2], -4), ([1, 3], -2), ([1, 2, 3, 4], -4)]
    let h := offerAllBy power offers (.empty 2 1 false)
    Numbers (offers.map (gradedBy power 1)) ∧
      h.ranked = ((ranking (offers.map (gradedBy power 1))).take 2).map Prod.fst ∧
      h.kept.length = 2 ∧ h.add [1, 5] (-2) power = h ∧
      ∀ place ∈ (ranking ((offers ++ [([1, 5], -2)]).map (gradedBy power 1))).take 2,
        place.2 ≠ 3 := by
  intro power offers h
  have clean : Numbers (offers.map (gradedBy power 1)) := by decide +kernel
  obtain ⟨best, count, refusals⟩ := keeps_best power 2 1 false offers clean
  have refused : h.add [1, 5] (-2) power = h :=
    @add_refused power h ([1, 5], -2) (by decide +kernel) (by decide +kernel)
  exact ⟨clean, best, count, refused, (refusals ([1, 5], -2) (by decide +kernel)).mp refused⟩

end Hypotheses

end StagedDecoding
