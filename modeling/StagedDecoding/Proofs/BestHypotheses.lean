import StagedDecoding.Proofs.Offers
import StagedDecoding.Proofs.StableSort

/-! The best of all hypotheses that were ever offered.

Once an entry keeps as many hypotheses as there are beams, every offer costs the lowest one, and
among the lowest the latest. So what is kept, sorted, is always the front of a stable sort of all
offers. Scores have to be numbers only where something has to leave.
-/

set_option autoImplicit false

namespace StagedDecoding

namespace Scores

theorem key_le_infinity (score : Float32) : key score ≤ key infinity := by
  have top : key infinity = toLex (2, toLex (0, 0)) := rfl
  rw [top]
  unfold key
  rcases score.toModel.unpack with (_ | _) | _ | _ | ⟨_ | _, _, _, _⟩ <;>
    dsimp only [numberKey] <;> simp [Prod.Lex.toLex_le_toLex]

theorem key_smaller {a b : Float32} (left : a.isNaN = false) (right : b.isNaN = false) :
    (smaller a b).isNaN = false ∧ key (smaller a b) = min (key a) (key b) := by
  unfold smaller
  rw [left, right, if_neg Bool.false_ne_true, if_neg Bool.false_ne_true]
  split
  case isTrue below =>
    rw [lt_iff_key right left] at below
    exact ⟨right, (min_eq_right below.le).symm⟩
  case isFalse above =>
    rw [lt_iff_key right left, not_lt] at above
    exact ⟨left, (min_eq_left above).symm⟩

theorem le_foldl_smaller {scores : List Float32} {start : Float32} (proper : start.isNaN = false)
    (clean : ∀ score ∈ scores, score.isNaN = false) :
    (scores.foldl smaller start).isNaN = false ∧ ∀ bound,
      bound ≤ key (scores.foldl smaller start) ↔
        bound ≤ key start ∧ ∀ score ∈ scores, bound ≤ key score := by
  induction scores generalizing start with
  | nil => exact ⟨proper, fun bound => by simp⟩
  | cons score rest ih =>
    obtain ⟨number, lower⟩ := key_smaller proper (clean score (by simp))
    obtain ⟨lowest, below⟩ := ih number fun other member => clean other (by simp [member])
    refine ⟨lowest, fun bound => ?_⟩
    rw [List.foldl_cons, below, lower, le_inf_iff, and_assoc, List.forall_mem_cons]

end Scores

def Scored.key (x : Scored) : Int ×ₗ Int ×ₗ Int := Scores.key x.score

def Numbers (values : List Scored) : Prop := ∀ x ∈ values, x.score.isNaN = false

instance (values : List Scored) : Decidable (Numbers values) :=
  inferInstanceAs (Decidable (∀ x ∈ values, x.score.isNaN = false))

def bestFirst (values : List Scored) : List Scored :=
  values.mergeSort fun a b => !(a.score < b.score)

theorem bestFirst_eq {values : List Scored} (clean : Numbers values) :
    bestFirst values = descending Scored.key values := by
  simpa [bestFirst, descending] using List.map_mergeSort (f := id) (l := values)
    (s := fun a b => decide (Scored.key b ≤ Scored.key a)) fun x first y second => by
      rw [id, id, Bool.eq_iff_iff, Bool.not_eq_true', decide_eq_false_iff_not, decide_eq_true_iff,
        Scores.lt_iff_key (clean x first) (clean y second), not_lt]
      rfl

namespace Hypotheses

variable {power : Float32 → Float32 → Float32} {h : Hypotheses} {beams : Nat}
  {offered : List Scored}

/-- The incumbent is the latest of the lowest that were gone through. -/
theorem worstIndex_go_split {rest earlier later : List Scored} {lowest : Scored}
    (clean : Numbers (earlier ++ lowest :: later ++ rest))
    (before : ∀ x ∈ earlier, lowest.key ≤ x.key) (behind : ∀ x ∈ later, lowest.key < x.key) :
    ∃ earlier' lowest' later', earlier ++ lowest :: later ++ rest = earlier' ++ lowest' :: later' ∧
      worstIndex.go earlier.length lowest.score (earlier ++ lowest :: later).length rest =
        earlier'.length ∧
      (∀ x ∈ earlier', lowest'.key ≤ x.key) ∧ ∀ x ∈ later', lowest'.key < x.key := by
  induction rest generalizing earlier lowest later with
  | nil => exact ⟨earlier, lowest, later, List.append_nil _, rfl, before, behind⟩
  | cons next rest ih =>
    have low : next.score ≤ lowest.score ↔ next.key ≤ lowest.key :=
      Scores.le_iff_key (clean next (by simp)) (clean lowest (by simp))
    unfold worstIndex.go
    split
    case isTrue below =>
      -- the next one takes over, and everything up to it is behind it
      rw [low] at below
      have passed := @ih (earlier ++ lowest :: later) [] next (by simpa using clean)
        (fun x member => ?_) (by simp)
      · simpa [Nat.add_assoc] using passed
      · rcases List.mem_append.mp member with member | member
        · exact below.trans (before x member)
        · rcases List.mem_cons.mp member with rfl | member
          · exact below
          · exact below.trans (behind x member).le
    case isFalse above =>
      rw [low, not_le] at above
      have passed := @ih earlier (later ++ [next]) lowest (by simpa using clean) before
        (fun x member => ?_)
      · simpa [Nat.add_assoc] using passed
      · rcases List.mem_append.mp member with member | member
        · exact behind x member
        · exact List.mem_singleton.mp member ▸ above

/-- What leaves is the lowest score, the last among its equals. -/
theorem worstIndex_split {kept : List Scored} (some : kept ≠ []) (clean : Numbers kept) :
    ∃ earlier lowest later, kept = earlier ++ lowest :: later ∧
      kept.eraseIdx (worstIndex kept) = earlier ++ later ∧
      (∀ x ∈ earlier, lowest.key ≤ x.key) ∧ ∀ x ∈ later, lowest.key < x.key := by
  cases kept with
  | nil => exact absurd rfl some
  | cons first rest =>
    obtain ⟨earlier, lowest, later, whole, index, before, behind⟩ :=
      @worstIndex_go_split rest [] [] first clean (by simp) (by simp)
    refine ⟨earlier, lowest, later, whole, ?_, before, behind⟩
    have there : worstIndex (first :: rest) = earlier.length := index
    rw [there, show first :: rest = earlier ++ lowest :: later from whole,
      List.eraseIdx_append_of_length_le (Nat.le_refl _), Nat.sub_self, List.eraseIdx_cons_zero]

theorem descending_eraseIdx_worst {kept : List Scored} (clean : Numbers kept)
    (crowded : kept.length = beams + 1) :
    descending Scored.key (kept.eraseIdx (worstIndex kept)) =
      (descending Scored.key kept).take beams := by
  have some : kept ≠ [] := by
    rintro rfl
    cases crowded
  obtain ⟨earlier, lowest, later, same, erased, before, behind⟩ := worstIndex_split some clean
  have long : (descending Scored.key (earlier ++ later)).length = beams := by
    have total := congrArg List.length same
    rw [List.length_append, List.length_cons] at total
    rw [length_descending, List.length_append]
    omega
  rw [erased, same, descending_lowest before behind, List.take_left' long]

def graded (lengthPenalty : Float32) (offer : List Token × Float32) : Scored :=
  ⟨offer.1, normalized lengthPenalty offer.2 offer.1.length⟩

/-- A sequence as it is offered, graded when the powers of lengths are those of some function. -/
def gradedBy (power : Float32 → Float32 → Float32) (lengthPenalty : Float32)
    (offer : List Token × Float32) : Scored :=
  ⟨offer.1, normalized lengthPenalty offer.2 offer.1.length power⟩

def offerAllBy (power : Float32 → Float32 → Float32) (offers : List (List Token × Float32))
    (h : Hypotheses) : Hypotheses :=
  offers.foldl (fun h offer => h.add offer.1 offer.2 power) h

theorem add_refused {offer : List Token × Float32} (full : h.beams ≤ h.kept.length)
    (low : (gradedBy power h.lengthPenalty offer).score ≤ h.worst) :
    h.add offer.1 offer.2 power = h := by
  have refused : (decide (h.beams ≤ h.kept.length) &&
      decide ((gradedBy power h.lengthPenalty offer).score ≤ h.worst)) = true := by
    rw [decide_eq_true full, decide_eq_true low, Bool.and_true]
  exact if_pos refused

theorem add_taken {offer : List Token × Float32}
    (taken : h.beams ≤ h.kept.length →
      ¬ (gradedBy power h.lengthPenalty offer).score ≤ h.worst) :
    ∃ kept, kept = (if h.beams < (h.kept ++ [gradedBy power h.lengthPenalty offer]).length then
        (h.kept ++ [gradedBy power h.lengthPenalty offer]).eraseIdx
          (worstIndex (h.kept ++ [gradedBy power h.lengthPenalty offer]))
        else h.kept ++ [gradedBy power h.lengthPenalty offer]) ∧
      h.add offer.1 offer.2 power = { h with
        kept := kept
        worst := (kept.map (·.score)).foldl Scores.smaller Scores.infinity } := by
  have goes : ¬ (decide (h.beams ≤ h.kept.length) &&
      decide ((gradedBy power h.lengthPenalty offer).score ≤ h.worst)) = true := by
    rw [Bool.and_eq_true, decide_eq_true_iff, decide_eq_true_iff]
    exact fun both => taken both.1 both.2
  exact ⟨_, rfl, if_neg goes⟩

/-- What is kept is the best of what was offered. -/
structure Retains (beams : Nat) (offered : List Scored) (h : Hypotheses) : Prop where
  sized : h.beams = beams
  best : descending Scored.key h.kept = (descending Scored.key offered).take beams
  worst : h.worst = (h.kept.map (·.score)).foldl Scores.smaller Scores.infinity

theorem Retains.subset (retains : h.Retains beams offered) {x : Scored} (member : x ∈ h.kept) :
    x ∈ offered := by
  have inside := (@descending_perm _ _ _ Scored.key h.kept).symm.subset member
  rw [retains.best] at inside
  exact (descending_perm offered).subset (List.mem_of_mem_take inside)

theorem Retains.length (retains : h.Retains beams offered) :
    h.kept.length = min beams offered.length := by
  have counted := congrArg List.length retains.best
  rwa [length_descending, List.length_take, length_descending] at counted

theorem Retains.le_worst (retains : h.Retains beams offered) (clean : Numbers h.kept) {x : Scored}
    (number : x.score.isNaN = false) : x.score ≤ h.worst ↔ ∀ y ∈ h.kept, x.key ≤ y.key := by
  have top : Scores.infinity.isNaN = false := by decide +kernel
  have scores : ∀ score ∈ h.kept.map (·.score), score.isNaN = false := by
    rw [List.forall_mem_map]
    exact clean
  obtain ⟨proper, lowest⟩ := Scores.le_foldl_smaller top scores
  rw [retains.worst, Scores.le_iff_key number proper, lowest, List.forall_mem_map]
  exact ⟨And.right, fun below => ⟨Scores.key_le_infinity _, below⟩⟩

theorem Retains.add (retains : h.Retains beams offered) (offer : List Token × Float32)
    (clean : Numbers (offered ++ [gradedBy power h.lengthPenalty offer])) :
    (h.add offer.1 offer.2 power).Retains beams
      (offered ++ [gradedBy power h.lengthPenalty offer]) := by
  let next := gradedBy power h.lengthPenalty offer
  have number : next.score.isNaN = false := clean next (by simp [next])
  have kept : Numbers (h.kept ++ [next]) := by
    intro x member
    rcases List.mem_append.mp member with member | member
    · exact clean x (List.mem_append_left _ (retains.subset member))
    · exact List.mem_singleton.mp member ▸ number
  have count := retains.length
  -- everything comes down to where the offer settles among what was kept
  have front : (descending Scored.key (offered ++ [next])).take beams =
      (settle Scored.key next (descending Scored.key h.kept)).take beams := by
    rw [descending_concat, ← take_settle, ← retains.best]
  have refused : next.score ≤ h.worst ↔ ∀ x ∈ h.kept, next.key ≤ x.key :=
    retains.le_worst (fun x member => kept x (List.mem_append_left _ member)) number
  by_cases full : h.beams ≤ h.kept.length ∧ next.score ≤ h.worst
  · obtain ⟨full, low⟩ := full
    rw [add_refused full low]
    refine ⟨retains.sized, ?_, retains.worst⟩
    rw [front, settle_low fun x member => refused.mp low x ((descending_perm h.kept).subset member),
      List.take_append_of_le_length (by rw [length_descending, ← retains.sized]; exact full),
      List.take_of_length_le]
    rw [length_descending]
    omega
  · obtain ⟨own, trimmed, added⟩ := add_taken (not_and.mp full)
    rw [added]
    refine ⟨retains.sized, ?_, rfl⟩
    dsimp only
    rw [trimmed]
    split
    case isTrue crowded =>
      rw [retains.sized, List.length_append, List.length_singleton] at crowded
      have one : (h.kept ++ [next]).length = beams + 1 := by
        rw [List.length_append, List.length_singleton]
        omega
      rw [front, ← descending_concat]
      exact descending_eraseIdx_worst kept one
    case isFalse room =>
      rw [retains.sized, List.length_append, List.length_singleton] at room
      rw [front, descending_concat, List.take_of_length_le]
      rw [(settle_perm _).length_eq, List.length_cons, length_descending]
      omega

theorem Retains.empty {lengthPenalty : Float32} {earlyStopping : Bool} :
    (Hypotheses.empty beams lengthPenalty earlyStopping).Retains beams [] :=
  ⟨rfl, by simp [Hypotheses.empty, descending], rfl⟩

theorem Retains.offerAll (retains : h.Retains beams offered)
    (offers : List (List Token × Float32))
    (clean : Numbers (offered ++ offers.map (gradedBy power h.lengthPenalty))) :
    (offerAllBy power offers h).Retains beams
      (offered ++ offers.map (gradedBy power h.lengthPenalty)) := by
  induction offers generalizing h offered with
  | nil =>
    rw [List.map_nil, List.append_nil]
    exact retains
  | cons offer rest ih =>
    have whole : offered ++ (offer :: rest).map (gradedBy power h.lengthPenalty) =
        (offered ++ [gradedBy power h.lengthPenalty offer]) ++
          rest.map (gradedBy power h.lengthPenalty) := by
      rw [List.map_cons, List.append_cons]
    rw [whole] at clean ⊢
    have next := retains.add offer fun x member => clean x (List.mem_append_left _ member)
    have same : (h.add offer.1 offer.2 power).lengthPenalty = h.lengthPenalty := add_lengthPenalty
    rw [← same] at clean next ⊢
    exact ih next clean

theorem offerAllBy_unchanged {α : Type} {field : Hypotheses → α}
    (unchanged : ∀ (h : Hypotheses) tokens logProbability,
      field (h.add tokens logProbability power) = field h)
    (offers : List (List Token × Float32)) : field (offerAllBy power offers h) = field h := by
  induction offers generalizing h with
  | nil => rfl
  | cons offer rest ih => exact ih.trans (unchanged h offer.1 offer.2)

theorem lengthPenalty_offerAllBy (offers : List (List Token × Float32)) :
    (offerAllBy power offers h).lengthPenalty = h.lengthPenalty :=
  offerAllBy_unchanged (fun _ _ _ => add_lengthPenalty) offers

theorem earlyStopping_offerAllBy (offers : List (List Token × Float32)) :
    (offerAllBy power offers h).earlyStopping = h.earlyStopping :=
  offerAllBy_unchanged (fun _ _ _ => add_earlyStopping) offers

theorem earlyStopping_offerAll (h : Hypotheses) (offers : List (List Token × Float32)) :
    (Beam.offerAll offers h).earlyStopping = h.earlyStopping :=
  earlyStopping_offerAllBy offers

theorem kept_offerAllBy (offers : List (List Token × Float32))
    (room : h.kept.length + offers.length ≤ h.beams) :
    (offerAllBy power offers h).kept = h.kept ++ offers.map (gradedBy power h.lengthPenalty) := by
  induction offers generalizing h with
  | nil => exact (List.append_nil _).symm
  | cons offer rest ih =>
    rw [List.length_cons] at room
    obtain ⟨kept, trimmed, added⟩ := @add_taken power h offer fun full => by omega
    have small : (h.kept ++ [gradedBy power h.lengthPenalty offer]).length ≤ h.beams := by
      rw [List.length_append, List.length_singleton]
      omega
    rw [if_neg (Nat.not_lt.mpr small)] at trimmed
    rw [offerAllBy, List.foldl_cons, ← offerAllBy, added, ih, trimmed, List.map_cons,
      List.append_assoc, List.singleton_append]
    rw [trimmed]
    dsimp only
    rw [List.length_append, List.length_singleton]
    omega

/-- The best of what was offered from the start: the front of a stable sort of all offers. -/
theorem ranked_offerAllBy {lengthPenalty : Float32} {earlyStopping : Bool} {count : Nat}
    (offers : List (List Token × Float32)) (fits : count ≤ beams)
    (clean : beams < offers.length → Numbers (offers.map (gradedBy power lengthPenalty))) :
    (offerAllBy power offers (.empty beams lengthPenalty earlyStopping)).ranked.take count =
      (bestFirst (offers.map (gradedBy power lengthPenalty))).take count := by
  by_cases many : beams < offers.length
  · have numbers := clean many
    have retains := (@Retains.empty beams lengthPenalty earlyStopping).offerAll offers numbers
    have kept : Numbers (offerAllBy power offers (.empty beams lengthPenalty earlyStopping)).kept :=
      fun x member => numbers x (retains.subset member)
    rw [ranked, ← bestFirst, bestFirst_eq kept, bestFirst_eq numbers, retains.best, List.take_take,
      Nat.min_eq_left fits]
    rfl
  · have room : ([] : List Scored).length + offers.length ≤ beams := by
      rw [List.length_nil]
      omega
    have kept := @kept_offerAllBy power (.empty beams lengthPenalty earlyStopping) offers room
    rw [ranked, kept, bestFirst]
    rfl

theorem ranked_offerAll {lengthPenalty : Float32} {earlyStopping : Bool} {count : Nat}
    (offers : List (List Token × Float32)) (fits : count ≤ beams)
    (clean : beams < offers.length → Numbers (offers.map (graded lengthPenalty))) :
    (Beam.offerAll offers (.empty beams lengthPenalty earlyStopping)).ranked.take count =
      (bestFirst (offers.map (graded lengthPenalty))).take count :=
  ranked_offerAllBy offers fits clean

end Hypotheses

end StagedDecoding
