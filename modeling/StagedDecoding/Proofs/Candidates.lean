import Mathlib.Data.List.Perm.Subperm
import StagedDecoding.Proofs.BeamShape
import StagedDecoding.Proofs.Ranking

/-! The expansions that a step of beam search chooses from.

Every row is expanded by every token. End tokens take at most one place for each beam and entry in
the list of end tokens, so that the ranked expansions that a step looks at leave a survivor for
every beam, and no step looks at too few.
-/

set_option autoImplicit false

namespace StagedDecoding.Beam

/-- The cumulative scores of the expansions of a row: its log probabilities on top of its own
score. -/
def cumulative (elementary : Elementary) (b : Beam) (row : Nat) : Scores :=
  let scores := (b.scores.rows.getD row []).getLastD []
  (scores.logSoftmaxBy elementary).map (· + b.beamScores.getD row 0)

def expansions (elementary : Elementary) (b : Beam) (entry beam : Nat) : List Expansion :=
  label beam (b.cumulative elementary (entry * b.settings.beams + beam))

def candidates (elementary : Elementary) (b : Beam) (entry : Nat) : List Expansion :=
  (List.range b.settings.beams).flatMap (b.expansions elementary entry)

variable {elementary : Elementary} {b : Beam} {entry beam : Nat}

theorem row_lt {settings : Settings} (inside : entry < settings.batchSize)
    (bound : beam < settings.beams) : entry * settings.beams + beam < settings.rowCount :=
  calc entry * settings.beams + beam < (entry + 1) * settings.beams := by
        rw [Nat.succ_mul]
        exact Nat.add_lt_add_left bound _
    _ ≤ settings.rowCount := Nat.mul_le_mul_right _ inside

theorem Sound.branch_eq (sound : b.Sound) (fresh : b.scores.fresh = true)
    (inside : entry < b.settings.batchSize) (bound : beam < b.settings.beams) :
    (b.cumulative elementary (entry * b.settings.beams + beam)).length = b.scores.vocabulary ∧
      b.branch elementary entry beam = .ok (b.expansions elementary entry beam) := by
  obtain ⟨vocabulary, single⟩ := sound.scores fresh
  have below := row_lt inside bound
  obtain ⟨own, found, long, last⟩ := single.last_eq below
  have graded : entry * b.settings.beams + beam < b.beamScores.length := sound.graded ▸ below
  have cumulative : b.cumulative elementary (entry * b.settings.beams + beam) =
      (own.logSoftmaxBy elementary).map
        (· + b.beamScores[entry * b.settings.beams + beam]) := by
    simp [Beam.cumulative, List.getD_eq_getElem?_getD, found, graded]
  constructor
  · rw [cumulative, single.vocabulary, ← long]
    simp [Scores.logSoftmaxBy]
  · simp only [branch, expansions, expand, Outcome.map_eq_ok, Outcome.bind_eq_ok,
      Outcome.fetch_eq_ok, Outcome.pure_eq_ok, last, cumulative]
    exact ⟨_, ⟨_, List.getElem?_eq_getElem graded, own, rfl, rfl⟩, rfl⟩

theorem tokens_of_expansions :
    (b.expansions elementary entry beam).map (·.token) =
      List.range (b.cumulative elementary (entry * b.settings.beams + beam)).length := by
  rw [expansions, label, List.map_map]
  exact (List.zipIdx_map_snd 0 _).trans List.range_eq_range'.symm

theorem beam_of_mem_expansions {x : Expansion}
    (member : x ∈ b.expansions elementary entry beam) : x.beam = beam := by
  simp only [expansions, label, List.mem_map] at member
  obtain ⟨_, -, rfl⟩ := member
  rfl

theorem Sound.candidates_listed (sound : b.Sound) (fresh : b.scores.fresh = true)
    (inside : entry < b.settings.batchSize) :
    (b.candidates elementary entry).Pairwise fun x y =>
      x.place b.scores.vocabulary < y.place b.scores.vocabulary := by
  have size : ∀ beam < b.settings.beams, ∀ x ∈ b.expansions elementary entry beam,
      x.token < b.scores.vocabulary := by
    intro beam bound x member
    have token : x.token ∈ (b.expansions elementary entry beam).map (·.token) :=
      List.mem_map_of_mem member
    rw [tokens_of_expansions, (sound.branch_eq fresh inside bound).1] at token
    exact List.mem_range.mp token
  refine List.pairwise_flatMap.mpr ⟨fun beam bound => ?_, ?_⟩
  · have ordered : ((b.expansions elementary entry beam).map (·.token)).Pairwise (· < ·) := by
      rw [tokens_of_expansions]
      exact List.pairwise_lt_range
    refine (List.pairwise_map.mp ordered).imp_of_mem fun {x y} first second earlier => ?_
    unfold Expansion.place
    rw [beam_of_mem_expansions first, beam_of_mem_expansions second]
    exact Nat.add_lt_add_left earlier _
  · -- the places of a beam start behind those of the beam before it
    refine List.pairwise_lt_range.imp_of_mem fun {i j} here _ earlier x first y second => ?_
    have token := size i (List.mem_range.mp here) x first
    unfold Expansion.place
    rw [beam_of_mem_expansions first, beam_of_mem_expansions second]
    calc i * b.scores.vocabulary + x.token < (i + 1) * b.scores.vocabulary := by
          rw [Nat.succ_mul]
          exact Nat.add_lt_add_left token _
      _ ≤ j * b.scores.vocabulary := Nat.mul_le_mul_right _ earlier
      _ ≤ j * b.scores.vocabulary + y.token := Nat.le_add_right _ _

theorem Sound.countP_candidates (sound : b.Sound) (fresh : b.scores.fresh = true)
    (inside : entry < b.settings.batchSize) (p : Token → Bool) :
    (b.candidates elementary entry).countP (fun x => p x.token) =
      b.settings.beams * (List.range b.scores.vocabulary).countP p := by
  have each : ∀ beam ∈ List.range b.settings.beams,
      (b.expansions elementary entry beam).countP (fun x => p x.token) =
        (List.range b.scores.vocabulary).countP p := by
    intro beam member
    rw [← (sound.branch_eq fresh inside (List.mem_range.mp member)).1, ← tokens_of_expansions,
      List.countP_map]
    rfl
  rw [candidates, List.countP_flatMap]
  refine (congrArg List.sum (List.map_congr_left each)).trans ?_
  rw [List.map_const', List.sum_replicate_nat, List.length_range]

theorem count_ends_le (settings : Settings) (vocabulary : Nat) :
    (List.range vocabulary).countP settings.isEnd ≤ settings.endTokens.length := by
  rw [List.countP_eq_length_filter]
  have distinct : ((List.range vocabulary).filter settings.isEnd).Nodup :=
    List.nodup_range.filter _
  refine (List.subperm_of_subset distinct fun token member => ?_).length_le
  simpa [Settings.isEnd] using (List.mem_filter.mp member).2

theorem Sound.rank_eq (sound : b.Sound) (fresh : b.scores.fresh = true)
    (inside : entry < b.settings.batchSize) :
    b.rank elementary entry = .ok (((b.candidates elementary entry).mergeSort fun x y =>
      !(x.score < y.score)).take (rankDepth b.settings)) := by
  have each : (List.range b.settings.beams).mapM (b.branch elementary entry) =
      .ok ((List.range b.settings.beams).map (b.expansions elementary entry)) := by
    rw [Outcome.mapM_eq_ok, List.forall₂_map_right_iff, List.forall₂_same]
    exact fun beam member => (sound.branch_eq fresh inside (List.mem_range.mp member)).2
  rw [rank_eq_ok, candidates, List.flatMap_def]
  exact ⟨_, each, rfl⟩

/-- However the end tokens rank, enough of the first expansions go on. -/
theorem Sound.goingOn_enough (sound : b.Sound) (fresh : b.scores.fresh = true)
    (inside : entry < b.settings.batchSize)
    (some : ∃ token < b.scores.vocabulary, b.settings.isEnd token = false)
    {ranked : List Expansion} (perm : ranked.Perm (b.candidates elementary entry)) :
    b.settings.beams ≤
      (ranked.take (rankDepth b.settings)).countP fun x => !b.settings.isEnd x.token := by
  have counts : ∀ p : Token → Bool, ranked.countP (fun x => p x.token) =
      b.settings.beams * (List.range b.scores.vocabulary).countP p := fun p =>
    (perm.countP_eq _).trans (sound.countP_candidates fresh inside p)
  have ending := counts b.settings.isEnd
  have going := counts fun token => !b.settings.isEnd token
  by_cases short : ranked.length ≤ rankDepth b.settings
  · obtain ⟨token, bound, goes⟩ := some
    have one : 0 < (List.range b.scores.vocabulary).countP fun token => !b.settings.isEnd token :=
      List.countP_pos_iff.mpr ⟨token, List.mem_range.mpr bound, by simp [goes]⟩
    rw [List.take_of_length_le short, going]
    exact Nat.le_mul_of_pos_right _ one
  · -- the end tokens among the first are at most all there are
    have few : (ranked.take (rankDepth b.settings)).countP (fun x => b.settings.isEnd x.token) ≤
        b.settings.beams * b.settings.endTokens.length :=
      calc _ ≤ ranked.countP fun x => b.settings.isEnd x.token :=
            (List.take_sublist _ _).countP_le
        _ ≤ b.settings.beams * b.settings.endTokens.length := by
            rw [ending]
            exact Nat.mul_le_mul_left _ (count_ends_le _ _)
    have split := List.length_eq_countP_add_countP (fun x => b.settings.isEnd x.token)
      (l := ranked.take (rankDepth b.settings))
    have depth : b.settings.beams + b.settings.beams * b.settings.endTokens.length ≤
        rankDepth b.settings := by
      rw [rankDepth, Nat.mul_add, Nat.mul_one]
      exact Nat.add_le_add_left (Nat.mul_le_mul_left _ (Nat.le_max_left _ _)) _
    rw [List.length_take, Nat.min_eq_left (Nat.le_of_not_le short)] at split
    simp only [Bool.not_eq_true, Bool.decide_eq_false] at split
    omega

/-- What a step looks at holds the best expansions, and the best of those that go on. -/
theorem Sound.rank_best (sound : b.Sound) (fresh : b.scores.fresh = true)
    (inside : entry < b.settings.batchSize)
    (some : ∃ token < b.scores.vocabulary, b.settings.isEnd token = false)
    (clean : ∀ x ∈ b.candidates elementary entry, x.score.isNaN = false) :
    ∃ ranked, b.rank elementary entry = .ok ranked ∧
      Expansion.Best b.scores.vocabulary b.settings.beams
        ((b.candidates elementary entry).filter fun x => !b.settings.isEnd x.token)
        ((ranked.filter fun x => !b.settings.isEnd x.token).take b.settings.beams) ∧
      Expansion.Best b.scores.vocabulary b.settings.beams (b.candidates elementary entry)
        (ranked.take b.settings.beams) := by
  let goes : Expansion → Bool := fun x => !b.settings.isEnd x.token
  let ranked := (b.candidates elementary entry).mergeSort fun x y => !(x.score < y.score)
  have perm : ranked.Perm (b.candidates elementary entry) := List.mergeSort_perm _ _
  have sorted : ranked.Pairwise (Expansion.Before b.scores.vocabulary) :=
    Expansion.ranked_before clean (sound.candidates_listed fresh inside)
  have enough := sound.goingOn_enough fresh inside some perm
  have total : b.settings.beams ≤ ((b.candidates elementary entry).filter goes).length := by
    rw [← (perm.filter goes).length_eq, ← List.countP_eq_length_filter]
    exact enough.trans (List.take_sublist _ _).countP_le
  refine ⟨_, sound.rank_eq fresh inside, ?_, ?_⟩
  · -- the ranked part is deep enough to hold as many that go on as there are beams
    have first : ((ranked.take (rankDepth b.settings)).filter goes).take b.settings.beams =
        (ranked.filter goes).take b.settings.beams := by
      rw [List.countP_eq_length_filter] at enough
      conv_rhs => rw [← List.take_append_drop (rankDepth b.settings) ranked, List.filter_append,
        List.take_append_of_le_length enough]
    rw [first]
    exact Expansion.best_take (sorted.filter goes) (perm.filter goes) total
  · have deep : b.settings.beams ≤ rankDepth b.settings := by
      rw [rankDepth, Nat.mul_add, Nat.mul_one]
      exact Nat.le_add_right _ _
    rw [List.take_take, Nat.min_eq_left deep]
    exact Expansion.best_take sorted perm (total.trans (List.length_filter_le _ _))

end StagedDecoding.Beam
