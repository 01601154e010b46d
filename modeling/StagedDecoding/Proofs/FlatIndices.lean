import Mathlib.Data.List.Induction
import StagedDecoding.Proofs.Ledger
import StagedDecoding.Proofs.Loading
import StagedDecoding.Strategy.Beam

/-! Expansions by their indices.

The expansions of an entry lie one beam behind the other, each beam as long as the vocabulary. A
stable sort of the scores with their indices is one of the expansions themselves, for quotient and
remainder of an index by the vocabulary tell the beam and the token.
-/

set_option autoImplicit false

namespace StagedDecoding.Beam

variable {elementary : Elementary} {b : Beam} {entry beam vocabulary : Nat}

def label (beam : Nat) (totals : List Float32) : List Expansion :=
  totals.zipIdx.map fun (score, token) => ⟨score, token, beam⟩

def branch (elementary : Elementary) (b : Beam) (entry beam : Nat) :
    Except Failure (List Expansion) :=
  label beam <$> b.expand elementary entry beam

def indexed (vocabulary : Nat) (x : Expansion) : Float32 × Nat :=
  (x.score, x.beam * vocabulary + x.token)

theorem length_expand {totals : List Float32}
    (ran : b.expand elementary entry beam = .ok totals) : totals.length = b.scores.vocabulary := by
  simp only [expand, Outcome.bind_eq_ok, Outcome.pure_eq_ok] at ran
  obtain ⟨base, -, scores, last, rfl⟩ := ran
  obtain ⟨-, -, -, wide⟩ := LoadedScores.scoresAt_eq_ok.mp last
  simpa [Scores.logSoftmaxBy] using wide

theorem indexed_label (totals : List Float32) :
    (label beam totals).map (indexed vocabulary) = totals.zipIdx (beam * vocabulary) := by
  rw [label, List.map_map, @List.zipIdx_eq_map_add _ totals (beam * vocabulary)]
  rfl

theorem indexed_labels {totals : List (List Float32)}
    (sized : ∀ own ∈ totals, own.length = vocabulary) :
    ((totals.mapIdx label).flatten).map (indexed vocabulary) = totals.flatten.zipIdx := by
  induction totals using List.reverseRecOn with
  | nil => rfl
  | append_singleton earlier own ih =>
    have before : ∀ own ∈ earlier, own.length = vocabulary :=
      fun own member => sized own (by simp [member])
    have long : earlier.flatten.length = earlier.length * vocabulary := by
      rw [List.length_flatten, List.map_congr_left before, List.map_const', List.sum_replicate_nat]
    rw [List.mapIdx_concat, List.flatten_concat, List.map_append, ih before, indexed_label,
      List.flatten_concat, List.zipIdx_append, long, Nat.zero_add]

theorem expansionAt_indexed {x : Expansion} (small : x.token < vocabulary) :
    expansionAt vocabulary (indexed vocabulary x) = .ok x := by
  have some : 0 < vocabulary := Nat.zero_lt_of_lt small
  have quotient : (x.beam * vocabulary + x.token) / vocabulary = x.beam := by
    rw [Nat.mul_comm, Nat.mul_add_div some, Nat.div_eq_of_lt small, Nat.add_zero]
  have remainder : (x.beam * vocabulary + x.token) % vocabulary = x.token := by
    rw [Nat.mul_add_mod_self_right, Nat.mod_eq_of_lt small]
  have parts : divide (x.beam * vocabulary + x.token) vocabulary = .ok (x.beam, x.token) :=
    Outcome.divide_eq_ok.mpr ⟨Nat.ne_of_gt some, by rw [quotient, remainder]⟩
  rw [expansionAt, indexed, parts]
  rfl

theorem token_of_mem_label {totals : List Float32} {x : Expansion}
    (member : x ∈ label beam totals) : x.token < totals.length := by
  obtain ⟨⟨score, token⟩, listed, rfl⟩ := List.mem_map.mp member
  exact (List.getElem?_eq_some_iff.mp (List.mem_zipIdx_iff_getElem?.mp listed)).1

/-- Ranking sorts the expansions of the beams. No index is taken apart without a vocabulary, for
without one there are none. -/
theorem rank_eq_ok {ranked : List Expansion} :
    b.rank elementary entry = .ok ranked ↔
      ∃ expansions, (List.range b.settings.beams).mapM (b.branch elementary entry) =
          .ok expansions ∧
        (expansions.flatten.mergeSort fun x y => !(x.score < y.score)).take
          (rankDepth b.settings) = ranked := by
  have spread : ∀ totals,
      (List.range b.settings.beams).mapM (b.expand elementary entry) = .ok totals →
        ((totals.flatten.zipIdx.mergeSort fun x y => !(x.1 < y.1)).take
          (rankDepth b.settings)).mapM (expansionAt b.scores.vocabulary) =
        .ok (((totals.mapIdx label).flatten.mergeSort fun x y => !(x.score < y.score)).take
          (rankDepth b.settings)) := by
    intro totals found
    have sized : ∀ own ∈ totals, own.length = b.scores.vocabulary :=
      forall_of_forall₂ (Outcome.mapM_eq_ok.mp found) fun _ _ _ ran => length_expand ran
    have sorted := List.map_mergeSort (f := indexed b.scores.vocabulary)
      (l := (totals.mapIdx label).flatten) (r := fun x y => !(x.score < y.score))
      (s := fun x y => !(x.1 < y.1)) fun _ _ _ _ => rfl
    rw [← indexed_labels sized, ← sorted, ← List.map_take, Outcome.mapM_eq_ok,
      List.forall₂_map_left_iff, List.forall₂_same]
    intro x member
    have listed := (List.mergeSort_perm _ _).subset (List.mem_of_mem_take member)
    obtain ⟨own, inside, member⟩ := List.mem_flatten.mp listed
    obtain ⟨beam, below, rfl⟩ := List.exists_of_mem_mapIdx inside
    have small := token_of_mem_label member
    rw [sized _ (List.getElem_mem below)] at small
    exact expansionAt_indexed small
  have labelled : ∀ expansions, (List.range b.settings.beams).mapM (b.branch elementary entry) =
      .ok expansions ↔ ∃ totals, (List.range b.settings.beams).mapM (b.expand elementary entry) =
        .ok totals ∧ totals.mapIdx label = expansions :=
    fun _ => Outcome.mapM_range_map_eq_ok
  simp only [rank, Outcome.bind_eq_ok, labelled]
  constructor
  · rintro ⟨totals, found, ranks⟩
    rw [spread totals found] at ranks
    exact ⟨_, ⟨totals, found, rfl⟩, Except.ok.inj ranks⟩
  · rintro ⟨_, ⟨totals, found, rfl⟩, rfl⟩
    exact ⟨totals, found, spread totals found⟩

end StagedDecoding.Beam
