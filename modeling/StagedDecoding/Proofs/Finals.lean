import StagedDecoding.Proofs.BeamTurns

/-! The results of a beam search.

Closing an entry that is not over offers its rows, in their order, to its finished hypotheses. The
results are the best hypotheses of every entry, one entry after the other. A search that holds a
history and a score for every row never fails to give them.
-/

set_option autoImplicit false

namespace StagedDecoding.Beam

structure Counted (b : Beam) : Prop where
  some : 0 < b.settings.beams
  rows : b.histories.rows.length = b.settings.rowCount
  graded : b.beamScores.length = b.settings.rowCount
  entries : b.entries.length = b.settings.batchSize

theorem Sound.counted {b : Beam} (sound : b.Sound) : b.Counted :=
  ⟨sound.some, sound.rows, sound.graded, sound.entries⟩

def rowsOf (histories : Histories) (beamScores : List Float32) (rows : List Nat) :
    List (List Token × Float32) :=
  rows.map fun row => (histories.rows.getD row [], beamScores.getD row 0)

def offerAll (offers : List (List Token × Float32)) (finished : Hypotheses) : Hypotheses :=
  offers.foldl (fun finished offer => finished.add offer.1 offer.2) finished

def closed (settings : Settings) (histories : Histories) (beamScores : List Float32) (entry : Nat)
    (state : BeamEntry) : BeamEntry :=
  if state.done then state
  else { state with
    finished := offerAll (rowsOf histories beamScores
      ((List.range settings.beams).map (entry * settings.beams + ·))) state.finished }

def closing (b : Beam) : List BeamEntry :=
  b.entries.mapIdx (closed b.settings b.histories b.beamScores)

def results (b : Beam) (count : Nat) : List Scored :=
  b.closing.flatMap (·.finished.ranked.take count)

theorem offerRows_eq {histories : Histories} {beamScores : List Float32} {rows : List Nat}
    (inside : ∀ row ∈ rows, row < histories.rows.length ∧ row < beamScores.length)
    (finished : Hypotheses) :
    offerRows histories beamScores rows finished =
      .ok (offerAll (rowsOf histories beamScores rows) finished) := by
  induction rows generalizing finished with
  | nil => rfl
  | cons row rest ih =>
    obtain ⟨here, graded⟩ := inside row (by simp)
    have score : fetch beamScores row = .ok (beamScores.getD row 0) := by
      rw [Outcome.fetch_eq_ok, List.getD_eq_getElem _ _ graded, List.getElem?_eq_getElem graded]
    rw [offerRows, row_eq here, score]
    exact ih (fun other member => inside other (by simp [member])) _

theorem Counted.closeEntries_eq {b : Beam} (counted : b.Counted) :
    closeEntries b.settings b.histories b.beamScores b.entries = .ok b.closing := by
  have each : ∀ entry closing, (do
      closeEntry b.settings b.histories b.beamScores entry (← fetch b.entries entry) :
        Except Failure BeamEntry) = .ok closing ↔ b.closing[entry]? = Option.some closing := by
    intro entry closing
    rw [Beam.closing, List.getElem?_mapIdx]
    cases found : b.entries[entry]? with
    | none =>
      rw [fetch, found]
      simp [bind, Except.bind]
    | some state =>
      have below := (List.getElem?_eq_some_iff.mp found).1
      rw [counted.entries] at below
      have bound : ∀ row ∈ (List.range b.settings.beams).map (entry * b.settings.beams + ·),
          row < b.histories.rows.length ∧ row < b.beamScores.length := by
        rw [List.forall_mem_map, counted.rows, counted.graded]
        intro beam member
        have inside := row_lt below (List.mem_range.mp member)
        exact ⟨inside, inside⟩
      have closes : closeEntry b.settings b.histories b.beamScores entry state =
          .ok (closed b.settings b.histories b.beamScores entry state) := by
        unfold closeEntry closed
        split
        · rfl
        · dsimp only
          rw [offerRows_eq bound]
          rfl
      rw [Outcome.fetch_eq_ok.mpr found]
      exact (congrArg (· = _) closes).to_iff.trans (by simp)
  have all : b.closing.length = b.settings.batchSize :=
    List.length_mapIdx.trans counted.entries
  rw [closeEntries, Outcome.mapM_range_eq_ok each]
  exact ⟨Nat.le_of_eq all.symm, List.take_of_length_le (Nat.le_of_eq all)⟩

theorem Counted.finalize_returns {b : Beam} (counted : b.Counted) (going : b.finals = none)
    {count : Nat} (asked : 0 < count) (fits : count ≤ b.settings.beams) :
    Step.Returns (finalize count) b (b.results count) { b with
      entries := b.closing
      finals := Option.some (b.results count)
      done := true } := by
  have accepted : ¬ (count = 0 || decide (b.settings.beams < count)) = true := by
    simp only [Bool.or_eq_true, decide_eq_true_eq]
    omega
  simp only [finalize, Step.returns_bind, Step.returns_get]
  refine ⟨_, _, ⟨rfl, rfl⟩, ?_⟩
  rw [going]
  simp only [Step.throw_bind, Step.returns_guard, Step.returns_bind, Step.returns_lift,
    Step.returns_set, Step.returns_pure]
  exact ⟨accepted, _, _, ⟨counted.closeEntries_eq, rfl⟩, (), _, rfl, rfl, rfl⟩

theorem finalize_refused {b : Beam} (going : b.finals = none) {count : Nat}
    (refused : count = 0 ∨ b.settings.beams < count) :
    Step.Fails (finalize count) b (.config (.resultCount b.settings.beams)) b := by
  have failing : (count = 0 || decide (b.settings.beams < count)) = true := by
    simpa using refused
  simp only [finalize, Step.fails_bind, Step.returns_get]
  refine .inr ⟨_, _, ⟨rfl, rfl⟩, ?_⟩
  rw [going]
  simp only [Step.throw_bind]
  rw [if_pos failing, Step.fails_throw]
  exact ⟨rfl, rfl⟩

end StagedDecoding.Beam
