import StagedDecoding.Proofs.Bounds
import StagedDecoding.Proofs.Finals

/-! The sizes that beam search relies on.

A beam search has a history and a score for every row and an entry for every prompt, and while its
scores are fresh it has some for every row. So whatever is ranked names a row and a token that are
there, and survivors descend from rows that are there. A selection that runs out of survivors is
refused after some of the entries took their step, and leaves the sizes as they were.
-/

set_option autoImplicit false

namespace StagedDecoding

theorem Histories.Level.descend {h : Histories} {rows : Nat} (level : h.Level rows)
    {parents : List Nat} {tokens : List Token} :
    Outcome.Ends (h.descend parents tokens)
      (fun next => tokens.length = rows ∧ next.Level rows) Failure.Proper := by
  have parented : ∀ parent, Outcome.Ends (h.parent parent) (fun _ => True) Failure.Proper := by
    intro parent
    unfold Histories.parent
    split <;> trivial
  rw [Outcome.ends_iff]
  refine ⟨fun next descended => ?_, fun failure refused => ?_⟩
  · have width := descend_level level.rectangular.width descended
    obtain ⟨counted, matched, room, -, rfl⟩ := descend_eq_ok.mp descended
    rw [level.rectangular.count] at counted matched
    refine ⟨matched, ⟨?_, width⟩, room⟩
    rw [List.length_zipWith, List.length_map, counted, matched, Nat.min_self]
  · -- every check that comes before the copies can refuse them
    have proper : Outcome.Ends (h.descend parents tokens) (fun _ => True) Failure.Proper := by
      simp only [Histories.descend, Outcome.ends_bind, Outcome.ends_pure]
      refine ends_checkRowCount.imp (fun _ _ => ?_) fun _ proper => proper
      refine ends_checkRowCount.imp (fun _ _ => ?_) fun _ proper => proper
      refine ends_checkCapacity.imp (fun _ _ => ?_) fun _ proper => proper
      exact Outcome.ends_mapM fun parent _ => parented parent
    rw [refused] at proper
    exact proper

theorem LoadedScores.Single.filled {scores : LoadedScores} {rows vocab : Nat}
    (single : scores.Single rows vocab) (fresh : scores.fresh = true) :
    scores.Filled rows vocab := by
  refine ⟨fresh, single.positions.symm ▸ Nat.one_pos, single.count, single.vocabulary,
    fun row member => ?_⟩
  rw [single.wide row member, single.positions]
  rfl

namespace Beam

/-- The sizes of a beam search. What ranks among the expansions of fresh scores names a beam and a
token of the vocabulary, so that there is nothing to rank without a vocabulary. -/
structure Sized (settings : Settings) (b : Beam) : Prop where
  sound : b.Sound
  fixed : b.settings = settings
  level : b.histories.Level settings.rowCount
  places : b.scores.fresh = true →
    ∀ (elementary : Elementary) (entry : Nat) (ranked : List Expansion),
    entry < settings.batchSize → b.rank elementary entry = .ok ranked →
      ∀ x ∈ ranked, x.beam < settings.beams ∧ x.token < b.scores.vocabulary

variable {settings : Settings} {elementary : Elementary} {b : Beam}

theorem Sound.places (sound : b.Sound) (fresh : b.scores.fresh = true) {entry : Nat}
    {ranked : List Expansion} (inside : entry < b.settings.batchSize)
    (ranks : b.rank elementary entry = .ok ranked) {x : Expansion} (member : x ∈ ranked) :
    x.beam < b.settings.beams ∧ x.token < b.scores.vocabulary := by
  obtain ⟨bound, _, own, _, -, last, found, -⟩ := expanded_of_mem_rank ranks member
  obtain ⟨vocab, single⟩ := sound.scores fresh
  have row := row_lt inside bound
  obtain ⟨own', -, long, last'⟩ := single.last_eq row
  obtain rfl := Except.ok.inj (last'.symm.trans last)
  have listed := (List.getElem?_eq_some_iff.mp found).1
  rw [Scores.logSoftmaxBy, List.length_map, long] at listed
  exact ⟨bound, single.vocabulary.symm ▸ listed⟩

theorem Sound.sized (sound : b.Sound) (fixed : b.settings = settings)
    (level : b.histories.Level settings.rowCount) : b.Sized settings := by
  refine ⟨sound, fixed, level, fun fresh elementary entry ranked inside ranks x member => ?_⟩
  rw [← fixed] at inside ⊢
  exact sound.places fresh inside ranks member

theorem Sized.start {inputIds : List Token} (started : Beam.start settings inputIds = .ok b) :
    b.Sized settings := by
  refine (start_sound started).sized ?_ ?_
  · obtain ⟨-, _, -, rfl⟩ := start_eq_ok started
    rfl
  · obtain ⟨-, _, prompting, rfl⟩ := start_eq_ok started
    exact (Histories.level_of_start prompting).2

theorem Sized.rescore (sized : b.Sized settings) {scores : LoadedScores} {vocab : Nat}
    (single : scores.Single settings.rowCount vocab) : Sized settings { b with scores := scores } :=
  (sized.sound.rescore ⟨vocab, sized.fixed ▸ single⟩).sized sized.fixed sized.level

theorem Sized.setScores (sized : b.Sized settings) {tensor : Tensor} :
    Step.Safe (Sized settings) (Beam.setScores tensor) b := by
  have loads : Outcome.Ends
      (LoadedScores.load b.settings.rowCount b.settings.vocabulary false tensor)
      (fun scores => ∃ vocab, scores.Single settings.rowCount vocab) Failure.Proper := by
    rw [Outcome.ends_iff, sized.fixed]
    exact ⟨fun scores loaded => LoadedScores.load_single loaded,
      (Outcome.ends_iff.mp LoadedScores.ends_load).2⟩
  simp only [Step.Safe, Beam.setScores, Step.ends_attempt, Outcome.ends_bind, Outcome.ends_pure]
  refine loads.imp (fun scores shaped => ?_) fun _ proper => ⟨proper, sized⟩
  obtain ⟨vocab, single⟩ := shaped
  exact sized.rescore single

theorem Sized.filled (sized : b.Sized settings) (fresh : b.scores.fresh = true) :
    b.scores.positions = 1 ∧ ∃ vocab, b.scores.Filled settings.rowCount vocab := by
  obtain ⟨vocab, single⟩ := sized.sound.scores fresh
  exact ⟨single.positions, vocab, sized.fixed ▸ single.filled fresh⟩

theorem Sized.reshape (sized : b.Sized settings) {changed : LoadedScores}
    (reshaped : b.scores.Reshaped settings.rowCount changed) :
    Sized settings { b with scores := changed } := by
  obtain ⟨vocab, filled⟩ := reshaped.filled
  exact sized.rescore (filled.single (reshaped.positions.trans (sized.filled reshaped.fresh).1))

theorem Sized.constrainLength (sized : b.Sized settings) (minLength : Nat) :
    Step.Safe (Sized settings) (Beam.constrainLength minLength) b := by
  simp only [Step.Safe, Beam.constrainLength, Step.ends_attempt, Outcome.ends_bind,
    Outcome.ends_pure]
  exact (LoadedScores.ends_constrainLength (fun fresh => (sized.filled fresh).2) _ _ _).imp
    (fun _ reshaped => sized.reshape reshaped) fun _ proper => ⟨proper, sized⟩

theorem Sized.penalize (sized : b.Sized settings) (penalty : Float32) :
    Step.Safe (Sized settings) (Beam.penalize penalty) b := by
  simp only [Step.Safe, Beam.penalize, Step.ends_attempt, Outcome.ends_bind, Outcome.ends_pure]
  exact (LoadedScores.ends_penalize (fun fresh => (sized.filled fresh).2) _
    (Nat.le_of_eq sized.level.rectangular.count.symm)).imp
    (fun _ reshaped => sized.reshape reshaped) fun _ proper => ⟨proper, sized⟩

theorem choose_total {histories : Histories} {entry : Nat} {expansions : List Expansion}
    (rows : ∀ x ∈ expansions, entry * settings.beams + x.beam < histories.rows.length) (rank : Nat)
    {survivors : List Survivor} (few : survivors.length < settings.beams)
    (finished : Hypotheses) :
    ∃ result, choose settings histories entry rank expansions survivors finished = .ok result := by
  -- the walk stops at the last free place, so that the next survivor always has one
  induction expansions generalizing rank survivors finished with
  | nil => exact ⟨_, rfl⟩
  | cons x rest ih =>
    have later := fun y member => rows y (List.mem_cons_of_mem x member)
    unfold choose
    dsimp only
    split
    · split
      · exact ih later _ few _
      · rw [row_eq (rows x (by simp))]
        exact ih later _ few _
    · rw [place_eq_ok.mpr ⟨few, rfl⟩]
      dsimp only [bind, Except.bind]
      split
      · exact ⟨_, rfl⟩
      · next room =>
        refine ih later _ ?_ _
        rw [List.length_append, List.length_singleton] at room ⊢
        omega

theorem ends_stepEntry (beams : 0 < settings.beams) {histories : Histories} {entry : Nat}
    {expansions : List Expansion}
    (rows : ∀ x ∈ expansions, entry * settings.beams + x.beam < histories.rows.length)
    (state : BeamEntry) :
    Step.Ends (stepEntry settings histories entry expansions) state (fun _ _ => True)
      fun failure _ => failure.Proper := by
  simp only [stepEntry, Step.throw_bind, Step.ends_bind, Step.ends_get]
  split
  · trivial
  · obtain ⟨result, chosen⟩ := @choose_total settings histories entry expansions rows 0 [] beams
      state.finished
    simp only [Step.ends_bind, Step.ends_lift, Step.ends_set]
    refine Outcome.ends_of_ok chosen ?_
    split <;> trivial

theorem proper_of_stepEntries (beams : 0 < settings.beams) {histories : Histories} {entry : Nat}
    {expansions : List (List Expansion)} {states after : List BeamEntry} {failure : Failure}
    (count : expansions.length = states.length)
    (rows : ∀ i own, expansions[i]? = some own →
      ∀ x ∈ own, (entry + i) * settings.beams + x.beam < histories.rows.length)
    (failed : Step.Fails (stepEntries settings histories entry expansions) states failure after) :
    failure.Proper := by
  induction expansions generalizing entry states after with
  | nil =>
    rw [stepEntries_nil, Step.fails_pure] at failed
    exact failed.elim
  | cons own rest ih =>
    obtain ⟨state, states, rfl⟩ := List.exists_cons_of_length_eq_add_one count.symm
    have here := (Step.ends_iff.mp (ends_stepEntry beams (rows 0 own rfl) state)).2
    have later : ∀ i own, rest[i]? = some own →
        ∀ x ∈ own, (entry + 1 + i) * settings.beams + x.beam < histories.rows.length := by
      intro i own found
      rw [Nat.add_right_comm]
      exact rows (i + 1) own found
    obtain ⟨_, broken, -⟩ | ⟨_, _, _, -, broken, -⟩ := stepEntries_cons_fails.mp failed
    · exact here _ _ broken
    · exact ih (Nat.succ.inj count) later broken

theorem ends_stepEntries (beams : 0 < settings.beams) {histories : Histories}
    {expansions : List (List Expansion)} {states : List BeamEntry}
    (count : expansions.length = states.length)
    (rows : ∀ i own, expansions[i]? = some own →
      ∀ x ∈ own, i * settings.beams + x.beam < histories.rows.length) :
    Step.Ends (stepEntries settings histories 0 expansions) states
      (fun _ after => after.length = states.length)
      fun failure after => failure.Proper ∧ after.length = states.length := by
  have kept := stepEntries_length settings histories 0 expansions states
  rw [Step.ends_iff]
  refine ⟨fun _ after ran => ?_, fun failure after failed => ⟨?_, ?_⟩⟩
  · rwa [ran] at kept
  · exact proper_of_stepEntries beams count (by simpa only [Nat.zero_add] using rows) failed
  · rwa [failed] at kept

theorem Sized.reenter (sized : b.Sized settings) {entries : List BeamEntry}
    (kept : entries.length = b.entries.length) (finals : Option (List Scored)) (done : Bool) :
    Sized settings { b with entries := entries, finals := finals, done := done } :=
  ⟨sized.sound.reenter kept finals done, sized.fixed, sized.level, sized.places⟩

theorem Sized.selectTop (sized : b.Sized settings) :
    Step.Safe (Sized settings) (Beam.selectTop elementary) b := by
  simp only [Step.Safe, Beam.selectTop, Step.throw_bind, Step.ends_bind, Step.ends_get,
    Step.ends_lift]
  refine LoadedScores.ends_requireFresh.imp (fun _ fresh => ?_) fun _ proper => ⟨proper, sized⟩
  split
  · exact ⟨trivial, sized⟩
  · simp only [Step.ends_bind, Step.ends_lift, Step.ends_within, Step.ends_modify]
    obtain ⟨expansions, ranked, count, ranks⟩ :=
      sized.sound.rankEntries_total elementary fresh
    have rows : ∀ i own, expansions[i]? = some own →
        ∀ x ∈ own, i * b.settings.beams + x.beam < b.histories.rows.length := by
      intro i own found x member
      rw [sized.sound.rows]
      exact row_lt (count ▸ (List.getElem?_eq_some_iff.mp found).1)
        (beam_of_mem_rank (ranks i own found) x member)
    refine Outcome.ends_of_ok ranked ?_
    refine (ends_stepEntries sized.sound.some (count.trans sized.sound.entries.symm) rows).imp
      (fun survivors entries kept => ?_) fun failure entries ended => ?_
    · refine sized.level.descend.imp (fun histories descended => ?_) fun _ proper =>
        ⟨proper, sized.reenter kept _ _⟩
      -- histories take one token for every row, so there are as many survivors as rows
      obtain ⟨tokens, level⟩ := descended
      rw [List.length_map] at tokens
      refine Sound.sized ⟨sized.sound.some, ?_, ?_, kept.trans sized.sound.entries, ?_⟩ sized.fixed
        level
      · exact level.rectangular.count.trans (congrArg Settings.rowCount sized.fixed.symm)
      · exact (List.length_map _).trans
          (tokens.trans (congrArg Settings.rowCount sized.fixed.symm))
      · exact fun fresh => by cases fresh
    · -- the entries before the one that was refused keep their steps
      exact ⟨ended.1, sized.reenter ended.2 _ _⟩

theorem Sized.finalize (sized : b.Sized settings) (count : Nat) :
    Step.Safe (Sized settings) (Beam.finalize count) b := by
  cases fixed : b.finals with
  | some finals =>
    simp only [Step.Safe, Beam.finalize, Step.ends_bind, Step.ends_get, fixed]
    exact sized
  | none =>
    by_cases refused : count = 0 ∨ b.settings.beams < count
    · exact Step.ends_of_fails (finalize_refused fixed refused) ⟨trivial, sized⟩
    · obtain ⟨asked, fits⟩ : 0 < count ∧ count ≤ b.settings.beams := by omega
      refine Step.ends_of_returns (sized.sound.counted.finalize_returns fixed asked fits) ?_
      exact sized.reenter List.length_mapIdx _ _

theorem Sized.sequence (sized : b.Sized settings) (index : Nat) :
    Step.Safe (Sized settings) (Beam.sequence index) b := by
  simp only [Step.Safe, Beam.sequence, Step.ends_bind, Step.ends_get]
  refine Step.Ends.imp (sized.finalize b.settings.returnCount) (fun finals b' sized' => ?_)
    fun _ _ ended => ended
  split
  · exact sized'
  · exact ⟨trivial, sized'⟩

end Beam

end StagedDecoding
