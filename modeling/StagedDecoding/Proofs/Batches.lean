import StagedDecoding.Proofs.Committing
import StagedDecoding.Proofs.Independence

/-! Searches over a batch and over its prompts.

A greedy search over a batch is one search for every prompt, too, as long as it takes best tokens.
Rows that have ended go on with padding, which is what each of them does by itself.
-/

set_option autoImplicit false

namespace StagedDecoding

namespace Greedy

def act : Act → Step Greedy Unit
  | .prepare preparation => prepare preparation
  | .selectTop => selectTop

def drive : List Act → Step Greedy Unit
  | [] => pure ()
  | first :: rest => do
    act first
    drive rest

def alone (row : Nat) (g : Greedy) : Greedy :=
  let ended := slice row 1 g.ended
  { g with
    settings := g.settings.alone
    histories := g.histories.slice row 1
    scores := g.scores.slice row 1
    nextTokens := slice row 1 g.nextTokens
    ended := ended
    running := ended.count false
    done := g.reachedCapacity || decide (ended.count false = 0) }

structure Ongoing (settings : Settings) (g : Greedy) : Prop where
  same : g.settings = { settings with beams := 1 }
  rows : g.histories.rows.length = settings.batchSize
  marks : g.ended.length = settings.batchSize
  running : g.running = g.ended.count false
  stopped : g.done = (g.reachedCapacity || decide (g.running = 0))

variable {settings : Settings} {inputIds : List Token} {everyPosition : Bool} {row : Nat}
  {g g' : Greedy}

theorem start_ongoing (started : start settings inputIds everyPosition = .ok g) :
    Ongoing settings g := by
  obtain ⟨h, began, rfl⟩ := start_eq_ok started
  have batch : settings.batchSize ≠ 0 := by
    intro none
    simp [Histories.start, none] at began
  obtain ⟨-, rfl⟩ := Histories.start_eq_ok began
  refine ⟨rfl, ?_, List.length_replicate, by simp, by simp [batch]⟩
  simp [List.length_flatMap]

theorem start_alone (started : start settings inputIds everyPosition = .ok g)
    (inside : row < settings.batchSize) :
    start settings.alone (promptOf inputIds settings.batchSize row) everyPosition =
      .ok (g.alone row) := by
  obtain ⟨h, began, rfl⟩ := start_eq_ok started
  have own := Histories.start_slice began inside
  rw [Nat.mul_one] at own
  have within : row + 1 ≤ settings.batchSize := inside
  have empty : LoadedScores.empty.slice row 1 = .empty := by
    simp [LoadedScores.slice, LoadedScores.empty, slice]
  have full : (h.slice row 1).isFull = h.isFull := rfl
  simp only [start, Outcome.bind_eq_ok, Outcome.pure_eq_ok]
  refine ⟨_, own, ?_⟩
  simp only [alone, slice_replicate within, empty]
  simp [Settings.alone, full]

theorem Ongoing.prepare_alone {preparation : Preparation} (ongoing : Ongoing settings g)
    (ran : Step.Returns (prepare preparation) g () g') : Ongoing settings g' ∧
      ∀ row < settings.batchSize, Step.Returns (act ((Act.prepare preparation).sliceRows row 1))
        (g.alone row) () (g'.alone row) := by
  obtain ⟨same, rows, marks, running, stopped⟩ := ongoing
  cases preparation with
  | load tensor =>
    simp only [prepare, setScores, Step.returns_attempt, Outcome.bind_eq_ok,
      Outcome.pure_eq_ok] at ran
    obtain ⟨scores, loaded, rfl⟩ := ran
    refine ⟨⟨same, rows, marks, running, stopped⟩, fun row inside => Step.returns_attempt.mpr ?_⟩
    have within : row + 1 ≤ g.settings.batchSize := same ▸ inside
    simp only [Outcome.bind_eq_ok, Outcome.pure_eq_ok]
    exact ⟨_, LoadedScores.load_slice within loaded, rfl⟩
  | constrainLength minLength =>
    simp only [prepare, constrainLength, Step.returns_attempt, Outcome.bind_eq_ok,
      Outcome.pure_eq_ok] at ran
    obtain ⟨scores, constrained, rfl⟩ := ran
    refine ⟨⟨same, rows, marks, running, stopped⟩, fun row _ => Step.returns_attempt.mpr ?_⟩
    simp only [Outcome.bind_eq_ok, Outcome.pure_eq_ok]
    exact ⟨_, LoadedScores.constrainLength_slice constrained, rfl⟩
  | penalize penalty =>
    simp only [prepare, penalize, Step.returns_attempt, Outcome.bind_eq_ok,
      Outcome.pure_eq_ok] at ran
    obtain ⟨scores, penalized, rfl⟩ := ran
    refine ⟨⟨same, rows, marks, running, stopped⟩, fun row _ => Step.returns_attempt.mpr ?_⟩
    simp only [Outcome.bind_eq_ok, Outcome.pure_eq_ok]
    exact ⟨_, LoadedScores.penalize_slice penalized, rfl⟩

theorem committed_alone (tokens : List Token) (g : Greedy) :
    (committed tokens g).alone row = committed (slice row 1 tokens) (g.alone row) := by
  have settled : slice row 1 ((g.ended.zip tokens).map (settleOne g.settings)) =
      ((slice row 1 g.ended).zip (slice row 1 tokens)).map (settleOne g.settings.alone) := by
    rw [slice_map, List.zip, slice_zipWith]
    rfl
  simp only [alone, committed, refreshDone, LoadedScores.consume, LoadedScores.slice,
    Histories.slice, slice_zipWith]
  simp only [slice_map, ← settled]
  rfl

theorem Ongoing.selectTop_alone (ongoing : Ongoing settings g)
    (ran : Step.Returns selectTop g () g') : Ongoing settings g' ∧
      ∀ row < settings.batchSize, Step.Returns selectTop (g.alone row) () (g'.alone row) := by
  have batch : g.settings.batchSize = settings.batchSize := by rw [ongoing.same]
  have marks := ongoing.marks.trans batch.symm
  obtain ⟨fresh, tokens, best, committing⟩ := selectTop_iff.mp ran
  have each := bestTokens_eq_ok.mp best
  have count : tokens.length = settings.batchSize := by
    rw [← each.length_eq, List.length_range, batch]
  have enough : g.settings.batchSize ≤ tokens.length := Nat.le_of_eq (batch.trans count.symm)
  obtain ⟨room, rfl⟩ := (commit_iff (ongoing.rows.trans batch.symm) marks ongoing.running
    enough).mp committing
  refine ⟨⟨ongoing.same, ?_, ?_, rfl, rfl⟩, fun row inside => ?_⟩
  · simp [committed, refreshDone, ongoing.rows, ongoing.marks, count]
  · simp [committed, refreshDone, ongoing.marks, count]
  · have bound : row < tokens.length := count ▸ inside
    have marks : (g.alone row).ended.length = 1 := length_slice (ongoing.marks ▸ inside)
    have rows : (g.alone row).histories.rows.length = 1 := length_slice (ongoing.rows ▸ inside)
    -- by itself, the row is a batch of one that takes one token
    have one := slice_one (List.getElem?_eq_getElem bound)
    have enough : (g.alone row).settings.batchSize ≤ [tokens[row]].length := Nat.le_refl 1
    rw [committed_alone, one]
    refine selectTop_iff.mpr ⟨fresh, [tokens[row]], bestTokens_eq_ok.mpr (.cons ?_ .nil),
      (commit_iff rows marks rfl enough).mpr ⟨room, rfl⟩⟩
    obtain ⟨own, found, token⟩ := each.get (by simpa [batch] using inside) bound
    rw [List.get_eq_getElem, List.getElem_range] at found
    exact ⟨own, (LoadedScores.last_slice Nat.zero_lt_one).trans found, token⟩

theorem Ongoing.drive_alone {acts : List Act} (ongoing : Ongoing settings g)
    (ran : Step.Returns (drive acts) g () g') : Ongoing settings g' ∧
      ∀ row < settings.batchSize,
        Step.Returns (drive (acts.map (·.sliceRows row 1))) (g.alone row) () (g'.alone row) := by
  induction acts generalizing g with
  | nil =>
    obtain ⟨-, rfl⟩ := Step.returns_pure.mp ran
    exact ⟨ongoing, fun row _ => Step.returns_pure.mpr ⟨rfl, rfl⟩⟩
  | cons first rest ih =>
    obtain ⟨⟨⟩, middle, here, later⟩ := Step.returns_bind.mp ran
    have one : Ongoing settings middle ∧ ∀ row < settings.batchSize,
        Step.Returns (act (first.sliceRows row 1)) (g.alone row) () (middle.alone row) := by
      cases first with
      | prepare preparation => exact ongoing.prepare_alone here
      | selectTop => exact ongoing.selectTop_alone here
    obtain ⟨kept, others⟩ := ih one.1 later
    exact ⟨kept, fun row inside =>
      Step.returns_bind.mpr ⟨(), _, one.2 row inside, others row inside⟩⟩

theorem Ongoing.done_eq (ongoing : Ongoing settings g) :
    g.done = (List.range settings.batchSize).all fun row => (g.alone row).done := by
  have each : ∀ row, (bound : row < g.ended.length) →
      ((g.alone row).done = true ↔ g.reachedCapacity = true ∨ g.ended[row] = true) := by
    intro row bound
    simp only [alone, slice_one (List.getElem?_eq_getElem bound)]
    cases g.ended[row] <;> simp
  rw [ongoing.stopped, ongoing.running, Bool.eq_iff_iff, Bool.or_eq_true, decide_eq_true_eq,
    List.count_eq_zero, List.all_eq_true, ← ongoing.marks]
  constructor
  · intro stopped row member
    have bound := List.mem_range.mp member
    refine (each row bound).mpr (stopped.imp_right fun none => ?_)
    by_contra runs
    exact none (Bool.eq_false_of_not_eq_true runs ▸ List.getElem_mem bound)
  · -- all rows share the capacity, so either it is reached or each of them has ended
    intro all
    by_cases full : g.reachedCapacity = true
    · exact .inl full
    · refine .inr fun runs => ?_
      obtain ⟨row, bound, same⟩ := List.mem_iff_getElem.mp runs
      cases (each row bound).mp (all row (List.mem_range.mpr bound)) with
      | inl reached => exact full reached
      | inr ended => simp [same] at ended

end Greedy

/-- A beam search over a batch, after some acts, is one beam search for every prompt: each is driven
with its rows of the scores and comes to the entry's part of the state, with its parents told from
its own first row. The batch is over when all of them are, and its results are theirs, one after
the other. -/
structure Beam.Apart (elementary : Elementary) (settings : Settings) (inputIds : List Token)
    (acts : List Act) (b : Beam) : Prop where
  alone : ∀ entry < settings.batchSize, ∃ s,
    start settings.alone (promptOf inputIds settings.batchSize entry) = .ok s ∧
    Step.Returns
      (drive elementary (acts.map (·.sliceRows (entry * settings.beams) settings.beams))) s ()
      (b.alone entry) ∧
    (b.alone entry).nextIndices.map (entry * settings.beams + ·) =
      slice (entry * settings.beams) settings.beams b.nextIndices
  done : b.done = (List.range settings.batchSize).all fun entry => (b.alone entry).done
  finals : ∀ count, (finalize count b).1 = List.flatten <$>
    (List.range settings.batchSize).mapM fun entry => (finalize count (b.alone entry)).1

structure Greedy.Apart (settings : Settings) (inputIds : List Token) (everyPosition : Bool)
    (acts : List Act) (g : Greedy) : Prop where
  alone : ∀ row < settings.batchSize, ∃ s,
    start settings.alone (promptOf inputIds settings.batchSize row) everyPosition = .ok s ∧
    Step.Returns (drive (acts.map (·.sliceRows row 1))) s () (g.alone row)
  done : g.done = (List.range settings.batchSize).all fun row => (g.alone row).done

/-- Whatever is done to a batch with success, its entries do not influence each other. -/
theorem entries_apart :
    (∀ (elementary : Elementary) (settings : Settings) (inputIds : List Token) (acts : List Act)
      (b₀ b : Beam), Beam.start settings inputIds = .ok b₀ →
      Step.Returns (Beam.drive elementary acts) b₀ () b →
      b.Apart elementary settings inputIds acts) ∧
    ∀ (settings : Settings) (inputIds : List Token) (everyPosition : Bool) (acts : List Act)
      (g₀ g : Greedy), Greedy.start settings inputIds everyPosition = .ok g₀ →
      Step.Returns (Greedy.drive acts) g₀ () g →
      g.Apart settings inputIds everyPosition acts := by
  constructor
  · intro elementary settings inputIds acts b₀ b started ran
    obtain ⟨batch, ongoing⟩ := Beam.start_ongoing started
    obtain ⟨kept, driven⟩ := ongoing.drive_alone ran
    refine ⟨fun entry inside => ⟨_, Beam.start_alone started inside, driven entry inside, ?_⟩,
      kept.done_eq, kept.finalize_alone batch⟩
    have parents := kept.parents entry
    rw [kept.same] at parents
    exact parents inside
  · intro settings inputIds everyPosition acts g₀ g started ran
    obtain ⟨kept, driven⟩ := (Greedy.start_ongoing started).drive_alone ran
    exact ⟨fun row inside => ⟨_, Greedy.start_alone started inside, driven row inside⟩,
      kept.done_eq⟩

def Beam.twins : Beam where
  settings := { pair.settings with batchSize := 2 }
  histories := ⟨[[1], [1], [2], [2]], 1, 1, 8⟩
  scores := .empty
  beamScores := [0, inactiveScore, 0, inactiveScore]
  entries := [⟨.empty 2 1 true, false⟩, ⟨.empty 2 1 true, false⟩]
  nextTokens := [0, 0, 0, 0]
  nextIndices := [0, 1, 2, 3]
  done := false
  finals := none

/-- Scores by which the first entry finishes a hypothesis and the second one goes on. -/
def Beam.twinScores : Tensor :=
  .packed .f32 [4, 4] ([-200, -300, -200, 0, 0, -200, -300, -200,
    0, -200, -300, -400, 0, -200, -300, -400].map .real)

theorem twins_apart :
    (∃ b : Beam, b.Apart Beam.exactElementary Beam.twins.settings [1, 2]
      [.prepare (.load Beam.twinScores), .selectTop]) ∧
    ∃ g : Greedy, g.Apart Beam.twins.settings [1, 2] false
      [.prepare (.load Beam.pairScores), .selectTop] := by
  constructor
  · have started : Beam.start Beam.twins.settings [1, 2] = .ok Beam.twins := rfl
    let loaded := (Beam.setScores Beam.twinScores Beam.twins).2
    have load : Step.Returns (Beam.setScores Beam.twinScores) Beam.twins () loaded := rfl
    have sound : loaded.Sound := (Beam.start_sound started).setScores load
    have goes : ∃ token < loaded.scores.vocabulary, loaded.settings.isEnd token = false :=
      ⟨0, by decide +kernel, by decide +kernel⟩
    obtain ⟨b, select⟩ := sound.selectTop_total rfl rfl rfl goes
    exact ⟨b, entries_apart.1 _ _ _ _ _ b started (Step.returns_bind.mpr ⟨(), _, load,
      Step.returns_bind.mpr ⟨(), _, select, Step.returns_pure.mpr ⟨rfl, rfl⟩⟩⟩)⟩
  · let acts : List Act := [.prepare (.load Beam.pairScores), .selectTop]
    have started := (rfl : Greedy.start Beam.twins.settings [1, 2] false = .ok _)
    exact ⟨_, entries_apart.2 _ _ _ acts _ _ started (Step.returns_of_result (by decide +kernel))⟩

end StagedDecoding
