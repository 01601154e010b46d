import StagedDecoding.Proofs.BeamTurns
import StagedDecoding.Proofs.Committing
import StagedDecoding.Proofs.Slices
import StagedDecoding.Proofs.Synchrony

/-! Choices that never fail.

Scores of the right shape can be loaded, constrained and chosen from whatever their values are, as
long as there is room for a token. Beam search needs a token on top of this that does not end a
history. Draft verification finds a prediction at every position that it reads.
-/

set_option autoImplicit false

namespace StagedDecoding

namespace LoadedScores

structure Filled (rows vocab : Nat) (scores : LoadedScores) : Prop where
  fresh : scores.fresh = true
  some : 0 < scores.positions
  count : scores.rows.length = rows
  vocabulary : scores.vocabulary = vocab
  wide : ∀ row ∈ scores.rows, row.map List.length = List.replicate scores.positions vocab

variable {rows vocab vocabulary n : Nat} {scores : LoadedScores}

theorem filled_laid {values : List Float32} (everyPosition : Bool) (some : 0 < n)
    (long : values.length = rows * (n * vocab)) :
    Filled rows vocab (if everyPosition then ⟨layOut rows n vocab values, n, vocab, true⟩
      else ⟨(layOut rows n vocab values).map (·.drop (n - 1)), 1, vocab, true⟩) := by
  have wide := layOut_wide long
  have count : (layOut rows n vocab values).length = rows := by simp [layOut]
  split
  · exact ⟨rfl, some, count, rfl, wide⟩
  · refine ⟨rfl, Nat.one_pos, by simpa using count, rfl, ?_⟩
    dsimp only
    rw [List.forall_mem_map]
    intro row member
    have last : n - (n - 1) = 1 := by omega
    rw [List.map_drop, wide row member, List.drop_replicate, last]

theorem load_total {tensor : Tensor} (everyPosition : Bool)
    (shape : tensor.shape = [rows, n, vocab])
    (filled : tensor.values.length = Tensor.volume tensor.shape) (some : 0 < n)
    (fits : vocabulary = 0 ∨ vocab = vocabulary) :
    ∃ scores, load rows vocabulary everyPosition tensor = .ok scores ∧ Filled rows vocab scores ∧
      scores.positions = if everyPosition then n else 1 := by
  have long : tensor.floats.length = rows * (n * vocab) := by
    rw [shape] at filled
    simpa [Tensor.floats, Tensor.volume] using filled
  refine ⟨_, load_eq_ok.mpr ⟨n, vocab, .inl shape, fits, some, filled, rfl⟩,
    filled_laid everyPosition some long, ?_⟩
  split <;> rfl

theorem Filled.scoresAt_total (filled : Filled rows vocab scores) {row position : Nat}
    (inside : row < rows) (below : position < scores.positions) :
    ∃ own, scores.scoresAt row position = .ok own := by
  have bound : row < scores.rows.length := filled.count.symm ▸ inside
  have wide := List.eq_replicate_iff.mp (filled.wide _ (List.getElem_mem bound))
  have there : position < scores.rows[row].length := by
    rw [← List.length_map List.length, wide.1]
    exact below
  have long : scores.rows[row][position].length = scores.vocabulary :=
    (wide.2 _ (List.mem_map_of_mem (List.getElem_mem there))).trans filled.vocabulary.symm
  exact ⟨scores.rows[row][position], scoresAt_eq_ok.mpr
    ⟨_, List.getElem?_eq_getElem bound, List.getElem?_eq_getElem there, long⟩⟩

theorem Filled.last_total (filled : Filled rows vocab scores) {row : Nat} (inside : row < rows) :
    ∃ own, scores.last row = .ok own := by
  apply filled.scoresAt_total inside
  have some := filled.some
  omega

theorem Filled.single (filled : Filled rows vocab scores) (one : scores.positions = 1) :
    Single rows vocab scores :=
  ⟨one, filled.count, filled.vocabulary, fun row member => by rw [filled.wide row member, one]; rfl⟩

theorem Filled.rescore (filled : Filled rows vocab scores) {changed : List (List Scores)}
    (same : changed.map (·.map List.length) = scores.rows.map (·.map List.length)) :
    Filled rows vocab { scores with rows := changed } := by
  have count : changed.length = scores.rows.length := by simpa using congrArg List.length same
  refine ⟨filled.fresh, filled.some, count.trans filled.count, filled.vocabulary,
    fun row member => ?_⟩
  have there : row.map List.length ∈ scores.rows.map (·.map List.length) :=
    same ▸ List.mem_map_of_mem member
  obtain ⟨old, inside, equal⟩ := List.mem_map.mp there
  rw [← equal]
  exact filled.wide old inside

theorem Filled.changeAt (filled : Filled rows vocab scores) {change : Scores → Scores}
    (keeps : ∀ own, (change own).length = own.length) (row position : Nat) :
    Filled rows vocab (scores.changeAt row position change) := by
  apply filled.rescore
  refine List.ext_getElem (by simp) fun i here _ => ?_
  simp only [List.getElem_map, List.getElem_modify]
  split
  · exact map_length_modify keeps _ _
  · rfl

theorem Filled.changeLast (filled : Filled rows vocab scores) {change : Nat → Scores → Scores}
    (keeps : ∀ row own, (change row own).length = own.length) :
    Filled rows vocab (scores.changeLast change) := by
  apply filled.rescore
  refine List.ext_getElem (by simp) fun i here _ => ?_
  rw [List.getElem_map, List.getElem_map, List.getElem_mapIdx]
  exact map_length_modify (keeps i) _ _

theorem Filled.adjust_total (filled : Filled rows vocab scores) (change : Scores → Scores)
    {row position : Nat} (inside : row < rows) (below : position < scores.positions) :
    scores.adjust row position change = .ok (scores.changeAt row position change) :=
  adjust_eq_ok.mpr ⟨filled.scoresAt_total inside below, rfl⟩

theorem Filled.constrainLength_total (filled : Filled rows vocab scores) (minLength : Nat)
    (endTokens : List Token) (histories : Histories) :
    ∃ changed, scores.constrainLength minLength endTokens histories = .ok changed ∧
      Filled rows vocab changed ∧ changed.positions = scores.positions := by
  by_cases long : minLength ≤ histories.length
  · exact ⟨scores, constrainLength_eq_ok.mpr ⟨filled.fresh, by rw [if_pos long]⟩, filled, rfl⟩
  · refine ⟨_, constrainLength_eq_ok.mpr ⟨filled.fresh, ?_⟩,
      filled.changeLast fun _ => Scores.length_suppress endTokens, rfl⟩
    rw [if_neg long]
    exact ⟨fun row below => filled.last_total (filled.count ▸ below), rfl⟩

theorem Filled.penalize_total (filled : Filled rows vocab scores) (penalty : Float32)
    {histories : Histories} (enough : rows ≤ histories.rows.length) :
    ∃ changed, scores.penalize penalty histories = .ok changed ∧
      Filled rows vocab changed ∧ changed.positions = scores.positions := by
  by_cases neutral : penalty == 1
  · exact ⟨scores, penalize_eq_ok.mpr ⟨filled.fresh, by rw [if_pos neutral]⟩, filled, rfl⟩
  · refine ⟨_, penalize_eq_ok.mpr ⟨filled.fresh, ?_⟩,
      filled.changeLast fun i => Scores.length_penalize penalty (histories.rows.getD i []), rfl⟩
    rw [if_neg neutral]
    refine ⟨fun row below => ?_, rfl⟩
    rw [filled.count] at below
    exact ⟨Nat.lt_of_lt_of_le below enough, filled.last_total below⟩

end LoadedScores

namespace Greedy

variable {g : Greedy} {vocab : Nat} {tokens : List Token}

theorem bestTokens_total {scores : LoadedScores} {rows : List Nat}
    (each : ∀ row ∈ rows, ∃ own, scores.last row = .ok own) :
    ∃ tokens, bestTokens scores rows = .ok tokens ∧ tokens.length = rows.length := by
  induction rows with
  | nil => exact ⟨[], rfl, rfl⟩
  | cons row rest ih =>
    obtain ⟨own, here⟩ := each row (by simp)
    obtain ⟨tokens, later, count⟩ := ih fun other member => each other (by simp [member])
    refine ⟨own.argmax :: tokens, ?_, by simp [count]⟩
    simp only [bestTokens, Outcome.bind_eq_ok, Outcome.pure_eq_ok]
    exact ⟨own, here, tokens, later, rfl⟩

theorem drawRows_total (sampling : Scores.Sampling) {scores : LoadedScores} {rows : List Nat}
    (each : ∀ row ∈ rows, ∃ own, scores.last row = .ok own) (words : WordStream)
    (elementary : Elementary := .native) :
    ∃ drawn, drawRows sampling scores rows words elementary = .ok drawn ∧
      drawn.1.length = rows.length := by
  induction rows generalizing words with
  | nil => exact ⟨([], words), rfl, rfl⟩
  | cons row rest ih =>
    obtain ⟨own, here⟩ := each row (by simp)
    obtain ⟨drawn, later, count⟩ := ih (fun other member => each other (by simp [member]))
      (Scores.sample sampling own words elementary).2
    refine ⟨((Scores.sample sampling own words elementary).1 :: drawn.1, drawn.2), ?_,
      by simp [count]⟩
    simp only [drawRows, Outcome.bind_eq_ok, Outcome.pure_eq_ok]
    exact ⟨own, here, drawn, later, rfl⟩

theorem Marked.commit_total (marked : g.Marked) (room : g.histories.isFull = false)
    (count : tokens.length = g.settings.batchSize) :
    ∃ g', Step.Returns (Greedy.commit tokens) g () g' := by
  have marks : g.ended.length = g.settings.batchSize := by
    rw [marked.ended, List.length_map, marked.rows.count]
  refine ⟨_, (commit_iff marked.rows.count marks marked.running (Nat.le_of_eq count.symm)).mpr
    ⟨?_, rfl⟩⟩
  rw [Histories.isFull, decide_eq_false_iff_not] at room
  omega

theorem Marked.selectTop_total (marked : g.Marked) (room : g.histories.isFull = false)
    (filled : g.scores.Filled g.settings.batchSize vocab) :
    ∃ g', Step.Returns Greedy.selectTop g () g' := by
  have each : ∀ row ∈ List.range g.settings.batchSize, ∃ own, g.scores.last row = .ok own :=
    fun row member => filled.last_total (List.mem_range.mp member)
  obtain ⟨tokens, best, count⟩ := bestTokens_total each
  rw [List.length_range] at count
  obtain ⟨g', committed⟩ := marked.commit_total room count
  exact ⟨g', selectTop_iff.mpr ⟨filled.fresh, tokens, best, committed⟩⟩

theorem Marked.sample_total (marked : g.Marked) (room : g.histories.isFull = false)
    (filled : g.scores.Filled g.settings.batchSize vocab) (sampling : Scores.Sampling)
    {elementary : Elementary} :
    ∃ g', Step.Returns (Greedy.sample sampling elementary) g () g' := by
  obtain ⟨drawn, found, count⟩ := drawRows_total sampling
    (fun row member => filled.last_total (List.mem_range.mp member)) g.words elementary
  rw [List.length_range] at count
  obtain ⟨g', committed⟩ := (marked.rescore g.scores drawn.2).commit_total room count
  refine ⟨g', ?_⟩
  simp only [Greedy.sample, Step.returns_bind, Step.returns_get, Step.returns_lift,
    Step.returns_set]
  exact ⟨_, _, ⟨rfl, rfl⟩, (), _, ⟨LoadedScores.requireFresh_eq_ok.mpr filled.fresh, rfl⟩, drawn,
    _, ⟨found, rfl⟩, (), _, rfl, committed⟩

theorem Marked.setNextTokens_total (marked : g.Marked) (single : g.settings.batchSize = 1)
    (fits : g.histories.length + tokens.length ≤ g.histories.capacity) :
    ∃ g', Step.Returns (Greedy.setNextTokens tokens) g () g' := by
  obtain ⟨row, only⟩ := List.length_eq_one_iff.mp (marked.rows.count.trans single)
  have marks := marked.ended
  rw [only, List.map_singleton] at marks
  have shorter : (cutAtEnd g.settings tokens).1.length ≤ tokens.length := by
    unfold cutAtEnd
    split
    · exact List.length_take_le' _ _
    · exact Nat.le_refl _
  have found : fetch g.ended 0 = .ok (hasEnded g.settings g.histories.promptLength row) :=
    Outcome.fetch_eq_ok.mpr (congrArg (·[0]?) marks)
  simp only [setNextTokens_eq, Step.returns_bind, Step.returns_get, Step.throw_bind,
    Step.returns_guard, Step.returns_lift]
  cases ended : hasEnded g.settings g.histories.promptLength row with
  | true =>
    -- a row that has ended ignores the run
    rw [ended] at found
    exact ⟨g, g, g, ⟨rfl, rfl⟩, not_not.mpr single, true, g, ⟨found, rfl⟩, rfl⟩
  | false =>
    rw [ended] at found
    -- the run is cut after its first end token, which only makes it shorter
    let run := (cutAtEnd g.settings tokens).1
    let appended : Histories := { g.histories with
      rows := g.histories.rows.map (· ++ run)
      length := g.histories.length + run.length }
    refine ⟨refreshDone { g.marking run with
      histories := appended
      nextTokens := run
      scores := (g.marking run).scores.consume }, g, g, ⟨rfl, rfl⟩, not_not.mpr single, false, g,
      ⟨found, rfl⟩, ?_⟩
    simp only [commitRun, Bool.false_eq_true, if_false, Step.returns_bind, Step.returns_set,
      Step.returns_lift, Histories.appendRun_eq_ok, marking_histories]
    refine ⟨(), g.marking run, rfl, appended, g.marking run, ⟨⟨?_, ?_, rfl⟩, rfl⟩, rfl⟩
    · rw [only, List.length_singleton]
    · exact Nat.le_trans (Nat.add_le_add_left shorter _) fits

end Greedy

end StagedDecoding
