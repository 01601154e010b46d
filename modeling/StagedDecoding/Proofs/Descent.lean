import StagedDecoding.Proofs.BeamTurns
import StagedDecoding.Proofs.Preparing

/-! Where the rows of a beam search come from.

A run of a beam search leaves a record of its selections: what was done to the scores before each,
and the parents and tokens it reported. Following the parents back through the record leads from a
row to the prompt of its entry. On the way lie the tokens of its history and the log probabilities
that its score is the sum of, whatever rows were dropped, copied or exchanged in between.
-/

set_option autoImplicit false

namespace StagedDecoding.Beam

/-- A selection: the preparations since the one before, and the parents and tokens it reported. -/
structure Turn where
  preparations : List Preparation
  parents : List Nat
  tokens : List Token

/-- The runs of a beam search, with their selections, the latest first, and the preparations since
then. -/
inductive Course (elementary : Elementary) (settings : Settings) (inputIds : List Token) :
    List Turn → List Preparation → Beam → Prop where
  | start {b : Beam} : Beam.start settings inputIds = .ok b →
      Course elementary settings inputIds [] [] b
  | prepare {turns : List Turn} {since : List Preparation} {preparation : Preparation}
      {b b' : Beam} : Course elementary settings inputIds turns since b →
      Step.Returns (Beam.prepare preparation) b () b' →
      Course elementary settings inputIds turns (since ++ [preparation]) b'
  | selectTop {turns : List Turn} {since : List Preparation} {b b' : Beam} :
      Course elementary settings inputIds turns since b →
      Step.Returns (Beam.selectTop elementary) b () b' →
      Course elementary settings inputIds (⟨since, b'.nextIndices, b'.nextTokens⟩ :: turns) [] b'

/-- The cumulative score of a row with the given history and score, after one more token: the log
probability of the token on top. -/
inductive Turn.Raises (elementary : Elementary) (settings : Settings) (row : Nat)
    (history : List Token) (score : Float32) (token : Token) (turn : Turn) : Float32 → Prop where
  | intro {own : Scores} {logProbability : Float32} :
      Preparation.read settings.endTokens row history turn.preparations = some own →
      (own.logSoftmaxBy elementary)[token]? = some logProbability →
      Raises elementary settings row history score token turn (logProbability + score)

/-- A beam of an entry descends, through the parents that the turns reported, from a beam that had
nothing but the prompt. Its history and its score are what comes together on the way. -/
inductive Descends (elementary : Elementary) (settings : Settings) (inputIds : List Token)
    (entry : Nat) : List Turn → Nat → List Token → Float32 → Prop where
  | root {beam : Nat} : beam < settings.beams →
      Descends elementary settings inputIds entry [] beam
        (promptOf inputIds settings.batchSize entry) (if beam = 0 then 0 else inactiveScore)
  | child {turns : List Turn} {turn : Turn} {beam parent : Nat} {history : List Token}
      {score total : Float32} {token : Token} : beam < settings.beams →
      Descends elementary settings inputIds entry turns parent history score →
      turn.parents[entry * settings.beams + beam]? = some (entry * settings.beams + parent) →
      turn.tokens[entry * settings.beams + beam]? = some token →
      turn.Raises elementary settings (entry * settings.beams + parent) history score token total →
      Descends elementary settings inputIds entry (turn :: turns) beam (history ++ [token]) total

/-- A finished hypothesis is the history of a beam at some turn and one end token, with its
cumulative score divided by a power of its length. -/
inductive Completes (elementary : Elementary) (settings : Settings) (inputIds : List Token)
    (entry : Nat) (turns : List Turn) : Scored → Prop where
  | intro {before : List Turn} {turn : Turn} {beam : Nat} {history : List Token}
      {score total : Float32} {token : Token} : turn :: before <:+ turns →
      Descends elementary settings inputIds entry before beam history score →
      settings.isEnd token = true →
      turn.Raises elementary settings (entry * settings.beams + beam) history score token total →
      Completes elementary settings inputIds entry turns ⟨history ++ [token],
        total / (UInt64.ofNat (history.length + 1)).toFloat32.pow settings.lengthPenalty⟩

variable {elementary : Elementary} {settings : Settings} {inputIds : List Token} {entry : Nat}
  {turns : List Turn} {since : List Preparation} {b b' : Beam}

theorem Completes.later {final : Scored} (turn : Turn)
    (completes : Completes elementary settings inputIds entry turns final) :
    Completes elementary settings inputIds entry (turn :: turns) final := by
  cases completes with
  | intro earlier descends ends raises =>
    exact .intro (earlier.trans (List.suffix_cons turn turns)) descends ends raises

def HasRow (b : Beam) (row : Nat) (history : List Token) (score : Float32) : Prop :=
  b.histories.rows[row]? = some history ∧ b.beamScores[row]? = some score

/-- Parents lie in the entry of their row. Every row of an entry that is not over descends from the
prompt of its entry, with its history and its score, and every finished hypothesis completes a
history. -/
structure Coherent (elementary : Elementary) (settings : Settings) (inputIds : List Token)
    (turns : List Turn) (b : Beam) : Prop where
  indices : b.nextIndices.length = settings.rowCount
  parents : ∀ entry < settings.batchSize, ∀ beam < settings.beams, ∃ parent < settings.beams,
    b.nextIndices[entry * settings.beams + beam]? = some (entry * settings.beams + parent)
  rows : ∀ entry state, b.entries[entry]? = some state → state.done = false →
    ∀ beam < settings.beams, ∃ history score,
      b.HasRow (entry * settings.beams + beam) history score ∧
        Descends elementary settings inputIds entry turns beam history score
  finished : ∀ entry state, b.entries[entry]? = some state → ∀ final ∈ state.finished.kept,
    Completes elementary settings inputIds entry turns final

structure Traced (elementary : Elementary) (settings : Settings) (inputIds : List Token)
    (turns : List Turn) (since : List Preparation) (b : Beam) : Prop
    extends Coherent elementary settings inputIds turns b where
  same : b.settings = settings
  beamed : 0 < settings.beams
  count : b.entries.length = settings.batchSize
  level : ∀ row ∈ b.histories.rows, row.length = b.histories.length
  left : Preparation.Left settings.endTokens b.histories since b.scores
  penalty : ∀ state ∈ b.entries, state.finished.lengthPenalty = settings.lengthPenalty

theorem Traced.start (started : Beam.start settings inputIds = .ok b) :
    Traced elementary settings inputIds [] [] b := by
  obtain ⟨beamed, histories, began, rfl⟩ := Beam.start_eq_ok started
  have fresh : ∀ {entry : Nat} {state : BeamEntry}, (List.replicate settings.batchSize
      (⟨.empty settings.beams settings.lengthPenalty settings.earlyStopping, false⟩ :
        BeamEntry))[entry]? = some state →
      entry < settings.batchSize ∧ state.finished.kept = [] := by
    intro entry state found
    obtain ⟨inside, rfl⟩ := Beam.entry_of_start started found
    exact ⟨inside, rfl⟩
  constructor
  · constructor
    · simp
    · intro entry inside beam bound
      exact ⟨beam, bound, by simp [row_lt inside bound]⟩
    · intro entry state found _ beam bound
      -- every row is a root: it has the prompt, and only the first score of an entry is active
      obtain ⟨inside, -⟩ := fresh found
      refine ⟨_, _, ⟨Histories.start_row began inside bound, ?_⟩, .root bound⟩
      have wide : ∀ part ∈ List.replicate settings.batchSize
          ((0 : Float32) :: List.replicate (settings.beams - 1) inactiveScore),
          part.length = settings.beams := by
        intro part member
        rw [List.eq_of_mem_replicate member, List.length_cons, List.length_replicate]
        omega
      dsimp only
      rw [Tensor.getElem?_flatten wide bound, List.getElem?_replicate, if_pos inside]
      cases beam with
      | zero => rfl
      | succ beam =>
        have behind : beam < settings.beams - 1 := by omega
        simp [behind]
    · intro entry state found final member
      obtain ⟨-, none⟩ := fresh found
      rw [none] at member
      cases member
  · rfl
  · exact beamed
  · exact List.length_replicate
  · exact Histories.start_level began
  · exact .of_stale rfl
  · intro state member
    rw [List.eq_of_mem_replicate member]
    rfl

theorem Traced.prepare {preparation : Preparation}
    (traced : Traced elementary settings inputIds turns since b)
    (ran : Step.Returns (Beam.prepare preparation) b () b') :
    Traced elementary settings inputIds turns (since ++ [preparation]) b' := by
  obtain ⟨⟨indices, parents, rows, finished⟩, rfl, beamed, count, level, left, penalty⟩ := traced
  obtain ⟨scores, rfl, prepared⟩ := prepare_returns ran
  exact ⟨⟨indices, parents, rows, finished⟩, rfl, beamed, count, level, prepared level left,
    penalty⟩

theorem Traced.raises {ranked : List Expansion} {x : Expansion} (turn : Turn)
    (traced : Traced elementary settings inputIds turns turn.preparations b)
    (fresh : b.scores.fresh = true) (ranks : b.rank elementary entry = .ok ranked)
    (member : x ∈ ranked) {history : List Token} {score : Float32}
    (there : b.HasRow (entry * settings.beams + x.beam) history score) :
    turn.Raises elementary settings (entry * settings.beams + x.beam) history score x.token
      x.score := by
  obtain ⟨-, base, own, logProbability, graded, last, found, total⟩ :=
    expanded_of_mem_rank ranks member
  rw [traced.same] at graded last
  obtain rfl : base = score := Option.some.inj (graded.symm.trans there.2)
  have left := traced.left fresh _ _ there.1
  rw [last] at left
  rw [total]
  exact .intro left.symm found

theorem Traced.completes {ranked : List Expansion} {before after : BeamEntry}
    {part : List Survivor} (turn : Turn)
    (traced : Traced elementary settings inputIds turns turn.preparations b)
    (fresh : b.scores.fresh = true) (found : b.entries[entry]? = some before)
    (ranks : b.rank elementary entry = .ok ranked)
    (stepped : Step.Returns (stepEntry settings b.histories entry ranked) before part after) :
    after.finished.lengthPenalty = settings.lengthPenalty ∧
      ∀ final ∈ after.finished.kept,
        Completes elementary settings inputIds entry (turn :: turns) final := by
  have penalty := traced.penalty before (List.mem_of_getElem? found)
  have earlier : ∀ final ∈ before.finished.kept,
      Completes elementary settings inputIds entry (turn :: turns) final :=
    fun final member => (traced.finished entry before found final member).later turn
  cases stepEntry_cases.mp stepped with
  | inl stopped =>
    obtain ⟨-, -, rfl⟩ := stopped
    exact ⟨penalty, earlier⟩
  | inr walked =>
    obtain ⟨live, finished, chosen, -, rfl⟩ := walked
    -- what the walk offers is the history of a row with the end token behind it
    refine (choose_preserves (p := fun _ => True) (q := fun finished =>
      finished.lengthPenalty = settings.lengthPenalty ∧ ∀ final ∈ finished.kept,
        Completes elementary settings inputIds entry (turn :: turns) final)
      (fun _ _ _ => trivial) ?_ (by simp) ⟨penalty, earlier⟩ chosen).2
    intro x member ends history finished there holds
    refine ⟨Hypotheses.add_lengthPenalty.trans holds.1, fun final kept => ?_⟩
    cases Hypotheses.mem_add kept with
    | inl before => exact holds.2 final before
    | inr offered =>
      have bound := (expanded_of_mem_rank ranks member).1
      rw [traced.same] at bound
      obtain ⟨own, score, row, descends⟩ := traced.rows entry before found live x.beam bound
      obtain rfl : own = history := Option.some.inj (row.1.symm.trans there)
      rw [offered, holds.1, Hypotheses.normalized, List.length_append, List.length_singleton,
        Nat.max_eq_left (Nat.le_add_left 1 _)]
      exact .intro (List.suffix_refl _) descends ends (traced.raises turn fresh ranks member row)

theorem Traced.survives {ranked : List Expansion} {before after : BeamEntry}
    {part : List Survivor} (turn : Turn)
    (traced : Traced elementary settings inputIds turns turn.preparations b)
    (fresh : b.scores.fresh = true) (found : b.entries[entry]? = some before)
    (ranks : b.rank elementary entry = .ok ranked)
    (stepped : Step.Returns (stepEntry settings b.histories entry ranked) before part after)
    (live : after.done = false) {survivor : Survivor} (member : survivor ∈ part) :
    ∃ parent history score, survivor.parent = entry * settings.beams + parent ∧
      b.HasRow (entry * settings.beams + parent) history score ∧
      Descends elementary settings inputIds entry turns parent history score ∧
      turn.Raises elementary settings (entry * settings.beams + parent) history score
        survivor.token survivor.score := by
  cases stepEntry_cases.mp stepped with
  | inl stopped =>
    obtain ⟨done, -, rfl⟩ := stopped
    simp [done] at live
  | inr walked =>
    obtain ⟨live, finished, chosen, -, -⟩ := walked
    -- each survivor was expanded from a row, and the walk only passes it on
    refine (choose_preserves (p := fun survivor => ∃ parent history score,
        survivor.parent = entry * settings.beams + parent ∧
        b.HasRow (entry * settings.beams + parent) history score ∧
        Descends elementary settings inputIds entry turns parent history score ∧
        turn.Raises elementary settings (entry * settings.beams + parent) history score
          survivor.token survivor.score)
      (q := fun _ => True) ?_ (fun _ _ _ _ _ _ _ => trivial) (by simp) trivial chosen).1
      survivor member
    intro x member _
    have bound := (expanded_of_mem_rank ranks member).1
    rw [traced.same] at bound
    obtain ⟨history, score, row, descends⟩ := traced.rows entry before found live x.beam bound
    exact ⟨x.beam, history, score, rfl, row, descends, traced.raises turn fresh ranks member row⟩

theorem Traced.selectTop (traced : Traced elementary settings inputIds turns since b)
    (ran : Step.Returns (Beam.selectTop elementary) b () b') :
    Traced elementary settings inputIds (⟨since, b'.nextIndices, b'.nextTokens⟩ :: turns) []
      b' := by
  obtain ⟨rfl⟩ := traced.same
  obtain ⟨fresh, parts, entries, histories, count, sized, stepped, each, descended, rfl⟩ :=
    selectTop_parts traced.beamed ran
  let turn : Turn := ⟨since, parts.flatten.map (·.parent), parts.flatten.map (·.token)⟩
  have kept : entries.length = b.settings.batchSize := stepped.trans traced.count
  have completed : ∀ entry state, entries[entry]? = some state →
      state.finished.lengthPenalty = b.settings.lengthPenalty ∧
        ∀ final ∈ state.finished.kept,
          Completes elementary b.settings inputIds entry (turn :: turns) final := by
    intro entry state found
    have inside := kept ▸ (List.getElem?_eq_some_iff.mp found).1
    obtain ⟨part, ranked, before, after, there, ranks, entered, left, stepped⟩ := each entry inside
    obtain rfl := Option.some.inj (left.symm.trans found)
    exact traced.completes turn fresh entered ranks stepped
  constructor
  · constructor
    · exact (List.length_map _).trans (survivors_length count sized)
    · intro entry inside beam bound
      obtain ⟨part, ranked, _, _, found, ranks, -, -, stepped⟩ := each entry inside
      obtain ⟨long, own⟩ := stepEntry_returns traced.beamed (beam_of_mem_rank ranks) stepped
      have here : beam < part.length := long.symm ▸ bound
      have parent := own _ (List.getElem_mem here)
      refine ⟨part[beam].parent % b.settings.beams, Nat.mod_lt _ traced.beamed, ?_⟩
      dsimp only
      rw [getElem?_survivors sized _ found here, ← parent, Nat.mul_comm, Nat.div_add_mod]
    · intro entry state found live beam bound
      have inside := kept ▸ (List.getElem?_eq_some_iff.mp found).1
      obtain ⟨part, ranked, before, after, there, ranks, entered, left, stepped⟩ :=
        each entry inside
      obtain rfl := Option.some.inj (left.symm.trans found)
      have long := sized part (List.mem_of_getElem? there)
      have here : beam < part.length := long.symm ▸ bound
      obtain ⟨parent, history, score, origin, row, descends, raises⟩ :=
        traced.survives turn fresh entered ranks stepped live (List.getElem_mem here)
      -- every entry gives one survivor for each beam, so its share of the three lists is found by
      -- the number of the row
      have moved := getElem?_survivors sized (·.parent) there here
      have chosen := getElem?_survivors sized (·.token) there here
      have graded := getElem?_survivors sized (·.score) there here
      rw [origin] at moved
      exact ⟨_, _, ⟨Histories.descend_row descended moved chosen row.1, graded⟩,
        .child bound descends moved chosen raises⟩
    · exact fun entry state found => (completed entry state found).2
  · rfl
  · exact traced.beamed
  · exact kept
  · exact Histories.descend_level traced.level descended
  · exact .of_stale rfl
  · intro state member
    obtain ⟨entry, found⟩ := List.getElem?_of_mem member
    exact (completed entry state found).1

theorem Course.traced (course : Course elementary settings inputIds turns since b) :
    Traced elementary settings inputIds turns since b := by
  induction course with
  | start started => exact .start started
  | prepare _ ran ih => exact ih.prepare ran
  | selectTop _ ran ih => exact ih.selectTop ran

/-- Every run of a beam search is coherent, whatever its rows do. -/
theorem course_coherent (course : Course elementary settings inputIds turns since b) :
    Coherent elementary settings inputIds turns b :=
  course.traced.toCoherent

theorem pair_coherent : ∃ turn b, Coherent exactElementary pair.settings [1] [turn] b := by
  have started : start pair.settings [1] = .ok pair := rfl
  let loaded := (prepare (.load pairScores) pair).2
  have load : Step.Returns (prepare (.load pairScores)) pair () loaded := rfl
  have sound : loaded.Sound := (start_sound started).setScores load
  have goes : ∃ token < loaded.scores.vocabulary, loaded.settings.isEnd token = false :=
    ⟨0, by decide +kernel, by decide +kernel⟩
  obtain ⟨b, ran⟩ := sound.selectTop_total rfl rfl rfl goes
  exact ⟨_, b, course_coherent (.selectTop (.prepare (.start started) load) ran)⟩

end StagedDecoding.Beam
