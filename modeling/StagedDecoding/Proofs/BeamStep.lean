import StagedDecoding.Proofs.Candidates

/-! A step of beam search keeps exactly the best expansions.

Walking through ranked expansions comes to taking as many as there are beams of those that go on,
and to offering those among the first that end. The walk stops once every beam has a survivor, and
by then it has passed as many expansions as there are beams. So every entry that is not over gets
its best expansions, and the step as a whole never fails.
-/

set_option autoImplicit false

namespace StagedDecoding.Beam

def survivor (settings : Settings) (entry : Nat) (x : Expansion) : Survivor :=
  ⟨x.score, x.token, entry * settings.beams + x.beam⟩

def extended (settings : Settings) (histories : Histories) (entry : Nat) (x : Expansion) :
    List Token :=
  histories.rows.getD (entry * settings.beams + x.beam) [] ++ [x.token]

def offer (settings : Settings) (histories : Histories) (entry : Nat) (finished : Hypotheses)
    (offered : List Expansion) : Hypotheses :=
  offered.foldl (fun finished x => finished.add (extended settings histories entry x) x.score)
    finished

/-- The expansions that are offered on a walk which has passed `rank` of them: those that end, as far
as the first `beams` of all reach. -/
def leading (settings : Settings) (rank : Nat) (expansions : List Expansion) : List Expansion :=
  (expansions.take (settings.beams - rank)).filter fun x => settings.isEnd x.token

section

variable {settings : Settings} {rank : Nat} {x : Expansion} {rest : List Expansion}

theorem leading_behind (behind : settings.beams ≤ rank) (expansions : List Expansion) :
    leading settings rank expansions = [] := by
  rw [leading, Nat.sub_eq_zero_of_le behind, List.take_zero, List.filter_nil]

theorem leading_ends (ends : settings.isEnd x.token = true) (early : rank < settings.beams) :
    leading settings rank (x :: rest) = x :: leading settings (rank + 1) rest := by
  have one : settings.beams - rank = settings.beams - (rank + 1) + 1 := by omega
  rw [leading, one, List.take_succ_cons, List.filter_cons, if_pos ends]
  rfl

theorem leading_goes (goes : settings.isEnd x.token = false) :
    leading settings rank (x :: rest) = leading settings (rank + 1) rest := by
  by_cases behind : settings.beams ≤ rank
  · rw [leading_behind behind, leading_behind (Nat.le_succ_of_le behind)]
  · have one : settings.beams - rank = settings.beams - (rank + 1) + 1 := by omega
    rw [leading, one, List.take_succ_cons, List.filter_cons, goes, if_neg Bool.false_ne_true]
    rfl

end

theorem row_eq {histories : Histories} {i : Nat} (inside : i < histories.rows.length) :
    histories.row i = .ok (histories.rows.getD i []) := by
  rw [Histories.row, Outcome.fetch_eq_ok, List.getD_eq_getElem?_getD,
    List.getElem?_eq_getElem inside, Option.getD_some]

/-- A walk takes the first expansions that go on, and offers those that end among the first of
all. -/
theorem choose_eq {settings : Settings} {histories : Histories} {entry rank : Nat}
    {expansions : List Expansion} {survivors : List Survivor} {finished : Hypotheses}
    (rows : ∀ x ∈ expansions, entry * settings.beams + x.beam < histories.rows.length)
    (few : survivors.length < settings.beams) (passed : survivors.length ≤ rank) :
    choose settings histories entry rank expansions survivors finished = .ok
      (survivors ++ ((expansions.filter fun x => !settings.isEnd x.token).take
          (settings.beams - survivors.length)).map (survivor settings entry),
        offer settings histories entry finished (leading settings rank expansions)) := by
  induction expansions generalizing rank survivors finished with
  | nil => simp [choose, leading, offer]
  | cons x rest ih =>
    have later : ∀ y ∈ rest, entry * settings.beams + y.beam < histories.rows.length :=
      fun y member => rows y (by simp [member])
    cases ends : settings.isEnd x.token with
    | true =>
      simp only [List.filter_cons, ends, Bool.not_true, Bool.false_eq_true, if_false]
      by_cases behind : settings.beams ≤ rank
      · rw [choose, if_pos ends, if_pos behind, ih later few (Nat.le_succ_of_le passed),
          leading_behind behind, leading_behind (Nat.le_succ_of_le behind)]
      · rw [choose, if_pos ends, if_neg behind]
        simp only [row_eq (rows x (by simp)), bind, Except.bind]
        rw [ih later few (Nat.le_succ_of_le passed),
          leading_ends ends (Nat.lt_of_not_le behind)]
        rfl
    | false =>
      have more : (survivors ++ [survivor settings entry x]).length = survivors.length + 1 := by
        rw [List.length_append, List.length_singleton]
      have placed : place settings survivors (survivor settings entry x) =
          .ok (survivors ++ [survivor settings entry x]) := place_eq_ok.mpr ⟨few, rfl⟩
      rw [choose, ends, if_neg Bool.false_ne_true, leading_goes ends]
      change (place settings survivors (survivor settings entry x) >>= _) = _
      rw [placed]
      change (if (survivors ++ [survivor settings entry x]).length = settings.beams then _ else
        choose _ _ _ _ _ (survivors ++ [survivor settings entry x]) _) = _
      rw [more]
      by_cases full : survivors.length + 1 = settings.beams
      · -- every beam has a survivor, and the expansions that are left rank too low to be offered
        have last : settings.beams - survivors.length = 1 := by omega
        rw [if_pos full, last, leading_behind (by omega)]
        simp [ends, survivor, offer, pure, Except.pure]
      · have one : settings.beams - survivors.length =
            settings.beams - (survivors.length + 1) + 1 := by
          omega
        rw [if_neg full]
        refine (ih later ?_ ?_).trans ?_
        · exact more.trans_lt (Nat.lt_of_le_of_ne few full)
        · exact more.trans_le (Nat.succ_le_succ passed)
        · rw [more, List.filter_cons, ends, Bool.not_false, if_pos rfl, one, List.take_succ_cons,
            List.map_cons, List.append_assoc]
          rfl

theorem stepEntry_live {settings : Settings} {histories : Histories} {entry : Nat}
    {expansions : List Expansion} {state : BeamEntry} (some : 0 < settings.beams)
    (rows : ∀ x ∈ expansions, entry * settings.beams + x.beam < histories.rows.length)
    (enough : settings.beams ≤ (expansions.filter fun x => !settings.isEnd x.token).length)
    (live : state.done = false) :
    ∃ done, Step.Returns (stepEntry settings histories entry expansions) state
      (((expansions.filter fun x => !settings.isEnd x.token).take settings.beams).map
        (survivor settings entry))
      ⟨offer settings histories entry state.finished
        ((expansions.take settings.beams).filter fun x => settings.isEnd x.token), done⟩ := by
  have chosen := @choose_eq settings histories entry 0 expansions [] state.finished rows some
    (Nat.zero_le 0)
  rw [List.nil_append, List.length_nil, leading, Nat.sub_zero] at chosen
  have full : ¬ (((expansions.filter fun x => !settings.isEnd x.token).take settings.beams).map
      (survivor settings entry)).length < settings.beams := by
    rw [List.length_map, List.length_take, Nat.min_eq_left enough]
    exact Nat.lt_irrefl _
  -- the mark that the step sets is found on the way
  apply Exists.intro
  simp only [stepEntry, Step.throw_bind, Step.returns_bind, Step.returns_get]
  refine ⟨_, _, ⟨rfl, rfl⟩, ?_⟩
  rw [live, if_neg Bool.false_ne_true]
  simp only [Step.returns_bind, Step.returns_lift, Step.returns_set, Step.returns_guard,
    Step.returns_pure]
  exact ⟨_, _, ⟨chosen, rfl⟩, (), _, rfl, full, (), _, rfl, rfl, rfl⟩

theorem stepEntry_ended {settings : Settings} {histories : Histories} {entry : Nat}
    {expansions : List Expansion} {state : BeamEntry} (ended : state.done = true) :
    Step.Returns (stepEntry settings histories entry expansions) state
      (idleRows settings entry) state := by
  simp only [stepEntry, Step.returns_bind, Step.returns_get]
  refine ⟨_, _, ⟨rfl, rfl⟩, ?_⟩
  rw [if_pos ended, Step.returns_pure]
  exact ⟨rfl, rfl⟩

theorem stepEntries_total {settings : Settings} {histories : Histories}
    {holds : Nat → List Survivor → BeamEntry → Prop} {entry : Nat}
    {expansions : List (List Expansion)} {states : List BeamEntry}
    (sized : expansions.length = states.length)
    (each : ∀ i own state, expansions[i]? = some own → states[i]? = some state →
      ∃ survivors state', Step.Returns (stepEntry settings histories (entry + i) own) state
        survivors state' ∧ holds (entry + i) survivors state') :
    ∃ (parts : List (List Survivor)) (states' : List BeamEntry),
      Step.Returns (stepEntries settings histories entry expansions) states parts.flatten states' ∧
      parts.length = states.length ∧ states'.length = states.length ∧
      ∀ i survivors state', parts[i]? = some survivors → states'[i]? = some state' →
        holds (entry + i) survivors state' := by
  induction expansions generalizing entry states with
  | nil =>
    obtain rfl : states = [] := List.eq_nil_of_length_eq_zero sized.symm
    exact ⟨[], [], by rw [stepEntries_nil, Step.returns_pure]; simp, rfl, rfl, by simp⟩
  | cons own rest ih =>
    obtain ⟨state, states, rfl⟩ := List.exists_cons_of_length_eq_add_one sized.symm
    obtain ⟨survivors, state', stepped, here⟩ := each 0 own state rfl rfl
    -- entries are numbered from the one that the walk starts with
    have others : ∀ i own state, rest[i]? = some own → states[i]? = some state →
        ∃ survivors state', Step.Returns (stepEntry settings histories (entry + 1 + i) own) state
          survivors state' ∧ holds (entry + 1 + i) survivors state' := by
      intro i own state found there
      rw [Nat.add_right_comm]
      exact each (i + 1) own state found there
    obtain ⟨parts, states', walked, count, count', later⟩ := ih (Nat.succ.inj sized) others
    refine ⟨survivors :: parts, state' :: states', ?_, by simp [count], by simp [count'], ?_⟩
    · exact stepEntries_cons_returns.mpr
        ⟨_, _, _, _, _, _, rfl, stepped, walked, List.flatten_cons, rfl⟩
    · intro i part entered found there
      cases i with
      | zero =>
        obtain rfl := Option.some.inj found
        obtain rfl := Option.some.inj there
        exact here
      | succ i =>
        rw [← Nat.add_assoc, Nat.add_right_comm]
        exact later i part entered found there

def ofEntry {α : Type} (settings : Settings) (entry : Nat) (values : List α) : Option (List α) :=
  (Tensor.blocks settings.beams settings.batchSize values)[entry]?

/-- What a step makes of an entry: its rows become the chosen expansions, and those of its best
expansions that end are offered to it. -/
structure Keeps (elementary : Elementary) (b b' : Beam) (entry : Nat) (before : BeamEntry)
    (chosen top : List Expansion) : Prop where
  survive : Expansion.Best b.scores.vocabulary b.settings.beams
    ((b.candidates elementary entry).filter fun x => !b.settings.isEnd x.token) chosen
  lead : Expansion.Best b.scores.vocabulary b.settings.beams (b.candidates elementary entry) top
  scores : ofEntry b.settings entry b'.beamScores = some (chosen.map (·.score))
  tokens : ofEntry b.settings entry b'.nextTokens = some (chosen.map (·.token))
  parents : ofEntry b.settings entry b'.nextIndices =
    some (chosen.map fun x => entry * b.settings.beams + x.beam)
  histories : ofEntry b.settings entry b'.histories.rows =
    some (chosen.map (extended b.settings b.histories entry))
  offered : (b'.entries[entry]?).map (·.finished) =
    some (offer b.settings b.histories entry before.finished
      (top.filter fun x => b.settings.isEnd x.token))

theorem ofEntry_map {α : Type} {settings : Settings} {entry : Nat} {part : List Survivor}
    {parts : List (List Survivor)} (f : Survivor → α)
    (count : parts.length = settings.batchSize)
    (sized : ∀ part ∈ parts, part.length = settings.beams) (found : parts[entry]? = some part) :
    ofEntry settings entry (parts.flatten.map f) = some (part.map f) := by
  have long : ∀ part ∈ parts.map (List.map f), part.length = settings.beams := by
    rw [List.forall_mem_map]
    exact fun part member => (List.length_map _).trans (sized part member)
  have whole := Tensor.blocks_flatten long
  rw [List.length_map, count] at whole
  rw [ofEntry, List.map_flatten, whole, List.getElem?_map, found]
  rfl

/-- How an entry steps: to as many rows as there are beams, and to the best ones if it goes on. -/
structure Steps (elementary : Elementary) (b : Beam) (entry : Nat) (part : List Survivor)
    (after : BeamEntry) : Prop where
  sized : part.length = b.settings.beams
  inside : ∀ survivor ∈ part, survivor.parent < b.histories.rows.length
  best : ∀ before, b.entries[entry]? = some before → before.done = false →
    ∃ chosen top, Expansion.Best b.scores.vocabulary b.settings.beams
        ((b.candidates elementary entry).filter fun x => !b.settings.isEnd x.token) chosen ∧
      Expansion.Best b.scores.vocabulary b.settings.beams (b.candidates elementary entry) top ∧
      part = chosen.map (survivor b.settings entry) ∧
      after.finished = offer b.settings b.histories entry before.finished
        (top.filter fun x => b.settings.isEnd x.token)

theorem Sound.steps {elementary : Elementary} {b : Beam} (sound : b.Sound)
    (fresh : b.scores.fresh = true)
    (some : ∃ token < b.scores.vocabulary, b.settings.isEnd token = false) {entry : Nat}
    {ranked : List Expansion} {before : BeamEntry}
    (found : b.entries[entry]? = Option.some before)
    (ranks : b.rank elementary entry = .ok ranked)
    (clean : before.done = false → ∀ x ∈ b.candidates elementary entry, x.score.isNaN = false) :
    ∃ part after, Step.Returns (stepEntry b.settings b.histories entry ranked) before part after ∧
      Steps elementary b entry part after := by
  have inside : entry < b.settings.batchSize :=
    sound.entries ▸ (List.getElem?_eq_some_iff.mp found).1
  have rows : ∀ beam < b.settings.beams,
      entry * b.settings.beams + beam < b.histories.rows.length := by
    intro beam bound
    rw [sound.rows]
    exact row_lt inside bound
  by_cases ended : before.done = true
  · -- an entry that is over needs no expansion
    refine ⟨_, _, stepEntry_ended ended, by simp [idleRows], ?_, fun state there live => ?_⟩
    · simp only [idleRows, List.forall_mem_map, List.mem_range]
      exact rows
    · obtain rfl := Option.some.inj (found.symm.trans there)
      exact absurd live (by simp [ended])
  · have live : before.done = false := by simpa using ended
    obtain ⟨own, ranks', chosen, top⟩ := sound.rank_best fresh inside some (clean live)
    obtain rfl := Except.ok.inj (ranks.symm.trans ranks')
    have within := beam_of_mem_rank ranks
    -- the best expansions that go on are as many as there are beams
    have enough : b.settings.beams ≤ (ranked.filter fun x => !b.settings.isEnd x.token).length :=
      calc b.settings.beams = _ := chosen.counted.symm
        _ ≤ _ := List.length_take_le' _ _
    obtain ⟨done, stepped⟩ := stepEntry_live sound.some
      (fun x member => rows x.beam (within x member)) enough live
    refine ⟨_, _, stepped, ?_, ?_, fun state there _ => ?_⟩
    · rw [List.length_map, chosen.counted]
    · rw [List.forall_mem_map]
      intro x member
      exact rows x.beam (within x (List.mem_of_mem_filter (List.mem_of_mem_take member)))
    · obtain rfl := Option.some.inj (found.symm.trans there)
      exact ⟨_, _, chosen, top, rfl, rfl⟩

theorem Sound.stepEntries {elementary : Elementary} {b : Beam} (sound : b.Sound)
    (fresh : b.scores.fresh = true)
    (some : ∃ token < b.scores.vocabulary, b.settings.isEnd token = false)
    (clean : ∀ entry state, b.entries[entry]? = Option.some state → state.done = false →
      ∀ x ∈ b.candidates elementary entry, x.score.isNaN = false) :
    ∃ ranked parts entries,
      b.rankEntries elementary (List.range b.settings.batchSize) = .ok ranked ∧
      Step.Returns (Beam.stepEntries b.settings b.histories 0 ranked) b.entries
        (List.flatten parts) entries ∧
      parts.length = b.settings.batchSize ∧
      ∀ entry part, parts[entry]? = Option.some part →
        ∃ after, entries[entry]? = Option.some after ∧ Steps elementary b entry part after := by
  -- all entries are ranked, whether they go on or not
  obtain ⟨ranked, ranks⟩ : ∃ ranked : Nat → List Expansion,
      ∀ entry < b.settings.batchSize, b.rank elementary entry = .ok (ranked entry) :=
    ⟨_, fun entry inside => sound.rank_eq fresh inside⟩
  have all : b.rankEntries elementary (List.range b.settings.batchSize) =
      .ok ((List.range b.settings.batchSize).map ranked) := by
    rw [rankEntries_eq_ok, List.forall₂_map_right_iff, List.forall₂_same]
    exact fun entry member => ranks entry (List.mem_range.mp member)
  have each : ∀ i own state, ((List.range b.settings.batchSize).map ranked)[i]? = Option.some own →
      b.entries[i]? = Option.some state →
      ∃ part after, Step.Returns (stepEntry b.settings b.histories (0 + i) own) state part after ∧
        Steps elementary b (0 + i) part after := by
    intro i own state found there
    have inside : i < b.settings.batchSize :=
      sound.entries ▸ (List.getElem?_eq_some_iff.mp there).1
    rw [List.getElem?_map, List.getElem?_range inside] at found
    obtain rfl := Option.some.inj found
    rw [Nat.zero_add]
    exact sound.steps fresh some there (ranks i inside) fun live => clean i state there live
  obtain ⟨parts, entries, stepped, count, count', steps⟩ := stepEntries_total
    (by rw [List.length_map, List.length_range, sound.entries]) each
  refine ⟨_, parts, entries, all, stepped, count.trans sound.entries, fun entry part found => ?_⟩
  have inside : entry < entries.length :=
    (count'.trans count.symm) ▸ (List.getElem?_eq_some_iff.mp found).1
  have step := steps entry part _ found (List.getElem?_eq_getElem inside)
  rw [Nat.zero_add] at step
  exact ⟨_, List.getElem?_eq_getElem inside, step⟩

theorem Sound.descends {b : Beam} (sound : b.Sound) (room : b.histories.isFull = false)
    {parts : List (List Survivor)} (count : parts.length = b.settings.batchSize)
    (sized : ∀ part ∈ parts, part.length = b.settings.beams)
    (inside : ∀ part ∈ parts, ∀ survivor ∈ part, survivor.parent < b.histories.rows.length) :
    ∃ histories, b.histories.descend (parts.flatten.map (·.parent)) (parts.flatten.map (·.token)) =
        .ok histories ∧
      histories.rows = parts.flatten.map fun survivor =>
        b.histories.rows.getD survivor.parent [] ++ [survivor.token] := by
  have total : parts.flatten.length = b.histories.rows.length := by
    rw [List.length_flatten, List.map_congr_left sized, List.map_const', List.sum_replicate_nat,
      count, sound.rows, Settings.rowCount]
  have fits : b.histories.length + 1 ≤ b.histories.capacity :=
    Nat.succ_le_of_lt (by simpa [Histories.isFull] using room)
  have parents : ∀ survivor ∈ parts.flatten, survivor.parent < b.histories.rows.length := by
    intro survivor member
    obtain ⟨part, here, member⟩ := List.mem_flatten.mp member
    exact inside part here survivor member
  refine ⟨_, Histories.descend_eq_ok.mpr ⟨(List.length_map (·.parent)).trans total,
    (List.length_map (·.token)).trans total, fits, List.forall_mem_map.mpr parents, rfl⟩, ?_⟩
  rw [List.map_map, List.zipWith_map, List.zipWith_self]
  rfl

/-- From every state of a beam search, a step keeps exactly the best expansions of every entry that
goes on, and always finds enough of them. -/
theorem selectTop_keeps_best {elementary : Elementary} {b : Beam}
    (reachable : Reachable elementary b) (fresh : b.scores.fresh = true)
    (going : b.finals = none) (room : b.histories.isFull = false)
    (some : ∃ token < b.scores.vocabulary, b.settings.isEnd token = false)
    (clean : ∀ entry state, b.entries[entry]? = Option.some state → state.done = false →
      ∀ x ∈ b.candidates elementary entry, x.score.isNaN = false) :
    ∃ b', Step.Returns (selectTop elementary) b () b' ∧
      ∀ entry state, b.entries[entry]? = Option.some state → state.done = false →
        ∃ chosen top, Keeps elementary b b' entry state chosen top := by
  have sound := reachable.sound
  obtain ⟨ranked, parts, entries, ranks, stepped, count, entered⟩ :=
    sound.stepEntries fresh some clean
  have each : ∀ part ∈ parts, part.length = b.settings.beams ∧
      ∀ survivor ∈ part, survivor.parent < b.histories.rows.length := by
    intro part member
    obtain ⟨entry, found⟩ := List.getElem?_of_mem member
    obtain ⟨_, -, step⟩ := entered entry part found
    exact ⟨step.sized, step.inside⟩
  have sized : ∀ part ∈ parts, part.length = b.settings.beams := fun part member =>
    (each part member).1
  obtain ⟨histories, descended, rows⟩ := sound.descends room count sized fun part member =>
    (each part member).2
  refine ⟨_, selectTop_returns.mpr ⟨LoadedScores.requireFresh_eq_ok.mpr fresh, by simp [going],
    _, _, _, _, ranks, stepped, descended, rfl⟩, fun entry state found live => ?_⟩
  have inside : entry < parts.length :=
    (count.trans sound.entries.symm) ▸ (List.getElem?_eq_some_iff.mp found).1
  have part := List.getElem?_eq_getElem inside
  obtain ⟨after, there, step⟩ := entered entry _ part
  obtain ⟨chosen, top, best, lead, same, offered⟩ := step.best state found live
  rw [same] at part
  refine ⟨chosen, top, best, lead, ?_, ?_, ?_, ?_, by rw [there, Option.map_some, offered]⟩
  · rw [ofEntry_map _ count sized part, List.map_map]
    rfl
  · rw [ofEntry_map _ count sized part, List.map_map]
    rfl
  · rw [ofEntry_map _ count sized part, List.map_map]
    rfl
  · rw [rows, ofEntry_map _ count sized part, List.map_map]
    rfl

/-- Exponential and logarithm at the arguments where binary32 has their exact values: zero and one,
and so far below zero that nothing is left. -/
def exactElementary : Elementary := ⟨fun x => if x == 0 then 1 else 0, fun x => x - 1⟩

def pair : Beam where
  settings := {
    batchSize := 1, beams := 2, returnCount := 1, maxLength := 8, vocabulary := 4, pad := 0
    endTokens := [3, 3, 9], lengthPenalty := 1, earlyStopping := true, seed := none
    minLength := 0, repetitionPenalty := 1 }
  histories := ⟨[[1], [1]], 1, 1, 8⟩
  scores := .empty
  beamScores := [0, inactiveScore]
  entries := [⟨.empty 2 1 true, false⟩]
  nextTokens := [0, 0]
  nextIndices := [0, 1]
  done := false
  finals := none

def pairScores : Tensor :=
  .packed .f32 [2, 4] ([-200, -300, -200, 0, 0, -200, -300, -200].map .real)

theorem pair_keeps_best : ∃ b', Step.Returns (selectTop exactElementary)
      (setScores pairScores pair).2 () b' ∧
    ∀ entry state, (setScores pairScores pair).2.entries[entry]? = some state →
      state.done = false → ∃ chosen top,
        Keeps exactElementary (setScores pairScores pair).2 b' entry state chosen top := by
  have started : start pair.settings [1] = .ok pair := rfl
  have goes : ∃ token < (setScores pairScores pair).2.scores.vocabulary,
      pair.settings.isEnd token = false := ⟨0, by decide +kernel, by decide +kernel⟩
  refine selectTop_keeps_best (.setScores _ (.start started)) (by decide +kernel) rfl rfl goes ?_
  intro entry state found _
  obtain rfl : entry = 0 := Nat.lt_one_iff.mp (List.getElem?_eq_some_iff.mp found).1
  decide +kernel

end StagedDecoding.Beam
