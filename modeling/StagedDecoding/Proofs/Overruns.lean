import StagedDecoding.Proofs.BeamBounds
import StagedDecoding.Proofs.FinalResults

/-! Selections that break off.

A selection steps its entries first and moves the histories on afterwards. If an entry runs out of
survivors, or if the histories are full, what the entries were offered until then stays with them.
So a result can come from a selection that failed, if no token goes on with a sequence or if the
histories were full, and it is too long exactly in the second case.
-/

set_option autoImplicit false

namespace StagedDecoding.Beam

variable {elementary : Elementary} {settings : Settings} {b b' : Beam} {entry : Nat}
  {failure : Failure}

def ranking (elementary : Elementary) (b : Beam) (entry : Nat) : List Expansion :=
  ((b.candidates elementary entry).mergeSort fun x y => !(x.score < y.score)).take
    (rankDepth b.settings)

def rankings (elementary : Elementary) (b : Beam) : List (List Expansion) :=
  (List.range b.settings.batchSize).map (b.ranking elementary)

def offered (elementary : Elementary) (b : Beam) (entry : Nat) (finished : Hypotheses) :
    Hypotheses :=
  offerAll (b.completions elementary entry) finished

def stepped (elementary : Elementary) (b : Beam) (entry : Nat) (state : BeamEntry) : BeamEntry :=
  if state.done then state
  else
    let finished := b.offered elementary entry state.finished
    ⟨finished, finished.isDone (bestScore (b.ranking elementary entry)) (b.histories.length + 1)⟩

/-- How a selection is refused, and what it leaves of the entries. Entries that it got to have taken
their step, except for one that starves, which is offered what it completes all the same. -/
inductive Refused (elementary : Elementary) (b : Beam) : Failure → List BeamEntry → Prop where
  | stale : b.scores.fresh = false → Refused elementary b .scoresMissing b.entries
  | fixed : b.scores.fresh = true → b.finals.isSome = true →
      Refused elementary b (.unsupportedOperation .beam .selectAfterFinalize) b.entries
  | starved {entry : Nat} {state : BeamEntry} : b.scores.fresh = true → b.finals = none →
      b.entries[entry]? = some state → state.done = false →
      (continuing b.settings (b.ranking elementary entry)).length < b.settings.beams →
      Refused elementary b
        (.shape (.survivors b.settings.beams)
          (.count (continuing b.settings (b.ranking elementary entry)).length))
        (b.entries.mapIdx fun i state =>
          if i < entry then b.stepped elementary i state
          else if i = entry then { state with finished := b.offered elementary i state.finished }
          else state)
  | full : b.scores.fresh = true → b.finals = none → b.histories.isFull = true →
      Refused elementary b (.overflow b.histories.capacity)
        (b.entries.mapIdx (b.stepped elementary))

theorem stepEntry_fails {histories : Histories} {ranked : List Expansion}
    {before after : BeamEntry} (some : 0 < settings.beams)
    (rows : ∀ x ∈ ranked, entry * settings.beams + x.beam < histories.rows.length)
    (failed : Step.Fails (stepEntry settings histories entry ranked) before failure after) :
    before.done = false ∧ (continuing settings ranked).length < settings.beams ∧
      failure = .shape (.survivors settings.beams) (.count (continuing settings ranked).length) ∧
      after = { before with
        finished :=
          offer settings histories entry before.finished (completing settings ranked) } := by
  have chosen := @choose_eq settings histories entry 0 ranked [] before.finished rows some
    (Nat.zero_le 0)
  simp only [stepEntry, Step.throw_bind, Step.fails_bind, Step.fails_get, Step.returns_get,
    false_or] at failed
  obtain ⟨_, _, ⟨rfl, rfl⟩, failed⟩ := failed
  -- an entry that is over cannot fail, and a live one only after the walk
  split at failed
  · exact (Step.fails_pure.mp failed).elim
  · next live =>
    simp only [Step.fails_bind, Step.fails_lift, Step.fails_set, Step.returns_lift,
      Step.returns_set, chosen, reduceCtorEq, false_and, false_or, Except.ok.injEq] at failed
    obtain ⟨_, _, ⟨rfl, rfl⟩, _, _, rfl, failed⟩ := failed
    dsimp only at failed
    split at failed
    · next short =>
      obtain ⟨rfl, rfl⟩ := Step.fails_throw.mp failed
      simp only [List.nil_append, List.length_nil, Nat.sub_zero, List.length_map] at short ⊢
      exact ⟨by simpa using live, short, rfl, rfl⟩
    · simp only [Step.fails_bind, Step.fails_set, Step.fails_pure, and_false, exists_false,
        or_false] at failed

/-- Entries fail at the first of them that does. Those before it have taken their step, and those
after it are as they were. -/
theorem stepEntries_fails {histories : Histories} {expansions : List (List Expansion)}
    {before after : List BeamEntry} (count : expansions.length = before.length)
    (failed : Step.Fails (stepEntries settings histories entry expansions) before failure after) :
    ∃ i own state state', expansions[i]? = some own ∧ before[i]? = some state ∧
      after[i]? = some state' ∧
      Step.Fails (stepEntry settings histories (entry + i) own) state failure state' ∧
      (∀ j < i, ∃ own state state' part, expansions[j]? = some own ∧ before[j]? = some state ∧
        after[j]? = some state' ∧
        Step.Returns (stepEntry settings histories (entry + j) own) state part state') ∧
      ∀ j, i < j → after[j]? = before[j]? := by
  -- along the entries; nothing is looked at behind the one that fails
  induction expansions generalizing entry before after with
  | nil =>
    rw [stepEntries_nil, Step.fails_pure] at failed
    exact failed.elim
  | cons own rest ih =>
    obtain ⟨state, states, rfl⟩ := List.exists_cons_of_length_eq_add_one count.symm
    obtain ⟨state', stepped, rfl⟩ | ⟨part, state', states', stepped, walked, rfl⟩ :=
      stepEntries_cons_fails.mp failed
    · refine ⟨0, own, state, state', rfl, rfl, rfl, stepped, nofun, fun j later => ?_⟩
      obtain ⟨j, rfl⟩ := Nat.exists_eq_succ_of_ne_zero (Nat.ne_of_gt later)
      rfl
    · obtain ⟨i, own', state₁, state₂, found, there, left, broken, passed, kept⟩ :=
        ih (Nat.succ.inj count) walked
      rw [Nat.add_right_comm, Nat.add_assoc] at broken
      refine ⟨i + 1, own', state₁, state₂, found, there, left, broken, fun j earlier => ?_,
        fun j later => ?_⟩
      · cases j with
        | zero => exact ⟨own, state, state', part, rfl, rfl, rfl, stepped⟩
        | succ j =>
          have returned := passed j (Nat.lt_of_succ_lt_succ earlier)
          rwa [Nat.add_right_comm, Nat.add_assoc] at returned
      · obtain ⟨j, rfl⟩ := Nat.exists_eq_succ_of_ne_zero (Nat.ne_zero_of_lt later)
        exact kept j (Nat.lt_of_succ_lt_succ later)

theorem Sound.rank_ranking (sound : b.Sound) (elementary : Elementary)
    (fresh : b.scores.fresh = true) (inside : entry < b.settings.batchSize) :
    b.rank elementary entry = .ok (b.ranking elementary entry) := sound.rank_eq fresh inside

theorem Sound.rankEntries_rankings (sound : b.Sound) (fresh : b.scores.fresh = true) :
    b.rankEntries elementary (List.range b.settings.batchSize) = .ok (b.rankings elementary) := by
  rw [rankEntries_eq_ok, rankings, List.forall₂_map_right_iff, List.forall₂_same]
  exact fun entry member => sound.rank_ranking elementary fresh (List.mem_range.mp member)

theorem length_rankings (elementary : Elementary) (b : Beam) :
    (b.rankings elementary).length = b.settings.batchSize := by
  rw [rankings, List.length_map, List.length_range]

theorem getElem?_rankings {own : List Expansion}
    (found : (b.rankings elementary)[entry]? = some own) :
    entry < b.settings.batchSize ∧ own = b.ranking elementary entry := by
  have inside : entry < b.settings.batchSize :=
    length_rankings elementary b ▸ (List.getElem?_eq_some_iff.mp found).1
  rw [rankings, List.getElem?_map, List.getElem?_range inside] at found
  exact ⟨inside, (Option.some.inj found).symm⟩

theorem Sound.stepped_eq (sound : b.Sound) (fresh : b.scores.fresh = true)
    (inside : entry < b.settings.batchSize) {before after : BeamEntry} {part : List Survivor}
    (returned : Step.Returns
      (stepEntry b.settings b.histories entry (b.ranking elementary entry)) before part after) :
    after = b.stepped elementary entry before := by
  have ranks := sound.rank_ranking elementary fresh inside
  unfold stepped offered
  cases live : before.done with
  | true => exact (Step.returns_unique returned (stepEntry_ended live)).2
  | false =>
    obtain ⟨-, -, finished, done⟩ := sound.stepEntry_walked inside ranks live returned
    rw [offer_eq, ← completions_eq sound fresh inside ranks] at finished
    rw [if_neg Bool.false_ne_true]
    dsimp only
    rw [← finished, ← done]

theorem descend_refused {h : Histories} {parents : List Nat} {tokens : List Token}
    (counted : parents.length = h.rows.length) (matched : tokens.length = h.rows.length)
    (inside : ∀ parent ∈ parents, parent < h.rows.length)
    (refused : h.descend parents tokens = .error failure) :
    h.isFull = true ∧ failure = .overflow h.capacity := by
  by_cases room : h.length + 1 ≤ h.capacity
  · rw [Histories.descend_eq_ok.mpr ⟨counted, matched, room, inside, rfl⟩] at refused
    cases refused
  · have full : h.capacity < h.length + 1 := Nat.lt_of_not_le room
    simp only [Histories.descend, Histories.checkRowCount, Histories.rowCount, counted, matched,
      Histories.checkCapacity, full, if_true, bind, Except.bind, Except.error.injEq] at refused
    exact ⟨decide_eq_true (Nat.le_of_lt_succ full), refused.symm⟩

theorem rows_of_stepEntries (sound : b.Sound) (fresh : b.scores.fresh = true)
    {survivors : List Survivor} {entries : List BeamEntry}
    (returned : Step.Returns
      (stepEntries b.settings b.histories 0 (b.rankings elementary)) b.entries survivors entries) :
    survivors.length = b.histories.rows.length ∧
      ∀ survivor ∈ survivors, survivor.parent < b.histories.rows.length := by
  obtain ⟨parts, rfl, counted, each⟩ := stepEntries_parts returned
  have own : ∀ part ∈ parts, part.length = b.settings.beams ∧
      ∀ survivor ∈ part, survivor.parent < b.histories.rows.length := by
    intro part member
    obtain ⟨i, found⟩ := List.getElem?_of_mem member
    obtain ⟨ranked, before, after, listed, -, -, stepped⟩ := each i part found
    obtain ⟨inside, rfl⟩ := getElem?_rankings listed
    rw [Nat.zero_add] at stepped
    exact sound.stepEntry_rows inside (sound.rank_ranking elementary fresh inside) stepped
  refine ⟨?_, fun survivor member => ?_⟩
  · rw [survivors_length (counted.trans (length_rankings elementary b))
      fun part member => (own part member).1, sound.rows]
  · obtain ⟨part, here, inside⟩ := List.mem_flatten.mp member
    exact (own part here).2 survivor inside

theorem stepped_of_stepEntries (sound : b.Sound) (fresh : b.scores.fresh = true)
    {survivors : List Survivor} {entries : List BeamEntry}
    (returned : Step.Returns
      (stepEntries b.settings b.histories 0 (b.rankings elementary)) b.entries survivors entries) :
    entries = b.entries.mapIdx (b.stepped elementary) := by
  have kept := stepEntries_length b.settings b.histories 0 (b.rankings elementary) b.entries
  rw [returned] at kept
  obtain ⟨parts, -, counted, each⟩ := stepEntries_parts returned
  refine List.ext_getElem (by rw [List.length_mapIdx, kept]) fun i bound _ => ?_
  have here : i < parts.length := by
    rw [counted, length_rankings, ← sound.entries, ← kept]
    exact bound
  obtain ⟨ranked, before, after, listed, entered, left, stepped⟩ :=
    each i _ (List.getElem?_eq_getElem here)
  obtain ⟨inside, rfl⟩ := getElem?_rankings listed
  rw [Nat.zero_add] at stepped
  obtain ⟨_, rfl⟩ := List.getElem?_eq_some_iff.mp entered
  obtain ⟨_, rfl⟩ := List.getElem?_eq_some_iff.mp left
  rw [List.getElem_mapIdx]
  exact sound.stepped_eq fresh inside stepped

theorem starved_of_stepEntries (sound : b.Sound) (fresh : b.scores.fresh = true)
    (going : b.finals = none) {entries : List BeamEntry}
    (failed : Step.Fails
      (stepEntries b.settings b.histories 0 (b.rankings elementary)) b.entries failure entries) :
    Refused elementary b failure entries := by
  obtain ⟨i, ranked, state, state', found, there, left, broken, passed, kept⟩ :=
    stepEntries_fails ((length_rankings elementary b).trans sound.entries.symm) failed
  rw [Nat.zero_add] at broken
  obtain ⟨inside, rfl⟩ := getElem?_rankings found
  have ranks := sound.rank_ranking elementary fresh inside
  obtain ⟨live, short, rfl, rfl⟩ := stepEntry_fails sound.some (fun x member => by
    rw [sound.rows]
    exact row_lt inside (beam_of_mem_rank ranks x member)) broken
  rw [offer_eq, ← completions_eq sound fresh inside ranks] at left
  have reached : entries = b.entries.mapIdx fun j state =>
      if j < i then b.stepped elementary j state
      else if j = i then { state with finished := b.offered elementary j state.finished }
      else state := by
    refine List.ext_getElem? fun j => ?_
    rw [List.getElem?_mapIdx]
    obtain earlier | rfl | later := Nat.lt_trichotomy j i
    · obtain ⟨ranked, before, after, part, listed, entered, left, returned⟩ := passed j earlier
      obtain ⟨bound, rfl⟩ := getElem?_rankings listed
      rw [Nat.zero_add] at returned
      rw [left, entered, Option.map_some, if_pos earlier, sound.stepped_eq fresh bound returned]
    · rw [left, there, Option.map_some, if_neg (Nat.lt_irrefl _), if_pos rfl]
      rfl
    · rw [kept j later]
      have apart := Nat.ne_of_gt later
      simp [Nat.not_lt.mpr (Nat.le_of_lt later), apart]
  exact reached ▸ .starved fresh going there live short

theorem selectTop_refuses (sound : b.Sound)
    (failed : Step.Fails (selectTop elementary) b failure b') :
    b' = { b with entries := b'.entries } ∧ Refused elementary b failure b'.entries := by
  simp only [selectTop, Step.throw_bind, Step.fails_bind, Step.fails_get, Step.fails_lift,
    Step.returns_get, Step.returns_lift, false_or] at failed
  obtain ⟨_, _, ⟨rfl, rfl⟩, ⟨stale, rfl⟩ | ⟨_, _, ⟨ready, rfl⟩, failed⟩⟩ := failed
  · obtain ⟨old, rfl⟩ := LoadedScores.requireFresh_eq_error.mp stale
    exact ⟨rfl, .stale old⟩
  have fresh := LoadedScores.requireFresh_eq_ok.mp ready
  split at failed
  · next fixed =>
    obtain ⟨rfl, rfl⟩ := Step.fails_throw.mp failed
    exact ⟨rfl, .fixed fresh fixed⟩
  next going =>
  have going : b.finals = none := by simpa using going
  simp only [Step.fails_bind, Step.fails_lift, Step.fails_modify, Step.fails_within,
    Step.returns_lift, Step.returns_within, sound.rankEntries_rankings fresh, reduceCtorEq,
    false_and, false_or, Except.ok.injEq, and_false, exists_false, or_false] at failed
  obtain ⟨_, _, ⟨rfl, rfl⟩, failed⟩ := failed
  obtain ⟨entries, broken, rfl⟩ | ⟨survivors, _, ⟨entries, stepped, rfl⟩, refused, rfl⟩ := failed
  · exact ⟨rfl, starved_of_stepEntries sound fresh going broken⟩
  · -- every entry has stepped by the time the histories are asked
    obtain ⟨counted, parents⟩ := rows_of_stepEntries sound fresh stepped
    obtain ⟨full, rfl⟩ := descend_refused ((List.length_map _).trans counted)
      ((List.length_map _).trans counted) (List.forall_mem_map.mpr parents) refused
    exact ⟨rfl, stepped_of_stepEntries sound fresh stepped ▸ .full fresh going full⟩

structure Finishes (elementary : Elementary) (b : Beam) (tokens : List Token) : Prop where
  fresh : b.scores.fresh = true
  going : b.finals = none
  listed : ∃ entry, b.goesOn entry = true ∧
    tokens ∈ (b.completions elementary entry).map (·.1)

theorem goesOn_iff :
    b.goesOn entry = true ↔ ∃ state, b.entries[entry]? = some state ∧ state.done = false := by
  simp [goesOn, Option.any_eq_true]

theorem Finishes.length_eq {tokens : List Token} (completes : b.Finishes elementary tokens)
    (sized : b.Sized settings) : tokens.length = b.histories.length + 1 := by
  obtain ⟨fresh, -, entry, goes, listed⟩ := completes
  have sound := sized.sound
  have inside : entry < b.settings.batchSize := by
    obtain ⟨state, found, -⟩ := goesOn_iff.mp goes
    exact sound.entries ▸ (List.getElem?_eq_some_iff.mp found).1
  have ranks := sound.rank_ranking elementary fresh inside
  rw [completions_eq sound fresh inside ranks, offers, List.map_map] at listed
  obtain ⟨x, member, rfl⟩ := List.mem_map.mp listed
  have bound := beam_of_mem_rank ranks x (mem_of_mem_completing member).1
  have row : entry * b.settings.beams + x.beam < b.histories.rows.length :=
    sound.rows ▸ row_lt inside bound
  change (extended b.settings b.histories entry x).length = _
  rw [extended, List.getD_eq_getElem _ _ row, List.length_append, List.length_singleton,
    sized.level.rectangular.width _ (List.getElem_mem row)]

theorem mem_offered {finished : Hypotheses} {tokens : List Token}
    (member : tokens ∈ (b.offered elementary entry finished).kept.map (·.tokens)) :
    tokens ∈ finished.kept.map (·.tokens) ∨
      tokens ∈ (b.completions elementary entry).map (·.1) :=
  List.mem_append.mp ((Hypotheses.sublist_offerAll _ _).subset member)

/-- The states of a beam search, with the states in which a selection was tried, the latest first.
Whatever a call comes to, what it leaves is one of them. -/
inductive Tried (elementary : Elementary) (settings : Settings) (inputIds : List Token) :
    List Beam → Beam → Prop where
  | start {b : Beam} : Beam.start settings inputIds = .ok b →
      Tried elementary settings inputIds [] b
  | prepare {tries : List Beam} {b : Beam} {preparation : Preparation} :
      Tried elementary settings inputIds tries b →
      Tried elementary settings inputIds tries (Beam.prepare preparation b).2
  | selectTop {tries : List Beam} {b : Beam} : Tried elementary settings inputIds tries b →
      Tried elementary settings inputIds (b :: tries) (Beam.selectTop elementary b).2
  | finalize {tries : List Beam} {b : Beam} (count : Nat) :
      Tried elementary settings inputIds tries b →
      Tried elementary settings inputIds tries (Beam.finalize count b).2
  | sequence {tries : List Beam} {b : Beam} (index : Nat) :
      Tried elementary settings inputIds tries b →
      Tried elementary settings inputIds tries (Beam.sequence index b).2

variable {inputIds : List Token} {tries : List Beam}

structure Recorded (elementary : Elementary) (settings : Settings) (tries : List Beam) (b : Beam) :
    Prop where
  sized : b.Sized settings
  capacity : b.histories.capacity = settings.maxLength
  tried : ∀ attempt ∈ tries,
    attempt.Sized settings ∧ attempt.histories.capacity = settings.maxLength
  kept : b.finals = none → ∀ state ∈ b.entries, ∀ tokens ∈ state.finished.kept.map (·.tokens),
    ∃ attempt ∈ tries, attempt.Finishes elementary tokens
  finals : ∀ finals, b.finals = some finals → ∀ tokens ∈ finals.map (·.tokens),
    tokens ∈ b.histories.rows ∨ ∃ attempt ∈ tries, attempt.Finishes elementary tokens

theorem Recorded.start (started : Beam.start settings inputIds = .ok b) :
    b.Recorded elementary settings [] := by
  refine ⟨.start started, ?_, nofun, fun _ state member tokens inside => ?_, ?_⟩
  · obtain ⟨-, histories, began, rfl⟩ := start_eq_ok started
    obtain ⟨-, rfl⟩ := Histories.start_eq_ok began
    rfl
  · obtain ⟨i, found⟩ := List.getElem?_of_mem member
    obtain ⟨-, rfl⟩ := entry_of_start started found
    cases inside
  · obtain ⟨-, histories, -, rfl⟩ := start_eq_ok started
    exact nofun

theorem Sized.prepare (sized : b.Sized settings) (preparation : Preparation) :
    Step.Safe (Sized settings) (Beam.prepare preparation) b := by
  cases preparation with
  | load tensor => exact sized.setScores
  | constrainLength minLength => exact sized.constrainLength minLength
  | penalize penalty => exact sized.penalize penalty

theorem prepare_fails {preparation : Preparation}
    (failed : Step.Fails (Beam.prepare preparation) b failure b') : b' = b := by
  cases preparation <;> exact (Step.fails_attempt.mp failed).2.symm

theorem Recorded.prepare {preparation : Preparation}
    (recorded : b.Recorded elementary settings tries) :
    (Beam.prepare preparation b).2.Recorded elementary settings tries := by
  have sized := (recorded.sized.prepare preparation).leaves
  obtain ⟨u, ran⟩ | ⟨failure, failed⟩ := Step.returns_or_fails (Beam.prepare preparation) b
  · obtain ⟨scores, same⟩ := prepare_rescores ran
    rw [same] at sized ⊢
    exact ⟨sized, recorded.capacity, recorded.tried, recorded.kept, recorded.finals⟩
  · rw [prepare_fails failed]
    exact recorded

theorem adds_of_offered (fresh : b.scores.fresh = true) (going : b.finals = none)
    {before after : BeamEntry} {tokens : List Token} (found : b.entries[entry]? = some before)
    (same : after.finished = before.finished ∨
      before.done = false ∧ after.finished = b.offered elementary entry before.finished)
    (kept : tokens ∈ after.finished.kept.map (·.tokens)) :
    (∃ before ∈ b.entries, tokens ∈ before.finished.kept.map (·.tokens)) ∨
      b.Finishes elementary tokens := by
  obtain same | ⟨live, same⟩ := same
  · exact .inl ⟨before, List.mem_of_getElem? found, same ▸ kept⟩
  · rw [same] at kept
    refine (mem_offered kept).imp (fun old => ?_) fun new => ?_
    · exact ⟨before, List.mem_of_getElem? found, old⟩
    · exact ⟨fresh, going, entry, goesOn_iff.mpr ⟨before, found, live⟩, new⟩

theorem stepped_finished (state : BeamEntry) :
    (b.stepped elementary entry state).finished = state.finished ∨
      state.done = false ∧
        (b.stepped elementary entry state).finished =
          b.offered elementary entry state.finished := by
  unfold stepped
  cases state.done with
  | true => exact .inl rfl
  | false => exact .inr ⟨rfl, rfl⟩

theorem selectTop_adds (sound : b.Sound) {after : BeamEntry} {tokens : List Token}
    (left : after ∈ (Beam.selectTop elementary b).2.entries)
    (kept : tokens ∈ after.finished.kept.map (·.tokens)) :
    (∃ before ∈ b.entries, tokens ∈ before.finished.kept.map (·.tokens)) ∨
      b.Finishes elementary tokens := by
  obtain ⟨i, found⟩ := List.getElem?_of_mem left
  obtain ⟨u, ran⟩ | ⟨failure, failed⟩ := Step.returns_or_fails (Beam.selectTop elementary) b
  · have fresh := fresh_of_selectTop ran
    obtain ⟨-, going, expansions, _, entries, _, ranked, stepped, -, same⟩ :=
      selectTop_returns.mp ran
    obtain rfl := Except.ok.inj (ranked.symm.trans (sound.rankEntries_rankings fresh))
    rw [same] at found
    dsimp only at found
    rw [stepped_of_stepEntries sound fresh stepped, List.getElem?_mapIdx] at found
    obtain ⟨before, there, rfl⟩ := Option.map_eq_some_iff.mp found
    exact adds_of_offered fresh (by simpa using going) there (stepped_finished before) kept
  · obtain ⟨-, refused⟩ := selectTop_refuses sound failed
    generalize (Beam.selectTop elementary b).2.entries = entries at found refused
    cases refused with
    | stale | fixed => exact .inl ⟨after, List.mem_of_getElem? found, kept⟩
    | @starved entry state fresh going here live short =>
      rw [List.getElem?_mapIdx] at found
      obtain ⟨before, there, rfl⟩ := Option.map_eq_some_iff.mp found
      -- entries in front of the one that starves have stepped, and those behind it have not
      refine adds_of_offered fresh going there ?_ kept
      split
      · exact stepped_finished before
      · split
        · next same =>
          subst same
          obtain rfl := Option.some.inj (here.symm.trans there)
          exact .inr ⟨live, rfl⟩
        · exact .inl rfl
    | full fresh going =>
      rw [List.getElem?_mapIdx] at found
      obtain ⟨before, there, rfl⟩ := Option.map_eq_some_iff.mp found
      exact adds_of_offered fresh going there (stepped_finished before) kept

theorem Recorded.selectTop (recorded : b.Recorded elementary settings tries) :
    (Beam.selectTop elementary b).2.Recorded elementary settings (b :: tries) := by
  have sized : (Beam.selectTop elementary b).2.Sized settings := recorded.sized.selectTop.leaves
  have tried : ∀ attempt ∈ b :: tries,
      attempt.Sized settings ∧ attempt.histories.capacity = settings.maxLength :=
    List.forall_mem_cons.mpr ⟨⟨recorded.sized, recorded.capacity⟩, recorded.tried⟩
  have later : ∀ {tokens}, (∃ attempt ∈ tries, attempt.Finishes elementary tokens) →
      ∃ attempt ∈ b :: tries, attempt.Finishes elementary tokens :=
    fun ⟨attempt, member, completes⟩ => ⟨attempt, List.mem_cons_of_mem b member, completes⟩
  have adds : b.finals = none → ∀ state ∈ (Beam.selectTop elementary b).2.entries,
      ∀ tokens ∈ state.finished.kept.map (·.tokens),
        ∃ attempt ∈ b :: tries, attempt.Finishes elementary tokens := by
    intro going state member tokens inside
    obtain ⟨before, here, found⟩ | completes := selectTop_adds recorded.sized.sound member inside
    · exact later (recorded.kept going before here tokens found)
    · exact ⟨b, List.mem_cons_self, completes⟩
  obtain ⟨u, ran⟩ | ⟨failure, failed⟩ := Step.returns_or_fails (Beam.selectTop elementary) b
  · obtain ⟨-, going, _, _, _, histories, -, -, descended, same⟩ := selectTop_returns.mp ran
    have going : b.finals = none := by simpa using going
    obtain ⟨-, -, -, -, grown⟩ := Histories.descend_eq_ok.mp descended
    refine ⟨sized, ?_, tried, fun _ => adds going, ?_⟩
    · rw [same, grown]
      exact recorded.capacity
    · rw [same, going]
      exact nofun
  · -- a selection that is refused has changed nothing but entries
    obtain ⟨same, -⟩ := selectTop_refuses recorded.sized.sound failed
    have finals : (Beam.selectTop elementary b).2.finals = b.finals := by rw [same]
    have histories : (Beam.selectTop elementary b).2.histories = b.histories := by rw [same]
    refine ⟨sized, histories ▸ recorded.capacity, tried, fun going => adds (finals ▸ going), ?_⟩
    rw [finals, histories]
    intro finals fixed tokens member
    exact (recorded.finals finals fixed tokens member).imp_right later

theorem mem_liveOffers (sound : b.Sound) (inside : entry < b.settings.batchSize)
    {tokens : List Token} (member : tokens ∈ (b.liveOffers entry).map (·.1)) :
    tokens ∈ b.histories.rows := by
  simp only [liveOffers, rowsOf, List.map_map, List.mem_map, List.mem_range] at member
  obtain ⟨beam, bound, rfl⟩ := member
  have row : entry * b.settings.beams + beam < b.histories.rows.length :=
    sound.rows ▸ row_lt inside bound
  change b.histories.rows.getD (entry * b.settings.beams + beam) [] ∈ b.histories.rows
  rw [List.getD_eq_getElem _ _ row]
  exact List.getElem_mem row

theorem mem_results (sound : b.Sound) {count : Nat} {tokens : List Token}
    (member : tokens ∈ (b.results count).map (·.tokens)) :
    (∃ state ∈ b.entries, tokens ∈ state.finished.kept.map (·.tokens)) ∨
      tokens ∈ b.histories.rows := by
  obtain ⟨final, listed, rfl⟩ := List.mem_map.mp member
  obtain ⟨closed, inside, listed⟩ := List.mem_flatMap.mp listed
  have kept := List.mem_map_of_mem (f := (·.tokens))
    (Hypotheses.mem_ranked (List.mem_of_mem_take listed))
  obtain ⟨entry, found⟩ := List.getElem?_of_mem inside
  rw [getElem?_closing] at found
  obtain ⟨state, there, rfl⟩ := Option.map_eq_some_iff.mp found
  have bound : entry < b.settings.batchSize :=
    sound.entries ▸ (List.getElem?_eq_some_iff.mp there).1
  split at kept
  · exact .inl ⟨state, List.mem_of_getElem? there, kept⟩
  · exact (List.mem_append.mp ((Hypotheses.sublist_offerAll _ _).subset kept)).imp
      (fun old => ⟨state, List.mem_of_getElem? there, old⟩) (mem_liveOffers sound bound)

theorem Recorded.finalize (recorded : b.Recorded elementary settings tries) (count : Nat) :
    (Beam.finalize count b).2.Recorded elementary settings tries := by
  have sized := (recorded.sized.finalize count).leaves
  obtain ⟨finals, ran⟩ | ⟨failure, failed⟩ := Step.returns_or_fails (Beam.finalize count) b
  · cases fixed : b.finals with
    | some finals =>
      rw [(Step.returns_unique ran (finalize_fixed fixed count)).2]
      exact recorded
    | none =>
      obtain ⟨-, -, -, same⟩ := finalize_inv recorded.sized.sound fixed ran
      rw [same] at sized ⊢
      refine ⟨sized, recorded.capacity, recorded.tried, nofun, fun finals given tokens member => ?_⟩
      obtain rfl := Option.some.inj given
      obtain ⟨state, inside, kept⟩ | row := mem_results recorded.sized.sound member
      · exact .inr (recorded.kept fixed state inside tokens kept)
      · exact .inl row
  · rw [finalize_fails failed]
    exact recorded

theorem sequence_leaves (index : Nat) :
    (Beam.sequence index b).2 = (Beam.finalize b.settings.returnCount b).2 := by
  have left : Step.Leaves (· = (Beam.finalize b.settings.returnCount b).2)
      (Beam.sequence index) b := by
    simp only [Step.Leaves, Beam.sequence, Step.ends_bind, Step.ends_get]
    refine Step.ends_iff.mpr ⟨fun finals after ran => ?_, fun failure after failed => ?_⟩
    · rw [Step.Returns] at ran
      rw [ran]
      split <;> rfl
    · rw [Step.Fails] at failed
      rw [failed]
  have same := Step.leaves_iff.mp left
  exact same

theorem Tried.recorded (tried : Tried elementary settings inputIds tries b) :
    b.Recorded elementary settings tries := by
  induction tried with
  | start started => exact .start started
  | prepare _ ih => exact ih.prepare
  | selectTop _ ih => exact ih.selectTop
  | finalize count _ ih => exact ih.finalize count
  | @sequence _ b index _ ih => exact sequence_leaves (b := b) index ▸ ih.finalize _

/-- Where a result comes from. It is a row of the search, or it was completed when a selection was
tried. If the selection failed, either every token ends a sequence, so that an entry starved, or the
histories were full and the result is too long. -/
inductive Sourced (elementary : Elementary) (settings : Settings) (tries : List Beam) (b : Beam)
    (tokens : List Token) : Prop where
  | live : tokens ∈ b.histories.rows → tokens.length ≤ settings.maxLength →
      Sourced elementary settings tries b tokens
  | completed {attempt : Beam} : attempt ∈ tries → attempt.Finishes elementary tokens →
      Step.Returns (selectTop elementary) attempt () (selectTop elementary attempt).2 →
      tokens.length ≤ settings.maxLength → Sourced elementary settings tries b tokens
  | starved {attempt : Beam} {failure : Failure} : attempt ∈ tries →
      attempt.Finishes elementary tokens → attempt.histories.isFull = false →
      (∀ token < attempt.scores.vocabulary, settings.isEnd token = true) →
      Step.Fails (selectTop elementary) attempt failure (selectTop elementary attempt).2 →
      tokens.length ≤ settings.maxLength → Sourced elementary settings tries b tokens
  | overrun {attempt : Beam} {failure : Failure} : attempt ∈ tries →
      attempt.Finishes elementary tokens → attempt.histories.isFull = true →
      Step.Fails (selectTop elementary) attempt failure (selectTop elementary attempt).2 →
      tokens.length = settings.maxLength + 1 → Sourced elementary settings tries b tokens

theorem fails_of_full (elementary : Elementary) (full : b.histories.isFull = true) :
    ∃ failure, Step.Fails (selectTop elementary) b failure (selectTop elementary b).2 := by
  obtain ⟨u, ran⟩ | failed := Step.returns_or_fails (selectTop elementary) b
  · obtain ⟨-, -, _, _, _, _, -, -, descended, -⟩ := selectTop_returns.mp ran
    have room := (Histories.descend_eq_ok.mp descended).2.2.1
    have filled : b.histories.capacity ≤ b.histories.length := of_decide_eq_true full
    omega
  · exact failed

theorem ends_of_starved (sized : b.Sized settings) (fresh : b.scores.fresh = true)
    (going : b.finals = none) (room : b.histories.isFull = false)
    (failed : Step.Fails (selectTop elementary) b failure b') :
    ∀ token < b.scores.vocabulary, settings.isEnd token = true := by
  intro token inside
  by_contra goes
  rw [Bool.not_eq_true, ← sized.fixed] at goes
  obtain ⟨after, ran⟩ :=
    @Sound.selectTop_total elementary b sized.sound fresh going room ⟨token, inside, goes⟩
  rw [Step.Returns, failed] at ran
  cases ran

theorem Recorded.sourced (recorded : b.Recorded elementary settings tries) {tokens : List Token}
    (known : tokens ∈ b.histories.rows ∨
      ∃ attempt ∈ tries, attempt.Finishes elementary tokens) :
    Sourced elementary settings tries b tokens := by
  obtain row | ⟨attempt, member, completes⟩ := known
  · refine .live row ?_
    rw [recorded.sized.level.rectangular.width tokens row, ← recorded.capacity]
    exact recorded.sized.level.fits
  obtain ⟨sized, capacity⟩ := recorded.tried attempt member
  have long := completes.length_eq sized
  have fits := sized.level.fits
  rw [capacity] at fits
  -- an attempt with full histories is refused, any other only where an entry starves
  cases full : attempt.histories.isFull with
  | true =>
    obtain ⟨failure, failed⟩ := fails_of_full elementary full
    have filled : attempt.histories.capacity ≤ attempt.histories.length := of_decide_eq_true full
    exact .overrun member completes full failed (by omega)
  | false =>
    have room : ¬ attempt.histories.capacity ≤ attempt.histories.length := of_decide_eq_false full
    have fits : tokens.length ≤ settings.maxLength := by omega
    obtain ⟨u, ran⟩ | ⟨failure, failed⟩ := Step.returns_or_fails (Beam.selectTop elementary) attempt
    · exact .completed member completes ran fits
    · have ends := ends_of_starved sized completes.fresh completes.going full failed
      exact .starved member completes full ends failed fits

theorem finals_of_finalize (sound : b.Sound) {count : Nat} {finals : List Scored}
    (ran : Step.Returns (finalize count) b finals b') :
    b'.finals = some finals ∧ b'.histories = b.histories := by
  cases fixed : b.finals with
  | some others =>
    obtain ⟨rfl, rfl⟩ := Step.returns_unique ran (finalize_fixed fixed count)
    exact ⟨fixed, rfl⟩
  | none =>
    obtain ⟨-, -, rfl, rfl⟩ := finalize_inv sound fixed ran
    exact ⟨rfl, rfl⟩

/-- From every state, a selection that is refused changes at most the entries, and those only as far
as it got to them. A result that is too long comes from one that was refused since the histories
were full. -/
theorem refusals_and_results (tried : Tried elementary settings inputIds tries b) :
    (∀ failure after, Step.Fails (selectTop elementary) b failure after →
      after = { b with entries := after.entries } ∧
        Refused elementary b failure after.entries) ∧
    (∀ count finals after, Step.Returns (finalize count) b finals after →
      ∀ final ∈ finals, Sourced elementary settings tries b final.tokens) ∧
    ∀ index tokens after, Step.Returns (sequence index) b tokens after →
      Sourced elementary settings tries b tokens := by
  have recorded := tried.recorded
  have sound := recorded.sized.sound
  have results : ∀ count finals after, Step.Returns (finalize count) b finals after →
      ∀ final ∈ finals, Sourced elementary settings tries b final.tokens := by
    intro count finals after ran final member
    obtain ⟨fixed, same⟩ := finals_of_finalize sound ran
    have left := recorded.finalize count
    rw [ran] at left
    exact recorded.sourced (same ▸ left.finals finals fixed _ (List.mem_map_of_mem member))
  refine ⟨fun failure after failed => selectTop_refuses sound failed, results,
    fun index tokens after ran => ?_⟩
  simp only [sequence, Step.returns_bind, Step.returns_get] at ran
  obtain ⟨_, _, ⟨rfl, rfl⟩, finals, middle, closed, ran⟩ := ran
  split at ran
  · next final found =>
    obtain ⟨rfl, -⟩ := Step.returns_pure.mp ran
    exact results _ finals middle closed final (List.mem_of_getElem? found)
  · exact (Step.returns_throw.mp ran).elim

def filled : Beam where
  settings := {
    batchSize := 1, beams := 1, returnCount := 1, maxLength := 1, vocabulary := 2, pad := 0
    endTokens := [1], lengthPenalty := 1, earlyStopping := true, seed := none
    minLength := 0, repetitionPenalty := 1 }
  histories := ⟨[[0]], 1, 1, 1⟩
  scores := .empty
  beamScores := [0]
  entries := [⟨.empty 1 1 true, false⟩]
  nextTokens := [0]
  nextIndices := [0]
  done := true
  finals := none

def endScores : Tensor := .packed .f32 [1, 2] ([0, 9].map .real)

def ready : Beam := (prepare (.load endScores) filled).2

theorem ready_tried : Tried exactElementary filled.settings [0] [] ready :=
  .prepare (.start rfl)

theorem ready_sorted : (ready.candidates exactElementary 0).mergeSort
      (fun x y => !(x.score < y.score)) =
    [(ready.candidates exactElementary 0)[1], (ready.candidates exactElementary 0)[0]] := by
  have two : ready.candidates exactElementary 0 =
    [(ready.candidates exactElementary 0)[0], (ready.candidates exactElementary 0)[1]] := rfl
  have better : (ready.candidates exactElementary 0)[0].score <
      (ready.candidates exactElementary 0)[1].score := by
    decide +kernel
  generalize (ready.candidates exactElementary 0)[0] = x at two better ⊢
  generalize (ready.candidates exactElementary 0)[1] = y at two better ⊢
  rw [two]
  simp [List.mergeSort, List.MergeSort.Internal.splitInTwo, better]

theorem ready_stepped : ∃ score,
    ready.stepped exactElementary 0 ⟨.empty 1 1 true, false⟩ =
      ⟨⟨1, 1, true, [⟨[0, 1], score⟩], Scores.smaller Scores.infinity score⟩, true⟩ := by
  unfold stepped offered completions
  rw [ready_sorted]
  exact ⟨_, rfl⟩

theorem ready_refused : ∃ score after,
    Step.Fails (selectTop exactElementary) ready (.overflow 1) after ∧
      after = { ready with
        entries :=
          [⟨⟨1, 1, true, [⟨[0, 1], score⟩], Scores.smaller Scores.infinity score⟩, true⟩] } := by
  have sound := ready_tried.recorded.sized.sound
  have full : ready.histories.isFull = true := rfl
  obtain ⟨failure, failed⟩ := fails_of_full exactElementary full
  obtain ⟨same, refused⟩ := selectTop_refuses sound failed
  have told : failure = .overflow 1 ∧ (selectTop exactElementary ready).2.entries =
      [ready.stepped exactElementary 0 ⟨.empty 1 1 true, false⟩] := by
    clear failed same
    generalize (selectTop exactElementary ready).2.entries = entries at refused ⊢
    cases refused with
    | stale old => cases old
    | fixed _ fixed => cases fixed
    | @starved entry _ _ _ found _ short =>
      obtain rfl : entry = 0 := Nat.lt_one_iff.mp (List.getElem?_eq_some_iff.mp found).1
      rw [ranking, ready_sorted] at short
      exact absurd short (by decide +kernel)
    | full => exact ⟨rfl, rfl⟩
  obtain ⟨rfl, entries⟩ := told
  obtain ⟨score, stepped⟩ := ready_stepped
  exact ⟨score, _, failed, same.trans (by rw [entries, stepped])⟩

/-- A selection that is refused since the histories are full finishes a hypothesis and ends an
entry, and the only result is longer than the histories may be. -/
theorem refused_selection_counts : ∃ after finals last,
    Reachable exactElementary ready ∧ ready.settings.maxLength = 1 ∧
    Step.Fails (selectTop exactElementary) ready (.overflow 1) after ∧
    ready.entries.map (·.done) = [false] ∧ after.entries.map (·.done) = [true] ∧
    ready.entries.map (·.finished.kept.length) = [0] ∧
    after.entries.map (·.finished.kept.length) = [1] ∧
    Step.Returns (finalize 1) after finals last ∧ finals.map (·.tokens) = [[0, 1]] := by
  obtain ⟨score, after, failed, rfl⟩ := ready_refused
  have sound := (ready_tried.selectTop).recorded.sized.sound
  rw [failed] at sound
  have started : start filled.settings [0] = .ok filled := rfl
  refine ⟨_, _, _, .setScores _ (.start started), rfl, failed, rfl, rfl, rfl, rfl,
    sound.counted.finalize_returns rfl Nat.one_pos (Nat.le_refl 1), ?_⟩
  simp [results, closing, closed, Hypotheses.ranked]

theorem ready_refusals_and_results : ∃ after finals last,
    Tried exactElementary filled.settings [0] [] ready ∧
    Step.Fails (selectTop exactElementary) ready (.overflow 1) after ∧
    after = { ready with entries := after.entries } ∧
    Refused exactElementary ready (.overflow 1) after.entries ∧
    Tried exactElementary filled.settings [0] [ready] after ∧
    Step.Returns (finalize 1) after finals last ∧
    ∀ final ∈ finals, Sourced exactElementary filled.settings [ready] after final.tokens := by
  obtain ⟨score, after, failed, -⟩ := ready_refused
  have tried : Tried exactElementary filled.settings [0] [ready] after := by
    have left := ready_tried.selectTop
    rwa [failed] at left
  have going : after.finals = none := by
    obtain ⟨same, -⟩ := selectTop_refuses ready_tried.recorded.sized.sound failed
    rw [same]
    rfl
  obtain ⟨same, refused⟩ := (refusals_and_results ready_tried).1 _ _ failed
  have some : 1 ≤ after.settings.beams := tried.recorded.sized.fixed.symm ▸ Nat.le_refl 1
  have closes := tried.recorded.sized.sound.counted.finalize_returns going Nat.one_pos some
  exact ⟨after, _, _, ready_tried, failed, same, refused, tried, closes,
    (refusals_and_results tried).2.1 _ _ _ closes⟩

end StagedDecoding.Beam
