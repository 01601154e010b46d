import StagedDecoding.Proofs.BeamStep

/-! A step of beam search, entry by entry.

The survivors of all entries are listed one entry after the other, as many for each as there are
beams. What an entry makes of its expansions is a walk through them, so whatever its expansions
bring about one by one holds of its survivors and of its finished hypotheses.
-/

set_option autoImplicit false

namespace StagedDecoding

namespace Histories

variable {h next : Histories} {parents : List Nat} {tokens : List Token}

theorem descend_row (descended : h.descend parents tokens = .ok next) {i parent : Nat}
    {token : Token} {history : List Token} (origin : parents[i]? = some parent)
    (chosen : tokens[i]? = some token) (there : h.rows[parent]? = some history) :
    next.rows[i]? = some (history ++ [token]) := by
  obtain ⟨-, -, -, -, rfl⟩ := descend_eq_ok.mp descended
  simp [List.getElem?_zipWith, origin, chosen, there]

theorem descend_level (level : ∀ row ∈ h.rows, row.length = h.length)
    (descended : h.descend parents tokens = .ok next) :
    ∀ row ∈ next.rows, row.length = next.length := by
  obtain ⟨-, -, -, inside, rfl⟩ := descend_eq_ok.mp descended
  intro row member
  obtain ⟨i, found⟩ := List.getElem?_of_mem member
  simp only [List.getElem?_zipWith, List.getElem?_map] at found
  cases origin : parents[i]? with
  | none => simp [origin] at found
  | some parent =>
    cases chosen : tokens[i]? with
    | none => simp [origin, chosen] at found
    | some token =>
      have bound := inside parent (List.mem_of_getElem? origin)
      simp only [origin, chosen, Option.map_some, Option.some.injEq] at found
      rw [← found, List.length_append, List.length_singleton, List.getD_eq_getElem _ _ bound,
        level _ (List.getElem_mem bound)]

end Histories

namespace Hypotheses

variable {h : Hypotheses} {tokens : List Token} {logProbability : Float32}

theorem add_lengthPenalty {power : Float32 → Float32 → Float32} :
    (h.add tokens logProbability power).lengthPenalty = h.lengthPenalty := by
  unfold add
  dsimp only
  split <;> rfl

theorem mem_add {final : Scored} (member : final ∈ (h.add tokens logProbability).kept) :
    final ∈ h.kept ∨
      final = ⟨tokens, normalized h.lengthPenalty logProbability tokens.length⟩ := by
  unfold add at member
  dsimp only at member
  split at member
  · exact .inl member
  · have extended : final ∈
        h.kept ++ [⟨tokens, normalized h.lengthPenalty logProbability tokens.length⟩] := by
      dsimp only at member
      split at member
      · exact List.mem_of_mem_eraseIdx member
      · exact member
    cases List.mem_append.mp extended with
    | inl before => exact .inl before
    | inr offered => exact .inr (List.mem_singleton.mp offered)

end Hypotheses

namespace Beam

theorem expanded_of_branch {elementary : Elementary} {b : Beam} {entry beam : Nat}
    {expansions : List Expansion} {x : Expansion}
    (ran : b.branch elementary entry beam = .ok expansions) (member : x ∈ expansions) :
    x.beam = beam ∧ ∃ base own logProbability,
      b.beamScores[entry * b.settings.beams + x.beam]? = some base ∧
      b.scores.last (entry * b.settings.beams + x.beam) = .ok own ∧
      (own.logSoftmaxBy elementary)[x.token]? = some logProbability ∧
      x.score = logProbability + base := by
  simp only [branch, expand, Outcome.map_eq_ok, Outcome.bind_eq_ok, Outcome.fetch_eq_ok,
    Outcome.pure_eq_ok] at ran
  obtain ⟨_, ⟨base, graded, own, last, rfl⟩, rfl⟩ := ran
  obtain ⟨⟨score, token⟩, there, rfl⟩ := List.mem_map.mp member
  have there := List.mem_zipIdx_iff_getElem?.mp there
  rw [List.getElem?_map] at there
  obtain ⟨logProbability, found, same⟩ := Option.map_eq_some_iff.mp there
  exact ⟨rfl, base, own, logProbability, graded, last, found, same.symm⟩

theorem expanded_of_mem_rank {elementary : Elementary} {b : Beam} {entry : Nat}
    {ranked : List Expansion} {x : Expansion} (ran : b.rank elementary entry = .ok ranked)
    (member : x ∈ ranked) :
    x.beam < b.settings.beams ∧ ∃ base own logProbability,
      b.beamScores[entry * b.settings.beams + x.beam]? = some base ∧
      b.scores.last (entry * b.settings.beams + x.beam) = .ok own ∧
      (own.logSoftmaxBy elementary)[x.token]? = some logProbability ∧
      x.score = logProbability + base := by
  obtain ⟨expansions, found, rfl⟩ := rank_eq_ok.mp ran
  rw [Outcome.mapM_eq_ok] at found
  have listed := (List.mergeSort_perm _ _).subset (List.mem_of_mem_take member)
  obtain ⟨own, inside, listed⟩ := List.mem_flatten.mp listed
  obtain ⟨beam, here, expanded⟩ : ∃ beam ∈ List.range b.settings.beams,
      b.branch elementary entry beam = .ok own :=
    forall_of_forall₂ found
      (p := fun own => ∃ beam ∈ List.range b.settings.beams, b.branch elementary entry beam = .ok own)
      (fun beam here _ expanded => ⟨beam, here, expanded⟩) own inside
  obtain ⟨rfl, origin⟩ := expanded_of_branch expanded listed
  exact ⟨List.mem_range.mp here, origin⟩

/-- What a walk brings about, one expansion after the other: every survivor is an expansion that
goes on, and the finished hypotheses are extended by expansions that end. -/
theorem choose_preserves {settings : Settings} {histories : Histories} {entry rank : Nat}
    {expansions : List Expansion} {survivors : List Survivor} {finished : Hypotheses}
    {result : List Survivor × Hypotheses} {p : Survivor → Prop} {q : Hypotheses → Prop}
    (survive : ∀ x ∈ expansions, settings.isEnd x.token = false → p (survivor settings entry x))
    (complete : ∀ x ∈ expansions, settings.isEnd x.token = true → ∀ history finished,
      histories.rows[entry * settings.beams + x.beam]? = some history → q finished →
        q (finished.add (history ++ [x.token]) x.score))
    (started : ∀ survivor ∈ survivors, p survivor) (holds : q finished)
    (ran : choose settings histories entry rank expansions survivors finished = .ok result) :
    (∀ survivor ∈ result.1, p survivor) ∧ q result.2 := by
  induction expansions generalizing rank survivors finished with
  | nil =>
    obtain rfl := Except.ok.inj ran
    exact ⟨started, holds⟩
  | cons x rest ih =>
    have survive' := fun y member => survive y (List.mem_cons_of_mem x member)
    have complete' := fun y member => complete y (List.mem_cons_of_mem x member)
    unfold choose at ran
    cases ends : settings.isEnd x.token with
    | true =>
      rw [if_pos ends] at ran
      -- an end token that is ranked too low is passed over
      split at ran
      · exact ih survive' complete' started holds ran
      · simp only [Outcome.bind_eq_ok, Histories.row, Outcome.fetch_eq_ok] at ran
        obtain ⟨history, found, ran⟩ := ran
        have offered := complete x (by simp) ends history finished found holds
        exact ih survive' complete' started offered ran
    | false =>
      rw [if_neg (by simp [ends])] at ran
      have grown : ∀ other ∈ survivors ++ [survivor settings entry x], p other := by
        intro other member
        cases List.mem_append.mp member with
        | inl before => exact started other before
        | inr here => exact List.mem_singleton.mp here ▸ survive x (by simp) ends
      simp only [Outcome.bind_eq_ok, place_eq_ok] at ran
      obtain ⟨_, ⟨-, rfl⟩, ran⟩ := ran
      -- the walk is over with a survivor for every beam
      split at ran
      · obtain rfl := Outcome.pure_eq_ok.mp ran
        exact ⟨grown, holds⟩
      · exact ih survive' complete' grown holds ran

def bestScore : List Expansion → Float32
  | [] => Scores.negativeInfinity
  | first :: _ => first.score

theorem stepEntry_cases {settings : Settings} {histories : Histories} {entry : Nat}
    {expansions : List Expansion} {before after : BeamEntry} {part : List Survivor} :
    Step.Returns (stepEntry settings histories entry expansions) before part after ↔
      (before.done = true ∧ part = idleRows settings entry ∧ after = before) ∨
      (before.done = false ∧ ∃ finished,
        choose settings histories entry 0 expansions [] before.finished = .ok (part, finished) ∧
        settings.beams ≤ part.length ∧
        after = ⟨finished, finished.isDone (bestScore expansions) (histories.length + 1)⟩) := by
  cases before with
  | mk finished done =>
    cases done with
    | true =>
      simp only [stepEntry, Step.returns_bind, Step.returns_get]
      constructor
      · rintro ⟨_, _, ⟨rfl, rfl⟩, ran⟩
        obtain ⟨rfl, rfl⟩ := Step.returns_pure.mp ran
        exact .inl ⟨trivial, rfl, rfl⟩
      · rintro (⟨-, rfl, rfl⟩ | ⟨live, -⟩)
        · exact ⟨_, _, ⟨rfl, rfl⟩, Step.returns_pure.mpr ⟨rfl, rfl⟩⟩
        · cases live
    | false =>
      simp only [stepEntry, Step.throw_bind, Step.returns_bind, Step.returns_get]
      constructor
      · rintro ⟨_, _, ⟨rfl, rfl⟩, ran⟩
        rw [if_neg (by simp)] at ran
        simp only [Step.returns_bind, Step.returns_lift, Step.returns_set, Step.returns_guard,
          Step.returns_pure] at ran
        obtain ⟨⟨part, finished⟩, _, ⟨chosen, rfl⟩, _, _, rfl, enough, _, _, rfl, rfl, rfl⟩ := ran
        refine .inr ⟨trivial, finished, chosen, Nat.le_of_not_lt enough, ?_⟩
        -- the best score is that of the first expansion, and the lowest of all if there is none
        cases expansions <;> rfl
      · rintro (⟨stopped, -⟩ | ⟨-, finished, chosen, enough, rfl⟩)
        · cases stopped
        · refine ⟨_, _, ⟨rfl, rfl⟩, ?_⟩
          rw [if_neg (by simp)]
          simp only [Step.returns_bind, Step.returns_lift, Step.returns_set, Step.returns_guard,
            Step.returns_pure]
          refine ⟨_, _, ⟨chosen, rfl⟩, (), _, rfl, Nat.not_lt.mpr enough, (), _, rfl, rfl, ?_⟩
          cases expansions <;> rfl

theorem stepEntries_parts {settings : Settings} {histories : Histories} {entry : Nat}
    {expansions : List (List Expansion)} {before after : List BeamEntry}
    {survivors : List Survivor}
    (ran : Step.Returns (stepEntries settings histories entry expansions) before survivors after) :
    ∃ parts : List (List Survivor), survivors = parts.flatten ∧
      parts.length = expansions.length ∧
      ∀ i part, parts[i]? = some part → ∃ own state state', expansions[i]? = some own ∧
        before[i]? = some state ∧ after[i]? = some state' ∧
        Step.Returns (stepEntry settings histories (entry + i) own) state part state' := by
  induction expansions generalizing entry before survivors after with
  | nil =>
    rw [stepEntries_nil] at ran
    obtain ⟨rfl, -⟩ := Step.returns_pure.mp ran
    exact ⟨[], rfl, rfl, by simp⟩
  | cons own rest ih =>
    obtain ⟨state, states, first, state', more, states', rfl, stepped, walked, rfl, rfl⟩ :=
      stepEntries_cons_returns.mp ran
    obtain ⟨parts, rfl, count, later⟩ := ih walked
    refine ⟨first :: parts, rfl, by simp [count], fun i part found => ?_⟩
    cases i with
    | zero =>
      obtain rfl := Option.some.inj found
      exact ⟨own, state, state', rfl, rfl, rfl, stepped⟩
    | succ i =>
      rw [← Nat.add_assoc, Nat.add_right_comm]
      exact later i part found

theorem survivors_length {settings : Settings} {parts : List (List Survivor)}
    (count : parts.length = settings.batchSize)
    (sized : ∀ part ∈ parts, part.length = settings.beams) :
    parts.flatten.length = settings.rowCount := by
  rw [List.length_flatten, List.map_congr_left sized, List.map_const', List.sum_replicate_nat,
    count, Settings.rowCount]

theorem getElem?_survivors {α : Type} {beams : Nat} {parts : List (List Survivor)}
    (sized : ∀ part ∈ parts, part.length = beams) (f : Survivor → α) {entry beam : Nat}
    {part : List Survivor} (found : parts[entry]? = some part) (bound : beam < part.length) :
    (parts.flatten.map f)[entry * beams + beam]? = some (f part[beam]) := by
  have inside : beam < beams := sized part (List.mem_of_getElem? found) ▸ bound
  rw [List.getElem?_map, Tensor.getElem?_flatten sized inside, found, Option.bind_some,
    List.getElem?_eq_getElem bound, Option.map_some]

theorem selectTop_parts {elementary : Elementary} {b b' : Beam} {u : Unit}
    (some : 0 < b.settings.beams) (ran : Step.Returns (selectTop elementary) b u b') :
    b.scores.fresh = true ∧ ∃ (parts : List (List Survivor)) (entries : List BeamEntry)
        (histories : Histories), parts.length = b.settings.batchSize ∧
      (∀ part ∈ parts, part.length = b.settings.beams) ∧ entries.length = b.entries.length ∧
      (∀ entry < b.settings.batchSize, ∃ part ranked before after,
        parts[entry]? = Option.some part ∧ b.rank elementary entry = .ok ranked ∧
        b.entries[entry]? = Option.some before ∧ entries[entry]? = Option.some after ∧
        Step.Returns (stepEntry b.settings b.histories entry ranked) before part after) ∧
      b.histories.descend (parts.flatten.map (·.parent)) (parts.flatten.map (·.token)) =
        .ok histories ∧
      b' = { b with
        entries := entries
        histories := histories
        beamScores := parts.flatten.map (·.score)
        nextTokens := parts.flatten.map (·.token)
        nextIndices := parts.flatten.map (·.parent)
        scores := b.scores.consume
        done := entries.all (·.done) || histories.isFull } := by
  obtain ⟨fresh, -, expansions, survivors, entries, histories, ranks, stepped, descended, rfl⟩ :=
    selectTop_returns.mp ran
  obtain ⟨parts, rfl, count, each⟩ := stepEntries_parts stepped
  have ranked := rankEntries_eq_ok.mp ranks
  have counted : parts.length = b.settings.batchSize := by
    rw [count, ← ranked.length_eq, List.length_range]
  have kept := stepEntries_length b.settings b.histories 0 expansions b.entries
  rw [stepped] at kept
  have entered : ∀ entry < b.settings.batchSize, ∃ part ranked before after,
      parts[entry]? = Option.some part ∧ b.rank elementary entry = .ok ranked ∧
      b.entries[entry]? = Option.some before ∧ entries[entry]? = Option.some after ∧
      Step.Returns (stepEntry b.settings b.histories entry ranked) before part after := by
    intro entry inside
    have here := List.getElem?_eq_getElem (counted.symm ▸ inside)
    obtain ⟨own, before, after, found, entered, left, walked⟩ := each entry _ here
    obtain ⟨bound, rfl⟩ := List.getElem?_eq_some_iff.mp found
    have own := ranked.get (by simpa using inside) bound
    rw [Nat.zero_add] at walked
    exact ⟨_, _, before, after, here, by simpa using own, entered, left, walked⟩
  refine ⟨LoadedScores.requireFresh_eq_ok.mp fresh, parts, entries, histories, counted, ?_, kept,
    entered, descended, rfl⟩
  intro part member
  obtain ⟨entry, found⟩ := List.getElem?_of_mem member
  obtain ⟨_, _, _, _, there, ranks, -, -, stepped⟩ :=
    entered entry (counted ▸ (List.getElem?_eq_some_iff.mp found).1)
  obtain rfl := Option.some.inj (there.symm.trans found)
  exact (stepEntry_returns some (beam_of_mem_rank ranks) stepped).1

/-- Whatever the scores are, not a number or infinite included, an entry finds enough survivors. -/
theorem Sound.stepEntry_total {elementary : Elementary} {b : Beam} (sound : b.Sound)
    (fresh : b.scores.fresh = true)
    (some : ∃ token < b.scores.vocabulary, b.settings.isEnd token = false) {entry : Nat}
    {ranked : List Expansion} {before : BeamEntry} (inside : entry < b.settings.batchSize)
    (ranks : b.rank elementary entry = .ok ranked) :
    ∃ part after,
      Step.Returns (stepEntry b.settings b.histories entry ranked) before part after := by
  have within := beam_of_mem_rank ranks
  cases ended : before.done with
  | true => exact ⟨_, _, stepEntry_ended ended⟩
  | false =>
    have rows : ∀ x ∈ ranked, entry * b.settings.beams + x.beam < b.histories.rows.length := by
      intro x member
      rw [sound.rows]
      exact row_lt inside (within x member)
    obtain rfl := Except.ok.inj ((sound.rank_eq fresh inside).symm.trans ranks)
    have enough := sound.goingOn_enough fresh inside some (List.mergeSort_perm
      (b.candidates elementary entry) fun x y => !(x.score < y.score))
    rw [List.countP_eq_length_filter] at enough
    obtain ⟨_, stepped⟩ := stepEntry_live sound.some rows enough ended
    exact ⟨_, _, stepped⟩

theorem Sound.rankEntries_total {b : Beam} (elementary : Elementary) (sound : b.Sound)
    (fresh : b.scores.fresh = true) :
    ∃ expansions, b.rankEntries elementary (List.range b.settings.batchSize) = .ok expansions ∧
      expansions.length = b.settings.batchSize ∧
      ∀ i own, expansions[i]? = Option.some own → b.rank elementary i = .ok own := by
  obtain ⟨ranked, ranks⟩ : ∃ ranked : Nat → List Expansion,
      ∀ entry < b.settings.batchSize, b.rank elementary entry = .ok (ranked entry) :=
    ⟨_, fun entry inside => sound.rank_eq fresh inside⟩
  refine ⟨(List.range b.settings.batchSize).map ranked, ?_, by simp, fun i own found => ?_⟩
  · rw [rankEntries_eq_ok, List.forall₂_map_right_iff, List.forall₂_same]
    exact fun entry member => ranks entry (List.mem_range.mp member)
  · obtain ⟨bound, rfl⟩ := List.getElem?_eq_some_iff.mp found
    simp only [List.length_map, List.length_range] at bound
    simpa using ranks i bound

theorem Sound.stepEntry_rows {elementary : Elementary} {b : Beam} (sound : b.Sound) {entry : Nat}
    (inside : entry < b.settings.batchSize) {ranked : List Expansion} {before after : BeamEntry}
    {part : List Survivor} (ranks : b.rank elementary entry = .ok ranked)
    (stepped : Step.Returns (stepEntry b.settings b.histories entry ranked) before part after) :
    part.length = b.settings.beams ∧
      ∀ survivor ∈ part, survivor.parent < b.histories.rows.length := by
  obtain ⟨long, own⟩ := stepEntry_returns sound.some (beam_of_mem_rank ranks) stepped
  refine ⟨long, fun survivor member => ?_⟩
  have bound := row_lt inside (Nat.mod_lt survivor.parent sound.some)
  rw [sound.rows]
  rwa [← own survivor member, Nat.mul_comm, Nat.div_add_mod] at bound

/-- A selection never fails while there is room, a fresh score for every row, and a token that does
not end a history. -/
theorem Sound.selectTop_total {elementary : Elementary} {b : Beam} (sound : b.Sound)
    (fresh : b.scores.fresh = true) (going : b.finals = none) (room : b.histories.isFull = false)
    (some : ∃ token < b.scores.vocabulary, b.settings.isEnd token = false) :
    ∃ b', Step.Returns (Beam.selectTop elementary) b () b' := by
  obtain ⟨expansions, all, ranked, ranks⟩ := sound.rankEntries_total elementary fresh
  have each : ∀ i own state, expansions[i]? = Option.some own →
      b.entries[i]? = Option.some state → ∃ part after,
        Step.Returns (stepEntry b.settings b.histories (0 + i) own) state part after ∧
          (part.length = b.settings.beams ∧
            ∀ survivor ∈ part, survivor.parent < b.histories.rows.length) := by
    intro i own state found there
    have inside : i < b.settings.batchSize :=
      sound.entries ▸ (List.getElem?_eq_some_iff.mp there).1
    have ranks := ranks i own found
    rw [Nat.zero_add]
    obtain ⟨part, after, stepped⟩ := sound.stepEntry_total fresh some inside ranks
    exact ⟨part, after, stepped, sound.stepEntry_rows inside ranks stepped⟩
  obtain ⟨parts, entries, stepped, count, count', walked⟩ := @stepEntries_total _ _
    (fun _ part _ => part.length = b.settings.beams ∧
      ∀ survivor ∈ part, survivor.parent < b.histories.rows.length) 0 _ b.entries
    (ranked.trans sound.entries.symm) each
  have parted : ∀ part ∈ parts, part.length = b.settings.beams ∧
      ∀ survivor ∈ part, survivor.parent < b.histories.rows.length := by
    intro part member
    obtain ⟨entry, found⟩ := List.getElem?_of_mem member
    have bound : entry < entries.length :=
      count'.symm ▸ count ▸ (List.getElem?_eq_some_iff.mp found).1
    exact walked entry part _ found (List.getElem?_eq_getElem bound)
  obtain ⟨histories, descended, -⟩ := sound.descends room (count.trans sound.entries)
    (fun part member => (parted part member).1) fun part member => (parted part member).2
  exact ⟨_, selectTop_returns.mpr ⟨LoadedScores.requireFresh_eq_ok.mpr fresh, by simp [going],
    _, _, _, _, all, stepped, descended, rfl⟩⟩

end Beam

end StagedDecoding
