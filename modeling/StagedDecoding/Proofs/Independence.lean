import StagedDecoding.Proofs.Finals
import StagedDecoding.Proofs.Slices

/-! Batch entries do not influence each other.

A search over a batch goes through the same motions as one search for every prompt by itself. The
part of its state that belongs to an entry is the state of a search over a batch of one, which is
driven with the entry's rows of the scores, and this is kept up by every operation.
-/

set_option autoImplicit false

namespace StagedDecoding

inductive Act where
  | prepare (preparation : Preparation)
  | selectTop

def Act.sliceRows (start count : Nat) : Act → Act
  | .prepare (.load tensor) => .prepare (.load (tensor.sliceRows start count))
  | other => other

def Settings.alone (settings : Settings) : Settings :=
  { settings with batchSize := 1 }

@[simp] theorem Settings.alone_beams (settings : Settings) :
    settings.alone.beams = settings.beams := rfl

@[simp] theorem Settings.alone_rowCount (settings : Settings) :
    settings.alone.rowCount = settings.beams := Nat.one_mul _

@[simp] theorem Settings.alone_isEnd (settings : Settings) (token : Token) :
    settings.alone.isEnd token = settings.isEnd token := rfl

def Survivor.since (start : Nat) (s : Survivor) : Survivor :=
  { s with parent := s.parent - start }

namespace Beam

def act (elementary : Elementary) : Act → Step Beam Unit
  | .prepare preparation => prepare preparation
  | .selectTop => selectTop elementary

def drive (elementary : Elementary) : List Act → Step Beam Unit
  | [] => pure ()
  | first :: rest => do
    act elementary first
    drive elementary rest

/-- The state of an entry by itself. Parents are told from the first row of the entry. -/
def alone (entry : Nat) (b : Beam) : Beam :=
  let start := entry * b.settings.beams
  let entries := slice entry 1 b.entries
  { b with
    settings := b.settings.alone
    histories := b.histories.slice start b.settings.beams
    scores := b.scores.slice start b.settings.beams
    beamScores := slice start b.settings.beams b.beamScores
    entries := entries
    nextTokens := slice start b.settings.beams b.nextTokens
    nextIndices := (slice start b.settings.beams b.nextIndices).map (· - start)
    done := entries.all (·.done) || b.histories.isFull }

variable {elementary : Elementary} {settings : Settings} {inputIds : List Token} {entry : Nat}
  {b b' : Beam}

theorem rows_within (inside : entry < settings.batchSize) :
    entry * settings.beams + settings.beams ≤ settings.rowCount := by
  rw [← Nat.succ_mul]
  exact Nat.mul_le_mul_right _ inside

theorem setScores_alone {tensor : Tensor} (inside : entry < b.settings.batchSize)
    (ran : Step.Returns (setScores tensor) b () b') :
    Step.Returns (setScores (tensor.sliceRows (entry * b.settings.beams) b.settings.beams))
      (b.alone entry) () (b'.alone entry) := by
  simp only [setScores, Step.returns_attempt, Outcome.bind_eq_ok, Outcome.pure_eq_ok] at ran ⊢
  obtain ⟨scores, loaded, rfl⟩ := ran
  refine ⟨_, ?_, rfl⟩
  change LoadedScores.load b.settings.alone.rowCount _ _ _ = _
  rw [Settings.alone_rowCount]
  exact LoadedScores.load_slice (rows_within inside) loaded

theorem constrainLength_alone {minLength : Nat}
    (ran : Step.Returns (constrainLength minLength) b () b') :
    Step.Returns (constrainLength minLength) (b.alone entry) () (b'.alone entry) := by
  simp only [constrainLength, Step.returns_attempt, Outcome.bind_eq_ok,
    Outcome.pure_eq_ok] at ran ⊢
  obtain ⟨scores, constrained, rfl⟩ := ran
  exact ⟨_, LoadedScores.constrainLength_slice constrained, rfl⟩

theorem penalize_alone {penalty : Float32} (ran : Step.Returns (penalize penalty) b () b') :
    Step.Returns (penalize penalty) (b.alone entry) () (b'.alone entry) := by
  simp only [penalize, Step.returns_attempt, Outcome.bind_eq_ok, Outcome.pure_eq_ok] at ran ⊢
  obtain ⟨scores, penalized, rfl⟩ := ran
  exact ⟨_, LoadedScores.penalize_slice penalized, rfl⟩

theorem choose_alone {histories : Histories} {rank : Nat} {expansions : List Expansion}
    {survivors : List Survivor} {finished : Hypotheses} {result : List Survivor × Hypotheses}
    (within : ∀ x ∈ expansions, x.beam < settings.beams)
    (ran : choose settings histories entry rank expansions survivors finished = .ok result) :
    choose settings.alone (histories.slice (entry * settings.beams) settings.beams) 0 rank
        expansions (survivors.map (·.since (entry * settings.beams))) finished =
      .ok (result.1.map (·.since (entry * settings.beams)), result.2) := by
  -- the walk counts the survivors it has, so that they vary in the induction
  induction expansions generalizing rank survivors finished with
  | nil =>
    obtain rfl := Except.ok.inj ran
    rfl
  | cons x rest ih =>
    have bound := within x (by simp)
    have later := fun y member => within y (List.mem_cons_of_mem x member)
    unfold choose at ran ⊢
    rw [Settings.alone_isEnd, Settings.alone_beams, Nat.zero_mul, Nat.zero_add]
    cases ends : settings.isEnd x.token with
    | true =>
      rw [if_pos ends] at ran
      rw [if_pos rfl]
      by_cases behind : settings.beams ≤ rank
      · rw [if_pos behind] at ran ⊢
        exact ih later ran
      · rw [if_neg behind] at ran ⊢
        simp only [Outcome.bind_eq_ok] at ran ⊢
        obtain ⟨history, found, ran⟩ := ran
        exact ⟨history, (fetch_slice bound).trans found, ih later ran⟩
    | false =>
      rw [if_neg (by simp [ends])] at ran
      rw [if_neg Bool.false_ne_true]
      let here : Survivor := ⟨x.score, x.token, entry * settings.beams + x.beam⟩
      have own : here.since (entry * settings.beams) = ⟨x.score, x.token, x.beam⟩ := by
        rw [Survivor.since, Nat.add_sub_cancel_left]
      have grown : survivors.map (Survivor.since (entry * settings.beams)) ++
          [⟨x.score, x.token, x.beam⟩] =
            (survivors ++ [here]).map (Survivor.since (entry * settings.beams)) := by
        rw [List.map_append, List.map_singleton, own]
      simp only [Outcome.bind_eq_ok, place_eq_ok, Settings.alone_beams, List.length_map] at ran ⊢
      obtain ⟨_, ⟨room, rfl⟩, ran⟩ := ran
      refine ⟨_, ⟨room, rfl⟩, ?_⟩
      rw [grown, List.length_map]
      split at ran
      · next full =>
        rw [if_pos full, ← Outcome.pure_eq_ok.mp ran]
        rfl
      · next few =>
        rw [if_neg few]
        exact ih later ran

theorem stepEntry_alone {histories : Histories} {expansions : List Expansion}
    {before after : BeamEntry} {part : List Survivor}
    (within : ∀ x ∈ expansions, x.beam < settings.beams)
    (ran : Step.Returns (stepEntry settings histories entry expansions) before part after) :
    Step.Returns (stepEntry settings.alone
        (histories.slice (entry * settings.beams) settings.beams) 0 expansions) before
      (part.map (·.since (entry * settings.beams))) after := by
  rw [stepEntry_cases] at ran ⊢
  cases ran with
  | inl stopped =>
    obtain ⟨done, rfl, rfl⟩ := stopped
    refine .inl ⟨done, ?_, rfl⟩
    simp [idleRows, Survivor.since, Settings.alone]
  | inr walked =>
    obtain ⟨live, finished, chosen, enough, rfl⟩ := walked
    refine .inr ⟨live, finished, choose_alone within chosen, ?_, rfl⟩
    rw [List.length_map]
    exact enough

theorem rank_alone {ranked : List Expansion} (ran : b.rank elementary entry = .ok ranked) :
    (b.alone entry).rank elementary 0 = .ok ranked := by
  have same : ∀ beam ∈ List.range b.settings.beams,
      (b.alone entry).branch elementary 0 beam = b.branch elementary entry beam := by
    intro beam member
    have bound := List.mem_range.mp member
    unfold branch Beam.expand
    dsimp only
    refine congrArg (label beam <$> ·) ?_
    rw [Nat.zero_mul, Nat.zero_add]
    change (fetch (slice _ b.settings.beams b.beamScores) beam >>= fun base =>
      (b.scores.slice _ b.settings.beams).last beam >>= fun scores => _) = _
    rw [fetch_slice bound, LoadedScores.last_slice bound]
  rw [rank_eq_ok] at ran ⊢
  simp only [Outcome.mapM_eq_ok] at ran ⊢
  obtain ⟨expansions, found, rfl⟩ := ran
  exact ⟨expansions, ((List.forall₂_and_left _ _).mpr ⟨same, found⟩).imp
    fun _ _ both => both.1.trans both.2, rfl⟩

theorem stepEntries_one {settings : Settings} {histories : Histories} {own : List Expansion}
    {before after : BeamEntry} {part : List Survivor}
    (ran : Step.Returns (stepEntry settings histories 0 own) before part after) :
    Step.Returns (stepEntries settings histories 0 [own]) [before] part [after] := by
  have nothing : Step.Returns (stepEntries settings histories 1 []) [] [] [] := by
    rw [stepEntries_nil, Step.returns_pure]
    exact ⟨rfl, rfl⟩
  exact stepEntries_cons_returns.mpr
    ⟨_, _, _, _, _, _, rfl, ran, nothing, (List.append_nil part).symm, rfl⟩

theorem Counted.selectTop_alone (counted : b.Counted) (inside : entry < b.settings.batchSize)
    (ran : Step.Returns (selectTop elementary) b () b') :
    Step.Returns (selectTop elementary) (b.alone entry) () (b'.alone entry) ∧
      (b'.alone entry).nextIndices.map (entry * b.settings.beams + ·) =
        slice (entry * b.settings.beams) b.settings.beams b'.nextIndices := by
  obtain ⟨fresh, going, -⟩ := selectTop_returns.mp ran
  obtain ⟨-, parts, entries, histories, count, sized, kept, each, descended, rfl⟩ :=
    selectTop_parts counted.some ran
  obtain ⟨part, ranked, before, after, there, ranks, entered, left, stepped⟩ := each entry inside
  have taken : ∀ {α : Type} (f : Survivor → α),
      slice (entry * b.settings.beams) b.settings.beams (parts.flatten.map f) = part.map f := by
    intro α f
    rw [slice_map, slice_flatten sized there]
  -- the parents of the entry are rows of its own, so that their histories are in the slice
  have own : ∀ survivor ∈ part, entry * b.settings.beams ≤ survivor.parent ∧
      survivor.parent < entry * b.settings.beams + b.settings.beams := by
    intro survivor member
    have same := (stepEntry_returns counted.some (beam_of_mem_rank ranks) stepped).2 survivor member
    have rest := Nat.div_add_mod survivor.parent b.settings.beams
    have small := Nat.mod_lt survivor.parent counted.some
    rw [same, Nat.mul_comm] at rest
    omega
  have parents : slice (entry * b.settings.beams) b.settings.beams
      (parts.flatten.map (·.parent)) = part.map (·.parent) := taken _
  refine ⟨selectTop_returns.mpr ⟨fresh, going, [ranked],
    part.map (·.since (entry * b.settings.beams)), [after],
    histories.slice (entry * b.settings.beams) b.settings.beams, ?_, ?_, ?_, ?_⟩, ?_⟩
  · change (b.alone entry).rankEntries elementary [0] = _
    rw [rankEntries_eq_ok, List.forall₂_cons]
    exact ⟨rank_alone ranks, .nil⟩
  · change Step.Returns (stepEntries b.settings.alone _ 0 [ranked]) (slice entry 1 b.entries) _ _
    rw [slice_one entered]
    exact stepEntries_one (stepEntry_alone (beam_of_mem_rank ranks) stepped)
  · have moved := Histories.descend_slice descended (counted.rows ▸ rows_within inside) (by
      rw [parents, List.forall_mem_map]
      exact own)
    rw [parents, taken, List.map_map] at moved
    rw [List.map_map, List.map_map]
    exact moved
  · simp only [alone, slice_one left, taken, List.map_map]
    rfl
  · simp only [alone, taken, List.map_map]
    refine List.map_congr_left fun survivor member => ?_
    exact Nat.add_sub_cancel' (own survivor member).1

structure Ongoing (settings : Settings) (b : Beam) : Prop extends Counted b where
  same : b.settings = settings
  going : b.finals = none
  parents : ∀ entry < b.settings.batchSize,
    (b.alone entry).nextIndices.map (entry * b.settings.beams + ·) =
      slice (entry * b.settings.beams) b.settings.beams b.nextIndices
  stopped : b.done = (b.entries.all (·.done) || b.histories.isFull)

theorem start_ongoing (started : start settings inputIds = .ok b) :
    0 < settings.batchSize ∧ Ongoing settings b := by
  have counted := (start_sound started).counted
  obtain ⟨-, histories, began, rfl⟩ := start_eq_ok started
  have batch : 0 < settings.batchSize := by
    by_contra none
    simp [Histories.start, Nat.eq_zero_of_not_pos none] at began
  refine ⟨batch, counted, rfl, rfl, fun entry inside => ?_, ?_⟩
  · have within := rows_within inside
    simp only [alone, slice_range within, List.map_map]
    refine List.map_congr_left fun beam _ => ?_
    simp only [Function.comp_apply, Nat.add_sub_cancel_left]
  · simp [Nat.ne_of_gt batch]

theorem start_alone (started : start settings inputIds = .ok b)
    (inside : entry < settings.batchSize) :
    start settings.alone (promptOf inputIds settings.batchSize entry) = .ok (b.alone entry) := by
  simp only [start, Outcome.throw_bind, Outcome.guard_eq_ok, Outcome.bind_eq_ok,
    Outcome.pure_eq_ok] at started ⊢
  obtain ⟨several, histories, began, rfl⟩ := started
  have within := rows_within inside
  have one : settings.beams - 1 + 1 = settings.beams := by omega
  have grades : ∀ part ∈ List.replicate settings.batchSize
      ((0 : Float32) :: List.replicate (settings.beams - 1) inactiveScore),
      part.length = settings.beams := by
    intro part member
    rw [List.eq_of_mem_replicate member, List.length_cons, List.length_replicate, one]
  have graded := slice_flatten grades (List.getElem?_replicate_of_lt inside)
  have unshifted : (List.range settings.beams).map
      ((· - entry * settings.beams) ∘ (entry * settings.beams + ·)) =
        List.range settings.beams := by
    refine (List.map_congr_left fun beam _ => ?_).trans (List.map_id _)
    exact Nat.add_sub_cancel_left _ _
  have empty : LoadedScores.empty.slice (entry * settings.beams) settings.beams = .empty := by
    simp [LoadedScores.slice, LoadedScores.empty, slice]
  refine ⟨several, _, Histories.start_slice began inside, ?_⟩
  simp only [alone, slice_range within, graded, slice_replicate within, empty,
    slice_one (List.getElem?_replicate_of_lt inside), List.map_map, unshifted,
    Settings.alone_rowCount]
  have full : (histories.slice (entry * settings.beams) settings.beams).isFull =
      histories.isFull := rfl
  simp [Settings.alone, full]

theorem Ongoing.prepare {preparation : Preparation} (ongoing : Ongoing settings b)
    (ran : Step.Returns (prepare preparation) b () b') : Ongoing settings b' := by
  obtain ⟨scores, rfl, -⟩ := @prepare_returns preparation [] b b' () ran
  obtain ⟨⟨some, rows, graded, entries⟩, same, going, parents, stopped⟩ := ongoing
  exact ⟨⟨some, rows, graded, entries⟩, same, going, parents, stopped⟩

theorem Ongoing.selectTop (ongoing : Ongoing settings b)
    (ran : Step.Returns (Beam.selectTop elementary) b () b') : Ongoing settings b' := by
  have counted := ongoing.toCounted
  have parents := fun entry inside =>
    (@Counted.selectTop_alone elementary entry b b' counted inside ran).2
  obtain ⟨-, parts, entries, histories, count, sized, kept, -, descended, rfl⟩ :=
    selectTop_parts counted.some ran
  have total := survivors_length count sized
  obtain ⟨-, -, -, -, rfl⟩ := Histories.descend_eq_ok.mp descended
  refine ⟨⟨counted.some, ?_, ?_, kept.trans counted.entries⟩, ongoing.same, ongoing.going, parents,
    rfl⟩
  · dsimp only
    rw [List.length_zipWith, List.length_map, List.length_map, List.length_map, Nat.min_self, total]
  · exact (List.length_map _).trans total

theorem Ongoing.act_alone {a : Act} (ongoing : Ongoing settings b)
    (inside : entry < b.settings.batchSize) (ran : Step.Returns (act elementary a) b () b') :
    Step.Returns (act elementary (a.sliceRows (entry * b.settings.beams) b.settings.beams))
      (b.alone entry) () (b'.alone entry) := by
  cases a with
  | prepare preparation =>
    cases preparation with
    | load tensor => exact setScores_alone inside ran
    | constrainLength minLength => exact constrainLength_alone ran
    | penalize penalty => exact penalize_alone ran
  | selectTop => exact (ongoing.selectTop_alone inside ran).1

theorem Ongoing.act {a : Act} (ongoing : Ongoing settings b)
    (ran : Step.Returns (act elementary a) b () b') : Ongoing settings b' := by
  cases a with
  | prepare preparation => exact ongoing.prepare ran
  | selectTop => exact ongoing.selectTop ran

theorem Ongoing.drive_alone {acts : List Act} (ongoing : Ongoing settings b)
    (ran : Step.Returns (drive elementary acts) b () b') : Ongoing settings b' ∧
      ∀ entry < settings.batchSize, Step.Returns
        (drive elementary (acts.map (·.sliceRows (entry * settings.beams) settings.beams)))
        (b.alone entry) () (b'.alone entry) := by
  induction acts generalizing b with
  | nil =>
    obtain ⟨-, rfl⟩ := Step.returns_pure.mp ran
    exact ⟨ongoing, fun entry _ => Step.returns_pure.mpr ⟨rfl, rfl⟩⟩
  | cons first rest ih =>
    obtain ⟨⟨⟩, middle, here, later⟩ := Step.returns_bind.mp ran
    obtain ⟨kept, others⟩ := ih (ongoing.act here) later
    refine ⟨kept, fun entry inside => Step.returns_bind.mpr ⟨(), _, ?_, others entry inside⟩⟩
    obtain ⟨rfl⟩ := ongoing.same
    exact ongoing.act_alone inside here

theorem Ongoing.done_eq (ongoing : Ongoing settings b) :
    b.done = (List.range settings.batchSize).all fun entry => (b.alone entry).done := by
  have count : b.entries.length = settings.batchSize := ongoing.same ▸ ongoing.entries
  rw [ongoing.stopped, Bool.eq_iff_iff, Bool.or_eq_true, List.all_eq_true, List.all_eq_true]
  have each : ∀ entry, (bound : entry < b.entries.length) → (b.alone entry).done =
      (b.entries[entry].done || b.histories.isFull) := by
    intro entry bound
    simp only [alone, slice_one (List.getElem?_eq_getElem bound), List.all_cons, List.all_nil,
      Bool.and_true]
  constructor
  · intro stopped entry member
    have bound : entry < b.entries.length := count ▸ List.mem_range.mp member
    rw [each entry bound, Bool.or_eq_true]
    exact stopped.imp_left fun all => all _ (List.getElem_mem bound)
  · -- all entries have the capacity of the batch, so either all are full or each is over
    intro all
    by_cases full : b.histories.isFull = true
    · exact .inr full
    · refine .inl fun state member => ?_
      obtain ⟨entry, bound, rfl⟩ := List.mem_iff_getElem.mp member
      have own := all entry (List.mem_range.mpr (count ▸ bound))
      rw [each entry bound, Bool.or_eq_true] at own
      exact own.resolve_right full

theorem closed_alone {histories : Histories} {beamScores : List Float32} (state : BeamEntry) :
    closed settings.alone (histories.slice (entry * settings.beams) settings.beams)
        (slice (entry * settings.beams) settings.beams beamScores) 0 state =
      closed settings histories beamScores entry state := by
  have offers : rowsOf (histories.slice (entry * settings.beams) settings.beams)
      (slice (entry * settings.beams) settings.beams beamScores)
      ((List.range settings.beams).map (0 * settings.beams + ·)) =
        rowsOf histories beamScores
          ((List.range settings.beams).map (entry * settings.beams + ·)) := by
    rw [rowsOf, rowsOf, List.map_map, List.map_map]
    refine List.map_congr_left fun beam member => ?_
    have bound := List.mem_range.mp member
    simp only [Function.comp_apply, Nat.zero_mul, Nat.zero_add, Histories.slice, getD_slice bound]
  unfold closed
  rw [Settings.alone_beams, offers]

theorem Ongoing.results_alone (ongoing : Ongoing settings b) (count : Nat) :
    ((List.range settings.batchSize).map fun entry => (b.alone entry).results count).flatten =
      b.results count := by
  have total : b.entries.length = settings.batchSize := ongoing.same ▸ ongoing.entries
  rw [results, closing, List.flatMap_def]
  congr 1
  refine List.ext_getElem (by simp [total]) fun entry here _ => ?_
  have bound : entry < b.entries.length := by simpa [total] using here
  simp only [List.getElem_map, List.getElem_range, List.getElem_mapIdx, results, closing, alone,
    slice_one (List.getElem?_eq_getElem bound), List.mapIdx_cons, List.mapIdx_nil,
    List.flatMap_singleton, closed_alone]

theorem Ongoing.alone_counted (ongoing : Ongoing settings b) (inside : entry < settings.batchSize) :
    Counted (b.alone entry) := by
  obtain ⟨rfl⟩ := ongoing.same
  have within := rows_within inside
  refine ⟨ongoing.some, ?_, ?_, ?_⟩
  · exact (length_slice (ongoing.rows ▸ within)).trans (Settings.alone_rowCount _).symm
  · exact (length_slice (ongoing.graded ▸ within)).trans (Settings.alone_rowCount _).symm
  · exact length_slice (ongoing.entries ▸ inside)

theorem Ongoing.finalize_alone (ongoing : Ongoing settings b) (batch : 0 < settings.batchSize)
    (count : Nat) :
    (finalize count b).1 = List.flatten <$>
      (List.range settings.batchSize).mapM fun entry => (finalize count (b.alone entry)).1 := by
  by_cases refused : count = 0 ∨ b.settings.beams < count
  · have whole : (finalize count b).1 = .error (.config (.resultCount b.settings.beams)) :=
      congrArg Prod.fst (finalize_refused ongoing.going refused)
    have first : (finalize count (b.alone 0)).1 =
        .error (.config (.resultCount b.settings.beams)) :=
      congrArg Prod.fst (@finalize_refused (b.alone 0) ongoing.going count refused)
    -- a refused count is refused for the first entry already
    obtain ⟨others, count⟩ := Nat.exists_eq_add_of_lt batch
    rw [whole, count, Nat.zero_add, List.range_succ_eq_map, List.mapM_cons, first]
    rfl
  · have asked : 0 < count := by omega
    have fits : count ≤ b.settings.beams := by omega
    have whole : (finalize count b).1 = .ok (b.results count) :=
      congrArg Prod.fst (ongoing.finalize_returns ongoing.going asked fits)
    have each : (List.range settings.batchSize).mapM
        (fun entry => (finalize count (b.alone entry)).1) =
        .ok ((List.range settings.batchSize).map fun entry => (b.alone entry).results count) := by
      rw [Outcome.mapM_eq_ok, List.forall₂_map_right_iff, List.forall₂_same]
      intro entry member
      have counted := ongoing.alone_counted (List.mem_range.mp member)
      exact congrArg Prod.fst (counted.finalize_returns ongoing.going asked fits)
    rw [whole, each]
    exact congrArg Except.ok (ongoing.results_alone count).symm

end Beam

end StagedDecoding
