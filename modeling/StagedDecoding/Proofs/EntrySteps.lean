import StagedDecoding.Proofs.BeamTurns
import StagedDecoding.Proofs.Preparing

/-! What a successful step of beam search makes of its entries.

An entry that is over stays as it is. Any other one takes its rows from the ranked expansions that
go on, and offers those that end among the first. No two of its expansions share beam and token.
Runs are recorded by the states that selections were made in.
-/

set_option autoImplicit false

namespace StagedDecoding

/-- When enough expansions of one kind exceed all of another kind, the best have none of the
latter. -/
theorem Expansion.Best.none_of_above {vocabulary count : Nat} {all chosen : List Expansion}
    (high low : Expansion → Bool) (best : Best vocabulary count all chosen)
    (clean : ∀ x ∈ all, x.score.isNaN = false)
    (above : ∀ x ∈ all, high x = true → ∀ y ∈ all, low y = true → y.score < x.score)
    (enough : count ≤ all.countP high) : ∀ x ∈ chosen, low x = false := by
  obtain ⟨rest, perm, behind⟩ := best.ahead
  have inside : ∀ x ∈ chosen, x ∈ all := fun x member =>
    perm.subset (List.mem_append_left rest member)
  have outside : ∀ y ∈ rest, y ∈ all := fun y member =>
    perm.subset (List.mem_append_right chosen member)
  intro x member
  by_contra found
  have found : low x = true := by simpa using found
  -- not all that is chosen is high, so that something high was left behind
  have short : chosen.countP high < count := by
    rw [← best.counted]
    refine lt_of_le_of_ne List.countP_le_length fun full => ?_
    have same := above x (inside x member) (List.countP_eq_length.mp full x member) x
      (inside x member) found
    rw [Scores.lt_iff_key (clean x (inside x member)) (clean x (inside x member))] at same
    exact lt_irrefl _ same
  have left : 0 < rest.countP high := by
    rw [← perm.countP_eq, List.countP_append] at enough
    omega
  obtain ⟨y, there, exceeds⟩ := List.countP_pos_iff.mp left
  have ahead := above y (outside y there) exceeds x (inside x member) found
  cases behind x member y there with
  | inl under =>
    rw [Scores.lt_iff_key (clean _ (outside y there)) (clean _ (inside x member))] at under
    rw [Scores.lt_iff_key (clean _ (inside x member)) (clean _ (outside y there))] at ahead
    exact lt_asymm under ahead
  | inr level => exact level.1 ahead

namespace Beam

variable {elementary : Elementary} {settings : Settings} {inputIds : List Token} {b b' : Beam}
  {entry : Nat} {u : Unit}

theorem choose_survivors_le {histories : Histories} {rank : Nat} {expansions : List Expansion}
    {survivors : List Survivor} {finished : Hypotheses} {result : List Survivor × Hypotheses}
    (ran : choose settings histories entry rank expansions survivors finished = .ok result) :
    result.1.length ≤ survivors.length +
      (expansions.filter fun x => !settings.isEnd x.token).length := by
  induction expansions generalizing rank survivors finished with
  | nil =>
    obtain rfl := Except.ok.inj ran
    exact Nat.le_add_right _ _
  | cons x rest ih =>
    unfold choose at ran
    cases ends : settings.isEnd x.token with
    | true =>
      simp only [List.filter_cons, ends, Bool.not_true, Bool.false_eq_true, if_false]
      rw [if_pos ends] at ran
      -- an end token gives no survivor, whether it is offered or passed over
      split at ran
      · exact ih ran
      · simp only [Outcome.bind_eq_ok] at ran
        obtain ⟨_, -, ran⟩ := ran
        exact ih ran
    | false =>
      simp only [List.filter_cons, ends, Bool.not_false, if_true, List.length_cons]
      rw [if_neg (by simp [ends])] at ran
      simp only [Outcome.bind_eq_ok, place_eq_ok] at ran
      obtain ⟨_, ⟨-, rfl⟩, ran⟩ := ran
      split at ran
      · obtain rfl := Outcome.pure_eq_ok.mp ran
        simp only [List.length_append, List.length_singleton]
        omega
      · have later := ih ran
        simp only [List.length_append, List.length_singleton] at later
        omega

def continuing (settings : Settings) (ranked : List Expansion) : List Expansion :=
  (ranked.filter fun x => !settings.isEnd x.token).take settings.beams

def completing (settings : Settings) (ranked : List Expansion) : List Expansion :=
  (ranked.take settings.beams).filter fun x => settings.isEnd x.token

structure Advances (elementary : Elementary) (b b' : Beam) (entry : Nat)
    (before after : BeamEntry) (ranked : List Expansion) : Prop where
  ranks : b.rank elementary entry = .ok ranked
  enough : (continuing b.settings ranked).length = b.settings.beams
  histories : ofEntry b.settings entry b'.histories.rows =
    some ((continuing b.settings ranked).map (extended b.settings b.histories entry))
  scores : ofEntry b.settings entry b'.beamScores =
    some ((continuing b.settings ranked).map (·.score))
  finished : after.finished =
    offer b.settings b.histories entry before.finished (completing b.settings ranked)
  done : after.done = after.finished.isDone (bestScore ranked) (b.histories.length + 1)

theorem getElem?_ofEntry {α : Type} {values part : List α}
    (found : ofEntry settings entry values = some part) {beam : Nat}
    (bound : beam < settings.beams) :
    part[beam]? = values[entry * settings.beams + beam]? := by
  rw [ofEntry, Tensor.getElem?_blocks] at found
  split at found
  · rw [← Option.some.inj found, List.getElem?_take_of_lt bound, List.getElem?_drop]
  · cases found

theorem Sound.stepEntry_walked (sound : b.Sound) (inside : entry < b.settings.batchSize)
    {ranked : List Expansion} {before after : BeamEntry} {part : List Survivor}
    (ranks : b.rank elementary entry = .ok ranked) (live : before.done = false)
    (stepped : Step.Returns (stepEntry b.settings b.histories entry ranked) before part after) :
    (continuing b.settings ranked).length = b.settings.beams ∧
      part = (continuing b.settings ranked).map (survivor b.settings entry) ∧
      after.finished =
        offer b.settings b.histories entry before.finished (completing b.settings ranked) ∧
      after.done = after.finished.isDone (bestScore ranked) (b.histories.length + 1) := by
  have rows : ∀ x ∈ ranked, entry * b.settings.beams + x.beam < b.histories.rows.length := by
    intro x member
    rw [sound.rows]
    exact row_lt inside (beam_of_mem_rank ranks x member)
  rcases stepEntry_cases.mp stepped with ⟨stopped, -⟩ | ⟨-, finished, chosen, enough, same⟩
  · simp [live] at stopped
  have counted := choose_survivors_le chosen
  rw [List.length_nil, Nat.zero_add] at counted
  have whole : b.settings.beams ≤ (ranked.filter fun x => !b.settings.isEnd x.token).length :=
    enough.trans counted
  obtain ⟨done, walked⟩ := stepEntry_live sound.some rows whole live
  obtain ⟨rfl, own⟩ := Step.returns_unique stepped walked
  refine ⟨?_, rfl, by rw [own]; rfl, by rw [same]⟩
  rw [continuing, List.length_take, Nat.min_eq_left whole]

/-- A selection, entry by entry: those that are over stay, the others advance. -/
theorem Sound.advances (sound : b.Sound)
    (ran : Step.Returns (Beam.selectTop elementary) b u b') {before : BeamEntry}
    (found : b.entries[entry]? = Option.some before) :
    ∃ after, b'.entries[entry]? = Option.some after ∧ (before.done = true → after = before) ∧
      (before.done = false → ∃ ranked, Advances elementary b b' entry before after ranked) := by
  obtain ⟨-, parts, entries, histories, count, sized, -, each, descended, rfl⟩ :=
    selectTop_parts sound.some ran
  have inside : entry < b.settings.batchSize :=
    sound.entries ▸ (List.getElem?_eq_some_iff.mp found).1
  obtain ⟨part, ranked, before', after, there, ranks, entered, left, stepped⟩ := each entry inside
  obtain rfl := Option.some.inj (found.symm.trans entered)
  refine ⟨after, left, fun stopped => ?_, fun live => ?_⟩
  · exact (Step.returns_unique stepped (stepEntry_ended stopped)).2
  · obtain ⟨enough, rfl, finished, done⟩ := sound.stepEntry_walked inside ranks live stepped
    -- every survivor gives a row: that of its parent with its token
    have rows : histories.rows = parts.flatten.map fun survivor =>
        b.histories.rows.getD survivor.parent [] ++ [survivor.token] := by
      obtain ⟨-, -, -, -, rfl⟩ := Histories.descend_eq_ok.mp descended
      rw [List.map_map, List.zipWith_map, List.zipWith_self]
      rfl
    refine ⟨ranked, ranks, enough, ?_, ?_, finished, done⟩
    · rw [rows, ofEntry_map _ count sized there, List.map_map]
      rfl
    · rw [ofEntry_map _ count sized there, List.map_map]
      rfl

theorem Sound.advanced (sound : b.Sound)
    (ran : Step.Returns (Beam.selectTop elementary) b u b') {after : BeamEntry}
    (found : b'.entries[entry]? = Option.some after) :
    entry < b.settings.batchSize ∧ ∃ before, b.entries[entry]? = Option.some before ∧
      (before.done = true → after = before) ∧
      (before.done = false → ∃ ranked, Advances elementary b b' entry before after ranked) := by
  have kept : b'.entries.length = b.entries.length := by
    obtain ⟨-, _, _, _, -, -, kept, -, -, rfl⟩ := selectTop_parts sound.some ran
    exact kept
  have bound := kept ▸ (List.getElem?_eq_some_iff.mp found).1
  have there := List.getElem?_eq_getElem bound
  obtain ⟨after, left, stays, goes⟩ := sound.advances ran there
  obtain rfl := Option.some.inj (left.symm.trans found)
  exact ⟨sound.entries ▸ bound, _, there, stays, goes⟩

theorem mem_of_mem_continuing {ranked : List Expansion} {x : Expansion}
    (member : x ∈ continuing settings ranked) : x ∈ ranked ∧ settings.isEnd x.token = false := by
  have passed := List.mem_filter.mp (List.mem_of_mem_take member)
  exact ⟨passed.1, by simpa using passed.2⟩

theorem mem_of_mem_completing {ranked : List Expansion} {x : Expansion}
    (member : x ∈ completing settings ranked) : x ∈ ranked ∧ settings.isEnd x.token = true := by
  have passed := List.mem_filter.mp member
  exact ⟨List.mem_of_mem_take passed.1, passed.2⟩

theorem Sound.rank_nodup (sound : b.Sound) (fresh : b.scores.fresh = true)
    (inside : entry < b.settings.batchSize) {ranked : List Expansion}
    (ranks : b.rank elementary entry = .ok ranked) :
    (ranked.map fun x => (x.beam, x.token)).Nodup := by
  have listed : ((b.candidates elementary entry).map fun x => (x.beam, x.token)).Nodup := by
    rw [List.Nodup, List.pairwise_map]
    refine (sound.candidates_listed fresh inside).imp fun {x y} earlier same => ?_
    obtain ⟨beam, token⟩ := Prod.mk.inj same
    rw [Expansion.place, Expansion.place, beam, token] at earlier
    exact Nat.lt_irrefl _ earlier
  obtain rfl := Except.ok.inj ((sound.rank_eq fresh inside).symm.trans ranks)
  have sorted := ((List.mergeSort_perm (b.candidates elementary entry) fun x y =>
    !(x.score < y.score)).map fun x => (x.beam, x.token)).nodup_iff.mpr listed
  exact sorted.sublist ((List.take_sublist _ _).map _)

theorem fresh_of_selectTop (ran : Step.Returns (selectTop elementary) b u b') :
    b.scores.fresh = true :=
  LoadedScores.requireFresh_eq_ok.mp (selectTop_returns.mp ran).1

end Beam

namespace Beam

variable {elementary : Elementary} {settings : Settings} {inputIds : List Token}
  {selections : List Beam} {b b' : Beam}

/-- The runs of a beam search, with the states that selections were made in, the latest first. -/
inductive Run (elementary : Elementary) (settings : Settings) (inputIds : List Token) :
    List Beam → Beam → Prop where
  | start {b : Beam} : Beam.start settings inputIds = .ok b → Run elementary settings inputIds [] b
  | prepare {selections : List Beam} {preparation : Preparation} {b b' : Beam} :
      Run elementary settings inputIds selections b →
      Step.Returns (Beam.prepare preparation) b () b' →
      Run elementary settings inputIds selections b'
  | selectTop {selections : List Beam} {b b' : Beam} :
      Run elementary settings inputIds selections b →
      Step.Returns (Beam.selectTop elementary) b () b' →
      Run elementary settings inputIds (b :: selections) b'

def Numbered (elementary : Elementary) (b : Beam) : Prop :=
  ∀ entry state, b.entries[entry]? = some state → state.done = false →
    ∀ x ∈ b.candidates elementary entry, x.score.isNaN = false

theorem Sound.prepare {preparation : Preparation} (sound : b.Sound)
    (ran : Step.Returns (Beam.prepare preparation) b () b') : b'.Sound := by
  cases preparation with
  | load tensor => exact sound.setScores ran
  | constrainLength minLength => exact sound.constrainLength ran
  | penalize penalty => exact sound.penalize ran

theorem Run.sound (run : Run elementary settings inputIds selections b) : b.Sound := by
  induction run with
  | start started => exact start_sound started
  | prepare _ ran ih => exact ih.prepare ran
  | selectTop _ ran ih => exact ih.selectTop ran

theorem prepare_rescores {preparation : Preparation} {u : Unit}
    (ran : Step.Returns (Beam.prepare preparation) b u b') :
    ∃ scores, b' = { b with scores := scores } := by
  obtain ⟨scores, same, -⟩ := @prepare_returns preparation [] b b' u ran
  exact ⟨scores, same⟩

theorem Run.settings_eq (run : Run elementary settings inputIds selections b) :
    b.settings = settings := by
  induction run with
  | start started =>
    obtain ⟨-, -, -, rfl⟩ := start_eq_ok started
    rfl
  | prepare _ ran ih =>
    obtain ⟨scores, rfl⟩ := prepare_rescores ran
    exact ih
  | selectTop _ ran ih =>
    obtain ⟨-, -, -, -, -, -, -, -, -, rfl⟩ := selectTop_returns.mp ran
    exact ih

theorem Run.going (run : Run elementary settings inputIds selections b) : b.finals = none := by
  induction run with
  | start started =>
    obtain ⟨-, -, -, rfl⟩ := start_eq_ok started
    rfl
  | prepare _ ran ih =>
    obtain ⟨scores, rfl⟩ := prepare_rescores ran
    exact ih
  | selectTop _ ran ih =>
    obtain ⟨-, -, -, -, -, -, -, -, -, rfl⟩ := selectTop_returns.mp ran
    exact ih

theorem Run.level (run : Run elementary settings inputIds selections b) :
    ∀ row ∈ b.histories.rows, row.length = b.histories.length := by
  induction run with
  | start started =>
    obtain ⟨-, _, began, rfl⟩ := start_eq_ok started
    exact Histories.start_level began
  | prepare _ ran ih =>
    obtain ⟨scores, rfl⟩ := prepare_rescores ran
    exact ih
  | selectTop _ ran ih =>
    obtain ⟨-, -, _, _, _, _, -, -, descended, rfl⟩ := selectTop_returns.mp ran
    exact Histories.descend_level ih descended

end Beam

end StagedDecoding
