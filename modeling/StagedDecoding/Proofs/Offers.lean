import StagedDecoding.Proofs.EntrySteps
import StagedDecoding.Proofs.Finished

/-! Offers to the finished hypotheses of an entry.

What an entry keeps comes from what it kept before and from what was offered since, in that order,
and is never more than there are beams. An entry that is over has a hypothesis for every beam, and
so has every entry once it is closed. The results are then as many for each entry as are asked for.
-/

set_option autoImplicit false

namespace StagedDecoding

namespace Hypotheses

variable {h : Hypotheses} {tokens : List Token} {logProbability : Float32} {beams : Nat}

theorem ranked_perm (h : Hypotheses) : h.ranked.Perm h.kept :=
  List.mergeSort_perm _ _

theorem sublist_add (h : Hypotheses) (tokens : List Token) (logProbability : Float32) :
    (h.add tokens logProbability).kept.Sublist (h.kept ++ [⟨tokens, normalized h.lengthPenalty logProbability tokens.length⟩]) := by
  unfold add
  dsimp only
  split
  · exact List.sublist_append_left _ _
  · dsimp only
    split
    · exact List.eraseIdx_sublist _ _
    · exact List.Sublist.refl _

theorem sublist_offerAll (h : Hypotheses) (offers : List (List Token × Float32)) :
    ((Beam.offerAll offers h).kept.map (·.tokens)).Sublist
      (h.kept.map (·.tokens) ++ offers.map (·.1)) := by
  induction offers generalizing h with
  | nil => rw [List.map_nil, List.append_nil]; exact List.Sublist.refl _
  | cons offer rest ih =>
    have first := (sublist_add h offer.1 offer.2).map (·.tokens)
    rw [List.map_append, List.map_singleton] at first
    refine (ih (h.add offer.1 offer.2)).trans ?_
    rw [List.map_cons, List.append_cons]
    exact first.append_right _

theorem add_earlyStopping {power : Float32 → Float32 → Float32} :
    (h.add tokens logProbability power).earlyStopping = h.earlyStopping := by
  unfold add
  dsimp only
  split <;> rfl

structure Capped (beams : Nat) (h : Hypotheses) : Prop where
  sized : h.beams = beams
  few : h.kept.length ≤ beams

theorem Capped.offerAll (capped : h.Capped beams) (offers : List (List Token × Float32)) :
    (Beam.offerAll offers h).Capped beams ∧
      (Beam.offerAll offers h).kept.length = min beams (h.kept.length + offers.length) := by
  induction offers generalizing h with
  | nil => exact ⟨capped, (Nat.min_eq_right capped.few).symm⟩
  | cons offer rest ih =>
    have grown : (h.add offer.1 offer.2).kept.length = min beams (h.kept.length + 1) := by
      rw [length_add (capped.sized.symm ▸ capped.few), capped.sized]
    have next : (h.add offer.1 offer.2).Capped beams :=
      ⟨add_beams.trans capped.sized, grown ▸ Nat.min_le_left _ _⟩
    obtain ⟨later, count⟩ := ih next
    refine ⟨later, count.trans ?_⟩
    rw [grown, List.length_cons]
    omega

end Hypotheses

namespace Beam

variable {elementary : Elementary} {settings : Settings} {inputIds : List Token}
  {selections : List Beam} {b b' : Beam} {entry : Nat}

def offers (settings : Settings) (histories : Histories) (entry : Nat)
    (expansions : List Expansion) : List (List Token × Float32) :=
  expansions.map fun x => (extended settings histories entry x, x.score)

theorem offer_eq (histories : Histories) (finished : Hypotheses) (expansions : List Expansion) :
    offer settings histories entry finished expansions =
      offerAll (offers settings histories entry expansions) finished := by
  rw [offer, offerAll, offers, List.foldl_map]

/-- No entry keeps more hypotheses than there are beams, and none is over with fewer. -/
structure Capped (b : Beam) : Prop where
  finished : ∀ (entry : Nat) (state : BeamEntry), b.entries[entry]? = some state →
    state.finished.Capped b.settings.beams
  stopped : ∀ (entry : Nat) (state : BeamEntry), b.entries[entry]? = some state →
    state.done = true → state.finished.kept.length = b.settings.beams

theorem Capped.start (started : Beam.start settings inputIds = .ok b) : b.Capped := by
  have own : b.settings = settings := by
    obtain ⟨-, -, -, rfl⟩ := Beam.start_eq_ok started
    rfl
  refine ⟨fun entry state found => ?_, fun entry state found done => ?_⟩
  · obtain ⟨-, rfl⟩ := Beam.entry_of_start started found
    exact ⟨own ▸ rfl, Nat.zero_le _⟩
  · obtain ⟨-, rfl⟩ := Beam.entry_of_start started found
    cases done

theorem Capped.selectTop (capped : b.Capped) (sound : b.Sound)
    (ran : Step.Returns (Beam.selectTop elementary) b () b') : b'.Capped := by
  have own : b'.settings = b.settings := by
    obtain ⟨-, -, _, _, -, -, -, -, -, rfl⟩ := selectTop_parts sound.some ran
    rfl
  have stepped : ∀ (entry : Nat) (state : BeamEntry), b'.entries[entry]? = some state →
      state.finished.Capped b.settings.beams ∧
        (state.done = true → state.finished.kept.length = b.settings.beams) := by
    intro entry state there
    obtain ⟨-, before, found, stays, goes⟩ := sound.advanced ran there
    have kept := capped.finished entry before found
    -- an entry that is over stays as it is, any other is over as soon as it is full
    cases stopped : before.done with
    | true =>
      rw [stays stopped]
      exact ⟨kept, fun _ => capped.stopped entry before found stopped⟩
    | false =>
      obtain ⟨ranked, advances⟩ := goes stopped
      have kept := (kept.offerAll (offers b.settings b.histories entry
        (completing b.settings ranked))).1
      rw [← offer_eq, ← advances.finished] at kept
      refine ⟨kept, fun done => Nat.le_antisymm kept.few ?_⟩
      rw [advances.done] at done
      exact kept.sized ▸ Hypotheses.le_of_isDone done
  exact ⟨fun entry state there => own ▸ (stepped entry state there).1,
    fun entry state there => own ▸ (stepped entry state there).2⟩

theorem Run.capped (run : Run elementary settings inputIds selections b) : b.Capped := by
  induction run with
  | start started => exact .start started
  | prepare _ ran ih =>
    obtain ⟨scores, rfl⟩ := prepare_rescores ran
    exact ⟨ih.finished, ih.stopped⟩
  | selectTop before ran ih => exact ih.selectTop before.sound ran

def liveOffers (b : Beam) (entry : Nat) : List (List Token × Float32) :=
  rowsOf b.histories b.beamScores
    ((List.range b.settings.beams).map (entry * b.settings.beams + ·))

theorem liveOffers_tokens (sound : b.Sound) {rows : List (List Token)}
    (here : ofEntry b.settings entry b.histories.rows = some rows) :
    (b.liveOffers entry).map (·.1) = rows := by
  have long : rows.length = b.settings.beams := by
    refine Tensor.length_of_mem_blocks ?_ (List.mem_of_getElem? here)
    rw [sound.rows, Settings.rowCount]
  refine List.ext_getElem (by simp [liveOffers, rowsOf, long]) fun beam _ bound => ?_
  have own := getElem?_ofEntry here (long ▸ bound)
  rw [List.getElem?_eq_getElem bound] at own
  simp [liveOffers, rowsOf, ← own]

theorem getElem?_closing (b : Beam) (entry : Nat) :
    b.closing[entry]? = (b.entries[entry]?).map fun state =>
      if state.done then state
      else { state with finished := offerAll (b.liveOffers entry) state.finished } :=
  List.getElem?_mapIdx

theorem Capped.closing (capped : b.Capped) {state : BeamEntry}
    (found : b.closing[entry]? = some state) :
    state.finished.kept.length = b.settings.beams := by
  rw [getElem?_closing] at found
  obtain ⟨before, there, rfl⟩ := Option.map_eq_some_iff.mp found
  cases stopped : before.done with
  | true => exact capped.stopped entry before there stopped
  | false =>
    have count := ((capped.finished entry before there).offerAll (b.liveOffers entry)).2
    have many : (b.liveOffers entry).length = b.settings.beams := by
      rw [liveOffers, rowsOf, List.length_map, List.length_map, List.length_range]
    rw [if_neg Bool.false_ne_true, count, many]
    exact Nat.min_eq_left (Nat.le_add_left _ _)

theorem Capped.blocks_results (capped : b.Capped) (sound : b.Sound) {count : Nat}
    (fits : count ≤ b.settings.beams) :
    Tensor.blocks count b.settings.batchSize (b.results count) =
      b.closing.map fun state => state.finished.ranked.take count := by
  have sized : ∀ part ∈ b.closing.map fun state => state.finished.ranked.take count,
      part.length = count := by
    rw [List.forall_mem_map]
    intro state member
    obtain ⟨entry, found⟩ := List.getElem?_of_mem member
    rw [List.length_take, Hypotheses.length_ranked, capped.closing found]
    exact Nat.min_eq_left fits
  have whole := Tensor.blocks_flatten sized
  rwa [List.length_map, Beam.closing, List.length_mapIdx, sound.entries, ← Beam.closing,
    ← List.flatMap_def] at whole

theorem finalize_inv (sound : b.Sound) (going : b.finals = none) {count : Nat}
    {finals : List Scored} (ran : Step.Returns (finalize count) b finals b') :
    0 < count ∧ count ≤ b.settings.beams ∧ finals = b.results count ∧ b' = { b with
      entries := b.closing
      finals := some (b.results count)
      done := true } := by
  by_cases refused : count = 0 ∨ b.settings.beams < count
  · have failed := finalize_refused going refused
    rw [Step.Fails, ran] at failed
    simp at failed
  · obtain ⟨asked, fits⟩ : 0 < count ∧ count ≤ b.settings.beams := by omega
    obtain ⟨rfl, rfl⟩ := Step.returns_unique ran
      (sound.counted.finalize_returns going asked fits)
    exact ⟨asked, fits, rfl, rfl⟩

end Beam

end StagedDecoding
