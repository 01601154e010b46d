import StagedDecoding.Proofs.Finals
import StagedDecoding.Proofs.Rooting

/-! How many hypotheses an entry finishes.

An entry keeps at most one finished hypothesis for every beam, and is over only when it has that
many. Closing an entry that is not over offers a row for every beam. So afterwards every entry has
exactly as many hypotheses as beams, and enough for its results. All of them continue the prompt of
the entry and fit into the histories. The results can be asked for one by one, in any order.
-/

set_option autoImplicit false

namespace StagedDecoding

theorem Strategy.Rooted.begun {request : Request} {strategy : Strategy}
    (rooted : strategy.Rooted request) {i : Nat} {row : List Token}
    (found : strategy.histories.rows[i]? = some row) :
    promptOf request.inputIds request.batchSize (i / request.beams) <+: row := by
  have own : (strategy.histories.rows.map (·.take request.promptLength))[i]? =
      some (row.take request.promptLength) := by
    rw [List.getElem?_map, found, Option.map_some]
  rw [rooted.rooted, Request.promptRows, getElem?_flatMap_replicate request.beams_pos,
    Tensor.getElem?_blocks] at own
  split at own
  · rw [show promptOf request.inputIds request.batchSize (i / request.beams) = _ from
      Option.some.inj own]
    exact List.take_prefix _ row
  · cases own

theorem Strategy.Rooted.begun_of_beam {request : Request} {strategy : Strategy}
    (rooted : strategy.Rooted request) {entry beam : Nat} {row : List Token}
    (inside : beam < request.beams)
    (found : strategy.histories.rows[entry * request.beams + beam]? = some row) :
    promptOf request.inputIds request.batchSize entry <+: row := by
  have own : (entry * request.beams + beam) / request.beams = entry := by
    rw [Nat.mul_comm, Nat.mul_add_div request.beams_pos, Nat.div_eq_of_lt inside, Nat.add_zero]
  exact own ▸ rooted.begun found

namespace Hypotheses

variable {h : Hypotheses} {tokens : List Token} {logProbability : Float32}

theorem worstIndex_lt {kept : List Scored} (some : kept ≠ []) :
    worstIndex kept < kept.length := by
  -- the index that is carried along is one of those gone through
  have walk : ∀ (rest : List Scored) (worst i : Nat) (value : Float32), worst < i →
      worstIndex.go worst value i rest < i + rest.length := by
    intro rest
    induction rest with
    | nil => exact fun _ _ _ before => before
    | cons next rest ih =>
      intro worst i value before
      have later : i + (next :: rest).length = i + 1 + rest.length := by
        rw [List.length_cons]
        omega
      rw [later]
      unfold worstIndex.go
      split
      · exact ih _ _ _ (Nat.lt_succ_self i)
      · exact ih _ _ _ (Nat.lt_succ_of_lt before)
  cases kept with
  | nil => exact absurd rfl some
  | cons first rest =>
    rw [List.length_cons, Nat.add_comm]
    exact walk rest 0 1 first.score Nat.one_pos

theorem add_beams {power : Float32 → Float32 → Float32} :
    (h.add tokens logProbability power).beams = h.beams := by
  unfold add
  dsimp only
  split <;> rfl

theorem length_add (few : h.kept.length ≤ h.beams) :
    (h.add tokens logProbability).kept.length = min h.beams (h.kept.length + 1) := by
  unfold add
  dsimp only
  split
  · next refused =>
    simp only [Bool.and_eq_true, decide_eq_true_eq] at refused
    omega
  · dsimp only
    split
    · next full =>
      rw [List.length_eraseIdx_of_lt (worstIndex_lt (by simp))]
      rw [List.length_append, List.length_singleton] at full ⊢
      omega
    · next room =>
      rw [List.length_append, List.length_singleton] at room ⊢
      omega

theorem isDone_iff {power : Float32 → Float32 → Float32} {best : Float32} {length : Nat} :
    h.isDone best length power = true ↔ h.beams ≤ h.kept.length ∧
      (h.earlyStopping = true ∨ normalized h.lengthPenalty best length power ≤ h.worst) := by
  unfold isDone
  split
  · next few => exact iff_of_false Bool.false_ne_true fun both => Nat.not_lt.mpr both.1 few
  · next enough =>
    rw [Bool.or_eq_true, decide_eq_true_iff]
    exact (and_iff_right (Nat.le_of_not_lt enough)).symm

/-- No entry is over before it has finished a hypothesis for every beam. -/
theorem le_of_isDone {best : Float32} {length : Nat} (done : h.isDone best length = true) :
    h.beams ≤ h.kept.length :=
  (isDone_iff.mp done).1

theorem length_ranked : h.ranked.length = h.kept.length :=
  List.length_mergeSort _

theorem mem_ranked {final : Scored} (member : final ∈ h.ranked) : final ∈ h.kept :=
  (List.mergeSort_perm _ _).subset member

/-- At most one hypothesis for every beam, each of which continues a prompt and fits. -/
structure Continues (beams capacity : Nat) (prompt : List Token) (h : Hypotheses) : Prop where
  sized : h.beams = beams
  few : h.kept.length ≤ beams
  begun : ∀ final ∈ h.kept, prompt <+: final.tokens
  fits : ∀ final ∈ h.kept, final.tokens.length ≤ capacity

variable {beams capacity : Nat} {prompt : List Token}

theorem Continues.empty {lengthPenalty : Float32} {earlyStopping : Bool} :
    (Hypotheses.empty beams lengthPenalty earlyStopping).Continues beams capacity prompt :=
  ⟨rfl, Nat.zero_le _, nofun, nofun⟩

theorem Continues.add (continues : h.Continues beams capacity prompt) (begun : prompt <+: tokens)
    (fits : tokens.length ≤ capacity) :
    (h.add tokens logProbability).Continues beams capacity prompt := by
  refine ⟨add_beams.trans continues.sized, ?_, fun final member => ?_, fun final member => ?_⟩
  · rw [length_add (continues.sized.symm ▸ continues.few), continues.sized]
    exact Nat.min_le_left _ _
  · cases mem_add member with
    | inl before => exact continues.begun final before
    | inr offered => exact offered ▸ begun
  · cases mem_add member with
    | inl before => exact continues.fits final before
    | inr offered => exact offered ▸ fits

theorem Continues.offerAll {offers : List (List Token × Float32)}
    (continues : h.Continues beams capacity prompt)
    (offered : ∀ offer ∈ offers, prompt <+: offer.1 ∧ offer.1.length ≤ capacity) :
    (Beam.offerAll offers h).Continues beams capacity prompt ∧
      (Beam.offerAll offers h).kept.length = min beams (h.kept.length + offers.length) := by
  induction offers generalizing h with
  | nil => exact ⟨continues, (Nat.min_eq_right continues.few).symm⟩
  | cons offer rest ih =>
    obtain ⟨begun, fits⟩ := offered offer (by simp)
    have next : (h.add offer.1 offer.2).Continues beams capacity prompt := continues.add begun fits
    have grown : (h.add offer.1 offer.2).kept.length = min h.beams (h.kept.length + 1) :=
      length_add (continues.sized.symm ▸ continues.few)
    obtain ⟨later, count⟩ := ih next fun other member => offered other (by simp [member])
    refine ⟨later, count.trans ?_⟩
    rw [grown, continues.sized, List.length_cons]
    omega

end Hypotheses

namespace Beam

variable {request : Request} {b b' : Beam}

/-- What every entry has finished continues its prompt. An entry that is over has finished a
hypothesis for every beam. -/
structure Gathers (request : Request) (b : Beam) : Prop where
  count : b.entries.length = request.batchSize
  finished : ∀ (entry : Nat) (state : BeamEntry), b.entries[entry]? = some state →
    state.finished.Continues request.beams request.settings.maxLength
      (promptOf request.inputIds request.batchSize entry)
  stopped : ∀ (entry : Nat) (state : BeamEntry), b.entries[entry]? = some state →
    state.done = true → state.finished.kept.length = request.beams

theorem Gathers.start (started : Beam.start request.settings request.inputIds = .ok b) :
    b.Gathers request := by
  refine ⟨?_, fun entry state found => ?_, fun entry state found done => ?_⟩
  · obtain ⟨-, histories, -, rfl⟩ := Beam.start_eq_ok started
    exact List.length_replicate
  · obtain ⟨-, rfl⟩ := Beam.entry_of_start started found
    exact .empty
  · obtain ⟨-, rfl⟩ := Beam.entry_of_start started found
    cases done

theorem Gathers.stepEntry {entry : Nat} {ranked : List Expansion} {before after : BeamEntry}
    {part : List Survivor} (gathers : b.Gathers request)
    (rooted : (Strategy.beam b).Rooted request)
    (room : b.histories.length + 1 ≤ b.histories.capacity)
    (within : ∀ expansion ∈ ranked, expansion.beam < request.beams)
    (found : b.entries[entry]? = some before)
    (stepped : Step.Returns (stepEntry b.settings b.histories entry ranked) before part after) :
    after.finished.Continues request.beams request.settings.maxLength
        (promptOf request.inputIds request.batchSize entry) ∧
      (after.done = true → after.finished.kept.length = request.beams) := by
  have beams : b.settings.beams = request.beams := rooted.beams
  have capacity : b.histories.capacity = request.settings.maxLength := rooted.capacity
  rcases stepEntry_cases.mp stepped with ⟨stopped, -, rfl⟩ | ⟨-, finished, chosen, -, rfl⟩
  · exact ⟨gathers.finished entry _ found, fun _ => gathers.stopped entry _ found stopped⟩
  · -- the hypotheses grow only by rows of the entry with one more token
    have offered := (choose_preserves (p := fun _ => True)
      (q := Hypotheses.Continues request.beams request.settings.maxLength
        (promptOf request.inputIds request.batchSize entry)) (fun _ _ _ => trivial) (by
        intro x member _ history finished there continues
        have begun := rooted.begun_of_beam (within x member) (beams ▸ there)
        refine continues.add (begun.trans (List.prefix_append _ _)) ?_
        have long : history.length = b.histories.length :=
          rooted.rows.width history (List.mem_of_getElem? there)
        rw [List.length_append, List.length_singleton, long, ← capacity]
        exact room) (fun _ member => by cases member)
      (gathers.finished entry _ found) chosen).2
    refine ⟨offered, fun done => Nat.le_antisymm offered.few ?_⟩
    have enough := Hypotheses.le_of_isDone done
    rwa [offered.sized] at enough

theorem Gathers.selectTop {elementary : Elementary} {u : Unit} (gathers : b.Gathers request)
    (rooted : (Strategy.beam b).Rooted request)
    (ran : Step.Returns (Beam.selectTop elementary) b u b') : b'.Gathers request := by
  have beams : b.settings.beams = request.beams := rooted.beams
  have batch : b.settings.batchSize = request.batchSize :=
    congrArg Settings.batchSize (show b.settings = request.settings from rooted.settings)
  obtain ⟨-, parts, entries, histories, -, -, count, each, descended, rfl⟩ :=
    selectTop_parts (beams.symm ▸ request.beams_pos) ran
  have room := (Histories.descend_eq_ok.mp descended).2.2.1
  have stepped : ∀ (entry : Nat) (state : BeamEntry), entries[entry]? = some state →
      state.finished.Continues request.beams request.settings.maxLength
          (promptOf request.inputIds request.batchSize entry) ∧
        (state.done = true → state.finished.kept.length = request.beams) := by
    intro entry state there
    have inside : entry < b.settings.batchSize := by
      rw [batch, ← gathers.count, ← count]
      exact (List.getElem?_eq_some_iff.mp there).1
    -- what holds of an entry after the selection follows from its own step
    obtain ⟨part, ranked, before, after, -, ranks, found, found', walked⟩ := each entry inside
    obtain rfl := Option.some.inj (there.symm.trans found')
    exact gathers.stepEntry rooted room (beams ▸ beam_of_mem_rank ranks) found walked
  exact ⟨count.trans gathers.count, fun entry state there => (stepped entry state there).1,
    fun entry state there => (stepped entry state there).2⟩

/-- A closed entry has finished a hypothesis for every beam. -/
theorem Gathers.closing (gathers : b.Gathers request) (rooted : (Strategy.beam b).Rooted request)
    (fits : b.histories.length ≤ request.settings.maxLength)
    {entry : Nat} {state : BeamEntry} (found : b.closing[entry]? = some state) :
    state.finished.Continues request.beams request.settings.maxLength
        (promptOf request.inputIds request.batchSize entry) ∧
      state.finished.kept.length = request.beams := by
  have beams : b.settings.beams = request.beams := rooted.beams
  rw [Beam.closing, List.getElem?_mapIdx] at found
  obtain ⟨before, there, rfl⟩ := Option.map_eq_some_iff.mp found
  have continues := gathers.finished entry before there
  unfold closed
  split
  · next done => exact ⟨continues, gathers.stopped entry before there done⟩
  · -- a row is offered for every beam
    have inside : entry < request.batchSize :=
      gathers.count ▸ (List.getElem?_eq_some_iff.mp there).1
    have offers : ∀ offer ∈ rowsOf b.histories b.beamScores
        ((List.range b.settings.beams).map (entry * b.settings.beams + ·)),
        promptOf request.inputIds request.batchSize entry <+: offer.1 ∧
          offer.1.length ≤ request.settings.maxLength := by
      simp only [rowsOf, List.forall_mem_map, List.mem_range, beams]
      intro beam bound
      have here : entry * request.beams + beam < b.histories.rows.length :=
        rooted.rows.count ▸ @row_lt _ _ request.settings inside bound
      rw [List.getD_eq_getElem _ _ here]
      refine ⟨rooted.begun_of_beam bound (List.getElem?_eq_getElem here), ?_⟩
      rw [rooted.rows.width _ (List.getElem_mem here)]
      exact fits
    obtain ⟨offered, count⟩ := continues.offerAll offers
    refine ⟨offered, ?_⟩
    rw [count, rowsOf, List.length_map, List.length_map, List.length_range, beams]
    omega

theorem Gathers.results {count : Nat} (gathers : b.Gathers request)
    (rooted : (Strategy.beam b).Rooted request)
    (fits : b.histories.length ≤ request.settings.maxLength) (few : count ≤ request.beams) :
    (b.results count).length = request.batchSize * count ∧
      ∀ (i : Nat) (final : Scored), (b.results count)[i]? = some final →
        promptOf request.inputIds request.batchSize (i / count) <+: final.tokens ∧
          final.tokens.length ≤ request.settings.maxLength := by
  have sized : ∀ part ∈ b.closing.map (·.finished.ranked.take count), part.length = count := by
    rw [List.forall_mem_map]
    intro state member
    obtain ⟨entry, found⟩ := List.getElem?_of_mem member
    rw [List.length_take, Hypotheses.length_ranked, (gathers.closing rooted fits found).2]
    exact Nat.min_eq_left few
  rw [Beam.results, List.flatMap_def]
  constructor
  · rw [List.length_flatten, List.map_congr_left sized, List.map_const', List.sum_replicate_nat,
      List.length_map, Beam.closing, List.length_mapIdx, gathers.count]
  · intro i final found
    have some : 0 < count := by
      apply Nat.pos_of_ne_zero
      rintro rfl
      simp at found
    -- the results of an entry stand together
    rw [← Nat.div_add_mod i count, Nat.mul_comm,
      Tensor.getElem?_flatten sized (Nat.mod_lt i some), List.getElem?_map] at found
    obtain ⟨part, found, there⟩ := Option.bind_eq_some_iff.mp found
    obtain ⟨state, closed, rfl⟩ := Option.map_eq_some_iff.mp found
    obtain ⟨continues, -⟩ := gathers.closing rooted fits closed
    have kept := Hypotheses.mem_ranked (List.mem_of_mem_take (List.mem_of_getElem? there))
    exact ⟨continues.begun final kept, continues.fits final kept⟩

variable {finals : List Scored}

theorem finalize_fixed (fixed : b.finals = some finals) (count : Nat) :
    Step.Returns (finalize count) b finals b := by
  simp only [finalize, Step.returns_bind, Step.returns_get]
  refine ⟨_, _, ⟨rfl, rfl⟩, ?_⟩
  rw [fixed]
  exact Step.returns_pure.mpr ⟨rfl, rfl⟩

inductive Gives (finals : List Scored) (b : Beam) : Prop where
  | fixed : b.finals = some finals → Gives finals b
  | going : b.finals = none → b.Counted → 0 < b.settings.returnCount →
      b.settings.returnCount ≤ b.settings.beams → b.results b.settings.returnCount = finals →
      Gives finals b

theorem Gives.sequence {index : Nat} {final : Scored} (gives : b.Gives finals)
    (found : finals[index]? = some final) :
    ∃ b', Step.Returns (Beam.sequence index) b final.tokens b' ∧ b'.Gives finals := by
  obtain ⟨b', finalized, fixed⟩ : ∃ b',
      Step.Returns (finalize b.settings.returnCount) b finals b' ∧ b'.finals = some finals := by
    cases gives with
    | fixed given => exact ⟨b, finalize_fixed given _, given⟩
    | going going counted some few results =>
      have closes := counted.finalize_returns going some few
      rw [results] at closes
      exact ⟨_, closes, rfl⟩
  refine ⟨b', ?_, .fixed fixed⟩
  simp only [Beam.sequence, Step.returns_bind, Step.returns_get]
  refine ⟨_, _, ⟨rfl, rfl⟩, finals, b', finalized, ?_⟩
  rw [found]
  exact Step.returns_pure.mpr ⟨rfl, rfl⟩

end Beam

end StagedDecoding
