import Mathlib.Algebra.BigOperators.Group.List.Basic
import StagedDecoding.Proofs.Finished
import StagedDecoding.Proofs.LateEnds
import StagedDecoding.Proofs.Offers

/-! Beams that wait for the minimum length.

While histories are short, an expansion by an end token scores negative infinity, and every beam has
an expansion of a finite score that goes on. So the best expansions, as many as there are beams, are
finite and end nothing: no hypothesis is finished, no entry is over, and the scores of the beams stay
finite. Once histories are long enough, whatever ends does so late.
-/

set_option autoImplicit false

namespace StagedDecoding.Beam

variable {elementary : Elementary} {b b' : Beam} {entry : Nat} {u : Unit}

/-- The scores of every row leave a choice, but not of an end token, and no sum overflows. -/
structure Holding (elementary : Elementary) (b : Beam) : Prop where
  clear : ∀ i own, b.scores.last i = .ok own → Scores.Clear b.settings.endTokens own
  out : ∀ i own, b.scores.last i = .ok own → ∀ token ∈ b.settings.endTokens, ∀ score,
    own[token]? = some score → score = Scores.negativeInfinity
  finite : ∀ base ∈ b.beamScores, base.isFinite = true
  bounded : ∀ (i : Nat) base own logProbability, b.beamScores[i]? = some base →
    b.scores.last i = .ok own → logProbability ∈ own.logSoftmaxBy elementary →
    logProbability.isFinite = true → (logProbability + base).isFinite = true

theorem Sound.expanded (sound : b.Sound) (fresh : b.scores.fresh = true)
    (inside : entry < b.settings.batchSize) {x : Expansion}
    (member : x ∈ b.candidates elementary entry) : ∃ base own logProbability,
      b.beamScores[entry * b.settings.beams + x.beam]? = Option.some base ∧
      b.scores.last (entry * b.settings.beams + x.beam) = .ok own ∧
      (own.logSoftmaxBy elementary)[x.token]? = Option.some logProbability ∧
      x.score = logProbability + base := by
  obtain ⟨beam, bound, listed⟩ := List.mem_flatMap.mp member
  obtain ⟨-, expanded⟩ := sound.branch_eq fresh inside (List.mem_range.mp bound)
  exact (expanded_of_branch expanded listed).2

theorem Holding.scored (holding : b.Holding elementary) (regular : elementary.Regular)
    (sound : b.Sound) (fresh : b.scores.fresh = true) (inside : entry < b.settings.batchSize) :
    ∀ x ∈ b.candidates elementary entry,
      (x.score.isFinite = true ∨ x.score = Scores.negativeInfinity) ∧
      (b.settings.isEnd x.token = true → x.score = Scores.negativeInfinity) := by
  intro x member
  obtain ⟨base, own, logProbability, graded, last, there, score⟩ :=
    sound.expanded fresh inside member
  have clear := holding.clear _ own last
  have finite := holding.finite base (List.mem_of_getElem? graded)
  have listed := List.mem_of_getElem? there
  constructor
  · -- the score of a row is finite, so that what is added to it decides
    rw [score]
    rcases Scores.finite_or_infinite (clear.logSoftmax_le regular _ listed) rfl with small | out
    · exact .inl (holding.bounded _ base own _ graded last listed small)
    · exact .inr (Scores.infinite_add out finite)
  · intro ends
    have bound : x.token < own.length := by
      have := (List.getElem?_eq_some_iff.mp there).1
      simpa [Scores.logSoftmaxBy] using this
    have out := holding.out _ own last x.token (by simpa [Settings.isEnd] using ends) _
      (List.getElem?_eq_getElem bound)
    have ruled := clear.logSoftmax_out regular ((List.getElem?_eq_getElem bound).trans (congrArg _ out))
    obtain rfl := Option.some.inj (ruled.symm.trans there)
    rw [score]
    exact Scores.infinite_add Scores.negativeInfinity_unpack finite

theorem Holding.count (holding : b.Holding elementary) (regular : elementary.Regular)
    (sound : b.Sound) (fresh : b.scores.fresh = true) (inside : entry < b.settings.batchSize) :
    b.settings.beams ≤ ((b.candidates elementary entry).filter
      fun x => !b.settings.isEnd x.token).countP (·.score.isFinite) := by
  have each : ∀ beam ∈ List.range b.settings.beams, 1 ≤ (b.expansions elementary entry beam).countP
      fun x => x.score.isFinite && !b.settings.isEnd x.token := by
    intro beam bound
    obtain ⟨-, expanded⟩ := sound.branch_eq fresh inside (List.mem_range.mp bound)
    simp only [branch, expand, Outcome.map_eq_ok, Outcome.bind_eq_ok, Outcome.fetch_eq_ok,
      Outcome.pure_eq_ok] at expanded
    obtain ⟨_, ⟨base, graded, own, last, rfl⟩, same⟩ := expanded
    obtain ⟨token, logProbability, going, there, finite⟩ :=
      (holding.clear _ own last).logSoftmax_going regular (holding.out _ own last)
    rw [← same]
    have listed : ((own.logSoftmaxBy elementary).map (· + base))[token]? =
        Option.some (logProbability + base) := by
      rw [List.getElem?_map, there, Option.map_some]
    refine List.countP_pos_iff.mpr ⟨_, List.mem_map.mpr ⟨(logProbability + base, token),
      List.mem_zipIdx_iff_getElem?.mpr listed, rfl⟩, ?_⟩
    have whole := holding.bounded _ base own _ graded last (List.mem_of_getElem? there) finite
    simp [whole, Settings.isEnd, going]
  rw [List.countP_filter, candidates, List.countP_flatMap]
  have counted := List.length_le_sum_of_one_le _ (List.forall_mem_map.mpr each)
  rwa [List.length_map, List.length_range] at counted

/-- Nothing among the best expansions ends, and all that go on are finite. -/
theorem Holding.ranked (holding : b.Holding elementary) (regular : elementary.Regular)
    (sound : b.Sound) (fresh : b.scores.fresh = true) (inside : entry < b.settings.batchSize)
    {ranked : List Expansion} (ranks : b.rank elementary entry = .ok ranked) :
    completing b.settings ranked = [] ∧
      ∀ x ∈ continuing b.settings ranked, x.score.isFinite = true := by
  have scored := holding.scored regular sound fresh inside
  have many := holding.count regular sound fresh inside
  -- every candidate is finite or ruled out, and neither is undefined
  have clean : ∀ x ∈ b.candidates elementary entry, x.score.isNaN = false := by
    intro x member
    rcases (scored x member).1 with finite | out
    · exact Scores.isNaN_of_isFinite finite
    · rw [out]
      rfl
  have goes : ∃ token < b.scores.vocabulary, b.settings.isEnd token = false := by
    have below := row_lt inside sound.some
    obtain ⟨vocabulary, single⟩ := sound.scores fresh
    obtain ⟨own, -, long, last⟩ := single.last_eq below
    obtain ⟨token, _, found, going, -⟩ := (holding.clear _ own last).going
    rw [single.vocabulary, ← long]
    exact ⟨token, (List.getElem?_eq_some_iff.mp found).1, by simpa [Settings.isEnd] using going⟩
  obtain ⟨own, ranks', chosen, top⟩ := sound.rank_best fresh inside goes clean
  obtain rfl := Except.ok.inj (ranks.symm.trans ranks')
  constructor
  · -- there are more finite candidates than are kept, and those that end are not finite
    have none := top.none_of_above (·.score.isFinite) (fun x => b.settings.isEnd x.token) clean
      (fun x _ finite y member ends => by
        rw [(scored y member).2 ends]
        exact Scores.lt_of_isFinite finite)
      (many.trans (List.filter_sublist.countP_le))
    exact List.filter_eq_nil_iff.mpr fun x member => by simp [none x member]
  · have none := chosen.none_of_above (·.score.isFinite) (fun x => !x.score.isFinite)
      (fun x member => clean x (List.mem_of_mem_filter member))
      (fun x _ finite y member out => by
        rw [((scored y (List.mem_of_mem_filter member)).1).resolve_left (by simpa using out)]
        exact Scores.lt_of_isFinite finite) many
    exact fun x member => by simpa using none x member

theorem Sound.selectTop_row (sound : b.Sound)
    (ran : Step.Returns (Beam.selectTop elementary) b u b') :
    ∀ longer ∈ b'.histories.rows, ∃ row ∈ b.histories.rows, ∃ token, longer = row ++ [token] ∧
      (b.settings.isEnd token = true → ∃ state ∈ b.entries, state.done = true) := by
  obtain ⟨-, parts, entries, histories, count, -, -, each, descended, rfl⟩ :=
    selectTop_parts sound.some ran
  obtain ⟨-, -, -, inside, rfl⟩ := Histories.descend_eq_ok.mp descended
  rw [List.map_map, List.zipWith_map, List.zipWith_self, List.forall_mem_map]
  intro survivor member
  have bound := inside _ (List.mem_map_of_mem member)
  have origin : b.histories.rows.getD survivor.parent [] ∈ b.histories.rows :=
    List.getD_eq_getElem _ [] bound ▸ List.getElem_mem bound
  refine ⟨_, origin, survivor.token, rfl, fun ends => ?_⟩
  obtain ⟨part, listed, own⟩ := List.mem_flatten.mp member
  obtain ⟨entry, found⟩ := List.getElem?_of_mem listed
  obtain ⟨_, ranked, before, after, there, -, entered, -, stepped⟩ :=
    each entry (count ▸ (List.getElem?_eq_some_iff.mp found).1)
  obtain rfl := Option.some.inj (there.symm.trans found)
  -- only an entry that is over gives rows without a survivor that goes on
  rcases stepEntry_cases.mp stepped with ⟨stopped, -⟩ | ⟨-, finished, chosen, -⟩
  · exact ⟨before, List.mem_of_getElem? entered, stopped⟩
  · have goes := (choose_preserves (p := fun survivor => b.settings.isEnd survivor.token = false)
      (q := fun _ => True) (fun _ _ goes => goes) (fun _ _ _ _ _ _ _ => trivial) (by simp) trivial
      chosen).1 survivor own
    simp [goes] at ends

/-- While histories are short, the scores of the beams stay finite. -/
theorem Holding.selectTop_finite (holding : b.Holding elementary) (regular : elementary.Regular)
    (sound : b.Sound) (live : ∀ state ∈ b.entries, state.done = false)
    (ran : Step.Returns (selectTop elementary) b u b') :
    ∀ score ∈ b'.beamScores, score.isFinite = true := by
  obtain ⟨fresh, parts, entries, histories, count, -, -, each, -, rfl⟩ :=
    selectTop_parts sound.some ran
  rw [List.forall_mem_map]
  intro survivor member
  obtain ⟨part, listed, own⟩ := List.mem_flatten.mp member
  obtain ⟨entry, found⟩ := List.getElem?_of_mem listed
  have inside : entry < b.settings.batchSize :=
    count ▸ (List.getElem?_eq_some_iff.mp found).1
  obtain ⟨_, ranked, before, after, there, ranks, entered, -, stepped⟩ := each entry inside
  obtain rfl := Option.some.inj (there.symm.trans found)
  obtain ⟨-, rfl, -⟩ := sound.stepEntry_walked inside ranks
    (live before (List.mem_of_getElem? entered)) stepped
  obtain ⟨x, chosen, rfl⟩ := List.mem_map.mp own
  exact (holding.ranked regular sound fresh inside ranks).2 x chosen

/-- Whatever has ended has done so late. While histories are short nothing is finished, and the
scores of all beams are finite. -/
structure Patient (b : Beam) : Prop where
  sound : b.Sound
  level : ∀ row ∈ b.histories.rows, row.length = b.histories.length
  late : ∀ row ∈ b.histories.rows, b.settings.Late b.histories.promptLength row
  finished : ∀ state ∈ b.entries, ∀ final ∈ state.finished.kept,
    b.settings.Late b.histories.promptLength final.tokens
  results : ∀ finals, b.finals = some finals → ∀ final ∈ finals,
    b.settings.Late b.histories.promptLength final.tokens
  capped : b.finals = none → b.Capped
  waiting : b.finals = none → b.histories.length ≤ b.settings.minLength →
    (∀ state ∈ b.entries, state.finished.kept = []) ∧
      ∀ score ∈ b.beamScores, score.isFinite = true

theorem Patient.start {settings : Settings} {inputIds : List Token}
    (started : start settings inputIds = .ok b) : b.Patient := by
  have sound := start_sound started
  have capped := Capped.start started
  have entries : ∀ state ∈ b.entries, state.finished.kept = [] := by
    intro state member
    obtain ⟨entry, found⟩ := List.getElem?_of_mem member
    obtain ⟨-, rfl⟩ := entry_of_start started found
    rfl
  obtain ⟨-, histories, began, rfl⟩ := start_eq_ok started
  have level := Histories.start_level began
  obtain ⟨-, rfl⟩ := Histories.start_eq_ok began
  refine ⟨sound, level, fun row member => Settings.late_of_length (level row member).le, ?_, by simp,
    fun _ => capped, fun _ _ => ⟨entries, ?_⟩⟩
  · exact fun state member final kept => by simp [entries state member] at kept
  · -- the scores of the rows are zero and the score of inactive beams
    have zero : (0 : Float32).isFinite = true := rfl
    have inactive : inactiveScore.isFinite = true := by decide +kernel
    intro score member
    obtain ⟨own, copy, member⟩ := List.mem_flatten.mp member
    rw [(List.mem_replicate.mp copy).2] at member
    rcases List.mem_cons.mp member with rfl | member
    · exact zero
    · rw [(List.mem_replicate.mp member).2]
      exact inactive

theorem Patient.rescore (patient : b.Patient) {scores : LoadedScores}
    (single : scores.fresh = true → ∃ vocabulary, scores.Single b.settings.rowCount vocabulary) :
    Patient { b with scores := scores } where
  sound := ⟨patient.sound.some, patient.sound.rows, patient.sound.graded, patient.sound.entries,
    single⟩
  level := patient.level
  late := patient.late
  finished := patient.finished
  results := patient.results
  capped going := ⟨(patient.capped going).finished, (patient.capped going).stopped⟩
  waiting := patient.waiting

theorem Patient.live (patient : b.Patient) (going : b.finals = none)
    (short : b.histories.length ≤ b.settings.minLength) : ∀ state ∈ b.entries, state.done = false := by
  intro state member
  obtain ⟨entry, found⟩ := List.getElem?_of_mem member
  by_contra stopped
  have full := (patient.capped going).stopped entry state found (by simpa using stopped)
  rw [(patient.waiting going short).1 state member] at full
  have some := patient.sound.some
  simp only [List.length_nil] at full
  omega

theorem Patient.advances (patient : b.Patient) {before after : BeamEntry}
    {ranked : List Expansion} (inside : entry < b.settings.batchSize)
    (advances : Advances elementary b b' entry before after ranked)
    (kept : ∀ final ∈ before.finished.kept,
      b.settings.Late b.histories.promptLength final.tokens)
    (none : b.histories.length < b.settings.minLength → completing b.settings ranked = []) :
    ∀ final ∈ after.finished.kept, b.settings.Late b.histories.promptLength final.tokens := by
  intro final member
  have offered := Hypotheses.sublist_offerAll before.finished
    (offers b.settings b.histories entry (completing b.settings ranked))
  rw [← offer_eq, ← advances.finished] at offered
  rcases List.mem_append.mp (offered.subset (List.mem_map_of_mem member)) with earlier | new
  · obtain ⟨own, earlier, same⟩ := List.mem_map.mp earlier
    exact same ▸ kept own earlier
  · simp only [offers, List.map_map, List.mem_map, Function.comp_apply] at new
    obtain ⟨x, completes, same⟩ := new
    have bound : entry * b.settings.beams + x.beam < b.histories.rows.length := by
      rw [patient.sound.rows]
      exact row_lt inside (beam_of_mem_rank advances.ranks x (mem_of_mem_completing completes).1)
    have row := List.getElem_mem bound
    rw [← same, extended, List.getD_eq_getElem _ _ bound]
    -- an offer ends the row of its beam, which is not short any more
    refine (patient.late _ row).append fun _ => ?_
    rw [patient.level _ row]
    by_contra short
    rw [none (Nat.lt_of_not_le short)] at completes
    cases completes

theorem Patient.selectTop_entries (patient : b.Patient) (going : b.finals = none)
    (regular : elementary.Regular)
    (holding : b.histories.length < b.settings.minLength → b.Holding elementary)
    (ran : Step.Returns (Beam.selectTop elementary) b u b') : ∀ state ∈ b'.entries,
      (∀ final ∈ state.finished.kept, b.settings.Late b.histories.promptLength final.tokens) ∧
      (b.histories.length < b.settings.minLength → state.finished.kept = []) := by
  have sound := patient.sound
  intro state member
  obtain ⟨entry, found⟩ := List.getElem?_of_mem member
  obtain ⟨inside, before, here, stays, goes⟩ := sound.advanced ran found
  have kept := patient.finished _ (List.mem_of_getElem? here)
  have blank := fun short : b.histories.length < b.settings.minLength =>
    (patient.waiting going short.le).1 _ (List.mem_of_getElem? here)
  cases stopped : before.done with
  | true =>
    rw [stays stopped]
    exact ⟨kept, blank⟩
  | false =>
    obtain ⟨ranked, advances⟩ := goes stopped
    -- while histories are short, nothing among the best expansions ends
    have none := fun short => ((holding short).ranked regular sound (fresh_of_selectTop ran) inside
      advances.ranks).1
    refine ⟨patient.advances inside advances kept none, fun short => ?_⟩
    rw [advances.finished, none short]
    exact blank short

theorem Patient.selectTop (patient : b.Patient) (regular : elementary.Regular)
    (holding : b.histories.length < b.settings.minLength → b.Holding elementary)
    (ran : Step.Returns (Beam.selectTop elementary) b u b') : b'.Patient := by
  have sound := patient.sound
  obtain ⟨-, unfixed, _, _, _, _, -, -, descended, same⟩ := selectTop_returns.mp ran
  have going : b.finals = none := by simpa using unfixed
  have settings : b'.settings = b.settings := by rw [same]
  have finals : b'.finals = none := by rw [same, ← going]
  obtain ⟨level, grown, prompt⟩ : (∀ row ∈ b'.histories.rows, row.length = b'.histories.length) ∧
      b'.histories.length = b.histories.length + 1 ∧
      b'.histories.promptLength = b.histories.promptLength := by
    rw [same]
    refine ⟨Histories.descend_level patient.level descended, ?_⟩
    obtain ⟨-, -, -, -, rfl⟩ := Histories.descend_eq_ok.mp descended
    exact ⟨rfl, rfl⟩
  have entries := patient.selectTop_entries going regular holding ran
  refine ⟨sound.selectTop ran, level, fun longer member => ?_, fun state member => ?_,
    by simp [finals], fun _ => (patient.capped going).selectTop sound ran, fun _ reached => ?_⟩
  · obtain ⟨row, listed, token, rfl, ends⟩ := sound.selectTop_row ran longer member
    rw [settings, prompt]
    refine (patient.late row listed).append fun ended => ?_
    obtain ⟨state, entered, stopped⟩ := ends ended
    rw [patient.level row listed]
    by_contra short
    simp [patient.live going (Nat.le_of_not_le short) state entered] at stopped
  · rw [settings, prompt]
    exact (entries state member).1
  · rw [settings, grown] at reached
    exact ⟨fun state member => (entries state member).2 reached,
      (holding reached).selectTop_finite regular sound (patient.live going (Nat.le_of_lt reached))
        ran⟩

theorem Patient.closing (patient : b.Patient) : ∀ state ∈ b.closing,
    ∀ final ∈ state.finished.kept, b.settings.Late b.histories.promptLength final.tokens := by
  intro state member final kept
  obtain ⟨entry, found⟩ := List.getElem?_of_mem member
  rw [getElem?_closing] at found
  obtain ⟨before, there, rfl⟩ := Option.map_eq_some_iff.mp found
  have earlier := patient.finished before (List.mem_of_getElem? there)
  split at kept
  · exact earlier final kept
  · have offered := (Hypotheses.sublist_offerAll before.finished (b.liveOffers entry)).subset
      (List.mem_map_of_mem kept)
    rcases List.mem_append.mp offered with old | live
    · obtain ⟨own, old, same⟩ := List.mem_map.mp old
      exact same ▸ earlier own old
    · -- a row of the entry that is still live
      have inside : entry < b.settings.batchSize :=
        patient.sound.entries ▸ (List.getElem?_eq_some_iff.mp there).1
      obtain ⟨offer, listed, same⟩ := List.mem_map.mp live
      simp only [liveOffers, rowsOf, List.map_map, List.mem_map, List.mem_range] at listed
      obtain ⟨beam, bound, rfl⟩ := listed
      have row : entry * b.settings.beams + beam < b.histories.rows.length := by
        rw [patient.sound.rows]
        exact row_lt inside bound
      rw [← same]
      dsimp only [Function.comp]
      rw [List.getD_eq_getElem _ _ row]
      exact patient.late _ (List.getElem_mem row)

theorem Patient.finalize (patient : b.Patient) {count : Nat} {finals : List Scored}
    (ran : Step.Returns (Beam.finalize count) b finals b') :
    b'.Patient ∧ b'.finals = some finals ∧ b'.settings = b.settings ∧
      b'.histories = b.histories := by
  cases fixed : b.finals with
  | some earlier =>
    obtain ⟨rfl, rfl⟩ := Step.returns_unique ran (finalize_fixed fixed count)
    exact ⟨patient, fixed, rfl, rfl⟩
  | none =>
    obtain ⟨-, -, rfl, rfl⟩ := finalize_inv patient.sound fixed ran
    have closing := patient.closing
    refine ⟨⟨patient.sound.reenter List.length_mapIdx _ _, patient.level, patient.late, closing, ?_,
      by simp, by simp⟩, rfl, rfl, rfl⟩
    rintro finals ⟨⟩ final member
    obtain ⟨state, listed, member⟩ := List.mem_flatMap.mp member
    exact closing state listed final (state.finished.ranked_perm.subset (List.mem_of_mem_take member))

end StagedDecoding.Beam
