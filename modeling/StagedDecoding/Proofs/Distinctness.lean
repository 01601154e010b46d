import StagedDecoding.Proofs.Offers

/-! Beam search follows no history twice.

All rows of an entry start as copies of one prompt, and only their scores keep the copies from
surviving the first step. From then on different rows have different histories, so what two
expansions come to differs in the history or in the token. Histories that end have an end token
behind them and have passed through fewer steps than those that are still to come.
-/

set_option autoImplicit false

namespace StagedDecoding.Beam

variable {elementary : Elementary} {settings : Settings} {inputIds : List Token}
  {selections : List Beam} {b b' : Beam} {entry : Nat}

/-- Enough tokens go on, and those expansions of the first beam of every entry exceed all expansions
of its other beams. -/
structure Spread (elementary : Elementary) (b : Beam) : Prop where
  enough : b.settings.beams ≤
    (List.range b.scores.vocabulary).countP fun token => !b.settings.isEnd token
  above : ∀ entry < b.settings.batchSize, ∀ x ∈ b.candidates elementary entry, x.beam = 0 →
    b.settings.isEnd x.token = false → ∀ y ∈ b.candidates elementary entry, y.beam ≠ 0 →
      y.score < x.score

/-- The live histories of an entry that is not over differ from each other and from its finished
hypotheses, which differ among themselves, and so do the results of every entry. -/
structure Distinct (b : Beam) : Prop where
  finished : ∀ (entry : Nat) (state : BeamEntry), b.entries[entry]? = some state →
    (state.finished.kept.map (·.tokens)).Nodup
  live : ∀ (entry : Nat) (state : BeamEntry), b.entries[entry]? = some state →
    state.done = false → ∃ rows, ofEntry b.settings entry b.histories.rows = some rows ∧
      (rows ++ state.finished.kept.map (·.tokens)).Nodup
  results : ∀ count finals b', Step.Returns (finalize count) b finals b' →
    (∀ part ∈ Tensor.blocks count b.settings.batchSize finals, (part.map (·.tokens)).Nodup) ∧
      ∀ again, Step.Returns (finalize again) b' finals b'

def EndsWith (settings : Settings) (ends : Bool) (history : List Token) : Prop :=
  ∃ before token, history = before ++ [token] ∧ settings.isEnd token = ends

theorem not_endsWith_both {history : List Token} (ends : EndsWith settings true history) :
    ¬ EndsWith settings false history := by
  obtain ⟨before, token, rfl, ends⟩ := ends
  rintro ⟨other, last, same, goes⟩
  obtain ⟨-, same⟩ := List.append_inj' same rfl
  rw [List.singleton_inj] at same
  simp [← same, ends] at goes

/-- What expansions come to differs when they differ in beam or token, and different beams have
different histories. -/
theorem extended_nodup {histories : Histories} {expansions : List Expansion}
    (pairs : (expansions.map fun x => (x.beam, x.token)).Nodup)
    (apart : ∀ x ∈ expansions, ∀ y ∈ expansions,
      histories.rows.getD (entry * settings.beams + x.beam) [] =
        histories.rows.getD (entry * settings.beams + y.beam) [] → x.beam = y.beam) :
    (expansions.map (extended settings histories entry)).Nodup := by
  rw [List.Nodup, List.pairwise_map] at pairs ⊢
  refine pairs.imp_of_mem fun {x y} first second differ same => differ ?_
  obtain ⟨parents, tokens⟩ := List.append_inj' same rfl
  rw [apart x first y second parents, List.singleton_inj.mp tokens]

structure Unrepeated (b : Beam) : Prop where
  finished : ∀ (entry : Nat) (state : BeamEntry), b.entries[entry]? = some state →
    (state.finished.kept.map (·.tokens)).Nodup ∧
      ∀ final ∈ state.finished.kept, EndsWith b.settings true final.tokens ∧
        final.tokens.length ≤ b.histories.length
  live : ∀ (entry : Nat) (state : BeamEntry), b.entries[entry]? = some state →
    state.done = false → ∃ rows, ofEntry b.settings entry b.histories.rows = some rows ∧
      rows.Nodup ∧ ∀ row ∈ rows, EndsWith b.settings false row

theorem Unrepeated.apart (unrepeated : b.Unrepeated) {state : BeamEntry}
    (found : b.entries[entry]? = some state) (live : state.done = false) :
    ∃ rows, ofEntry b.settings entry b.histories.rows = some rows ∧
      (rows ++ state.finished.kept.map (·.tokens)).Nodup := by
  obtain ⟨rows, here, distinct, goes⟩ := unrepeated.live entry state found live
  obtain ⟨others, ends⟩ := unrepeated.finished entry state found
  refine ⟨rows, here, List.nodup_append.mpr ⟨distinct, others, ?_⟩⟩
  rintro row member history kept rfl
  obtain ⟨final, inside, rfl⟩ := List.mem_map.mp kept
  exact not_endsWith_both (ends final inside).1 (goes _ member)

/-- Expansions that are gone through together are of one beam if their rows have one history. -/
def Separates (b : Beam) (entry : Nat) (ranked : List Expansion) : Prop :=
  ∀ x y, x ∈ continuing b.settings ranked ∧ y ∈ continuing b.settings ranked ∨
      x ∈ completing b.settings ranked ∧ y ∈ completing b.settings ranked →
    b.histories.rows.getD (entry * b.settings.beams + x.beam) [] =
      b.histories.rows.getD (entry * b.settings.beams + y.beam) [] → x.beam = y.beam

section Advances

variable {before after : BeamEntry} {ranked : List Expansion}

/-- What an entry finishes differs from what it finished before, which is shorter. -/
theorem Advances.finished_unrepeated
    (advances : Advances elementary b b' entry before after ranked)
    (level : ∀ row ∈ b.histories.rows, row.length = b.histories.length)
    (grown : b'.histories.length = b.histories.length + 1)
    (rows : ∀ x ∈ ranked, entry * b.settings.beams + x.beam < b.histories.rows.length)
    (pairs : (ranked.map fun x => (x.beam, x.token)).Nodup)
    (separates : b.Separates entry ranked)
    (kept : (before.finished.kept.map (·.tokens)).Nodup)
    (ended : ∀ final ∈ before.finished.kept, EndsWith b.settings true final.tokens ∧
      final.tokens.length ≤ b.histories.length) :
    (after.finished.kept.map (·.tokens)).Nodup ∧
      ∀ final ∈ after.finished.kept, EndsWith b.settings true final.tokens ∧
        final.tokens.length ≤ b'.histories.length := by
  have from_offers := Hypotheses.sublist_offerAll before.finished
    (offers b.settings b.histories entry (completing b.settings ranked))
  rw [← offer_eq, ← advances.finished, offers, List.map_map] at from_offers
  have long : ∀ x ∈ completing b.settings ranked,
      (extended b.settings b.histories entry x).length = b'.histories.length := by
    intro x member
    have bound := rows x (mem_of_mem_completing member).1
    rw [extended, List.length_append, List.length_singleton, List.getD_eq_getElem _ _ bound,
      level _ (List.getElem_mem bound), grown]
  have offered : ((completing b.settings ranked).map
      (extended b.settings b.histories entry)).Nodup :=
    extended_nodup (pairs.sublist ((List.filter_sublist.trans (List.take_sublist _ _)).map _))
      fun x first y second => separates x y (.inr ⟨first, second⟩)
  refine ⟨List.Nodup.sublist from_offers (List.nodup_append.mpr ⟨kept, offered, ?_⟩),
    fun final member => ?_⟩
  · -- what is offered now is longer than all that was kept
    rintro history earlier other offered rfl
    obtain ⟨final, inside, rfl⟩ := List.mem_map.mp earlier
    obtain ⟨x, member, same⟩ := List.mem_map.mp offered
    have short := (ended final inside).2
    have tall := long x member
    rw [← same] at short
    dsimp only [Function.comp] at short
    omega
  · have listed : final.tokens ∈ after.finished.kept.map (·.tokens) := List.mem_map_of_mem member
    rcases List.mem_append.mp (from_offers.subset listed) with earlier | offered
    · obtain ⟨own, earlier, same⟩ := List.mem_map.mp earlier
      obtain ⟨ends, short⟩ := ended own earlier
      rw [← same]
      exact ⟨ends, by omega⟩
    · obtain ⟨x, offered, same⟩ := List.mem_map.mp offered
      rw [← same]
      exact ⟨⟨_, _, rfl, (mem_of_mem_completing offered).2⟩, Nat.le_of_eq (long x offered)⟩

theorem Advances.live_unrepeated (advances : Advances elementary b b' entry before after ranked)
    (pairs : (ranked.map fun x => (x.beam, x.token)).Nodup)
    (separates : b.Separates entry ranked) :
    ∃ rows, ofEntry b.settings entry b'.histories.rows = some rows ∧ rows.Nodup ∧
      ∀ row ∈ rows, EndsWith b.settings false row := by
  refine ⟨_, advances.histories, ?_, ?_⟩
  · exact extended_nodup (pairs.sublist (((List.take_sublist _ _).trans
      List.filter_sublist).map _)) fun x first y second => separates x y (.inl ⟨first, second⟩)
  · rw [List.forall_mem_map]
    exact fun x member => ⟨_, _, rfl, (mem_of_mem_continuing member).2⟩

end Advances

theorem Run.unrepeated_of_separates (run : Run elementary settings inputIds selections b)
    (ran : Step.Returns (Beam.selectTop elementary) b () b')
    (finished : ∀ (entry : Nat) (state : BeamEntry), b.entries[entry]? = some state →
      (state.finished.kept.map (·.tokens)).Nodup ∧
        ∀ final ∈ state.finished.kept, EndsWith b.settings true final.tokens ∧
          final.tokens.length ≤ b.histories.length)
    (separates : ∀ entry state ranked, b.entries[entry]? = some state → state.done = false →
      b.rank elementary entry = .ok ranked → b.Separates entry ranked) :
    b'.Unrepeated := by
  have own : b'.settings = b.settings := (run.selectTop ran).settings_eq.trans run.settings_eq.symm
  have longer : b'.histories.length = b.histories.length + 1 := by
    obtain ⟨-, _, _, _, -, -, -, -, descended, rfl⟩ := selectTop_parts run.sound.some ran
    obtain ⟨-, -, -, -, rfl⟩ := Histories.descend_eq_ok.mp descended
    rfl
  have stepped : ∀ (entry : Nat) (state : BeamEntry), b'.entries[entry]? = some state →
      ((state.finished.kept.map (·.tokens)).Nodup ∧
        ∀ final ∈ state.finished.kept, EndsWith b.settings true final.tokens ∧
          final.tokens.length ≤ b'.histories.length) ∧
      (state.done = false → ∃ rows, ofEntry b.settings entry b'.histories.rows = some rows ∧
        rows.Nodup ∧ ∀ row ∈ rows, EndsWith b.settings false row) := by
    intro entry state there
    obtain ⟨inside, before, found, stays, goes⟩ := run.sound.advanced ran there
    obtain ⟨kept, ended⟩ := finished entry before found
    -- an entry that is over keeps what it has and is not looked at for rows
    cases stopped : before.done with
    | true =>
      rw [stays stopped]
      refine ⟨⟨kept, fun final member => ?_⟩, fun live => by simp [stopped] at live⟩
      obtain ⟨ends, short⟩ := ended final member
      exact ⟨ends, by omega⟩
    | false =>
      obtain ⟨ranked, advances⟩ := goes stopped
      have rows : ∀ x ∈ ranked,
          entry * b.settings.beams + x.beam < b.histories.rows.length := by
        intro x member
        rw [run.sound.rows]
        exact row_lt inside (beam_of_mem_rank advances.ranks x member)
      have pairs := run.sound.rank_nodup (fresh_of_selectTop ran) inside advances.ranks
      have apart := separates entry _ ranked found stopped advances.ranks
      exact ⟨advances.finished_unrepeated run.level longer rows pairs apart kept ended,
        fun _ => advances.live_unrepeated pairs apart⟩
  exact ⟨fun entry state there => own ▸ (stepped entry state there).1,
    fun entry state there => own ▸ (stepped entry state there).2⟩

theorem Spread.count_first (spread : b.Spread elementary) (sound : b.Sound)
    (fresh : b.scores.fresh = true) (inside : entry < b.settings.batchSize) :
    b.settings.beams ≤ (b.candidates elementary entry).countP fun x =>
      x.beam == 0 && !b.settings.isEnd x.token := by
  have own : (b.expansions elementary entry 0).countP
      (fun x => x.beam == 0 && !b.settings.isEnd x.token) =
        (List.range b.scores.vocabulary).countP fun token => !b.settings.isEnd token := by
    rw [← (sound.branch_eq fresh inside sound.some).1, ← tokens_of_expansions, List.countP_map]
    refine List.countP_congr fun x member => ?_
    simp [beam_of_mem_expansions member]
  have part : (b.expansions elementary entry 0).Sublist (b.candidates elementary entry) := by
    obtain ⟨others, beams⟩ : ∃ others, b.settings.beams = others + 1 :=
      Nat.exists_eq_add_one.mpr sound.some
    rw [candidates, beams, List.range_succ_eq_map, List.flatMap_cons]
    exact List.sublist_append_left _ _
  exact spread.enough.trans (own ▸ part.countP_le)

/-- The first step looks at nothing but the first beam. -/
theorem Spread.first_beam (spread : b.Spread elementary) (sound : b.Sound)
    (fresh : b.scores.fresh = true) (inside : entry < b.settings.batchSize)
    (clean : ∀ x ∈ b.candidates elementary entry, x.score.isNaN = false)
    {ranked : List Expansion} (ranks : b.rank elementary entry = .ok ranked) :
    (∀ x ∈ continuing b.settings ranked, x.beam = 0) ∧
      ∀ x ∈ completing b.settings ranked, x.beam = 0 := by
  have goes : ∃ token < b.scores.vocabulary, b.settings.isEnd token = false := by
    obtain ⟨token, bound, open'⟩ := List.countP_pos_iff.mp (sound.some.trans_le spread.enough)
    exact ⟨token, List.mem_range.mp bound, by simpa using open'⟩
  obtain ⟨own, ranks', chosen, top⟩ := sound.rank_best fresh inside goes clean
  obtain rfl := Except.ok.inj (ranks.symm.trans ranks')
  have many := spread.count_first sound fresh inside
  have above := spread.above entry inside
  -- there are enough candidates of the first beam, and they come before all others
  constructor
  · have first := chosen.none_of_above (fun x => x.beam == 0) (fun x => x.beam != 0)
      (fun x member => clean x (List.mem_of_mem_filter member)) ?_ (by rwa [List.countP_filter])
    · exact fun x member => by simpa using first x member
    · intro x first lead y second behind
      exact above x (List.mem_of_mem_filter first) (by simpa using lead)
        (by simpa using (List.mem_filter.mp first).2) y (List.mem_of_mem_filter second)
        (by simpa using behind)
  · have first := top.none_of_above _ (fun x => x.beam != 0) clean ?_ many
    · exact fun x member => by simpa using first x (List.mem_of_mem_filter member)
    · intro x first lead y second behind
      rw [Bool.and_eq_true, beq_iff_eq] at lead
      exact above x first lead.1 (by simpa using lead.2) y second (by simpa using behind)

theorem Run.unbegun (run : Run elementary settings inputIds [] b) :
    ∀ state ∈ b.entries, state.finished.kept = [] := by
  generalize none : ([] : List Beam) = selections at run
  induction run with
  | start started =>
    intro state member
    obtain ⟨entry, found⟩ := List.getElem?_of_mem member
    obtain ⟨-, rfl⟩ := Beam.entry_of_start started found
    rfl
  | prepare _ ran ih =>
    obtain ⟨scores, rfl⟩ := prepare_rescores ran
    exact ih none
  | selectTop => cases none

/-- At first all expansions are of the first beam. -/
theorem Spread.separates (spread : b.Spread elementary) (sound : b.Sound)
    (fresh : b.scores.fresh = true) (inside : entry < b.settings.batchSize)
    (clean : ∀ x ∈ b.candidates elementary entry, x.score.isNaN = false)
    {ranked : List Expansion} (ranks : b.rank elementary entry = .ok ranked) :
    b.Separates entry ranked := by
  obtain ⟨goes, ends⟩ := spread.first_beam sound fresh inside clean ranks
  rintro x y both -
  rcases both with ⟨here, there⟩ | ⟨here, there⟩
  · rw [goes x here, goes y there]
  · rw [ends x here, ends y there]

theorem Unrepeated.separates (unrepeated : b.Unrepeated) (sound : b.Sound) {state : BeamEntry}
    (found : b.entries[entry]? = some state) (live : state.done = false)
    {ranked : List Expansion} (ranks : b.rank elementary entry = .ok ranked) :
    b.Separates entry ranked := by
  intro x y both same
  have inside : entry < b.settings.batchSize :=
    sound.entries ▸ (List.getElem?_eq_some_iff.mp found).1
  obtain ⟨rows, here, distinct, -⟩ := unrepeated.live entry state found live
  have bound : x.beam < b.settings.beams ∧ y.beam < b.settings.beams := by
    rcases both with ⟨here, there⟩ | ⟨here, there⟩
    · exact ⟨beam_of_mem_rank ranks x (mem_of_mem_continuing here).1,
        beam_of_mem_rank ranks y (mem_of_mem_continuing there).1⟩
    · exact ⟨beam_of_mem_rank ranks x (mem_of_mem_completing here).1,
        beam_of_mem_rank ranks y (mem_of_mem_completing there).1⟩
  have row : ∀ beam < b.settings.beams, rows[beam]? =
      some (b.histories.rows.getD (entry * b.settings.beams + beam) []) := by
    intro beam small
    have within : entry * b.settings.beams + beam < b.histories.rows.length := by
      rw [sound.rows]
      exact row_lt inside small
    rw [getElem?_ofEntry here small, List.getElem?_eq_getElem within,
      List.getD_eq_getElem _ _ within]
  -- different rows are at different places, so beams with one history are one beam
  refine (List.getElem?_inj ?_ distinct).mp ?_
  · exact (List.getElem?_eq_some_iff.mp (row x.beam bound.1)).1
  · rw [row x.beam bound.1, row y.beam bound.2, same]

theorem Run.unrepeated {first : Beam} (run : Run elementary settings inputIds selections b)
    (began : selections.getLast? = some first) (spread : first.Spread elementary)
    (numbered : first.Numbered elementary) : b.Unrepeated := by
  induction run with
  | start => cases began
  | prepare _ ran ih =>
    obtain ⟨scores, rfl⟩ := prepare_rescores ran
    exact ⟨(ih began).finished, (ih began).live⟩
  | @selectTop selections b b' run ran ih =>
    -- the first selection starts from copies of the prompt, any other from histories that are
    -- apart
    cases selections with
    | nil =>
      obtain rfl : b = first := by simpa using began
      refine run.unrepeated_of_separates ran (fun entry state found => ?_)
        fun entry state ranked found live ranks => ?_
      · simp [run.unbegun state (List.mem_of_getElem? found)]
      · have inside : entry < b.settings.batchSize :=
          run.sound.entries ▸ (List.getElem?_eq_some_iff.mp found).1
        exact spread.separates run.sound (fresh_of_selectTop ran) inside
          (numbered entry state found live) ranks
    | cons last earlier =>
      have unrepeated := ih (by rwa [List.getLast?_cons_cons] at began)
      exact run.unrepeated_of_separates ran unrepeated.finished
        fun _ _ _ found live ranks => unrepeated.separates run.sound found live ranks

theorem Unrepeated.closing (unrepeated : b.Unrepeated) (sound : b.Sound) {state : BeamEntry}
    (found : b.closing[entry]? = some state) : (state.finished.kept.map (·.tokens)).Nodup := by
  rw [getElem?_closing] at found
  obtain ⟨before, there, rfl⟩ := Option.map_eq_some_iff.mp found
  cases stopped : before.done with
  | true => exact (unrepeated.finished entry before there).1
  | false =>
    obtain ⟨rows, here, distinct⟩ := unrepeated.apart there stopped
    rw [if_neg Bool.false_ne_true]
    refine List.Nodup.sublist (Hypotheses.sublist_offerAll before.finished (b.liveOffers entry)) ?_
    rw [liveOffers_tokens sound here]
    exact (List.perm_append_comm.nodup_iff).mp distinct

/-- A beam search whose first step expands one beam of every entry never duplicates work. Nothing
is asked of later steps. -/
theorem run_distinct {first : Beam} (run : Run elementary settings inputIds selections b)
    (began : selections.getLast? = some first) (spread : first.Spread elementary)
    (numbered : first.Numbered elementary) : b.Distinct := by
  have unrepeated := run.unrepeated began spread numbered
  refine ⟨fun entry state found => (unrepeated.finished entry state found).1,
    fun entry state found live => unrepeated.apart found live, fun count finals b' ran => ?_⟩
  obtain ⟨-, fits, rfl, rfl⟩ := finalize_inv run.sound run.going ran
  refine ⟨?_, finalize_fixed rfl⟩
  rw [run.capped.blocks_results run.sound fits, List.forall_mem_map]
  intro state member
  obtain ⟨entry, found⟩ := List.getElem?_of_mem member
  have ranked := state.finished.ranked_perm.map (·.tokens)
  exact (ranked.nodup_iff.mpr (unrepeated.closing run.sound found)).sublist
    ((List.take_sublist _ _).map _)

theorem pair_distinct : ∃ b, b.histories.length = 2 ∧ Distinct b := by
  let loaded := (prepare (.load pairScores) pair).2
  have load : Step.Returns (prepare (.load pairScores)) pair () loaded := rfl
  have started : start pair.settings [1] = .ok pair := rfl
  have run : Run exactElementary pair.settings [1] [] loaded :=
    .prepare (.start started) load
  have goes : ∃ token < loaded.scores.vocabulary, loaded.settings.isEnd token = false :=
    ⟨0, by decide +kernel, by decide +kernel⟩
  obtain ⟨b, ran⟩ := @Sound.selectTop_total exactElementary _ run.sound rfl rfl rfl goes
  have one : ∀ entry < loaded.settings.batchSize, entry = 0 := fun _ => Nat.lt_one_iff.mp
  have spread : loaded.Spread exactElementary := by
    refine ⟨by decide +kernel, fun entry inside => ?_⟩
    obtain rfl := one entry inside
    decide +kernel
  have numbered : loaded.Numbered exactElementary := by
    intro entry state found _
    obtain rfl := one entry (List.getElem?_eq_some_iff.mp found).1
    decide +kernel
  have distinct := run_distinct (run.selectTop ran) rfl spread numbered
  refine ⟨b, ?_, distinct⟩
  obtain ⟨-, _, _, _, -, -, -, -, descended, rfl⟩ := selectTop_parts run.sound.some ran
  obtain ⟨-, -, -, -, rfl⟩ := Histories.descend_eq_ok.mp descended
  rfl

end StagedDecoding.Beam
