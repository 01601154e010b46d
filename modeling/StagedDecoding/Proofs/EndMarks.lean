import StagedDecoding.Proofs.Drafts
import StagedDecoding.Proofs.Rooting

/-! End marks and the end of a greedy search.

A row is marked exactly when it has generated an end token, and the search is over exactly when
every row is marked or the histories are full. Selections and verified drafts keep this.
-/

set_option autoImplicit false

namespace StagedDecoding.Greedy

def hasEnded (settings : Settings) (promptLength : Nat) (row : List Token) : Bool :=
  (row.drop promptLength).any settings.isEnd

/-- The marks agree with the histories, and the rows without one are counted. -/
structure Tallied (g : Greedy) : Prop where
  rows : Rectangular g.settings.batchSize g.histories.length g.histories.rows
  grown : g.histories.promptLength ≤ g.histories.length
  ended : g.ended = g.histories.rows.map (hasEnded g.settings g.histories.promptLength)
  running : g.running = g.ended.count false

structure Marked (g : Greedy) : Prop where
  rows : Rectangular g.settings.batchSize g.histories.length g.histories.rows
  grown : g.histories.promptLength ≤ g.histories.length
  ended : g.ended = g.histories.rows.map (hasEnded g.settings g.histories.promptLength)
  running : g.running = g.ended.count false
  reached : g.reachedCapacity = g.histories.isFull
  done : g.done = (g.histories.isFull || decide (g.running = 0))

variable {before after : Greedy} {settings : Settings}

theorem hasEnded_append {promptLength : Nat} {row tokens : List Token}
    (long : promptLength ≤ row.length) :
    hasEnded settings promptLength (row ++ tokens) =
      (hasEnded settings promptLength row || tokens.any settings.isEnd) := by
  simp [hasEnded, List.drop_append_of_le_length long]

theorem refreshDone_eq {g : Greedy} (reached : g.reachedCapacity = true → g.histories.isFull = true) :
    g.refreshDone.reachedCapacity = g.histories.isFull ∧
      g.refreshDone.done = (g.histories.isFull || decide (g.running = 0)) := by
  have same : (g.reachedCapacity || g.histories.isFull) = g.histories.isFull := by
    cases full : g.reachedCapacity with
    | false => rfl
    | true => simp [reached full]
  simp only [refreshDone, same]
  exact ⟨trivial, trivial⟩

theorem Marked.tallied {g : Greedy} (marked : g.Marked) : g.Tallied :=
  ⟨marked.rows, marked.grown, marked.ended, marked.running⟩

theorem Tallied.start {inputIds : List Token} {everyPosition : Bool} {g : Greedy}
    (started : Greedy.start settings inputIds everyPosition = .ok g) : g.Tallied := by
  obtain ⟨h, prompting, rfl⟩ := start_eq_ok started
  have width := Histories.start_level prompting
  obtain ⟨-, rfl⟩ := Histories.start_eq_ok prompting
  refine ⟨⟨by simp [List.length_flatMap], width⟩, Nat.le_refl _, ?_, by simp⟩
  have fresh : ∀ row ∈ (Tensor.blocks (inputIds.length / settings.batchSize) settings.batchSize
      inputIds).flatMap (List.replicate 1), hasEnded { settings with beams := 1 }
        (inputIds.length / settings.batchSize) row = false := by
    intro row member
    simp [hasEnded, List.drop_of_length_le (Nat.le_of_eq (width row member))]
  have count : ((Tensor.blocks (inputIds.length / settings.batchSize) settings.batchSize
      inputIds).flatMap (List.replicate 1)).length = settings.batchSize := by
    simp [List.length_flatMap]
  exact ((List.map_congr_left fresh).trans (by rw [List.map_const', count])).symm

theorem Marked.start {request : Request} {everyPosition : Bool} {g : Greedy}
    (prompted : request.Prompted)
    (started : Greedy.start request.settings request.inputIds everyPosition = .ok g) :
    g.Marked := by
  have tallied := Tallied.start started
  have running : 0 < request.settings.batchSize := prompted.batch
  obtain ⟨h, -, rfl⟩ := start_eq_ok started
  exact ⟨tallied.rows, tallied.grown, tallied.ended, tallied.running, rfl,
    by simp [Nat.ne_of_gt running]⟩

theorem Tallied.commit {tokens : List Token} {u : Unit} (tallied : before.Tallied)
    (ran : Step.Returns (Greedy.commit tokens) before u after) : after.Tallied := by
  have sized : before.ended.length = before.histories.rows.length := by
    rw [tallied.ended, List.length_map]
  obtain ⟨counted, -, running, balance, rfl⟩ := commit_returns sized ran
  have enough : before.ended.length ≤ tokens.length := by
    simp only [List.length_map, List.length_zip] at counted
    omega
  refine ⟨⟨?_, ?_⟩, Nat.le_succ_of_le tallied.grown, ?_, ?_⟩
  · refine List.length_zipWith.trans (Eq.trans ?_ tallied.rows.count)
    rw [List.length_map, counted, Nat.min_self]
  · intro row member
    obtain ⟨i, bound, rfl⟩ := List.mem_iff_getElem.mp member
    simp [refreshDone, tallied.rows.width]
  · refine List.ext_getElem ?_ fun i here there => ?_
    · simp only [List.length_map] at counted
      simp [refreshDone]
      omega
    · -- a row that is marked stays so, any other is marked by its new token
      have row : i < before.histories.rows.length := by
        simp [refreshDone] at there
        omega
      have marks : i < before.ended.length := sized ▸ row
      have mark : before.ended[i] =
          hasEnded before.settings before.histories.promptLength before.histories.rows[i] := by
        simp [tallied.ended]
      have long := tallied.rows.width _ (List.getElem_mem row) ▸ tallied.grown
      simp only [refreshDone, List.getElem_map, List.getElem_zip, List.getElem_zipWith,
        hasEnded_append long, ← mark]
      cases before.ended[i] <;> simp [settleOne]
  · rw [List.map_fst_zip enough, ← tallied.running] at balance
    exact Nat.add_right_cancel (balance.trans (Nat.add_comm _ _))

theorem Marked.commit {tokens : List Token} {u : Unit} (marked : before.Marked)
    (ran : Step.Returns (Greedy.commit tokens) before u after) : after.Marked := by
  have tallied := marked.tallied.commit ran
  have marks : before.ended.length = before.histories.rows.length := by
    rw [marked.ended, List.length_map]
  obtain ⟨-, fits, running, -, rfl⟩ := commit_returns marks ran
  -- there was room for a token, so capacity had not been reached before
  have unreached : before.reachedCapacity = false := by
    rw [marked.reached, Histories.isFull, decide_eq_false_iff_not]
    omega
  obtain ⟨reached, done⟩ := @refreshDone_eq { before with
    nextTokens := ((before.ended.zip tokens).map (settleOne before.settings)).map Prod.fst
    ended := ((before.ended.zip tokens).map (settleOne before.settings)).map Prod.snd
    running := running
    histories := { before.histories with
      rows := List.zipWith (fun row token => row ++ [token]) before.histories.rows
        (((before.ended.zip tokens).map (settleOne before.settings)).map Prod.fst)
      length := before.histories.length + 1 }
    scores := before.scores.consume } (by simp [unreached])
  exact ⟨tallied.rows, tallied.grown, tallied.ended, tallied.running, reached, done⟩

theorem Marked.unfinished {row : List Token} (marked : before.Marked) (goes : before.done = false)
    (only : before.histories.rows = [row]) :
    hasEnded before.settings before.histories.promptLength row = false ∧
      before.ended = [false] ∧ before.histories.isFull = false := by
  have marks := marked.ended
  have stop := marked.done
  rw [only, List.map_singleton] at marks
  rw [goes, marked.running, marks] at stop
  cases ends : hasEnded before.settings before.histories.promptLength row with
  | true => simp [ends] at stop
  | false =>
    refine ⟨rfl, by rw [marks, ends], ?_⟩
    simpa [ends] using stop.symm

def marking (g : Greedy) (run : List Token) : Greedy :=
  if run.any g.settings.isEnd then { g with ended := g.ended.set 0 true, running := 0 } else g

section

variable (g : Greedy) (run : List Token)

theorem marking_settings : (g.marking run).settings = g.settings := by
  unfold marking
  split <;> rfl

theorem marking_everyPosition : (g.marking run).everyPosition = g.everyPosition := by
  unfold marking
  split <;> rfl

theorem marking_histories : (g.marking run).histories = g.histories := by
  unfold marking
  split <;> rfl

theorem marking_reachedCapacity : (g.marking run).reachedCapacity = g.reachedCapacity := by
  unfold marking
  split <;> rfl

theorem marking_ended (unmarked : g.ended = [false]) (counted : g.running = g.ended.count false) :
    (g.marking run).ended = [run.any g.settings.isEnd] ∧
      (g.marking run).running = (g.marking run).ended.count false := by
  unfold marking
  cases ends : run.any g.settings.isEnd with
  | true => simp [unmarked]
  | false => simp [unmarked, counted]

end

theorem cutAtEnd_cut (settings : Settings) (tokens : List Token) :
    ∃ run, cutAtEnd settings tokens = (run, run.any settings.isEnd) ∧ run <+: tokens ∧
      ∀ token ∈ run.dropLast, settings.isEnd token = false := by
  unfold cutAtEnd
  split
  case h_1 i found =>
    obtain ⟨bound, ends, before⟩ := List.findIdx?_eq_some_iff_getElem.mp found
    have last : tokens[i] ∈ tokens.take (i + 1) :=
      List.mem_take_iff_getElem.mpr ⟨i, by omega, rfl⟩
    refine ⟨_, congrArg _ (List.any_eq_true.mpr ⟨_, last, ends⟩).symm, List.take_prefix _ _, ?_⟩
    intro token member
    rw [List.dropLast_eq_take, List.length_take, Nat.min_eq_left bound, Nat.succ_sub_one,
      List.take_take, Nat.min_eq_left (Nat.le_succ i)] at member
    obtain ⟨j, earlier, rfl⟩ := List.mem_take_iff_getElem.mp member
    simpa using before j (by omega)
  case h_2 found =>
    have none : ∀ token ∈ tokens, settings.isEnd token = false := by
      simpa using List.findIdx?_eq_none_iff.mp found
    refine ⟨tokens, congrArg _ (List.any_eq_false.mpr ?_).symm, List.prefix_rfl, ?_⟩
    · exact fun token member => by simp [none token member]
    · exact fun token member => none token ((List.dropLast_sublist _).subset member)

def commitRun (run : List Token) (marked : Greedy) : Step Greedy Unit := do
  set marked
  let histories ← marked.histories.appendRun run
  set { marked with
    histories := histories
    nextTokens := run
    scores := marked.scores.consume }.refreshDone

theorem cutAtEnd_snd (settings : Settings) (tokens : List Token) :
    (cutAtEnd settings tokens).2 = (cutAtEnd settings tokens).1.any settings.isEnd := by
  obtain ⟨run, cut, -⟩ := cutAtEnd_cut settings tokens
  rw [cut]

theorem markEnd_eq {g : Greedy} {ended : Bool} (found : fetch g.ended 0 = .ok ended)
    (run : List Token) : g.markEnd (run.any g.settings.isEnd) = .ok (g.marking run) := by
  have first : 0 < g.ended.length := (List.getElem?_eq_some_iff.mp (Outcome.fetch_eq_ok.mp found)).1
  unfold markEnd marking store
  rw [if_pos first]
  split <;> rfl

/-- A run is cut and the row marked before anything is committed. -/
theorem setNextTokens_eq (tokens : List Token) :
    Greedy.setNextTokens tokens = (do
      let g ← get
      if g.settings.batchSize ≠ 1 then
        throw (.shape .singleRow (.count g.settings.batchSize))
      if ← fetch g.ended 0 then return
      commitRun (cutAtEnd g.settings tokens).1 (g.marking (cutAtEnd g.settings tokens).1)) := by
  funext g
  change (if g.settings.batchSize ≠ 1 then _ else _ : Step Greedy Unit) g =
    (if g.settings.batchSize ≠ 1 then _ else _ : Step Greedy Unit) g
  split
  · rfl
  · cases found : fetch g.ended 0 with
    | error failure => rfl
    | ok ended =>
      cases ended with
      | true => rfl
      | false =>
        have marked : g.markEnd (cutAtEnd g.settings tokens).2 =
            .ok (g.marking (cutAtEnd g.settings tokens).1) := by
          rw [cutAtEnd_snd]
          exact markEnd_eq found _
        exact Step.bind_of_ok marked _ g

/-- Nothing is appended to a row that has ended, and no more to any other than up to an end
token. -/
theorem setNextTokens_cut {tokens run : List Token} {u : Unit}
    (cut : cutAtEnd before.settings tokens = (run, run.any before.settings.isEnd))
    (ran : Step.Returns (setNextTokens tokens) before u after) :
    before.settings.batchSize = 1 ∧ ∃ ended, before.ended[0]? = some ended ∧
      if ended then after = before else
        before.histories.length + run.length ≤ before.histories.capacity ∧
          after = Greedy.refreshDone { before.marking run with
            histories := { before.histories with
              rows := before.histories.rows.map (· ++ run)
              length := before.histories.length + run.length }
            nextTokens := run
            scores := (before.marking run).scores.consume } := by
  simp only [setNextTokens_eq, Step.returns_bind, Step.returns_get, Step.throw_bind,
    Step.returns_guard, Step.returns_lift] at ran
  obtain ⟨_, _, ⟨rfl, rfl⟩, single, ended, _, ⟨found, rfl⟩, ran⟩ := ran
  refine ⟨Decidable.not_not.mp single, ended, Outcome.fetch_eq_ok.mp found, ?_⟩
  cases ended with
  | true => exact (Step.returns_pure.mp ran).2.symm
  | false =>
    rw [if_neg Bool.false_ne_true, cut] at ran
    simp only [commitRun, Step.returns_bind, Step.returns_set, Step.returns_lift] at ran
    obtain ⟨_, _, rfl, histories, _, ⟨appended, rfl⟩, rfl⟩ := ran
    obtain ⟨-, fits, rfl⟩ := Histories.appendRun_eq_ok.mp appended
    rw [marking_histories] at fits ⊢
    exact ⟨fits, rfl⟩

theorem Tallied.setNextTokens {tokens : List Token} {u : Unit} (tallied : before.Tallied)
    (ran : Step.Returns (Greedy.setNextTokens tokens) before u after) :
    after = before ∨ after.Tallied ∧ ∃ row run, before.histories.rows = [row] ∧
      hasEnded before.settings before.histories.promptLength row = false ∧ run <+: tokens ∧
      (∀ token ∈ run.dropLast, before.settings.isEnd token = false) ∧
      after = Greedy.refreshDone { before.marking run with
        histories := { before.histories with
          rows := before.histories.rows.map (· ++ run)
          length := before.histories.length + run.length }
        nextTokens := run
        scores := (before.marking run).scores.consume } := by
  obtain ⟨run, cut, shorter, late⟩ := cutAtEnd_cut before.settings tokens
  obtain ⟨single, ended, here, ran⟩ := setNextTokens_cut cut ran
  obtain ⟨row, only⟩ := List.length_eq_one_iff.mp (tallied.rows.count.trans single)
  have marks := tallied.ended
  rw [only, List.map_singleton] at marks
  rw [marks] at here
  obtain rfl := Option.some.inj here
  split at ran
  · exact .inl ran
  · next goes =>
    obtain ⟨-, rfl⟩ := ran
    rw [Bool.not_eq_true] at goes
    -- the row did not end before, so its mark is that of the run alone
    obtain ⟨ended, count⟩ := before.marking_ended run (by rw [marks, goes]) tallied.running
    have settings := before.marking_settings run
    have long := tallied.rows.width row (by simp [only])
    refine .inr ⟨⟨⟨?_, ?_⟩, Nat.le_add_right_of_le tallied.grown, ?_, count⟩, row, run, only, goes,
      shorter, late, rfl⟩
    · simp only [refreshDone, settings, single, only, List.map_singleton, List.length_singleton]
    · simp only [refreshDone, only, List.map_singleton, List.mem_singleton, forall_eq,
        List.length_append, long]
    · simp only [refreshDone, ended, settings, only, List.map_singleton,
        hasEnded_append (long ▸ tallied.grown), goes, Bool.false_or]

theorem Marked.setNextTokens {tokens : List Token} {u : Unit} (marked : before.Marked)
    (goes : before.done = false)
    (late : ∀ token ∈ tokens.dropLast, before.settings.isEnd token = false)
    (ran : Step.Returns (setNextTokens tokens) before u after) :
    after.Marked ∧ ∃ row, before.histories.rows = [row] ∧
      hasEnded before.settings before.histories.promptLength row = false ∧
      before.histories.length + tokens.length ≤ before.histories.capacity ∧
      after.settings = before.settings ∧ after.everyPosition = before.everyPosition ∧
      after.nextTokens = tokens ∧ after.histories = { before.histories with
        rows := [row ++ tokens]
        length := before.histories.length + tokens.length } := by
  have tallied : after.Tallied := by
    obtain rfl | ⟨tallied, -⟩ := marked.tallied.setNextTokens ran
    · exact marked.tallied
    · exact tallied
  obtain ⟨single, ended, here, ran⟩ := setNextTokens_cut (cutAtEnd_eq late) ran
  obtain ⟨row, only⟩ := List.length_eq_one_iff.mp (marked.rows.count.trans single)
  -- as long as the search goes on its row has no mark, so that the whole run is appended
  obtain ⟨running, unmarked, room⟩ := marked.unfinished goes only
  rw [unmarked] at here
  obtain rfl := Option.some.inj here
  obtain ⟨fits, rfl⟩ := ran
  obtain ⟨full, done⟩ := @refreshDone_eq { before.marking tokens with
    histories := { before.histories with
      rows := before.histories.rows.map (· ++ tokens)
      length := before.histories.length + tokens.length }
    nextTokens := tokens
    scores := (before.marking tokens).scores.consume } (by
      rw [marking_reachedCapacity, marked.reached, room]
      simp)
  refine ⟨⟨tallied.rows, tallied.grown, tallied.ended, tallied.running, full, done⟩, row, only,
    running, fits, before.marking_settings tokens, before.marking_everyPosition tokens, rfl, ?_⟩
  simp only [refreshDone, only, List.map_singleton]

theorem Marked.rescore {g : Greedy} (marked : g.Marked) (scores : LoadedScores)
    (words : WordStream) : { g with scores := scores, words := words }.Marked :=
  ⟨marked.rows, marked.grown, marked.ended, marked.running, marked.reached, marked.done⟩

end StagedDecoding.Greedy

namespace StagedDecoding.Speculative

/-- A verdict on a draft after the only row, from the scores of a tensor, and its commit. -/
structure Verified (s : Speculative) (row : List Token) (tensor : Tensor) (draft : List Token)
    (verdict : Verdict) (s' : Speculative) : Prop where
  only : s.inner.histories.rows = [row]
  running : Greedy.hasEnded s.inner.settings s.inner.histories.promptLength row = false
  judged : ∃ scores, LoadedScores.load s.inner.settings.batchSize s.inner.settings.vocabulary
      s.inner.everyPosition tensor = .ok scores ∧
    Judged s.inner.settings.isEnd scores.positions
      (fun i history token => ∃ own, scores.scoresAt 0 i = .ok own ∧
        token = s.inner.settings.best history own) 0 row draft verdict
  fits : s.inner.histories.length + verdict.committed.length ≤ s.inner.histories.capacity
  settings : s'.inner.settings = s.inner.settings
  everyPosition : s'.inner.everyPosition = s.inner.everyPosition
  nextTokens : s'.inner.nextTokens = verdict.committed
  histories : s'.inner.histories = { s.inner.histories with
    rows := [row ++ verdict.committed]
    length := s.inner.histories.length + verdict.committed.length }
  marked : s'.inner.Marked

end StagedDecoding.Speculative

namespace StagedDecoding.Strategy

variable {before after : Strategy} {u : Unit}

def Marked : Strategy → Prop
  | .greedy g => g.Marked
  | .beam _ => True
  | .speculative s => s.inner.Marked

theorem Marked.of_same (marked : before.Marked) (same : SameCourse before after) :
    after.Marked := by
  cases same with
  | greedy g scores => exact Greedy.Marked.rescore (g := g) marked scores g.words
  | beam _ _ => trivial
  | speculative s scores _ =>
    exact Greedy.Marked.rescore (g := s.inner) marked scores s.inner.words

theorem Marked.of_chosen (marked : before.Marked) (chosen : Chosen before after) :
    after.Marked := by
  cases chosen with
  | @greedy g _ words _ committed =>
    exact (Greedy.Marked.rescore (g := g) marked g.scores words).commit committed
  | beam _ => trivial
  | @speculative s _ words _ committed =>
    exact (Greedy.Marked.rescore (g := s.inner) marked s.inner.scores words).commit committed

/-- Scores are loaded, the row is looked up, the draft is judged and the verdict committed. -/
theorem verify_returns {s : Speculative} {tensor : Tensor} {loaded asked checked : Strategy}
    {row draft : List Token} {verdict : Verdict} (marked : s.inner.Marked)
    (goes : s.inner.done = false)
    (scored : Step.Returns (setScores tensor) (.speculative s) u loaded)
    (looked : Step.Returns (sequence 0) loaded row asked)
    (decided : Step.Returns (checkCandidates (row ++ draft) draft.length) asked verdict checked)
    (settled : Step.Returns (setNextTokens verdict.committed) checked u after) :
    ∃ s', after = .speculative s' ∧ s.Verified row tensor draft verdict s' := by
  unfold checkCandidates draftOnly at decided
  unfold setNextTokens rowBased at settled
  obtain ⟨s₁, rfl, loading⟩ := byCases_speculative scored
  obtain ⟨s₂, rfl, looking⟩ := byCases_speculative looked
  obtain ⟨s₃, rfl, deciding⟩ := byCases_speculative decided
  obtain ⟨s₄, rfl, settling⟩ := byCases_speculative settled
  obtain ⟨scores, load, inner, unread⟩ := Speculative.setScores_returns loading
  obtain ⟨_, inspected, rfl⟩ := Step.returns_within.mp looking
  obtain ⟨found, rfl⟩ := Step.returns_inspect.mp inspected
  obtain ⟨same, judged⟩ := Speculative.checkCandidates_returns unread deciding
  obtain ⟨inner', committed, rfl⟩ := Step.returns_within.mp settling
  -- judging leaves everything but scores and marks, so the run is set on the search as it was
  -- loaded
  rw [Speculative.SameBut, inner] at same
  rw [inner] at judged
  rw [same] at committed
  obtain ⟨after, row', only, running, fits, settings, every, tokens, histories⟩ :=
    (Greedy.Marked.rescore (g := s.inner) marked s₃.inner.scores s.inner.words).setNextTokens goes
      judged.no_early_end.1 committed
  have only : s.inner.histories.rows = [row'] := only
  obtain rfl : row' = row := by
    simpa [inner, Histories.rowCount, Histories.row, only, fetch] using found
  exact ⟨_, rfl, only, running, ⟨scores, load, judged⟩, fits, settings, every, tokens, histories,
    after⟩

theorem create_marked {request : Request} {strategy : Strategy} (prompted : request.Prompted)
    (created : create request.settings request.inputIds request.speculative = .ok strategy) :
    strategy.Marked := by
  cases created_of_create created with
  | speculative _ started => exact Greedy.Marked.start prompted started
  | beam _ _ => trivial
  | greedy _ started => exact Greedy.Marked.start prompted started

end StagedDecoding.Strategy
