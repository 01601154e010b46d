import StagedDecoding.Proofs.Blank
import StagedDecoding.Proofs.Lossless

/-! Draft verification never fails and always makes progress.

A draft is cut so that it fits with one more token. The run over it feeds one token more than it
has, so that the scores predict one token after every prefix, and as many positions as were not
accepted can be taken back. What is left to feed is the correction. Without one an end token was
accepted, and the search is done.
-/

set_option autoImplicit false

namespace StagedDecoding

theorem Speculative.Verified.ends {s s' : Speculative} {row draft : List Token} {tensor : Tensor}
    {verdict : Verdict} {vocab : Nat} (verified : s.Verified row tensor draft verdict s')
    (opened : (Strategy.speculative s).Open)
    (shape : tensor.shape = [1, draft.length + 1, vocab])
    (none : verdict.correction = none) : s'.inner.done = true := by
  obtain ⟨scores, load, judged⟩ := verified.judged
  have every : s.inner.everyPosition = true := opened.2
  have positions : scores.positions = draft.length + 1 := by
    rw [every] at load
    obtain ⟨n, v, laid | ⟨-, laid⟩, -, -, -, rfl⟩ := LoadedScores.load_eq_ok.mp load
    · rw [shape] at laid
      obtain ⟨-, rfl, -⟩ : 1 = _ ∧ draft.length + 1 = n ∧ vocab = v := by simpa using laid
      rfl
    · simp [shape] at laid
  have ends := judged.ends_of_uncorrected (by omega) none
  have long : s.inner.histories.promptLength ≤ row.length := by
    rw [opened.1.rows.width row (by simp [verified.only])]
    exact opened.1.grown
  have running : s'.inner.running = 0 := by
    rw [verified.marked.running, verified.marked.ended, verified.histories, verified.settings]
    simp [Greedy.hasEnded_append long, ends]
  rw [verified.marked.done, running]
  simp

namespace Generator

open Relation (ReflTransGen)

variable {β : Type} {model : Model β} {request : Request} {vocab : Nat} {moves : Prop}
  {g g' start : Generator β} {draft : List Token} {verdict : Verdict}

theorem returns_verifyCandidates {middle : Generator β} (kind : g.strategy.kind = .speculative)
    (idle : g.pendingScores = false)
    (prompt : if g.session.first then
        ∃ computed, Step.Returns (computeScores model) g () computed ∧
          Step.Returns generateNextToken computed () middle
      else middle = g)
    (rest : if middle.isDone then verdict = .empty ∧ g' = middle
      else Verifies model draft middle verdict g') :
    Step.Returns (verifyCandidates model draft) g verdict g' := by
  simp only [verifyCandidates, Step.returns_bind, Step.returns_get, Step.throw_bind,
    Step.returns_guard, Step.returns_whenBoth]
  refine ⟨g, g, ⟨rfl, rfl⟩, not_not.mpr kind, by simp [idle], middle, prompt, middle, middle,
    ⟨rfl, rfl⟩, ?_⟩
  split at rest
  · next done =>
    obtain ⟨rfl, rfl⟩ := rest
    rw [if_pos done]
    exact Step.returns_pure.mpr ⟨rfl, rfl⟩
  · next goes =>
    rw [if_neg goes]
    obtain ⟨tensor, session, loaded, committed, asked, checked, kept, rolled, ran, scored, looked,
      decided, settled, back, rfl⟩ := rest.steps
    simp only [Step.returns_bind, takeFeed_returns, onSession_returns, onStrategy_returns,
      sequence, Step.returns_modify, Step.returns_pure]
    exact ⟨_, _, ⟨rfl, rfl⟩, tensor, _, ⟨session, ran, rfl⟩, (), _, ⟨loaded, scored, rfl⟩,
      committed, _, ⟨asked, looked, rfl⟩, verdict, _, ⟨checked, decided, rfl⟩, (), _,
      ⟨kept, settled, rfl⟩, (), _, ⟨rolled, back, rfl⟩, (), _, rfl, rfl, rfl⟩

/-- What a verdict commits: at least one token and at most one more than the part of the draft that
fits. -/
structure Progress (draft : List Token) (g : Generator β) (verdict : Verdict)
    (g' : Generator β) : Prop where
  rows : g'.strategy.histories.rows = g.strategy.histories.rows.map (· ++ verdict.committed)
  length : g'.strategy.length = g.strategy.length + verdict.committed.length
  some : 1 ≤ verdict.committed.length
  most : verdict.committed.length ≤
    min draft.length (g.strategy.histories.capacity - g.strategy.length - 1) + 1

theorem Steady.runs_draft (steady : Steady request vocab moves g)
    (kind : g.strategy.kind = .speculative) (later : g.session.first = false)
    (idle : g.pendingScores = false) (goes : g.isDone = false)
    (answered : Answered vocab moves model g) (draft : List Token) :
    ∃ tensor session,
      Step.Returns (Session.run model (g.strategy.length + draft.length) (g.feed ++ draft) [])
        g.session tensor session ∧
      Session.Fed vocab moves (draft.length + 1) (g.strategy.length + draft.length) g.session tensor
        session := by
  have one : g.session.buffers.rows = 1 := steady.rows.trans (steady.rooted.single kind)
  cases steady.pace with
  | fresh first _ _ _ _ => simp [first] at later
  | waiting _ waits _ _ _ _ => simp [idle] at waits
  | @chosen columns _ _ _ lined supplied behind =>
    obtain ⟨longer, count⟩ := behind goes
    have fed : (g.feed ++ draft).length = g.session.buffers.rows * (draft.length + 1) := by
      rw [List.length_append, count, one]
      omega
    have total : g.strategy.length + draft.length = columns + (draft.length + 1) := by omega
    rw [total]
    obtain ⟨tensor, session, stepped⟩ := Session.run_total_later steady.wired later lined supplied
      fed (Nat.succ_pos _) (.inl rfl) (answered _ _ [])
    have result := Session.Fed.of_later steady.wired later lined supplied (.inl rfl)
      (answered _ _ []) stepped
    rw [fed, one, Nat.one_mul, Nat.div_one] at result
    exact ⟨tensor, session, stepped, result⟩

structure Decides (g : Generator β) (tensor : Tensor) (draft : List Token) (verdict : Verdict)
    (row : List Token) (s s' : Speculative) : Prop where
  search : g.strategy = .speculative s
  steps : ∃ loaded asked checked,
    Step.Returns (Strategy.setScores tensor) g.strategy () loaded ∧
    Step.Returns (Strategy.sequence 0) loaded row asked ∧
    Step.Returns (Strategy.checkCandidates (row ++ draft) draft.length) asked verdict checked ∧
    Step.Returns (Strategy.setNextTokens verdict.committed) checked () (.speculative s')
  verified : s.Verified row tensor draft verdict s'
  accepted : verdict.accepted.length ≤ draft.length
  some : 1 ≤ verdict.committed.length
  most : verdict.committed.length ≤ draft.length + 1

theorem Steady.decides {tensor : Tensor} (steady : Steady request vocab moves g)
    (kind : g.strategy.kind = .speculative) (goes : g.isDone = false)
    (shape : tensor.shape = [1, draft.length + 1, vocab])
    (filled : tensor.values.length = Tensor.volume tensor.shape)
    (fits : g.strategy.length + draft.length + 1 ≤ g.strategy.histories.capacity) :
    ∃ verdict row s s', Decides g tensor draft verdict row s s' := by
  obtain ⟨s, speculative⟩ := Strategy.exists_speculative kind
  obtain ⟨row, only⟩ :=
    List.length_eq_one_iff.mp (steady.rooted.rows.count.trans (steady.rooted.single kind))
  have opened := steady.opened
  have settings := steady.rooted.settings
  rw [Strategy.length] at fits
  rw [speculative] at opened settings only fits
  have vocabulary : s.inner.settings.vocabulary = 0 ∨ vocab = s.inner.settings.vocabulary := by
    rw [show s.inner.settings = request.settings from settings]
    exact steady.vocabulary
  obtain ⟨loaded, asked, verdict, checked, kept, scored, looked, decided, settled⟩ :=
    opened.verify_total only shape filled vocabulary fits
  -- a verdict can be found, and what is found is that of a search that goes on
  have going : s.inner.done = false := by simpa [isDone, speculative, Strategy.isDone] using goes
  obtain ⟨s', rfl, verified⟩ :=
    Strategy.verify_returns opened.1 going scored looked decided settled
  obtain ⟨scores, load, judged⟩ := verified.judged
  exact ⟨verdict, row, s, s', speculative,
    ⟨loaded, asked, checked, speculative ▸ scored, looked, decided, settled⟩, verified,
    judged.accepted_prefix.length_le,
    List.length_pos_iff.mpr (judged.committed_ne_nil (LoadedScores.load_fresh load).2),
    judged.committed_length_le⟩

section

variable {tensor : Tensor} {row : List Token} {s s' : Speculative}

theorem Decides.appended (decides : Decides g tensor draft verdict row s s') :
    g.strategy.histories.rows = [row] ∧
      (Strategy.speculative s').histories = { g.strategy.histories with
        rows := [row ++ verdict.committed]
        length := g.strategy.histories.length + verdict.committed.length } := by
  have histories : g.strategy.histories = s.inner.histories := by
    rw [decides.search]
    rfl
  rw [histories]
  exact ⟨decides.verified.only, decides.verified.histories⟩

theorem Decides.keeps (decides : Decides g tensor draft verdict row s s')
    (steady : Steady request vocab moves g)
    (fits : g.strategy.length + draft.length + 1 ≤ g.strategy.histories.capacity) :
    (Strategy.speculative s').Rooted request ∧ (Strategy.speculative s').Open ∧
      (Strategy.speculative s').length = g.strategy.length + verdict.committed.length ∧
      (Strategy.speculative s').length ≤ request.settings.maxLength := by
  obtain ⟨only, appended⟩ := decides.appended
  have kind : g.strategy.kind = .speculative := by rw [decides.search, Strategy.kind]
  have settings : (Strategy.speculative s').settings = g.strategy.settings := by
    rw [decides.search]
    exact decides.verified.settings
  have opened := steady.opened
  rw [decides.search] at opened
  have length : (Strategy.speculative s').length =
      g.strategy.length + verdict.committed.length := by
    rw [Strategy.length, appended]
    rfl
  refine ⟨steady.rooted.append_run kind.symm settings only appended,
    ⟨decides.verified.marked, decides.verified.everyPosition.trans opened.2⟩, length, ?_⟩
  have most := decides.most
  rw [length, ← steady.rooted.capacity]
  omega

theorem Decides.corrected (decides : Decides g tensor draft verdict row s s')
    (opened : g.strategy.Open) (shape : tensor.shape = [1, draft.length + 1, vocab])
    (goes : s'.inner.done = false) :
    verdict.correction.isSome ∧
      verdict.committed.length = verdict.accepted.length + 1 := by
  cases corrected : verdict.correction with
  | none =>
    rw [decides.search] at opened
    have ended := decides.verified.ends opened shape corrected
    rw [goes] at ended
    cases ended
  | some token => simp [Verdict.committed, corrected]

end

/-- A draft on a search that goes on gets a verdict, and the search is in pace again. -/
theorem Steady.verifies_total (steady : Steady request vocab moves g) (fixed : ¬ moves)
    (kind : g.strategy.kind = .speculative) (later : g.session.first = false)
    (idle : g.pendingScores = false) (goes : g.isDone = false)
    (answered : Answered vocab moves model g) (draft : List Token) :
    ∃ verdict g', Verifies model draft g verdict g' ∧ Progress draft g verdict g' ∧
      Steady request vocab moves g' ∧ g'.strategy.kind = .speculative := by
  have one : g.session.buffers.rows = 1 := steady.rows.trans (steady.rooted.single kind)
  have room := steady.opened.room goes
  rw [Histories.isFull, decide_eq_false_iff_not] at room
  have length_eq : g.strategy.length = g.strategy.histories.length := rfl
  have short : (g.clip draft).length =
      min (g.strategy.histories.capacity - (g.strategy.length + 1)) draft.length :=
    List.length_take
  have fits : g.strategy.length + (g.clip draft).length + 1 ≤ g.strategy.histories.capacity := by
    omega
  obtain ⟨tensor, session, stepped, fed⟩ :=
    steady.runs_draft kind later idle goes answered (g.clip draft)
  have shape := fed.shape
  rw [one] at shape
  obtain ⟨verdict, row, s, s', decides⟩ := steady.decides kind goes shape fed.filled fits
  obtain ⟨rooted, opened, length, within⟩ := decides.keeps steady fits
  have accepted := decides.accepted
  have most := decides.most
  -- the way back over what was not accepted
  have back : (g.clip draft).length - verdict.accepted.length ≤ (g.clip draft).length + 1 := by
    omega
  obtain ⟨rolled, took, same, first, lined, supplied⟩ :=
    Session.rollback_total fixed fed.lined (fed.counts later) fed.supplied back (by omega)
  have frame := same.trans fed.fixed
  have rows := Session.rows_of_fixed frame
  obtain ⟨loaded, asked, checked, scored, looked, decided, settled⟩ := decides.steps
  refine ⟨verdict, _, ⟨tensor, session, loaded, row, asked, checked, .speculative s', rolled,
    stepped, scored, looked, decided, settled, took, rfl⟩, ⟨?_, length, decides.some, ?_⟩,
    ⟨steady.prompted, steady.wired.of_fixed frame, rows.trans steady.rows, rooted, within, opened,
      .inl rfl, by simp [Strategy.kind], steady.vocabulary, steady.config, ?_⟩, rfl⟩
  · obtain ⟨only, appended⟩ := decides.appended
    dsimp only
    rw [appended, only]
    rfl
  · omega
  · refine .chosen (first.trans fed.later) idle lined supplied fun unfinished => ?_
    obtain ⟨corrected, committed⟩ := decides.corrected steady.opened shape unfinished
    constructor
    · dsimp only
      omega
    · obtain ⟨token, given⟩ := Option.isSome_iff_exists.mp corrected
      simp only [feed, given, Option.map_some, Option.getD_some, List.length_singleton]
      exact (rows.trans one).symm

/-- What a verification finds after the prompt step, or without one if it was taken before. -/
def Begins (model : Model β) (g middle : Generator β) : Prop :=
  if g.session.first then
    ∃ computed, Step.Returns (computeScores model) g () computed ∧
      Step.Returns generateNextToken computed () middle
  else middle = g

theorem Steady.begins {middle : Generator β} (steady : Steady request vocab moves g)
    (kind : g.strategy.kind = .speculative) (idle : g.pendingScores = false)
    (answered : Answered vocab moves model g) (begins : Begins model g middle) :
    Steady request vocab moves middle ∧ middle.strategy.kind = .speculative ∧
      middle.session.first = false ∧ middle.pendingScores = false ∧
      ReflTransGen (Use model) g middle ∧
      if g.session.first then ∃ token,
        middle.strategy.histories.rows = g.strategy.histories.rows.map (· ++ [token])
      else middle = g := by
  unfold Begins at begins
  split at begins
  · next first =>
    obtain ⟨computed, scored, chose⟩ := begins
    obtain ⟨steady', -, later, -, same⟩ := steady.compute answered scored
    obtain ⟨steady'', idle', session, constrained, same', commits⟩ := steady'.generate chose
    have kind' : middle.strategy.kind = .speculative :=
      (generate_kind chose).trans (same.kind.trans kind)
    refine ⟨steady'', kind', session ▸ later, idle',
      (ReflTransGen.single (.compute scored)).tail (.choose chose), ?_⟩
    rw [if_pos first]
    -- a speculative search has one row, so the prompt step commits one token
    have rows := (same'.histories.trans same.histories)
    have single := steady.rooted.rows.count.trans (steady.rooted.single kind)
    obtain ⟨row, only⟩ := List.length_eq_one_iff.mp single
    have count := commits.count
    rw [rows, single] at count
    obtain ⟨token, next⟩ := List.length_eq_one_iff.mp count
    refine ⟨token, ?_⟩
    rw [commits.histories, Strategy.nextIndices_of_kind kind', rows, only, next]
    rfl
  · next later =>
    subst begins
    refine ⟨steady, kind, by simpa using later, idle, .refl, ?_⟩
    rw [if_neg later]

theorem Steady.begins_total (steady : Steady request vocab moves g)
    (kind : g.strategy.kind = .speculative) (idle : g.pendingScores = false)
    (goes : g.session.first = true → g.isDone = false)
    (answered : Answered vocab moves model g) : ∃ middle, Begins model g middle := by
  unfold Begins
  split
  · next first =>
    obtain ⟨computed, scored⟩ := steady.compute_total answered idle (.inl first)
    obtain ⟨steady', waits, -, -, same⟩ := steady.compute answered scored
    have going : computed.isDone = false := same.isDone.trans (goes first)
    obtain ⟨middle, chose⟩ := steady'.generate_total waits going (by
      rw [same.kind, kind]
      exact nofun)
    exact ⟨middle, computed, scored, chose⟩
  · exact ⟨g, rfl⟩

def Concludes (draft : List Token) (middle : Generator β) (verdict : Verdict)
    (g' : Generator β) : Prop :=
  if middle.isDone then verdict = .empty ∧ g' = middle else Progress draft middle verdict g'

theorem Steady.concludes (steady : Steady request vocab moves g) (fixed : ¬ moves)
    (kind : g.strategy.kind = .speculative) (later : g.session.first = false)
    (idle : g.pendingScores = false) (answered : Answered vocab moves model g)
    (draft : List Token) :
    ∃ verdict g',
      (if g.isDone then verdict = .empty ∧ g' = g else Verifies model draft g verdict g') ∧
      Concludes draft g verdict g' ∧ Steady request vocab moves g' ∧
      g'.strategy.kind = .speculative := by
  unfold Concludes
  by_cases done : g.isDone = true
  · simp only [done, if_true]
    exact ⟨.empty, g, ⟨rfl, rfl⟩, ⟨rfl, rfl⟩, steady, kind⟩
  · rw [Bool.not_eq_true] at done
    simp only [done, Bool.false_eq_true, if_false]
    exact steady.verifies_total fixed kind later idle done answered draft

theorem Steady.verify (steady : Steady request vocab moves g) (fixed : ¬ moves)
    (served : Served vocab moves model g)
    (ran : Step.Returns (verifyCandidates model draft) g verdict g') :
    Steady request vocab moves g' ∧ g'.strategy.kind = .speculative := by
  obtain ⟨kind, idle, middle, begins, rest⟩ := verifyCandidates_returns ran
  obtain ⟨steady, kind, later, idle, reached, -⟩ :=
    steady.begins kind idle (served g .refl) begins
  obtain ⟨verdict', last, concluded, -, steady', kind'⟩ :=
    steady.concludes fixed kind later idle (served middle reached) draft
  -- without a prompt step to take, a verification on what is in between is the same one
  have begun : Begins model middle middle := by
    rw [Begins, if_neg (by simp [later])]
  obtain ⟨-, rfl⟩ := Step.returns_unique (returns_verifyCandidates kind idle begun rest)
    (returns_verifyCandidates kind idle begun concluded)
  exact ⟨steady', kind'⟩

theorem sequence_speculative {index : Nat} {tokens : List Token}
    (kind : g.strategy.kind = .speculative)
    (ran : Step.Returns (sequence index) g tokens g') : g' = g := by
  obtain ⟨strategy, asked, rfl⟩ := onStrategy_returns.mp ran
  obtain ⟨s, speculative⟩ := Strategy.exists_speculative kind
  unfold Strategy.sequence at asked
  rw [speculative] at asked
  obtain ⟨s', rfl, inside⟩ := Strategy.byCases_speculative asked
  obtain ⟨inner, looked, rfl⟩ := Step.returns_within.mp inside
  obtain ⟨-, rfl⟩ := Step.returns_inspect.mp looked
  rw [← speculative]

theorem sequences_speculative {indices : List Nat} {results : List (List Token)}
    (kind : g.strategy.kind = .speculative)
    (ran : Step.Returns (sequences indices) g results g') : g' = g := by
  induction indices generalizing g results with
  | nil => exact (Step.returns_pure.mp ran).2.symm
  | cons index rest ih =>
    simp only [sequences, Step.returns_bind, Step.returns_pure] at ran
    obtain ⟨_, middle, asked, _, _, later, -, rfl⟩ := ran
    obtain rfl := sequence_speculative kind asked
    exact ih kind later

theorem Steady.reached (steady : Steady request vocab moves start) (fixed : ¬ moves)
    (kind : start.strategy.kind = .speculative) (served : Served vocab moves model start)
    (reached : ReflTransGen (Use model) start g) :
    Steady request vocab moves g ∧ g.strategy.kind = .speculative := by
  induction reached with
  | refl => exact ⟨steady, kind⟩
  | @tail g g' before used ih =>
    obtain ⟨steady, kind⟩ := ih
    cases used with
    | compute computed =>
      obtain ⟨steady', -, -, -, same⟩ := steady.compute (served g before) computed
      exact ⟨steady', same.kind.trans kind⟩
    | choose chose => exact ⟨(steady.generate chose).1, (generate_kind chose).trans kind⟩
    | verify verified => exact steady.verify fixed (served.later before) verified
    | sequence asked => exact sequence_speculative kind asked ▸ ⟨steady, kind⟩
    | generate generated =>
      -- the loop alone takes steps, for the results are only looked at
      simp only [Generator.generate, Step.returns_bind, Step.returns_get] at generated
      obtain ⟨_, _, ⟨rfl, rfl⟩, _, last, looped, _, _, ⟨rfl, rfl⟩, listed⟩ := generated
      obtain ⟨n, rounds⟩ := rounds_of_runToEnd looped
      obtain ⟨steady', same⟩ := steady.of_rounds (served.later before) rounds
      obtain rfl := sequences_speculative (same.trans kind) listed
      exact ⟨steady', same.trans kind⟩

theorem created_kind {config : Config} {device : Device} {registry : DeviceRegistry} {state : β}
    (speculates : request.speculative = true)
    (created : Generator.create config request state device registry = .ok g) :
    g.strategy.kind = .speculative := by
  obtain ⟨-, made⟩ := strategy_of_create created
  rw [Strategy.create, speculates, if_pos rfl] at made
  obtain ⟨s, -, speculative⟩ := Outcome.map_eq_ok.mp made
  rw [← speculative, Strategy.kind]

/-- On a model that answers, verification never fails between two steps, unless the prompt is full
and its step not yet taken. It commits nothing once the search is done, and otherwise makes
progress within the capacity. -/
theorem verifyCandidates_progresses {config : Config} {registry : DeviceRegistry} {state : β}
    (supplies : config.model.decoder.Supplies) (speculates : request.speculative = true)
    (vocabulary : request.vocabulary = 0 ∨ vocab = request.vocabulary)
    (created : Generator.create config request state .host registry = .ok start)
    (served : Served vocab False model start) (reached : ReflTransGen (Use model) start g)
    (idle : g.pendingScores = false) (goes : g.session.first = true → g.isDone = false)
    (draft : List Token) :
    ∃ verdict g' middle, Step.Returns (verifyCandidates model draft) g verdict g' ∧
      (if g.session.first then ∃ token,
        middle.strategy.histories.rows = g.strategy.histories.rows.map (· ++ [token])
      else middle = g) ∧
      Concludes draft middle verdict g' ∧
      g'.strategy.histories.capacity = request.settings.maxLength ∧
      g'.strategy.length ≤ request.settings.maxLength := by
  have kind := created_kind speculates created
  have began := (@Steady.create _ request vocab False start config registry state supplies
    vocabulary (by rw [kind]; exact nofun) created).1
  obtain ⟨steady, kind⟩ := began.reached not_false kind served reached
  obtain ⟨middle, begins⟩ := steady.begins_total kind idle goes (served g reached)
  obtain ⟨ready, kind', later, idle', onwards, prompt⟩ :=
    steady.begins kind idle (served g reached) begins
  obtain ⟨verdict, g', rest, concludes, steady', -⟩ :=
    ready.concludes not_false kind' later idle' (served middle (reached.trans onwards)) draft
  exact ⟨verdict, g', middle, returns_verifyCandidates kind idle begins rest, prompt, concludes,
    steady'.rooted.capacity, steady'.fits⟩

theorem blank_progresses :
    let request : Request := { Request.ofConfig Recital.config 1 [0, 0] with speculative := true }
    ∃ start verdict g' middle,
      Generator.create Recital.config request () .host .standard = .ok start ∧
      Step.Returns (verifyCandidates Blank.run [0, 3]) start verdict g' ∧
      (∃ token, middle.strategy.histories.rows =
        start.strategy.histories.rows.map (· ++ [token])) ∧
      Concludes [0, 3] middle verdict g' ∧ g'.strategy.length ≤ 6 := by
  intro request
  have checked : ((Generator.create Recital.config request () .host .standard).toOption.map
      fun start => (start.pendingScores, start.session.first, start.isDone)) =
      some (false, true, false) := by
    decide +kernel
  obtain ⟨start, opened, flags⟩ := Option.map_eq_some_iff.mp checked
  have created := Outcome.toOption_eq_some.mp opened
  simp only [Prod.mk.injEq] at flags
  obtain ⟨idle, first, goes⟩ := flags
  obtain ⟨verdict, g', middle, ran, prompt, concludes, -, fits⟩ :=
    @verifyCandidates_progresses Unit Blank.run request 4 start start Recital.config .standard ()
      Blank.supplies rfl (.inr rfl) created (Blank.serves rfl created) .refl idle (fun _ => goes)
      [0, 3]
  rw [if_pos first] at prompt
  exact ⟨start, verdict, g', middle, created, ran, prompt, concludes, fits⟩

/-- The prompt step commits a token. On a full prompt it is taken nevertheless, so that there is no
verdict, although the search is done. -/
theorem no_verdict_on_full_prompt (first : g.session.first = true)
    (full : g.strategy.histories.isFull = true) :
    ¬ Step.Returns (verifyCandidates model draft) g verdict g' := by
  intro ran
  obtain ⟨-, -, middle, prompt, -⟩ := verifyCandidates_returns ran
  rw [if_pos first] at prompt
  obtain ⟨computed, scored, chose⟩ := prompt
  obtain ⟨_, _, strategy, -, loaded, rfl⟩ := computeScores_returns.mp scored
  obtain ⟨-, constrained, chosen, same, choice, -⟩ := generateNextToken_chosen chose
  have fits := choice.fits
  rw [same.histories, (Strategy.setScores_returns loaded).histories] at fits
  rw [Histories.isFull, decide_eq_true_eq] at full
  omega

/-- A verification that fails although the search is done and the model answers. -/
theorem full_prompt_overflows :
    let request : Request :=
      { Request.ofConfig Recital.config 1 [0, 0, 0, 0, 0, 0] with speculative := true }
    ∃ start g', Generator.create Recital.config request () .host .standard = .ok start ∧
      Recital.decoder.Supplies ∧ start.Served 4 False Blank.run ∧ start.pendingScores = false ∧
      start.isDone = true ∧
      Step.Fails (verifyCandidates Blank.run [0]) start (.overflow 6) g' := by
  intro request
  have checked : ((Generator.create Recital.config request () .host .standard).toOption.map
      fun start => (start.pendingScores, start.isDone,
        match (verifyCandidates Blank.run [0] start).1 with
        | .ok _ => none
        | .error failure => some failure)) = some (false, true, some (.overflow 6)) := by
    decide +kernel
  obtain ⟨start, opened, flags⟩ := Option.map_eq_some_iff.mp checked
  have created := Outcome.toOption_eq_some.mp opened
  simp only [Prod.mk.injEq] at flags
  obtain ⟨idle, done, failed⟩ := flags
  refine ⟨start, (verifyCandidates Blank.run [0] start).2, created, Blank.supplies,
    Blank.serves rfl created, idle, done, ?_⟩
  unfold Step.Fails
  split at failed
  · cases failed
  · next failure found =>
    rw [← Option.some.inj failed]
    exact Prod.ext found rfl

end Generator

end StagedDecoding
