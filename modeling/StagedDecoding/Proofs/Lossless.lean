import StagedDecoding.Proofs.NaiveDecoding

/-! Draft verification is lossless.

A verdict commits only tokens that naive decoding would have chosen, whatever the draft was. So a
search that verifies drafts, and takes regular steps in between as it likes, is always somewhere on
the way that the greedy search takes, and ends where that ends.
-/

set_option autoImplicit false

namespace StagedDecoding

open Relation (ReflTransGen)

variable {next : List Token → Scores}

namespace Speculative.Judged

variable {positions : Nat} {predicts : Nat → List Token → Token → Prop} {position : Nat}
  {history draft : List Token} {verdict : Verdict} {request : Request}

theorem committed_eq_decode (agrees : ∀ i token, predicts (position + i) (history ++ draft.take i) token →
      token = request.settings.best (history ++ draft.take i) (next (history ++ draft.take i)))
    (judged : Judged request.settings.isEnd positions predicts position history draft verdict)
    (running : request.hasEnded history = false) (long : request.promptLength ≤ history.length) :
    history ++ verdict.committed = request.decode next verdict.committed.length history ∧
      ∀ m < verdict.committed.length, request.hasEnded (request.decode next m history) = false := by
  have single : ∀ {history : List Token} {token : Token}, request.hasEnded history = false →
      token = request.settings.best history (next history) →
      request.extend next history = history ++ [token] := by
    rintro history token running rfl
    simp [Request.extend, running]
  have corrected : ∀ {history : List Token} {token : Token}, request.hasEnded history = false →
      token = request.settings.best history (next history) →
      history ++ [token] = request.decode next 1 history ∧
        ∀ m < 1, request.hasEnded (request.decode next m history) = false := by
    intro history token running best
    refine ⟨(single running best).symm, fun m early => ?_⟩
    obtain rfl := Nat.lt_one_iff.mp early
    exact running
  induction judged with
  | spent _ => simp [Verdict.committed, Verdict.empty, Request.decode]
  | further predicted => exact corrected running (by simpa using agrees 0 _ (by simpa using predicted))
  | rejected predicted _ =>
    exact corrected running (by simpa using agrees 0 _ (by simpa using predicted))
  | ended predicted _ =>
    exact corrected running (by simpa using agrees 0 _ (by simpa using predicted))
  | @accepted position history rest token verdict predicted goes _ ih =>
    have best : token = request.settings.best history (next history) := by
      simpa using agrees 0 token (by simpa using predicted)
    -- an accepted token is the one that naive decoding chooses, and decoding goes on behind it
    have extended := single running best
    have running' : request.hasEnded (history ++ [token]) = false := by
      rw [Request.hasEnded, Greedy.hasEnded_append long, ← Request.hasEnded, running]
      simp [goes]
    obtain ⟨committed, before⟩ := ih (fun i other there => by
      have here := agrees (i + 1) other
      simp only [List.take_succ_cons, ← Nat.add_assoc, List.append_assoc, List.singleton_append]
        at here there ⊢
      exact here (by rwa [Nat.add_right_comm] at there)) running'
      (Nat.le_trans long (by simp))
    have whole : ({ verdict with accepted := token :: verdict.accepted } : Verdict).committed =
        token :: verdict.committed := rfl
    rw [whole, List.length_cons]
    refine ⟨?_, fun m early => ?_⟩
    · rw [Request.decode, Function.iterate_succ_apply, extended, ← Request.decode, ← committed]
      simp
    · cases m with
      | zero => exact running
      | succ m =>
        rw [Request.decode, Function.iterate_succ_apply, extended]
        exact before m (Nat.lt_of_succ_lt_succ early)

theorem ends_of_uncorrected {isEnd : Token → Bool}
    (judged : Judged isEnd positions predicts position history draft verdict)
    (enough : position + draft.length < positions) (none : verdict.correction = none) :
    verdict.committed.any isEnd = true := by
  induction judged with
  | spent beyond =>
    simp only [List.length_nil] at enough
    omega
  | further _ => simp at none
  | rejected _ _ => simp at none
  | ended _ ends => simp [Verdict.committed, ends]
  | accepted _ _ _ ih =>
    have later := ih (by simp only [List.length_cons] at enough; omega) none
    simp only [Verdict.committed, List.cons_append, List.any_cons, Bool.or_eq_true] at later ⊢
    exact .inr later

end Speculative.Judged

theorem Reading.Honours.speculative {β : Type} {model : Model β} {reading : Reading}
    (honours : reading.Honours model)
    (speculative : Bool) :
    { reading with
      request := { reading.request with speculative := speculative } : Reading }.Honours model := by
  intro view old new sized feeds stage invocation presents state outputs after answered
  obtain ⟨member, runs, named, listed, shows⟩ := presents
  obtain ⟨scores, presents, others⟩ := honours view old new sized feeds stage invocation
    ⟨member, runs, named, listed, shows.ids, shows.positions, shows.mask, shows.pasts, shows.extras,
      shows.others⟩ state outputs after answered
  exact ⟨scores, presents, others⟩

namespace Generator

variable {β : Type} {model : Model β} {reading : Reading} {n : Nat} {g g' : Generator β}

structure Drafting (reading : Reading) (next : List Token → Scores) (n : Nat)
    (g : Generator β) : Prop extends Decoding reading next n g where
  speculative : g.strategy.kind = .speculative
  everyPosition : ∀ s, g.strategy.greedy? = some s → s.everyPosition = true

/-- The committed history is the prompt, naively decoded, and a finished one is all of it. -/
def Agrees (request : Request) (next : List Token → Scores) (g : Generator β) : Prop :=
  ∃ n ≤ request.steps next,
    g.strategy.histories.rows = request.prompts.map (request.decode next n) ∧
      (g.isDone = true → n = request.steps next)

theorem Decoding.agrees (decoding : Decoding reading next n g) :
    Agrees reading.request next g :=
  ⟨n, Request.le_steps decoding.fits decoding.going, decoding.rows,
    fun done => (decoding.steps_eq done).symm⟩

theorem Drafting.create {config : Config} {device : Device} {registry : DeviceRegistry} {state : β}
    (decoder : config.model.decoder = reading.decoder)
    (speculates : reading.request.speculative = true)
    (created : Generator.create config reading.request state device registry = .ok g) :
    Drafting reading next 0 g := by
  obtain ⟨-, -, -, -, made⟩ := InStep.create decoder created
  rw [speculates, Strategy.create, if_pos rfl] at made
  obtain ⟨s, started, same⟩ := Outcome.map_eq_ok.mp made
  obtain ⟨single, inner, greedy, rfl⟩ := Speculative.start_eq_ok started
  obtain ⟨h, -, rfl⟩ := Greedy.start_eq_ok greedy
  have beams : reading.request.search.beams ≤ 1 :=
    Nat.le_trans (Nat.le_max_left _ _) (Nat.le_of_eq (Nat.eq_one_of_mul_eq_one_left single))
  refine ⟨(Decoding.create decoder beams created).1, by rw [← same]; rfl, fun s searches => ?_⟩
  rw [← same] at searches
  obtain rfl := Option.some.inj searches
  rfl

theorem Drafting.step {middle : Generator β} (drafting : Drafting reading next n g)
    (honours : reading.Honours model) (causal : reading.ScoresBy next true)
    (picks : reading.request.search.sample = false) (goes : g.isDone = false)
    (computed : Step.Returns (computeScores model) g () middle)
    (generated : Step.Returns generateNextToken middle () g') :
    Drafting reading next (n + 1) g' := by
  obtain ⟨decoding, kind⟩ :=
    drafting.toDecoding.step honours causal picks goes computed generated
  obtain ⟨s, searches⟩ := Strategy.exists_greedy? drafting.kind
  obtain ⟨⟨s', searches', every⟩, -⟩ := drafting.inStep.extend_rows honours causal drafting.idle
    drafting.config picks searches computed generated
  refine ⟨decoding, kind.trans drafting.speculative, fun s'' now => ?_⟩
  obtain rfl := Option.some.inj (searches'.symm.trans now)
  exact every.trans (drafting.everyPosition s searches)

section Verified

variable {draft : List Token} {verdict : Verdict}

theorem Drafting.judged (drafting : Drafting reading next n g) (causal : reading.ScoresBy next true)
    (drafted : Drafted reading model draft g verdict g') :
    ∃ prompt positions predicts, reading.request.prompts = [prompt] ∧
      reading.request.hasEnded (reading.request.decode next n prompt) = false ∧
      (g.clip draft).length < positions ∧
      (∀ i token,
        predicts (0 + i) (reading.request.decode next n prompt ++ (g.clip draft).take i) token →
          token = reading.request.settings.best
            (reading.request.decode next n prompt ++ (g.clip draft).take i)
            (next (reading.request.decode next n prompt ++ (g.clip draft).take i))) ∧
      Speculative.Judged reading.request.settings.isEnd positions predicts 0
        (reading.request.decode next n prompt) (g.clip draft) verdict ∧
      g'.strategy.histories.rows = [reading.request.decode next n prompt ++ verdict.committed] := by
  obtain ⟨s, s', row, view, tensor, session, before, now, verified, ran, -, ⟨old, sized⟩, whole⟩ :=
    drafted.outcome
  obtain ⟨kept, every, predicts⟩ := causal _ _ _ ran.scored
  obtain ⟨scores, loaded, judged⟩ := verified.judged
  -- the row is the decoded prompt
  have rooted := drafting.inStep.rooted
  have rows := drafting.rows
  have inner := drafting.everyPosition s.inner (by rw [before]; rfl)
  have running := verified.running
  rw [before] at rooted rows
  have settings : s.inner.settings = reading.request.settings := rooted.settings
  have prompted : s.inner.histories.promptLength = reading.request.promptLength :=
    rooted.promptLength
  have only : s.inner.histories.rows = reading.request.prompts.map _ := rows
  rw [verified.only, eq_comm] at only
  obtain ⟨prompt, alone, rfl⟩ := List.map_eq_singleton_iff.mp only
  rw [settings, prompted] at running
  rw [inner] at loaded
  rw [settings] at judged
  -- the scores have a position for every fed token, and the draft is fed after one of them
  obtain ⟨-, -, -, positions⟩ := LoadedScores.load_predicts predicts loaded
  obtain ⟨fed, feds⟩ := List.length_eq_one_iff.mp sized.fed.count
  have count : (g.clip draft).length + 1 = kept := by
    rw [← every rfl fed (by simp [feds]), sized.fed.width fed (by simp [feds])]
  refine ⟨prompt, scores.positions, _, alone, running, by omega, fun i token found => ?_, judged, ?_⟩
  · obtain ⟨own, there, rfl⟩ := found
    rw [Nat.zero_add] at there
    rw [LoadedScores.scoresAt_predicts predicts (every rfl) sized whole loaded there]
  · rw [now]
    simp only [Strategy.histories, verified.histories]

theorem Drafting.committed_le_room (drafting : Drafting reading next n g)
    (drafted : Drafted reading model draft g verdict g') :
    verdict.committed.length + n ≤ reading.request.room := by
  obtain ⟨s, _, _, _, _, _, before, -, verified, -⟩ := drafted.outcome
  have fits := verified.fits
  have rooted := drafting.inStep.rooted
  have length := drafting.toDecoding.length
  rw [before] at rooted length
  have capacity : s.inner.histories.capacity = reading.request.settings.maxLength :=
    rooted.capacity
  have longer : s.inner.histories.length = reading.request.promptLength + n := length
  rw [longer, capacity] at fits
  rw [Request.room]
  omega

theorem Drafting.promptLength_le {prompt : List Token} (drafting : Drafting reading next n g)
    (alone : reading.request.prompts = [prompt]) :
    reading.request.promptLength ≤ (reading.request.decode next n prompt).length := by
  have member : prompt ∈ reading.request.prompts := by simp [alone]
  rw [Request.decode_length, Tensor.length_of_mem_blocks drafting.inStep.prompted.total member]
  exact Nat.le_add_right _ _

theorem Drafting.rows_of_drafted (drafting : Drafting reading next n g)
    (causal : reading.ScoresBy next true) (drafted : Drafted reading model draft g verdict g') :
    g'.strategy.histories.rows =
        reading.request.prompts.map (reading.request.decode next (verdict.committed.length + n)) ∧
      ∀ m < verdict.committed.length + n, ∃ prompt ∈ reading.request.prompts,
        reading.request.hasEnded (reading.request.decode next m prompt) = false := by
  obtain ⟨prompt, positions, predicts, alone, running, -, agrees, judged, rows⟩ :=
    drafting.judged causal drafted
  obtain ⟨committed, going⟩ :=
    judged.committed_eq_decode agrees running (drafting.promptLength_le alone)
  refine ⟨?_, fun m early => ?_⟩
  · rw [rows, alone, List.map_singleton, Request.decode_add, ← committed]
  · -- the steps before the draft went on, and so do those within it
    rcases Nat.lt_or_ge m n with old | new
    · exact drafting.going m old
    · refine ⟨prompt, by simp [alone], ?_⟩
      have here := going (m - n) (by omega)
      rwa [← Request.decode_add, Nat.sub_add_cancel new] at here

theorem Drafting.ended_of_uncorrected (drafting : Drafting reading next n g)
    (causal : reading.ScoresBy next true) (drafted : Drafted reading model draft g verdict g')
    (none : verdict.correction = none) :
    ∀ row ∈ g'.strategy.histories.rows, reading.request.hasEnded row = true := by
  obtain ⟨prompt, positions, predicts, alone, -, spare, -, judged, rows⟩ :=
    drafting.judged causal drafted
  have ends := judged.ends_of_uncorrected (by omega) none
  rw [rows]
  simp [Request.hasEnded, Greedy.hasEnded_append (drafting.promptLength_le alone), ends]

/-- After a verified draft the search goes on drafting, or it is over and has decoded all there is.
-/
theorem Drafting.verified (drafting : Drafting reading next n g)
    (causal : reading.ScoresBy next true) (drafted : Drafted reading model draft g verdict g')
    (after : InStep reading g' ∨ verdict.correction = none ∧ Exhausted reading g') :
    (∃ m, Drafting reading next m g') ∨ g'.isDone = true ∧ Agrees reading.request next g' := by
  obtain ⟨s, s', _, _, _, _, before, now, verified, -⟩ := drafted.outcome
  have searches : g'.strategy.greedy? = some s'.inner := by rw [now]; rfl
  obtain ⟨rows, going⟩ := drafting.rows_of_drafted causal drafted
  have fits := drafting.committed_le_room drafted
  rcases after with inStep | ⟨none, exhausted⟩
  · have kind : g'.strategy.kind = .speculative := by rw [now]; rfl
    refine .inl ⟨_, ⟨inStep, drafted.idle, drafted.config.trans drafting.config, by simp [kind],
      rows, fits, going⟩, kind, fun s'' searches' => ?_⟩
    obtain rfl := Option.some.inj (searches.symm.trans searches')
    exact verified.everyPosition.trans (drafting.everyPosition s.inner (by rw [before]; rfl))
  · -- nothing was put after the draft, so that it ends the search
    have ended := drafting.ended_of_uncorrected causal drafted none
    have marked : g'.strategy.Marked := by rw [now]; exact verified.marked
    refine .inr ⟨(exhausted.rooted.isDone_iff marked searches).mpr (.inr ended), _,
      Request.le_steps fits going, rows, fun _ => Nat.le_antisymm
        (Request.le_steps fits going) (Request.steps_le fits (.inr ?_))⟩
    rw [rows, List.forall_mem_map] at ended
    exact ended

end Verified

/-- Where a search that verifies drafts stands: between two steps, within a regular one, or at its
end. -/
inductive Simulates (model : Model β) (reading : Reading) (next : List Token → Scores) :
    Generator β → Prop where
  | between {n : Nat} {g : Generator β} : Drafting reading next n g → Simulates model reading next g
  | within {n : Nat} {before g : Generator β} : Drafting reading next n before →
      before.isDone = false → Step.Returns (computeScores model) before () g →
      Simulates model reading next g
  | ended {g : Generator β} : g.isDone = true → Agrees reading.request next g →
      g.strategy.kind = .speculative → Simulates model reading next g

theorem Simulates.call (honours : reading.Honours model) (causal : reading.ScoresBy next true)
    (picks : reading.request.search.sample = false) (simulates : Simulates model reading next g)
    (goes : g.isDone = false) (call : Call model g g') : Simulates model reading next g' := by
  cases simulates with
  | ended done _ _ => simp [done] at goes
  | between drafting =>
    cases call with
    | compute _ ran => exact .within drafting goes ran
    | generate ran =>
      have waits := (generateNextToken_chosen ran).1
      simp [drafting.idle] at waits
    | verify ran =>
      obtain ⟨-, -, middle, prompt, -, -, -, outcome⟩ :=
        drafting.inStep.verifyCandidates honours ran
      -- a verification makes its own first round if there was none
      obtain ⟨m, ready⟩ : ∃ m, Drafting reading next m middle := by
        split at prompt
        · obtain ⟨computed, scored, chose⟩ := prompt
          exact ⟨_, drafting.step honours causal picks goes scored chose⟩
        · exact ⟨_, prompt ▸ drafting⟩
      rcases outcome with ⟨-, -, rfl⟩ | ⟨-, drafted, after⟩
      · exact .between ready
      · rcases ready.verified causal drafted after with ⟨_, drafting'⟩ | ⟨done, agrees⟩
        · exact .between drafting'
        · obtain ⟨s, s', _, _, _, _, -, now, _⟩ := drafted.outcome
          exact .ended done agrees (by rw [now]; rfl)
  | within drafting going computed =>
    obtain ⟨inStep, waits, -, _, _, _, _, _⟩ := drafting.inStep.compute honours drafting.idle computed
    cases call with
    | compute idle _ => simp [waits] at idle
    | generate ran => exact .between (drafting.step honours causal picks going computed ran)
    | verify ran =>
      have idle := (verifyCandidates_returns ran).2.1
      simp [waits] at idle

/-- Wherever the calls of a search lead to, they simulate naive decoding. -/
theorem Drafting.simulates {start : Generator β} (drafting : Drafting reading next 0 start)
    (honours : reading.Honours model) (causal : reading.ScoresBy next true)
    (picks : reading.request.search.sample = false)
    (reached : ReflTransGen (fun g g' => g.isDone = false ∧ Call model g g') start g) :
    Simulates model reading next g := by
  induction reached with
  | refl => exact .between drafting
  | tail _ last ih => exact ih.call honours causal picks last.1 last.2

theorem Simulates.agrees (honours : reading.Honours model)
    (simulates : Simulates model reading next g) :
    Agrees reading.request next g ∧ g.strategy.kind = .speculative := by
  cases simulates with
  | between drafting => exact ⟨drafting.toDecoding.agrees, drafting.speculative⟩
  | within drafting going computed =>
    obtain ⟨-, -, -, _, _, -, -, loaded⟩ := drafting.inStep.compute honours drafting.idle computed
    have same := Strategy.setScores_returns loaded
    obtain ⟨n, early, rows, done⟩ := drafting.toDecoding.agrees
    refine ⟨⟨n, early, same.histories ▸ rows, fun ended => done (same.isDone.symm.trans ended)⟩,
      same.kind.trans drafting.speculative⟩
  | ended _ agrees kind => exact ⟨agrees, kind⟩

theorem sequence_of_rows {row : List Token} (kind : g.strategy.kind = .speculative)
    (rows : g.strategy.histories.rows = [row]) : Step.Returns (sequence 0) g row g := by
  obtain ⟨session, strategy, config, pending, feed⟩ := g
  obtain ⟨s, rfl⟩ := Strategy.exists_speculative kind
  have here : s.inner.histories.rows[0]? = some row := by
    rw [show s.inner.histories.rows = [row] from rows]
    rfl
  exact onStrategy_returns.mpr ⟨.speculative s,
    Strategy.returns_speculative (Strategy.returns_inside (Greedy.sequence_row here)), rfl⟩

/-- Whatever drafts are verified and regular steps are taken: the committed history is always a
beginning of the naive decoding that greedy generation returns, and all of it once the search is
over. -/
theorem speculative_lossless {config : Config} {request : Request} {device : Device}
    {registry : DeviceRegistry} {state state' : β} {start : Generator β}
    (causal : model.Causal config.model.decoder { request with speculative := true } next true)
    (picks : request.search.sample = false)
    (created : Generator.create config { request with speculative := true } state device registry =
      .ok start)
    (reached : ReflTransGen (fun g g' => g.isDone = false ∧ Call model g g') start g) :
    ∃ history final, Step.Returns (sequence 0) g history g ∧
      request.prompts.map (request.decode next (request.steps next)) = [final] ∧
      history <+: final ∧ (g.isDone = true → history = final) ∧
      ∀ plain outs g', Generator.create config { request with speculative := false } state' device
          registry = .ok plain →
        Step.Returns (generate model) plain outs g' → outs = [final] := by
  obtain ⟨⟨_, _, ledger, carried, scored⟩, rfl, rfl, causal, honours⟩ := causal
  have first : Drafting ⟨config.model.decoder, { request with speculative := true }, ledger,
      carried, scored⟩ next 0 start := .create rfl rfl created
  obtain ⟨⟨n, early, rows, done⟩, kind⟩ :=
    (first.simulates honours causal picks reached).agrees honours
  -- there is one prompt
  have single : request.batchSize * request.beams = 1 :=
    first.inStep.rooted.single first.speculative
  have beams : request.search.beams ≤ 1 :=
    Nat.le_trans (Nat.le_max_left _ 1) (Nat.le_of_eq (Nat.eq_one_of_mul_eq_one_left single))
  obtain ⟨prompt, alone⟩ : ∃ prompt, request.prompts = [prompt] := by
    rw [← List.length_eq_one_iff, Request.prompts, Tensor.blocks_length]
    exact Nat.eq_one_of_mul_eq_one_right single
  have row : g.strategy.histories.rows = [request.decode next n prompt] := by
    have rows : g.strategy.histories.rows = request.prompts.map (request.decode next n) := rows
    rw [rows, alone, List.map_singleton]
  refine ⟨request.decode next n prompt, request.decode next (request.steps next) prompt,
    sequence_of_rows kind row, by rw [alone, List.map_singleton], Request.decode_prefix early,
    fun ended => ?_, fun plain outs g' created' ran => ?_⟩
  · have whole : n = request.steps next := done ended
    rw [whole]
  · have honours' : Reading.Honours ⟨config.model.decoder, { request with speculative := false },
      ledger, carried, scored⟩ model := honours.speculative false
    have decoding : Decoding ⟨config.model.decoder, { request with speculative := false }, ledger,
        carried, scored⟩ next 0 plain := (Decoding.create rfl beams created').1
    have outs' : outs = request.prompts.map (request.decode next (request.steps next)) :=
      decoding.generate honours' causal picks ran
    rw [outs', alone, List.map_singleton]

def reciteDraft : Step (Generator Unit) ((Bool × Bool × Bool × Bool) × Bool) := do
  let first ← get
  let _ ← verifyCandidates (Recital.run Recital.counting) [0, 3]
  let second ← get
  computeScores (Recital.run Recital.counting)
  let third ← get
  generateNextToken
  let last ← get
  return ((first.isDone, second.isDone, second.pendingScores, third.isDone), last.isDone)

/-- A wrong draft does not keep a recital from what it counts up by itself. -/
theorem recital_lossless :
    let request : Request := .ofConfig Recital.config 1 [0, 0]
    ∃ start g history, Generator.create Recital.config { request with speculative := true } ()
        .host .standard = .ok start ∧
      ReflTransGen (fun g g' => g.isDone = false ∧ Call (Recital.run Recital.counting) g g')
        start g ∧
      g.isDone = true ∧ Step.Returns (sequence 0) g history g ∧
      request.prompts.map (request.decode Recital.counting (request.steps Recital.counting)) =
        [history] := by
  intro request
  have checked : ((Generator.create Recital.config
      { Request.ofConfig Recital.config 1 [0, 0] with speculative := true } () .host
      .standard).toOption.bind fun start => (reciteDraft start).1.toOption) =
      some ((false, false, false, false), true) := by
    decide +kernel
  obtain ⟨start, opened, recited⟩ := Option.bind_eq_some_iff.mp checked
  have created := Outcome.toOption_eq_some.mp opened
  have ran := Step.returns_of_result recited
  simp only [reciteDraft, Step.returns_bind, Step.returns_get, Step.returns_pure] at ran
  obtain ⟨_, _, ⟨rfl, rfl⟩, verdict, second, verified, _, _, ⟨rfl, rfl⟩, _, third, computed, _, _,
    ⟨rfl, rfl⟩, _, g, generated, _, _, ⟨rfl, rfl⟩, found, -⟩ := ran
  obtain ⟨flags, ended⟩ := Prod.mk.inj found
  simp only [Prod.mk.injEq] at flags
  obtain ⟨going, going', idle, going''⟩ := flags
  have reached : ReflTransGen (fun g g' => g.isDone = false ∧
      Call (Recital.run Recital.counting) g g') start g :=
    ((ReflTransGen.single ⟨going, .verify verified⟩).tail ⟨going', .compute idle computed⟩).tail
      ⟨going'', .generate generated⟩
  have causal : (Recital.run Recital.counting).Causal Recital.decoder
      { request with speculative := true } Recital.counting true :=
    Recital.run_causal Recital.counting_length (by decide)
  obtain ⟨history, final, asked, decoded, -, whole, -⟩ :=
    @speculative_lossless _ _ _ _ Recital.config request .host .standard () () start causal rfl
      created reached
  exact ⟨start, g, history, created, reached, ended, asked, by rw [decoded, whole ended]⟩

end Generator

end StagedDecoding
