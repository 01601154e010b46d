import Mathlib.Logic.Function.Iterate
import StagedDecoding.Proofs.Extension
import StagedDecoding.Proofs.Recital
import StagedDecoding.Proofs.ScoreOrder

/-! Greedy generation is naive decoding.

Naive decoding extends every prompt on its own and always from its whole history. Under a causal
model, the generation loop with its cache, its rectangular batch and its end marks gives exactly
that, cut where every row has ended or the histories are full.
-/

set_option autoImplicit false

namespace StagedDecoding

namespace Request

variable (request : Request) (next : List Token → Scores)

def prompts : List (List Token) :=
  Tensor.blocks request.promptLength request.batchSize request.inputIds

def decode (steps : Nat) (prompt : List Token) : List Token :=
  (request.extend next)^[steps] prompt

def room : Nat := request.settings.maxLength - request.promptLength

/-- The first step at which every row has ended, or as many as there is room for. -/
def steps : Nat :=
  ((List.range request.room).find? fun n =>
    request.prompts.all fun prompt => request.hasEnded (request.decode next n prompt)).getD
      request.room

variable {request next}

theorem promptRows_eq (single : request.search.beams ≤ 1) :
    request.promptRows = request.prompts := by
  have one : request.beams = 1 := Nat.max_eq_right single
  have copies : List.replicate 1 = fun row : List Token => [row] := rfl
  rw [promptRows, one, copies, List.flatMap_singleton', prompts]

theorem decode_succ {n : Nat} {prompt : List Token} :
    request.decode next (n + 1) prompt = request.extend next (request.decode next n prompt) :=
  Function.iterate_succ_apply' _ _ _

theorem decode_add {n m : Nat} {prompt : List Token} :
    request.decode next (n + m) prompt = request.decode next n (request.decode next m prompt) :=
  Function.iterate_add_apply _ _ _ _

theorem decode_length {n : Nat} {prompt : List Token} :
    (request.decode next n prompt).length = prompt.length + n := by
  induction n with
  | zero => rfl
  | succ n ih => simp [decode_succ, extend, ih, Nat.add_assoc]

theorem decode_prefix {n m : Nat} {prompt : List Token} (within : n ≤ m) :
    request.decode next n prompt <+: request.decode next m prompt := by
  induction m, within using Nat.le_induction with
  | base => exact List.prefix_rfl
  | succ m _ ih =>
    rw [decode_succ]
    exact ih.trans (List.prefix_append _ _)

theorem le_steps {n : Nat} (fits : n ≤ request.room)
    (going : ∀ m < n, ∃ prompt ∈ request.prompts,
      request.hasEnded (request.decode next m prompt) = false) : n ≤ request.steps next := by
  unfold steps
  cases found : (List.range request.room).find? fun n =>
      request.prompts.all fun prompt => request.hasEnded (request.decode next n prompt) with
  | none => exact fits
  | some m =>
    obtain ⟨ended, -, -⟩ := List.find?_range_eq_some.mp found
    by_contra early
    obtain ⟨prompt, inside, goes⟩ := going m (Nat.lt_of_not_le early)
    simp [List.all_eq_true.mp ended prompt inside] at goes

theorem steps_le {n : Nat} (fits : n ≤ request.room)
    (stops : n = request.room ∨ ∀ prompt ∈ request.prompts,
      request.hasEnded (request.decode next n prompt) = true) : request.steps next ≤ n := by
  unfold steps
  cases found : (List.range request.room).find? fun n =>
      request.prompts.all fun prompt => request.hasEnded (request.decode next n prompt) with
  | none =>
    rcases stops with full | ended
    · exact Nat.le_of_eq full.symm
    · by_contra early
      have below : n < request.room := Nat.lt_of_not_le early
      exact List.find?_eq_none.mp found n (List.mem_range.mpr below) (List.all_eq_true.mpr ended)
  | some m =>
    obtain ⟨-, below, first⟩ := List.find?_range_eq_some.mp found
    rcases stops with rfl | stopped
    · exact Nat.le_of_lt (List.mem_range.mp below)
    · by_contra late
      have goes := first n (Nat.lt_of_not_le late)
      simp [List.all_eq_true.mpr stopped] at goes

end Request

namespace Generator

variable {β : Type} {model : Model β} {reading : Reading} {next : List Token → Scores}
  {everyPosition : Bool} {n : Nat} {g g' : Generator β}

/-- A row-based search whose rows are the prompts, decoded for some steps, with some row going on
before each. -/
structure Decoding (reading : Reading) (next : List Token → Scores) (n : Nat)
    (g : Generator β) : Prop where
  inStep : InStep reading g
  idle : g.pendingScores = false
  config : g.config = reading.request.search
  kind : g.strategy.kind ≠ .beam
  rows : g.strategy.histories.rows = reading.request.prompts.map (reading.request.decode next n)
  fits : n ≤ reading.request.room
  going : ∀ m < n, ∃ prompt ∈ reading.request.prompts,
    reading.request.hasEnded (reading.request.decode next m prompt) = false

theorem Decoding.length (decoding : Decoding reading next n g) :
    g.strategy.length = reading.request.promptLength + n := by
  have prompted := decoding.inStep.prompted
  have rows := decoding.inStep.rooted.rows
  rw [decoding.rows] at rows
  obtain ⟨prompt, inside⟩ : ∃ prompt, prompt ∈ reading.request.prompts :=
    List.exists_mem_of_length_pos (by simpa [Request.prompts] using prompted.batch)
  rw [Strategy.length, ← rows.width _ (List.mem_map_of_mem inside), Request.decode_length,
    Tensor.length_of_mem_blocks prompted.total inside]

theorem Decoding.isDone_iff (decoding : Decoding reading next n g) :
    g.isDone = true ↔ n = reading.request.room ∨ ∀ prompt ∈ reading.request.prompts,
      reading.request.hasEnded (reading.request.decode next n prompt) = true := by
  obtain ⟨s, searches⟩ := Strategy.exists_greedy? decoding.kind
  have full : reading.request.settings.maxLength ≤ reading.request.promptLength + n ↔
      n = reading.request.room := by
    have fits := decoding.fits
    unfold Request.room at fits ⊢
    omega
  rw [isDone, decoding.inStep.rooted.isDone_iff decoding.inStep.marked searches, decoding.length,
    full, decoding.rows, List.forall_mem_map]

theorem Decoding.steps_eq (decoding : Decoding reading next n g) (done : g.isDone = true) :
    reading.request.steps next = n :=
  Nat.le_antisymm (Request.steps_le decoding.fits (decoding.isDone_iff.mp done))
    (Request.le_steps decoding.fits decoding.going)

theorem Decoding.create {config : Config} {device : Device} {registry : DeviceRegistry} {state : β}
    (decoder : config.model.decoder = reading.decoder)
    (single : reading.request.search.beams ≤ 1)
    (created : Generator.create config reading.request state device registry = .ok g) :
    Decoding reading next 0 g ∧
      Strategy.create reading.request.settings reading.request.inputIds
        reading.request.speculative = .ok g.strategy := by
  obtain ⟨inStep, idle, config, rows, made⟩ := InStep.create decoder created
  refine ⟨⟨inStep, idle, config, ?_, ?_, Nat.zero_le _, by simp⟩, made⟩
  · have few : ¬ 1 < reading.request.settings.beams :=
      Nat.not_lt.mpr (Nat.le_of_eq (Nat.max_eq_right single))
    rw [Strategy.create, if_neg few] at made
    split at made
    · obtain ⟨s, -, same⟩ := Outcome.map_eq_ok.mp made
      simp [← same, Strategy.kind]
    · obtain ⟨s, -, same⟩ := Outcome.map_eq_ok.mp made
      simp [← same, Strategy.kind]
  · rw [rows, Request.promptRows_eq single]
    exact (List.map_id' _).symm

theorem Decoding.step {middle : Generator β} (decoding : Decoding reading next n g)
    (honours : reading.Honours model) (causal : reading.ScoresBy next everyPosition)
    (picks : reading.request.search.sample = false) (goes : g.isDone = false)
    (computed : Step.Returns (computeScores model) g () middle)
    (generated : Step.Returns generateNextToken middle () g') :
    Decoding reading next (n + 1) g' ∧ g'.strategy.kind = g.strategy.kind := by
  obtain ⟨s, searches⟩ := Strategy.exists_greedy? decoding.kind
  have unfinished := mt decoding.isDone_iff.mpr (by simp [goes])
  push Not at unfinished
  obtain ⟨room, prompt, inside, running⟩ := unfinished
  obtain ⟨inStep', -, config', _, _, _, _, loaded⟩ :=
    decoding.inStep.compute honours decoding.idle computed
  obtain ⟨inStep'', idle, -, config''⟩ := inStep'.generate generated
  obtain ⟨-, extended⟩ := decoding.inStep.extend_rows honours causal decoding.idle decoding.config
    picks searches computed generated
  have kind := (generate_kind generated).trans (Strategy.setScores_returns loaded).kind
  refine ⟨⟨inStep'', idle, (config''.trans config').trans decoding.config,
    kind ▸ decoding.kind, ?_, ?_, fun m early => ?_⟩, kind⟩
  · rw [extended, decoding.rows, List.map_map]
    exact List.map_congr_left fun prompt _ => Request.decode_succ.symm
  · exact Nat.succ_le_of_lt (Nat.lt_of_le_of_ne decoding.fits room)
  · rcases Nat.lt_succ_iff_lt_or_eq.mp early with before | rfl
    · exact decoding.going m before
    · exact ⟨prompt, inside, by simpa using running⟩

theorem Decoding.runToEnd {bound : Nat} (decoding : Decoding reading next n g)
    (honours : reading.Honours model) (causal : reading.ScoresBy next everyPosition)
    (picks : reading.request.search.sample = false) (enough : reading.request.room < n + bound)
    (ran : Step.Returns (Generator.runToEnd model bound) g () g') :
    ∃ m, Decoding reading next m g' ∧ g'.isDone = true := by
  induction bound generalizing n g with
  | zero =>
    have fits := decoding.fits
    omega
  | succ bound ih =>
    simp only [Generator.runToEnd, Step.returns_bind, Step.returns_get] at ran
    obtain ⟨_, _, ⟨rfl, rfl⟩, ran⟩ := ran
    split at ran
    · next done =>
      obtain ⟨-, rfl⟩ := Step.returns_pure.mp ran
      exact ⟨n, decoding, done⟩
    · next goes =>
      simp only [Step.returns_bind] at ran
      obtain ⟨_, _, computed, _, _, generated, later⟩ := ran
      exact ih (decoding.step honours causal picks (by simpa using goes) computed generated).1
        (by omega) later

theorem sequence_returns {index : Nat} {out : List Token} {s : Greedy}
    (searches : g.strategy.greedy? = some s) (ran : Step.Returns (sequence index) g out g') :
    s.histories.rows[index]? = some out ∧ g'.strategy.greedy? = some s := by
  obtain ⟨strategy, asked, rfl⟩ := onStrategy_returns.mp ran
  obtain ⟨s', looked, searches'⟩ := Strategy.rowSearch_returns searches asked
  obtain ⟨found, rfl⟩ := Greedy.row_of_sequence looked
  exact ⟨found, searches'⟩

theorem sequences_returns {indices : List Nat} {outs : List (List Token)} {s : Greedy}
    (searches : g.strategy.greedy? = some s) (ran : Step.Returns (sequences indices) g outs g') :
    List.Forall₂ (fun i out => s.histories.rows[i]? = some out) indices outs := by
  induction indices generalizing g outs with
  | nil =>
    obtain ⟨rfl, -⟩ := Step.returns_pure.mp ran
    exact .nil
  | cons index rest ih =>
    simp only [sequences, Step.returns_bind, Step.returns_pure] at ran
    obtain ⟨out, _, asked, others, _, later, rfl, rfl⟩ := ran
    obtain ⟨found, searches'⟩ := sequence_returns searches asked
    exact .cons found (ih searches' later)

theorem resultCount_eq {s : Greedy} (searches : g.strategy.greedy? = some s) :
    g.resultCount = s.histories.rows.length := by
  cases strategy : g.strategy with
  | greedy own =>
    rw [strategy] at searches
    obtain rfl := Option.some.inj searches
    simp [resultCount, strategy, Strategy.histories, Histories.rowCount]
  | beam _ => simp [strategy, Strategy.greedy?] at searches
  | speculative own =>
    rw [strategy] at searches
    obtain rfl := Option.some.inj searches
    simp [resultCount, strategy, Strategy.histories, Histories.rowCount]

/-- A loop that runs to the end decodes every prompt for the steps that it takes. -/
theorem Decoding.generate {outs : List (List Token)} (decoding : Decoding reading next 0 g)
    (honours : reading.Honours model) (causal : reading.ScoresBy next everyPosition)
    (picks : reading.request.search.sample = false)
    (ran : Step.Returns (Generator.generate model) g outs g') :
    outs = reading.request.prompts.map
      (reading.request.decode next (reading.request.steps next)) := by
  simp only [Generator.generate, Step.returns_bind, Step.returns_get] at ran
  obtain ⟨_, _, ⟨rfl, rfl⟩, _, middle, looped, _, _, ⟨rfl, rfl⟩, listed⟩ := ran
  -- the loop has a round for every token that there is room for, and one more
  have enough : reading.request.room <
      0 + (g.strategy.histories.capacity - g.strategy.histories.length + 1) := by
    have length : g.strategy.histories.length = reading.request.promptLength := decoding.length
    rw [decoding.inStep.rooted.capacity, length, Request.room]
    omega
  obtain ⟨n, last, done⟩ := decoding.runToEnd honours causal picks enough looped
  obtain ⟨s, searches⟩ := Strategy.exists_greedy? last.kind
  have each := sequences_returns searches listed
  rw [resultCount_eq searches] at each
  rw [last.steps_eq done, ← last.rows, (Strategy.of_greedy? searches).1]
  have length : outs.length = s.histories.rows.length := by
    rw [← each.length_eq, List.length_range]
  refine List.ext_getElem length fun i here there => ?_
  have found := each.get (by simpa using there) here
  rw [List.get_eq_getElem, List.get_eq_getElem, List.getElem_range,
    List.getElem?_eq_getElem there] at found
  exact (Option.some.inj found).symm

/-- Greedy generation, if it succeeds, gives every prompt naively decoded, up to the first step at
which all rows have ended or to the full length. The best token that decoding takes is the first
with the largest of the constrained scores. -/
theorem generate_eq_decode {config : Config} {request : Request} {device : Device}
    {registry : DeviceRegistry} {state : β} {start : Generator β} {outs : List (List Token)}
    (causal : model.Causal config.model.decoder request next everyPosition)
    (single : request.search.beams ≤ 1) (picks : request.search.sample = false)
    (created : Generator.create config request state device registry = .ok start)
    (ran : Step.Returns (generate model) start outs g) :
    outs = request.prompts.map (request.decode next (request.steps next)) ∧
      ∀ history scores, scores ≠ [] →
        let kept := Scores.constrained request.search.minLength request.search.repetitionPenalty
          request.endTokens history scores
        (∀ score ∈ kept, score.isNaN = false) →
        Scores.IsFirstMax kept (request.settings.best history scores) := by
  obtain ⟨reading, decoder, rfl, scores, honours⟩ := causal
  have decoding : Decoding reading next 0 start :=
    (Decoding.create decoder.symm single created).1
  exact ⟨decoding.generate honours scores picks ran, fun history scores some clean =>
    Scores.argmax_isFirstMax (by simpa [Scores.constrained] using some) clean⟩

/-- Two prompts are counted up to the end token, and the shorter way is padded. -/
theorem recital_generate_eq_decode :
    let request : Request := .ofConfig Recital.config 2 [0, 1, 1, 2]
    ∃ start outs g, Generator.create Recital.config request () .host .standard = .ok start ∧
      Step.Returns (generate (Recital.run Recital.counting)) start outs g ∧
      outs = [[0, 1, 2, 3], [1, 2, 3, 0]] ∧
      outs = request.prompts.map
        (request.decode Recital.counting (request.steps Recital.counting)) := by
  intro request
  have checked : ((Generator.create Recital.config (.ofConfig Recital.config 2 [0, 1, 1, 2]) ()
      .host .standard).toOption.bind fun start =>
        (generate (Recital.run Recital.counting) start).1.toOption) =
      some [[0, 1, 2, 3], [1, 2, 3, 0]] := by
    decide +kernel
  obtain ⟨start, opened, finished⟩ := Option.bind_eq_some_iff.mp checked
  have created := Outcome.toOption_eq_some.mp opened
  have ran := Step.returns_of_result finished
  have causal : (Recital.run Recital.counting).Causal Recital.decoder request Recital.counting
      true := Recital.run_causal Recital.counting_length (by decide)
  exact ⟨start, _, _, created, ran, rfl,
    (generate_eq_decode causal (by decide) rfl created ran).1⟩

end Generator

end StagedDecoding
