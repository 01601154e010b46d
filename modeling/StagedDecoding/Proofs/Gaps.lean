import StagedDecoding.Proofs.BeamBounds
import StagedDecoding.Proofs.EntrySteps
import StagedDecoding.Proofs.PendingScores
import StagedDecoding.Proofs.Rounds
import StagedDecoding.Proofs.Termination

/-! Presents with gaps in their storage.

Rows are picked from storage without gaps only, and beams pick rows in every step but the first. So
a model that hands out views of a longer cache stops a beam search in its second step, whatever the
shapes of its outputs.
-/

set_option autoImplicit false

namespace StagedDecoding

def CacheSlot.Gapped (slot : CacheSlot) : Prop :=
  ∃ tensor, slot.present = some tensor ∧ tensor.isPacked = false

namespace LayerCache

variable {rows fed : Nat} {moves : Prop} {indices : List Nat} {slot next : CacheSlot}
  {cache : LayerCache} {failure : Failure}

theorem advanceSlot_fails (has : slot.HasPresent rows fed moves) (inside : ∀ i ∈ indices, i < rows)
    (failed : Step.Fails (advanceSlot indices) slot failure next) : failure = .tensor .gaps := by
  obtain ⟨present, heads, length, size, given, shape, -, -⟩ := has
  rw [Step.Fails, advanceSlot_given indices given] at failed
  cases indices with
  | nil => cases failed
  | cons i rest =>
    cases packed : present.isPacked with
    | true =>
      obtain ⟨chosen, selected, -⟩ := Tensor.selectRows_total shape packed inside
      simp [selected, tensorStep] at failed
    | false => simp_all [Tensor.selectRows, tensorStep]

theorem advanceSlot_packed (has : slot.HasPresent rows fed moves) (moved : indices ≠ [])
    (ran : Step.Returns (advanceSlot indices) slot () next) : ¬ slot.Gapped := by
  obtain ⟨present, heads, length, size, given, shape, -, -⟩ := has
  rintro ⟨tensor, found, gaps⟩
  obtain rfl := Option.some.inj (given.symm.trans found)
  obtain ⟨tensor, found, taken, -⟩ := advanceSlot_returns ran
  obtain rfl := Option.some.inj (given.symm.trans found)
  rw [if_neg (by simpa using moved)] at taken
  rw [((Tensor.selectRows_eq_ok shape).mp taken).1] at gaps
  cases gaps

theorem update_gapped (has : ∀ slot ∈ cache.slots, slot.HasPresent rows fed moves)
    (moved : indices ≠ []) (inside : ∀ i ∈ indices, i < rows)
    (gapped : ∃ slot ∈ cache.slots, slot.Gapped) :
    ∃ after, Step.Fails (update indices) cache (.tensor .gaps) after := by
  obtain ⟨u, ran⟩ | ⟨failure, failed⟩ := Step.returns_or_fails (update indices) cache
  · obtain ⟨slot, member, gaps⟩ := gapped
    obtain ⟨next, advanced⟩ := onSlots_returns_iff.mp ⟨_, ran⟩ slot member
    exact absurd gaps (advanceSlot_packed (has slot member) moved advanced)
  · obtain ⟨passed, slot, rest, split, -, next, stopped⟩ := onSlots_fails.mp ⟨_, failed⟩
    obtain rfl := advanceSlot_fails (has slot (split ▸ by simp)) inside stopped
    exact ⟨_, failed⟩

end LayerCache

theorem Buffers.update_gapped {buffers : Buffers} {tokens : List Token} {indices : List Nat}
    {columns fed new : Nat} {moves : Prop} (some : 0 < buffers.rows)
    (lined : buffers.Lined columns) (supplied : buffers.Supplied fed moves)
    (whole : tokens.length = buffers.rows * new) (feeds : 0 < new) (moved : indices ≠ [])
    (inside : ∀ i ∈ indices, i < buffers.rows) (gapped : ∃ slot ∈ buffers.slots, slot.Gapped) :
    ∃ after, Step.Fails (update tokens indices (columns + new)) buffers (.tensor .gaps) after := by
  obtain ⟨placed, placing⟩ := @onPositions_total
    { buffers with inputIds := Tensor.blocks new buffers.rows tokens }
    (Positions.update new (columns + new))
    fun positions given => (lined positions given).update_total new
  obtain ⟨same, -, -⟩ := onPositions_returns placing
  have slots : placed.slots = buffers.slots := by rw [same]; rfl
  -- without a cache there would be no slot
  cases kept : placed.cache with
  | none =>
    obtain ⟨slot, member, -⟩ := gapped
    rw [← slots] at member
    simp [Buffers.slots, kept] at member
  | some cache =>
    have own : buffers.slots = cache.slots := by rw [← slots]; simp [Buffers.slots, kept]
    rw [own] at gapped
    obtain ⟨after, failed⟩ := @LayerCache.update_gapped buffers.rows fed moves indices cache
      (own ▸ supplied) moved inside gapped
    exact ⟨_, update_fails_of some whole feeds (.inr ⟨placed, placing,
      Step.fails_withinOption.mpr ⟨cache, after, kept, failed, rfl⟩⟩)⟩

/-! ### A search that nothing ends -/

namespace Beam

variable {elementary : Elementary} {b b' : Beam} {u : Unit}

def Unended (b : Beam) : Prop :=
  ∀ entry ∈ b.entries, entry.done = false ∧ entry.finished.kept = [] ∧ 0 < entry.finished.beams

theorem Unended.start {settings : Settings} {inputIds : List Token}
    (started : Beam.start settings inputIds = .ok b) : b.Unended := by
  obtain ⟨some, histories, -, rfl⟩ := start_eq_ok started
  intro entry member
  obtain rfl := List.eq_of_mem_replicate member
  exact ⟨rfl, rfl, some⟩

theorem Unended.selectTop (unended : b.Unended) (sound : b.Sound)
    (endless : ∀ token < b.scores.vocabulary, b.settings.isEnd token = false)
    (ran : Step.Returns (Beam.selectTop elementary) b u b') : b'.Unended := by
  intro after member
  obtain ⟨entry, found⟩ := List.getElem?_of_mem member
  obtain ⟨inside, before, there, -, advances⟩ := sound.advanced ran found
  obtain ⟨live, none, beams⟩ := unended before (List.mem_of_getElem? there)
  obtain ⟨ranked, advances⟩ := advances live
  have completes : completing b.settings ranked = [] := by
    rw [List.eq_nil_iff_forall_not_mem]
    intro x completed
    obtain ⟨listed, ends⟩ := mem_of_mem_completing completed
    have token := (sound.places (fresh_of_selectTop ran) inside advances.ranks listed).2
    rw [endless x.token token] at ends
    cases ends
  have same : after.finished = before.finished := by
    rw [advances.finished, completes]
    rfl
  refine ⟨?_, same ▸ none, same ▸ beams⟩
  rw [advances.done, same, Hypotheses.isDone, if_pos (by rw [none]; exact beams)]

theorem Unended.done_eq (unended : b'.Unended) (sound : b'.Sound)
    (some : 0 < b'.settings.batchSize) (ran : Step.Returns (Beam.selectTop elementary) b u b') :
    b'.done = b'.histories.isFull := by
  have goes : b'.entries.all (·.done) = false := by
    obtain ⟨entry, member⟩ := List.exists_mem_of_length_pos (sound.entries.symm ▸ some)
    exact List.all_eq_false.mpr ⟨entry, member, by simp [(unended entry member).1]⟩
  obtain ⟨-, -, _, _, _, _, -, -, -, rfl⟩ := selectTop_returns.mp ran
  exact (congrArg (· || _) goes).trans (Bool.false_or _)

end Beam

namespace Strategy

variable {before after : Strategy} {vocab : Nat}

def Unended : Strategy → Prop
  | .beam b => b.Unended
  | _ => False

theorem create_unended {request : Request} (kind : before.kind = .beam)
    (created : create request.settings request.inputIds request.speculative = .ok before) :
    before.Unended ∧ before.isDone = before.histories.isFull := by
  cases created_of_create created with
  | speculative _ _ => cases kind
  | beam _ started =>
    refine ⟨Beam.Unended.start started, ?_⟩
    obtain ⟨-, _, -, rfl⟩ := Beam.start_eq_ok started
    rfl
  | greedy _ _ => cases kind

theorem Unended.of_same (unended : before.Unended) (same : SameCourse before after) :
    after.Unended := by
  cases same with
  | greedy _ _ => exact unended
  | beam _ _ => exact unended
  | speculative _ _ _ => exact unended

/-- Where no token ends a history, a choice ends a search only by filling the histories. Every row
gets a parent. -/
theorem Unended.chosen (unended : before.Unended) (opened : before.Open)
    (scored : before.Scored vocab) (some : 0 < before.histories.rows.length)
    (endless : ∀ token < vocab, before.settings.isEnd token = false)
    (chosen : Chosen before after) :
    after.isDone = after.histories.isFull ∧
      after.nextIndices.length = after.nextTokens.length := by
  cases chosen with
  | greedy _ => exact unended.elim
  | speculative _ => exact unended.elim
  | @beam b b' ran =>
    obtain ⟨sound, -, -⟩ := opened
    have rows : b.histories.rows.length = b.settings.rowCount := sound.rows
    have filled : b.scores.Filled b.settings.rowCount vocab := rows ▸ scored.filled
    have same : b.scores.vocabulary = vocab := (filled.single (scored.single rfl)).vocabulary
    have batch : 0 < b'.settings.batchSize := by
      rw [(Beam.selectTop_descends sound.some ran).1]
      exact Nat.pos_of_mul_pos_right (rows ▸ some)
    have later := Beam.Unended.selectTop unended sound (same ▸ endless) ran
    refine ⟨later.done_eq (sound.selectTop ran) batch ran, ?_⟩
    obtain ⟨-, -, _, _, _, _, -, -, -, rfl⟩ := Beam.selectTop_returns.mp ran
    exact (List.length_map ..).trans (List.length_map ..).symm

end Strategy

namespace Generator

variable {β : Type} {model : Model β} {request : Request} {vocab n : Nat}
  {g start last after : Generator β} {failure : Failure}

theorem Rounds.fails_runToEnd {bound : Nat} (rounds : Rounds model n g last)
    (goes : last.isDone = false) (failed : Step.Fails (computeScores model) last failure after)
    (enough : n < bound) : Step.Fails (runToEnd model bound) g failure after := by
  induction rounds generalizing bound with
  | @none g =>
    obtain ⟨bound, rfl⟩ : ∃ less, bound = less + 1 := ⟨bound - 1, by omega⟩
    refine Step.fails_bind.mpr (.inr ⟨g, g, Step.returns_get.mpr ⟨rfl, rfl⟩, ?_⟩)
    rw [if_neg (by simp [goes])]
    exact Step.fails_bind.mpr (.inl failed)
  | @next n g computed next last there scored chose _ ih =>
    obtain ⟨bound, rfl⟩ : ∃ less, bound = less + 1 := ⟨bound - 1, by omega⟩
    refine Step.fails_bind.mpr (.inr ⟨g, g, Step.returns_get.mpr ⟨rfl, rfl⟩, ?_⟩)
    rw [if_neg (by simp [there])]
    exact Step.fails_bind.mpr (.inr ⟨(), computed, scored, Step.fails_bind.mpr
      (.inr ⟨(), next, chose, ih goes failed (Nat.lt_of_succ_lt_succ enough)⟩)⟩)

theorem choose_unended (pending : g.pendingScores = true) (unended : g.strategy.Unended)
    (opened : g.strategy.Open) (scored : g.strategy.Scored vocab)
    (some : 0 < g.strategy.histories.rows.length) (room : g.strategy.histories.isFull = false)
    (picks : g.config.sample = false) (varied : 0 < vocab)
    (endless : ∀ token < vocab, g.strategy.settings.isEnd token = false) :
    ∃ constrained chosen, Strategy.SameCourse g.strategy constrained ∧
      Strategy.Chosen constrained chosen ∧
      Step.Returns generateNextToken g ()
        { g with strategy := chosen, pendingScores := false } ∧
      chosen.isDone = chosen.histories.isFull ∧
      chosen.nextIndices.length = chosen.nextTokens.length := by
  obtain ⟨lengthened, penalized, longer, fewer, same, scored⟩ := constrained_total scored
  have opened := opened.of_same same scored
  have some : 0 < penalized.histories.rows.length := same.histories ▸ some
  have endless : ∀ token < vocab, penalized.settings.isEnd token = false := same.settings ▸ endless
  obtain ⟨chosen, passed⟩ := @Strategy.Open.choose_total penalized vocab .native g.config opened
    scored some (same.histories ▸ room) fun _ => ⟨picks, 0, varied, endless 0 varied⟩
  have chose := returns_generateBy pending longer fewer passed
  rw [generateBy_native] at chose
  rw [chooseBy_native] at passed
  have choice := Strategy.chosen_of_choose passed
  exact ⟨penalized, chosen, same, choice, chose,
    (unended.of_same same).chosen opened scored some endless choice⟩

/-- Where a beam search stands after its first round if there is more to come: histories are longer
by a token, and every row has a parent to go on from. -/
structure Underway (vocab : Nat) (model : Model β) (start next : Generator β) : Prop where
  goes : next.isDone = false
  round : Rounds model 1 start next
  longer : next.strategy.length = start.strategy.length + 1
  feeds : next.feed.length = next.session.buffers.rows
  moves : next.strategy.nextIndices ≠ []
  inside : ∀ parent ∈ next.strategy.nextIndices, parent < next.session.buffers.rows
  fed : ∃ tensor new, Step.Returns (Session.run model start.strategy.length start.feed
      start.strategy.nextIndices) start.session tensor next.session ∧
    Session.Fed vocab False new start.strategy.length start.session tensor next.session

theorem Steady.feeds_prompts (steady : Steady request vocab True start)
    (first : start.session.first = true) (answered : Answered vocab False model start) :
    ∃ tensor new session, Step.Returns (Session.run model start.strategy.length start.feed
        start.strategy.nextIndices) start.session tensor session ∧
      Session.Fed vocab False new start.strategy.length start.session tensor session := by
  obtain ⟨ready, lined⟩ : start.session.buffers.Ready ∧
      start.session.buffers.Lined start.strategy.length := by
    cases steady.pace with
    | fresh _ _ _ ready lined => exact ⟨ready, lined⟩
    | waiting later _ _ _ _ _ => simp [first] at later
    | chosen later _ _ _ _ => simp [first] at later
  obtain ⟨tensor, session, stepped⟩ :=
    Session.run_total_first steady.wired first ready
      (answered start.strategy.length start.feed start.strategy.nextIndices)
  exact ⟨tensor, _, session, stepped,
    .of_first steady.wired first ready lined (answered _ _ _) stepped⟩

theorem Steady.opens (steady : Steady request vocab True start)
    (first : start.session.first = true) (unended : start.strategy.Unended)
    (goes : start.isDone = false) (answered : Answered vocab False model start)
    (picks : request.search.sample = false) (varied : 0 < vocab)
    (endless : ∀ token < vocab, request.settings.isEnd token = false)
    (roomy : start.strategy.length + 1 < request.settings.maxLength) :
    ∃ next, Underway vocab model start next := by
  have some : 0 < start.strategy.histories.rows.length := by
    rw [steady.rooted.rows.count]
    exact Request.rowCount_pos steady.prompted
  have room : start.strategy.histories.isFull = false := steady.opened.room goes
  obtain ⟨tensor, new, session, stepped, fed⟩ := steady.feeds_prompts first answered
  obtain ⟨strategy, loaded, scored⟩ := steady.loads fed
  have same := Strategy.setScores_returns loaded
  have histories := same.histories
  let computed : Generator β := { start with
    session := session, strategy := strategy, pendingScores := true, pendingFeed := none }
  have scores : Step.Returns (computeScores model) start () computed :=
    computeScores_returns.mpr ⟨tensor, session, strategy, stepped, loaded, rfl⟩
  obtain ⟨constrained, chosen, same', choice, chose, stops, moves⟩ :=
    @choose_unended β vocab computed rfl (unended.of_same same)
      (steady.opened.of_same same scored) scored (histories ▸ some) (histories ▸ room)
      (steady.config ▸ picks) varied
      (by rw [same.settings, steady.rooted.settings]; exact endless)
  have rooted := (steady.rooted.of_same same).of_same same'
  have commits := choice.commits rooted.beamed
  have longer : chosen.histories.length = start.strategy.histories.length + 1 := by
    rw [commits.histories, same'.histories, histories]
  have rows : constrained.histories.rows.length = session.buffers.rows := by
    rw [same'.histories, histories, steady.rowCount, Session.rows_of_fixed fed.fixed]
  have moved : chosen.nextIndices ≠ [] := by
    rw [← List.length_pos_iff, moves, commits.count, same'.histories, histories]
    exact some
  refine ⟨{ computed with strategy := chosen, pendingScores := false }, ?_,
    .next goes scores chose .none, longer, commits.count.trans rows, moved, ?_,
    tensor, _, stepped, fed⟩
  · -- nothing but full histories ends the search, and there is room for another token
    change chosen.isDone = false
    rw [stops, Histories.isFull, longer, commits.histories, rooted.capacity]
    exact decide_eq_false (Nat.not_le_of_lt roomy)
  · intro parent member
    obtain ⟨i, found⟩ := List.getElem?_of_mem member
    exact rows ▸ ((commits.parents.resolve_left moved).2 i parent found).1

theorem Underway.refuses {next : Generator β} (underway : Underway vocab model start next)
    (some : 0 < next.session.buffers.rows)
    (gapped : ∃ slot ∈ next.session.buffers.slots, slot.Gapped) :
    Refuses model next (.tensor .gaps) := by
  obtain ⟨tensor, new, -, fed⟩ := underway.fed
  obtain ⟨buffers, refused⟩ := Buffers.update_gapped some fed.lined fed.supplied
    (by rw [underway.feeds, Nat.mul_one]) Nat.one_pos underway.moves underway.inside gapped
  rw [← underway.longer] at refused
  exact refuses_of_update fed.later refused

/-- A generation with beams stops in its second step if the prompt leaves a present with gaps, though
every answer of the model has the right shape and nothing ends the search. -/
theorem generate_gapped {config : Config} {registry : DeviceRegistry} {state : β}
    (supplies : config.model.decoder.Supplies)
    (vocabulary : request.vocabulary = 0 ∨ vocab = request.vocabulary)
    (picks : request.search.sample = false) (varied : 0 < vocab)
    (endless : ∀ token < vocab, request.settings.isEnd token = false)
    (roomy : request.promptLength + 1 < request.settings.maxLength)
    (created : Generator.create config request state .host registry = .ok start)
    (kind : start.strategy.kind = .beam) (served : Served vocab False model start)
    (gapped : ∀ tensor session, Step.Returns (Session.run model start.strategy.length start.feed
        start.strategy.nextIndices) start.session tensor session →
      ∃ slot ∈ session.buffers.slots, slot.Gapped) :
    ∃ after, Step.Fails (generate model) start (.tensor .gaps) after := by
  obtain ⟨-, made⟩ := strategy_of_create created
  obtain ⟨steady, first, -⟩ : Steady request vocab True start ∧ start.session.first = true ∧
      start.pendingScores = false :=
    Steady.create supplies vocabulary (fun _ => trivial) created
  obtain ⟨unended, opens⟩ := Strategy.create_unended kind made
  have prompts := Strategy.create_prompts made
  have length : start.strategy.histories.length = request.promptLength := prompts.length
  have goes : start.isDone = false := by
    rw [isDone, opens, Histories.isFull, length, prompts.capacity]
    exact decide_eq_false (by omega)
  obtain ⟨next, underway⟩ := steady.opens first unended goes (served start .refl) picks varied
    endless
    (by rw [Strategy.length, length]; exact roomy)
  obtain ⟨tensor, new, stepped, fed⟩ := underway.fed
  have some : 0 < next.session.buffers.rows := by
    rw [Session.rows_of_fixed fed.fixed]
    exact steady.wired.sturdy.some
  obtain ⟨buffers, failed⟩ := underway.refuses some (gapped tensor next.session stepped)
  have bound : 1 < start.strategy.histories.capacity - start.strategy.histories.length + 1 := by
    rw [length, prompts.capacity]
    omega
  exact ⟨_, Step.fails_bind.mpr (.inr ⟨start, start, Step.returns_get.mpr ⟨rfl, rfl⟩,
    Step.fails_bind.mpr (.inl (underway.round.fails_runToEnd underway.goes failed bound))⟩)⟩

end Generator

/-! ### A model that hands out views of a longer cache -/

namespace Spaced

def view (tensor : Tensor) : Tensor :=
  match tensor.shape with
  | [rows, heads, length, size] =>
    { tensor with strides := Tensor.packedStrides [rows, heads, length + 1, size] }
  | _ => tensor

def run : Model Unit := fun invocation state =>
  (.ok (invocation.outputs.map fun name => (name, view (Blank.answer invocation.inputs name))),
    state)

theorem view_contents (tensor : Tensor) :
    (view tensor).shape = tensor.shape ∧ (view tensor).values = tensor.values := by
  unfold view
  split <;> exact ⟨rfl, rfl⟩

theorem fits_view {buffers : Buffers} {vocabulary : Nat} {asked : List String}
    {answer : String → Tensor}
    (fits : buffers.Fits vocabulary False asked (asked.map fun name => (name, answer name))) :
    buffers.Fits vocabulary False asked (asked.map fun name => (name, view (answer name))) := by
  have given : ∀ name ∈ asked,
      Named.get? name (asked.map fun name => (name, answer name)) = some (answer name) := by
    intro name member
    rw [Blank.get?_answers, if_pos member]
  have viewed : ∀ name ∈ asked, ∀ tensor,
      Named.get? name (asked.map fun name => (name, view (answer name))) = some tensor →
      tensor.shape = (answer name).shape ∧ tensor.values = (answer name).values := by
    intro name member tensor found
    rw [Blank.get?_answers (fun name => view (answer name)), if_pos member] at found
    obtain rfl := Option.some.inj found
    exact view_contents (answer name)
  refine ⟨fun name member => ?_, fun member tensor found => ?_,
    fun slot inside member tensor found => ⟨fun rows heads old size shape => ?_, nofun⟩⟩
  · exact ⟨_, by rw [Blank.get?_answers (fun name => view (answer name)), if_pos member]⟩
  · obtain ⟨shape, values⟩ := viewed _ member tensor found
    rw [shape, values]
    exact fits.scores member _ (given _ member)
  · rw [(viewed _ member tensor found).1]
    exact (fits.presents slot inside member _ (given _ member)).1 rows heads old size shape

theorem answered {session : Session Unit} {length : Nat} {tokens : List Token}
    {indices : List Nat}
    (staged : session.pipeline.stages.map (·.config) = Recital.decoder.stages)
    (framed : Blank.Framed session.buffers.frame) :
    session.Answered 4 False run length tokens indices := by
  intro phase entered invocation asked enters asks
  obtain ⟨framed, stage, wired, config, wires, rfl⟩ := Blank.asked_alone staged framed enters asks
  exact ⟨_, _, rfl, fits_view (Blank.fits framed config wires _)⟩

end Spaced

namespace Generator

/-- Two beams that nothing ends, on a model whose answers have the right shapes: the generation
fails. -/
theorem spaced_refused :
    let config : Config := { Recital.config with
      model := { Recital.config.model with endTokens := [4] }
      search := { SearchConfig.standard with beams := 2 } }
    ∃ valid start after, config.validate = .ok valid ∧ valid.model.decoder.Supplies ∧
      valid.search.sample = false ∧
      Generator.create valid (.ofConfig valid 1 [0, 1]) () .host .standard = .ok start ∧
      Served 4 False Spaced.run start ∧
      Step.Fails (generate Spaced.run) start (.tensor .gaps) after := by
  intro config
  have checked : (config.validate.toOption.bind fun valid =>
      (Generator.create valid (.ofConfig valid 1 [0, 1]) () .host .standard).toOption.map
        fun start => ((valid.model, valid.search.sample, start.strategy.kind),
          decide ((Request.ofConfig valid 1 [0, 1]).promptLength + 1 <
            (Request.ofConfig valid 1 [0, 1]).settings.maxLength),
          (Session.run Spaced.run start.strategy.length start.feed start.strategy.nextIndices
            start.session).2.buffers.slots.map fun slot => slot.present.map Tensor.isPacked)) =
      some ((config.model, false, .beam), true, [some false, some false]) := by
    decide +kernel
  obtain ⟨valid, accepted, opened⟩ := Option.bind_eq_some_iff.mp checked
  obtain ⟨start, opened, facts⟩ := Option.map_eq_some_iff.mp opened
  simp only [Prod.mk.injEq] at facts
  obtain ⟨⟨model, picks, kind⟩, roomy, gaps⟩ := facts
  have created := Outcome.toOption_eq_some.mp opened
  have decoder : valid.model.decoder = Recital.decoder := congrArg ModelConfig.decoder model
  have ends : (Request.ofConfig valid 1 [0, 1]).settings.endTokens = [4] :=
    congrArg ModelConfig.endTokens model
  have supplies : valid.model.decoder.Supplies := decoder ▸ Blank.supplies
  have served : Served 4 False Spaced.run start := Blank.served_of_answered decoder
    (fun _ staged framed _ _ _ => Spaced.answered staged framed) created
  have endless : ∀ token < 4,
      (Request.ofConfig valid 1 [0, 1]).settings.isEnd token = false := by
    intro token inside
    rw [Settings.isEnd, ends, List.contains_eq_mem, decide_eq_false_iff_not, List.mem_singleton]
    exact Nat.ne_of_lt inside
  obtain ⟨after, failed⟩ := generate_gapped supplies
    (.inr (congrArg ModelConfig.vocabulary model).symm) picks (by decide) endless
    (of_decide_eq_true roomy) created kind served fun tensor session stepped => by
      -- both presents have gaps, so the one of the first slot does
      rw [stepped] at gaps
      obtain ⟨slot, rest, slots, first, -⟩ := List.map_eq_cons_iff.mp gaps
      obtain ⟨present, given, packed⟩ := Option.map_eq_some_iff.mp first
      exact ⟨slot, slots ▸ List.mem_cons_self, present, given, packed⟩
  exact ⟨valid, start, after, Outcome.toOption_eq_some.mp accepted, supplies, picks, created,
    served, failed⟩

end Generator

end StagedDecoding
