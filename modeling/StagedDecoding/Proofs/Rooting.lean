import StagedDecoding.Proofs.Lineage
import StagedDecoding.Proofs.Sessions

/-! No row ever leaves its prompt.

Every history starts with the prompt of its row. Descendants keep the prompt, because rows move
only within their batch entry, and rows of one entry have one prompt. So the masks of inherited
histories are those of the rows that they replace.
-/

set_option autoImplicit false

namespace StagedDecoding

theorem getElem?_flatMap_replicate {α : Type} {copies : Nat} (some : 0 < copies) (values : List α)
    (i : Nat) : (values.flatMap (List.replicate copies))[i]? = values[i / copies]? := by
  induction values generalizing i with
  | nil => simp
  | cons value rest ih =>
    rw [List.flatMap_cons]
    by_cases here : i < copies
    · rw [List.getElem?_append_left (by simpa using here), Nat.div_eq_of_lt here]
      simp [here]
    · have next : i / copies = (i - copies) / copies + 1 := Nat.div_eq_sub_div some (by omega)
      rw [List.getElem?_append_right (by simpa using Nat.le_of_not_lt here), next, ih]
      simp

section

variable {request : Request} {parents : List Nat} {rows : List (List Token)} {width : Nat}

theorem rectangular_inherited (rectangular : Rectangular request.rowCount width rows)
    (within : Strategy.WithinEntries request.beams rows.length parents) :
    Rectangular request.rowCount width (inherited parents rows) := by
  unfold inherited
  rcases within with rfl | ⟨counted, inside⟩
  · exact rectangular
  · split
    · exact rectangular
    · refine ⟨by rw [List.length_map, counted, rectangular.count], ?_⟩
      rw [List.forall_mem_map]
      intro parent member
      obtain ⟨i, there⟩ := List.getElem?_of_mem member
      have bound := (inside i parent there).1
      rw [List.getD_eq_getElem _ _ bound]
      exact rectangular.width _ (List.getElem_mem bound)

theorem take_inherited (within : Strategy.WithinEntries request.beams rows.length parents)
    (rooted : rows.map (·.take request.promptLength) = request.promptRows) :
    (inherited parents rows).map (·.take request.promptLength) = request.promptRows := by
  unfold inherited
  rcases within with rfl | ⟨counted, inside⟩
  · exact rooted
  · split
    · exact rooted
    · refine List.ext_getElem? fun i => ?_
      have prompt : ∀ j, request.promptRows[j]? = _ :=
        fun j => getElem?_flatMap_replicate request.beams_pos _ j
      cases there : parents[i]? with
      | none =>
        have beyond := List.getElem?_eq_none_iff.mp there
        have gone : request.promptRows.length ≤ i := by
          rw [← rooted, List.length_map]
          omega
        simp [there, List.getElem?_eq_none gone]
      | some parent =>
        -- a parent has the prompt of its entry, which is that of its descendant
        obtain ⟨bound, same⟩ := inside i parent there
        have own : (rows.map (·.take request.promptLength))[parent]? =
            some (rows[parent].take request.promptLength) := by simp [bound]
        rw [rooted, prompt, same, ← prompt] at own
        simp [there, own, bound]

end

namespace Reading

variable {reading : Reading} {rows others : List (List Token)} {width : Nat}

theorem maskRows_congr (rectangular : Rectangular reading.request.rowCount width rows)
    (rectangular' : Rectangular reading.request.rowCount width others)
    (same : rows.map (·.take reading.request.promptLength) =
      others.map (·.take reading.request.promptLength)) :
    reading.maskRows rows = reading.maskRows others := by
  unfold maskRows
  refine List.ext_getElem (by simp [rectangular.count, rectangular'.count]) fun i here there => ?_
  rw [List.length_map] at here there
  have prompt : (rows.map (·.take reading.request.promptLength))[i]? =
      (others.map (·.take reading.request.promptLength))[i]? := by rw [same]
  rw [List.getElem_map, List.getElem_map]
  refine Positions.maskRow_congr ?_ (by simpa [here, there] using prompt)
  rw [rectangular.width _ (List.getElem_mem here), rectangular'.width _ (List.getElem_mem there)]

end Reading

theorem Histories.start_eq_ok {inputIds : List Token} {batch beams capacity : Nat}
    {h : Histories} (started : Histories.start inputIds batch beams capacity = .ok h) :
    inputIds.length / batch ≤ capacity ∧ h = {
      rows := (Tensor.blocks (inputIds.length / batch) batch inputIds).flatMap
        (List.replicate beams)
      length := inputIds.length / batch
      promptLength := inputIds.length / batch
      capacity := capacity } := by
  unfold Histories.start at started
  split at started
  · simp at started
  · dsimp only at started
    split at started
    · simp at started
    · next fits => exact ⟨Nat.le_of_not_lt fits, (Except.ok.inj started).symm⟩

/-- The prompt of a batch entry: its part of the token ids. -/
def promptOf (inputIds : List Token) (batch entry : Nat) : List Token :=
  (inputIds.drop (entry * (inputIds.length / batch))).take (inputIds.length / batch)

theorem Histories.start_row {inputIds : List Token} {batch beams capacity : Nat}
    {h : Histories} (started : Histories.start inputIds batch beams capacity = .ok h)
    {entry beam : Nat} (inside : entry < batch) (bound : beam < beams) :
    h.rows[entry * beams + beam]? = some (promptOf inputIds batch entry) := by
  obtain ⟨-, rfl⟩ := Histories.start_eq_ok started
  have own : (entry * beams + beam) / beams = entry := by
    rw [Nat.mul_comm, Nat.mul_add_div (by omega), Nat.div_eq_of_lt bound, Nat.add_zero]
  rw [getElem?_flatMap_replicate (by omega), own, Tensor.getElem?_blocks, if_pos inside]
  rfl

theorem Histories.length_eq {inputIds : List Token} {batch beams capacity : Nat} {h : Histories}
    (started : Histories.start inputIds batch beams capacity = .ok h) :
    inputIds.length = batch * (inputIds.length / batch) := by
  unfold Histories.start at started
  split at started
  · simp at started
  · next fits =>
    simp only [Bool.or_eq_true, decide_eq_true_eq, not_or, Decidable.not_not] at fits
    rw [Nat.mul_comm, Nat.div_mul_cancel (Nat.dvd_of_mod_eq_zero fits.2)]

theorem Histories.start_level {inputIds : List Token} {batch beams capacity : Nat}
    {h : Histories} (started : Histories.start inputIds batch beams capacity = .ok h) :
    ∀ row ∈ h.rows, row.length = h.length := by
  have whole := Histories.length_eq started
  obtain ⟨-, rfl⟩ := Histories.start_eq_ok started
  intro row member
  obtain ⟨prompt, inside, copied⟩ := List.mem_flatMap.mp member
  rw [List.eq_of_mem_replicate copied]
  exact Tensor.length_of_mem_blocks whole inside

theorem Greedy.start_eq_ok {settings : Settings} {inputIds : List Token} {everyPosition : Bool}
    {g : Greedy} (started : Greedy.start settings inputIds everyPosition = .ok g) :
    ∃ histories, Histories.start inputIds settings.batchSize 1 settings.maxLength =
        .ok histories ∧
      g = {
        settings := { settings with beams := 1 }
        histories := histories
        scores := .empty
        everyPosition := everyPosition
        nextTokens := List.replicate settings.batchSize settings.pad
        ended := List.replicate settings.batchSize false
        running := settings.batchSize
        reachedCapacity := histories.isFull
        done := histories.isFull
        words := .ofSeed? settings.seed } := by
  simp only [Greedy.start, Outcome.bind_eq_ok, Outcome.pure_eq_ok] at started
  exact started.imp fun _ => And.imp_right Eq.symm

theorem Speculative.start_eq_ok {settings : Settings} {inputIds : List Token} {s : Speculative}
    (started : Speculative.start settings inputIds = .ok s) :
    settings.rowCount = 1 ∧
      ∃ g, Greedy.start settings inputIds true = .ok g ∧ s = ⟨g, []⟩ := by
  simp only [Speculative.start, Outcome.throw_bind, Outcome.guard_eq_ok, Outcome.bind_eq_ok,
    Outcome.pure_eq_ok, Decidable.not_not] at started
  obtain ⟨single, g, began, rfl⟩ := started
  exact ⟨single, g, began, rfl⟩

theorem Beam.start_eq_ok {settings : Settings} {inputIds : List Token} {b : Beam}
    (started : Beam.start settings inputIds = .ok b) :
    0 < settings.beams ∧ ∃ histories,
      Histories.start inputIds settings.batchSize settings.beams settings.maxLength =
        .ok histories ∧
      b = {
        settings := settings
        histories := histories
        scores := .empty
        beamScores := (List.replicate settings.batchSize
          (0 :: List.replicate (settings.beams - 1) inactiveScore)).flatten
        entries := List.replicate settings.batchSize
          ⟨.empty settings.beams settings.lengthPenalty settings.earlyStopping, false⟩
        nextTokens := List.replicate settings.rowCount settings.pad
        nextIndices := List.range settings.rowCount
        done := histories.isFull
        finals := none } := by
  simp only [Beam.start, Outcome.throw_bind, Outcome.guard_eq_ok, Outcome.bind_eq_ok,
    Outcome.pure_eq_ok] at started
  exact started.imp Nat.pos_of_ne_zero fun found => found.imp fun _ => And.imp_right Eq.symm

theorem Beam.entry_of_start {settings : Settings} {inputIds : List Token} {b : Beam}
    (started : Beam.start settings inputIds = .ok b) {entry : Nat} {state : BeamEntry}
    (found : b.entries[entry]? = some state) :
    entry < settings.batchSize ∧
      state = ⟨.empty settings.beams settings.lengthPenalty settings.earlyStopping, false⟩ := by
  obtain ⟨-, histories, -, rfl⟩ := Beam.start_eq_ok started
  obtain ⟨inside, rfl⟩ := List.getElem?_eq_some_iff.mp found
  exact ⟨by simpa using inside, by simp⟩

namespace Strategy

variable {request : Request} {before after : Strategy}

structure Rooted (request : Request) (strategy : Strategy) : Prop where
  settings : strategy.settings = request.settings
  single : strategy.kind = .speculative → request.rowCount = 1
  promptLength : strategy.histories.promptLength = request.promptLength
  capacity : strategy.histories.capacity = request.settings.maxLength
  rows : Rectangular request.rowCount strategy.histories.length strategy.histories.rows
  grown : request.promptLength ≤ strategy.histories.length
  rooted : strategy.histories.rows.map (·.take request.promptLength) = request.promptRows

theorem Rooted.beams {strategy : Strategy} (rooted : Rooted request strategy) :
    strategy.settings.beams = request.beams :=
  congrArg Settings.beams rooted.settings

theorem Rooted.pad {strategy : Strategy} (rooted : Rooted request strategy) :
    strategy.settings.pad = request.pad :=
  congrArg Settings.pad rooted.settings

theorem Rooted.beamed {strategy : Strategy} (rooted : Rooted request strategy) :
    strategy.Beamed := by
  cases strategy with
  | greedy _ => trivial
  | beam b => exact Nat.lt_of_lt_of_eq request.beams_pos rooted.beams.symm
  | speculative _ => trivial

theorem Rooted.of_histories (rooted : Rooted request before) (kind : after.kind = before.kind)
    (settings : after.settings = before.settings)
    (histories : after.histories = before.histories) : Rooted request after where
  settings := settings ▸ rooted.settings
  single := kind ▸ rooted.single
  promptLength := histories ▸ rooted.promptLength
  capacity := histories ▸ rooted.capacity
  rows := histories ▸ rooted.rows
  grown := histories ▸ rooted.grown
  rooted := histories ▸ rooted.rooted

theorem Rooted.of_same (rooted : Rooted request before) (same : SameCourse before after) :
    Rooted request after :=
  rooted.of_histories same.kind same.settings same.histories

theorem Rooted.commit (rooted : Rooted request before) (commits : Commits before after) :
    Rooted request after := by
  have within := rooted.beams ▸ commits.parents
  have moved := rectangular_inherited rooted.rows within
  have prompts := take_inherited within rooted.rooted
  have count := commits.count.trans rooted.rows.count
  refine ⟨commits.settings ▸ rooted.settings, commits.kind ▸ rooted.single, ?_, ?_, ?_, ?_, ?_⟩
  · rw [commits.histories]
    exact rooted.promptLength
  · rw [commits.histories]
    exact rooted.capacity
  · rw [commits.histories]
    refine ⟨by simp [moved.count, count], fun row member => ?_⟩
    obtain ⟨i, bound, rfl⟩ := List.mem_iff_getElem.mp member
    simp [moved.width]
  · rw [commits.histories]
    exact Nat.le_succ_of_le rooted.grown
  · rw [commits.histories, ← prompts]
    refine List.ext_getElem (by simp [moved.count, count]) fun i here there => ?_
    have long := moved.width _ (List.getElem_mem (by simpa using there))
    simp only [List.getElem_map, List.getElem_zipWith]
    rw [List.take_append_of_le_length (long ▸ rooted.grown)]

theorem Rooted.append_run {row tokens : List Token} (rooted : Rooted request before)
    (kind : after.kind = before.kind) (settings : after.settings = before.settings)
    (only : before.histories.rows = [row])
    (appended : after.histories = { before.histories with
      rows := [row ++ tokens]
      length := before.histories.length + tokens.length }) : Rooted request after := by
  have count := rooted.rows.count
  have long := rooted.rows.width row (by simp [only])
  have prompt := rooted.rooted
  rw [only] at count prompt
  refine ⟨settings ▸ rooted.settings, kind ▸ rooted.single, ?_, ?_, ⟨?_, ?_⟩, ?_, ?_⟩
  · rw [appended]
    exact rooted.promptLength
  · rw [appended]
    exact rooted.capacity
  · rw [appended]
    exact count
  · simp [appended, long]
  · rw [appended]
    exact Nat.le_add_right_of_le rooted.grown
  · rw [appended, ← prompt, List.map_singleton, List.map_singleton,
      List.take_append_of_le_length (long ▸ rooted.grown)]

structure Prompts (request : Request) (strategy : Strategy) : Prop where
  settings : strategy.settings = request.settings
  single : strategy.kind = .speculative → request.rowCount = 1
  rows : strategy.histories.rows = request.promptRows
  length : strategy.histories.length = request.promptLength
  promptLength : strategy.histories.promptLength = request.promptLength
  capacity : strategy.histories.capacity = request.settings.maxLength

theorem Prompts.rooted {strategy : Strategy} (prompted : request.Prompted)
    (prompts : Prompts request strategy) : Rooted request strategy := by
  have rectangular := Request.promptRows_rectangular prompted
  refine ⟨prompts.settings, prompts.single, prompts.promptLength, prompts.capacity, ?_,
    Nat.le_of_eq prompts.length.symm, ?_⟩
  · rw [prompts.rows, prompts.length]
    exact rectangular
  · have whole : ∀ row ∈ request.promptRows, row.take request.promptLength = row :=
      fun row member => List.take_of_length_le (Nat.le_of_eq (rectangular.width row member))
    rw [prompts.rows, List.map_congr_left whole, List.map_id']

theorem prompts_of_greedy {g : Greedy} {everyPosition : Bool} {strategy : Strategy}
    (started : Greedy.start request.settings request.inputIds everyPosition = .ok g)
    (alone : 1 = request.beams) (settings : strategy.settings = g.settings)
    (histories : strategy.histories = g.histories)
    (single : strategy.kind = .speculative → request.rowCount = 1) :
    Prompts request strategy := by
  obtain ⟨h, opened, rfl⟩ := Greedy.start_eq_ok started
  obtain ⟨-, rfl⟩ := Histories.start_eq_ok opened
  refine ⟨settings.trans ?_, single, ?_, ?_, ?_, ?_⟩
  · -- the one beam that the search sets is the one it was given
    rw [alone]
    rfl
  · rw [histories, alone]
    rfl
  · rw [histories]
    rfl
  · rw [histories]
    rfl
  · rw [histories]

inductive Created (settings : Settings) (inputIds : List Token) : Strategy → Prop where
  | speculative {g : Greedy} : settings.rowCount = 1 →
      Greedy.start settings inputIds true = .ok g →
      Created settings inputIds (.speculative ⟨g, []⟩)
  | beam {b : Beam} : 1 < settings.beams → Beam.start settings inputIds = .ok b →
      Created settings inputIds (.beam b)
  | greedy {g : Greedy} : settings.beams ≤ 1 → Greedy.start settings inputIds false = .ok g →
      Created settings inputIds (.greedy g)

theorem created_of_create {settings : Settings} {inputIds : List Token} {speculative : Bool}
    {strategy : Strategy} (created : create settings inputIds speculative = .ok strategy) :
    Created settings inputIds strategy := by
  unfold create at created
  split at created
  · obtain ⟨s, started, rfl⟩ := Outcome.map_eq_ok.mp created
    obtain ⟨single, g, inner, rfl⟩ := Speculative.start_eq_ok started
    exact .speculative single inner
  · split at created
    · next several =>
      obtain ⟨b, started, rfl⟩ := Outcome.map_eq_ok.mp created
      exact .beam several started
    · next few =>
      obtain ⟨g, started, rfl⟩ := Outcome.map_eq_ok.mp created
      exact .greedy (Nat.le_of_not_lt few) started

theorem create_prompts {strategy : Strategy}
    (created : create request.settings request.inputIds request.speculative = .ok strategy) :
    Prompts request strategy := by
  cases created_of_create created with
  | speculative single started =>
    have alone : 1 = request.beams := (Nat.eq_one_of_mul_eq_one_left single).symm
    exact prompts_of_greedy started alone rfl rfl fun _ => single
  | beam _ started =>
    obtain ⟨-, h, opened, rfl⟩ := Beam.start_eq_ok started
    obtain ⟨-, rfl⟩ := Histories.start_eq_ok opened
    exact ⟨rfl, by simp [kind], rfl, rfl, rfl, rfl⟩
  | greedy few started =>
    have alone : 1 = request.beams := Nat.le_antisymm request.beams_pos few
    exact prompts_of_greedy started alone rfl rfl (by simp [kind])

end Strategy

end StagedDecoding
