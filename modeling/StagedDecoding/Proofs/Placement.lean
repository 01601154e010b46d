import StagedDecoding.Proofs.Availability

/-! Stages that may not hold managed tensors.

A stage that does not support the primary device may still take part in a step, as long as it
declares no managed name. The first active stage that breaks this ends the step before the model is
called for it, and no other stage ends a step in this way.
-/

set_option autoImplicit false

namespace StagedDecoding

def Failure.Mismatch : Failure → Prop
  | .deviceMismatch .. => True
  | _ => False

class Unplaced (μ : Type) [ManagedBuffers μ] : Prop where
  store_failure : ∀ {name : String} {tensor : Tensor} {buffers : μ} {failure : Failure},
    ManagedBuffers.store name tensor buffers = .error failure → ¬ failure.Mismatch

instance : Unplaced TableBuffers where
  store_failure failed := by cases failed

instance : Unplaced Buffers where
  store_failure := by
    intro name tensor buffers failure failed
    change Buffers.store name tensor buffers = .error failure at failed
    unfold Buffers.store at failed
    split at failed
    · cases failed
    · split at failed
      · cases failed
      · obtain rfl := Except.error.inj failed
        exact id

namespace Pipeline

variable {μ : Type} [ManagedBuffers μ] {β : Type}

/-- The first managed name that a stage declares: inputs come before outputs, each in the order in
which they are bound. -/
def firstManaged (buffers : μ) (stage : Stage) : Option (Direction × String) :=
  (((ManagedBuffers.inputNames buffers).find? (stage.hasInput ·)).map (.input, ·)).or
    (((ManagedBuffers.outputNames buffers).find? (stage.hasOutput ·)).map (.output, ·))

/-- The managed name that a stage declares although it does not support the primary device. -/
def misplaced (primary : Device) (buffers : μ) (stage : Stage) : Option (Direction × String) :=
  if stage.supports primary then none else firstManaged buffers stage

structure SameNames (buffers other : μ) : Prop where
  inputs : ManagedBuffers.inputNames other = ManagedBuffers.inputNames buffers
  outputs : ManagedBuffers.outputNames other = ManagedBuffers.outputNames buffers

theorem SameNames.misplaced_eq {primary : Device} {buffers other : μ}
    (same : SameNames buffers other) (stage : Stage) :
    misplaced primary other stage = misplaced primary buffers stage := by
  unfold misplaced firstManaged
  rw [same.inputs, same.outputs]

def mismatch (primary : Device) (stage : Stage) (place : Direction × String) : Failure :=
  .deviceMismatch stage.id place.2 place.1 primary.name

theorem wire_result (primary : Device) (buffers : μ) (pool : Named Tensor) (stage : Stage) :
    (wire primary buffers pool stage).1 =
      match misplaced primary buffers stage with
      | some place => .error (mismatch primary stage place)
      | none => .ok () := by
  refine (Step.ends_outcome fun result _ => result = _).mp ?_
  have kept : ∀ name, stage.clear.hasInput name = stage.hasInput name := fun _ => rfl
  have given : ∀ name, stage.clear.hasOutput name = stage.hasOutput name := fun _ => rfl
  have same : stage.clear.supports primary = stage.supports primary := rfl
  unfold wire misplaced firstManaged
  simp only [Step.ends_bind, Step.ends_modify, Step.ends_get, kept, given, same]
  generalize (ManagedBuffers.inputNames buffers).find? (stage.hasInput ·) = input
  generalize (ManagedBuffers.outputNames buffers).find? (stage.hasOutput ·) = output
  cases stage.supports primary <;> cases input <;> cases output
  all_goals
    simp [Step.ends_bind, Step.ends_throw, Step.ends_modify, mismatch, Stage.id, Stage.clear]

theorem deliver_failure [Unplaced μ] {stage : Stage} {outputs pool : Named Tensor}
    {names : List String} {buffers after : μ} {failure : Failure}
    (failed : Step.Fails (deliver stage outputs names pool) buffers failure after) :
    ¬ failure.Mismatch := by
  induction names generalizing pool buffers with
  | nil => exact (Step.fails_pure.mp failed).elim
  | cons name rest ih =>
    obtain ⟨-, rfl, -⟩ | ⟨_, -, ⟨-, ⟨refused, -⟩ | ⟨_, -, later⟩⟩ | ⟨-, later⟩⟩ :=
      deliver_cons_fails.mp failed
    · exact id
    · exact Unplaced.store_failure refused
    · exact ih later
    · exact ih later

theorem deliver_sameNames [FixedNames μ] {stage : Stage} {outputs pool pool' : Named Tensor}
    {names : List String} {buffers after : μ}
    (ran : Step.Returns (deliver stage outputs names pool) buffers pool' after) :
    SameNames buffers after :=
  deliver_preserves (P := fun now _ => SameNames buffers now)
    (fun _ _ _ _ _ _ _ same _ stored =>
      ⟨(FixedNames.inputNames_store stored).trans same.inputs,
        (FixedNames.outputNames_store stored).trans same.outputs⟩)
    (fun _ _ _ _ _ _ same _ => same) ⟨rfl, rfl⟩ ran

theorem concluded_mismatch {scoresName : String} {final : μ} {result : Except Failure Unit}
    {failure : Failure} (failed : concluded scoresName final result = .error failure)
    (about : failure.Mismatch) : result = .error failure := by
  rcases result with other | ⟨⟩
  · exact congrArg Except.error (Except.error.inj failed)
  · unfold concluded at failed
    dsimp only at failed
    split at failed
    · cases failed
    · exact (Except.error.inj failed ▸ about : Failure.Mismatch (.missingOutput ..)).elim

variable [FixedNames μ] [Unplaced μ]

/-- What comes of the first of some stages, whatever stages follow. It is misplaced, or it fails
otherwise, or the others run on. -/
theorem runStages_first (model : Model β) (primary : Device) (phase : Phase) (stage : Stage)
    (pool : Named Tensor) (buffers : μ) (state : β) :
    (∃ place, stage.runsIn phase = true ∧ misplaced primary buffers stage = some place ∧
      ∀ rest, ∃ stages, runStages model primary phase (stage :: rest) pool buffers state =
        (.error (mismatch primary stage place), stages, buffers, state)) ∨
    (stage.runsIn phase = true → misplaced primary buffers stage = none) ∧
      ((∃ failure, ¬ failure.Mismatch ∧
        ∀ rest, (runStages model primary phase (stage :: rest) pool buffers state).1 =
          .error failure) ∨
      ∃ first pool' buffers' state', SameNames buffers buffers' ∧ ∀ rest,
        runStages model primary phase (stage :: rest) pool buffers state =
          ((runStages model primary phase rest pool' buffers' state').1,
            first :: (runStages model primary phase rest pool' buffers' state').2.1,
            (runStages model primary phase rest pool' buffers' state').2.2)) := by
  simp only [runStages]
  by_cases runs : stage.runsIn phase = true
  -- a stage that is passed over leaves the others to run on
  case neg =>
    refine .inr ⟨fun active => absurd active runs, .inr ?_⟩
    exact ⟨stage.clear, pool, buffers, state, ⟨rfl, rfl⟩, fun rest => by simp [runs]⟩
  have wiring := wire_result primary buffers pool stage
  rcases connected : wire primary buffers pool stage with ⟨result, wired⟩
  rw [connected] at wiring
  cases found : misplaced primary buffers stage with
  | some place =>
    rw [found] at wiring
    dsimp only at wiring
    subst wiring
    exact .inl ⟨place, runs, rfl, fun rest => ⟨wired :: rest, by simp [runs]⟩⟩
  | none =>
    rw [found] at wiring
    dsimp only at wiring
    subst wiring
    refine .inr ⟨fun _ => rfl, ?_⟩
    rcases answered : model ⟨wired.id, wired.bound, wired.requested⟩ state with
      ⟨fault | outputs, state₁⟩
    · exact .inl ⟨.model wired.id fault, id, fun rest => by simp [runs, answered]⟩
    rcases given : deliver wired outputs wired.requested pool buffers with
      ⟨failure | pool₁, buffers₁⟩
    · exact .inl ⟨failure, deliver_failure given, fun rest => by simp [runs, answered, given]⟩
    · exact .inr ⟨wired, pool₁, buffers₁, state₁, deliver_sameNames given,
        fun rest => by simp [runs, answered, given]⟩

/-- All stages before one complete, none of them misplaced, and it is the first that is. -/
structure Stops (model : Model β) (primary : Device) (phase : Phase) (pool : Named Tensor)
    (buffers : μ) (state : β) (earlier : List Stage) (stage : Stage)
    (place : Direction × String) : Prop where
  runs : stage.runsIn phase = true
  misplaced : misplaced primary buffers stage = some place
  first : ∀ other ∈ earlier, other.runsIn phase = true →
    Pipeline.misplaced primary buffers other = none
  completed : (runStages model primary phase earlier pool buffers state).1 = .ok ()

theorem stops_of_mismatch {model : Model β} {primary : Device} {phase : Phase}
    {stages : List Stage} {pool : Named Tensor} {buffers : μ} {state : β} {failure : Failure}
    (failed : (runStages model primary phase stages pool buffers state).1 = .error failure)
    (about : failure.Mismatch) :
    ∃ earlier stage later place, stages = earlier ++ stage :: later ∧
      Stops model primary phase pool buffers state earlier stage place ∧
      failure = mismatch primary stage place := by
  induction stages generalizing pool buffers state with
  | nil => cases failed
  | cons stage rest ih =>
    obtain ⟨place, runs, found, broken⟩ | ⟨placed, ⟨other, unrelated, broken⟩ |
      ⟨first, pool', buffers', state', same, runsOn⟩⟩ :=
        runStages_first model primary phase stage pool buffers state
    · obtain ⟨stages, broken⟩ := broken rest
      rw [broken] at failed
      exact ⟨[], stage, rest, place, rfl, ⟨runs, found, by simp, rfl⟩,
        (Except.error.inj failed).symm⟩
    · rw [broken rest] at failed
      exact absurd (Except.error.inj failed ▸ about) unrelated
    · -- the first stage has run, and names do not change on the way to the one that is misplaced
      rw [runsOn rest] at failed
      obtain ⟨earlier, stopped, later, place, rfl, stops, told⟩ := ih failed
      refine ⟨stage :: earlier, stopped, later, place, rfl, ⟨stops.runs, ?_, ?_, ?_⟩, told⟩
      · rw [← same.misplaced_eq, stops.misplaced]
      · refine List.forall_mem_cons.mpr ⟨placed, fun other member active => ?_⟩
        rw [← same.misplaced_eq, stops.first other member active]
      · rw [runsOn earlier, stops.completed]

theorem runStages_stopped {model : Model β} {primary : Device} {phase : Phase}
    {earlier : List Stage} (later : List Stage) {stage : Stage} {place : Direction × String}
    {pool : Named Tensor} {buffers : μ} {state : β} (runs : stage.runsIn phase = true)
    (found : misplaced primary buffers stage = some place)
    (completed : (runStages model primary phase earlier pool buffers state).1 = .ok ()) :
    ∃ stages, runStages model primary phase (earlier ++ stage :: later) pool buffers state =
      (.error (mismatch primary stage place), stages,
        (runStages model primary phase earlier pool buffers state).2.2) := by
  induction earlier generalizing pool buffers state with
  | nil =>
    obtain ⟨other, -, same, broken⟩ | ⟨placed, -⟩ :=
      runStages_first model primary phase stage pool buffers state
    · obtain rfl := Option.some.inj (same.symm.trans found)
      exact broken later
    · rw [placed runs] at found
      cases found
  | cons front earlier ih =>
    obtain ⟨_, -, -, broken⟩ | ⟨-, ⟨failure, -, broken⟩ |
      ⟨first, pool', buffers', state', same, runsOn⟩⟩ :=
        runStages_first model primary phase front pool buffers state
    · obtain ⟨stages, broken⟩ := broken earlier
      rw [broken] at completed
      cases completed
    · rw [broken earlier] at completed
      cases completed
    · rw [runsOn earlier] at completed
      rw [← same.misplaced_eq] at found
      obtain ⟨stages, stopped⟩ := ih found completed
      rw [List.cons_append, runsOn, runsOn, stopped]
      exact ⟨first :: stages, rfl⟩

theorem Stops.ends {model : Model β} {phase : Phase} {pipeline : Pipeline} {buffers : μ}
    {state : β} {earlier later : List Stage} {stage : Stage} {place : Direction × String}
    (stops : Stops model pipeline.primary phase [] buffers state earlier stage place)
    (split : pipeline.stages = earlier ++ stage :: later) :
    ∃ pipeline' final state', ∃ calls : List Call,
      runStep model phase (pipeline, buffers, state) =
        (.error (mismatch pipeline.primary stage place), pipeline', final, state') ∧
      runStep model.transcribed phase (pipeline, buffers, state, []) =
        (.error (mismatch pipeline.primary stage place), pipeline', final, state',
          calls.map Call.entry) ∧
      calls.map Call.stage = earlier.filter (·.runsIn phase) ∧
      ∀ call ∈ calls, call.invocation.stage = call.stage.id ∧ call.Delivered := by
  obtain ⟨result, front, final, state', calls, ran, recorded, accounts⟩ :=
    runStages_accounts model pipeline.primary phase earlier buffers state []
  have completed := stops.completed
  rw [ran] at completed
  obtain rfl : result = .ok () := completed
  obtain ⟨every, delivered, -⟩ := accounts.success () rfl
  obtain ⟨result', pipeline', final', state'', calls', ran', recorded', -⟩ :=
    runStep_accounts model phase pipeline buffers state
  obtain ⟨stages, stopped⟩ :=
    runStages_stopped later stops.runs stops.misplaced (congrArg Prod.fst ran)
  obtain ⟨stages', stopped'⟩ :=
    runStages_stopped later stops.runs stops.misplaced (congrArg Prod.fst recorded)
  rw [ran, ← split] at stopped
  rw [recorded, ← split, List.nil_append] at stopped'
  have failed := congrArg Prod.fst (ran'.symm.trans (runStep_eq stopped))
  have transcript := congrArg (·.2.2.2.2) (recorded'.symm.trans (runStep_eq stopped'))
  dsimp only [concluded] at failed transcript
  subst failed
  refine ⟨pipeline', final', state'', calls, ran', transcript ▸ recorded', every,
    fun call member => ⟨?_, delivered call member⟩⟩
  obtain ⟨i, here⟩ := List.getElem?_of_mem member
  exact (accounts.wired i call here).stage

/-- A step fails with a device mismatch exactly for the first active stage that declares a managed
name and does not support the primary device, if all active stages before it complete. The model has
then been called for those stages, once for each, and for no other. -/
theorem mismatch_iff_stops (model : Model β) (phase : Phase) (pipeline : Pipeline) (buffers : μ)
    (state : β) :
    (∀ id name direction device,
      (runStep model phase (pipeline, buffers, state)).1 =
          .error (.deviceMismatch id name direction device) ↔
        ∃ earlier stage later, pipeline.stages = earlier ++ stage :: later ∧
          Stops model pipeline.primary phase [] buffers state earlier stage (direction, name) ∧
          id = stage.id ∧ device = pipeline.primary.name) ∧
    ∀ earlier stage later place, pipeline.stages = earlier ++ stage :: later →
      Stops model pipeline.primary phase [] buffers state earlier stage place →
      ∃ result pipeline' final state', ∃ calls : List Call,
        runStep model phase (pipeline, buffers, state) = (result, pipeline', final, state') ∧
        runStep model.transcribed phase (pipeline, buffers, state, []) =
          (result, pipeline', final, state', calls.map Call.entry) ∧
        calls.map Call.stage = earlier.filter (·.runsIn phase) ∧
        ∀ call ∈ calls, call.invocation.stage = call.stage.id ∧ call.Delivered := by
  refine ⟨fun id name direction device => ⟨fun failed => ?_, ?_⟩,
    fun earlier stage later place split stops => ⟨_, stops.ends split⟩⟩
  · rcases ran : runStages model pipeline.primary phase pipeline.stages [] buffers state with
      ⟨result, stages, final, state'⟩
    rw [runStep_eq ran] at failed
    have broken := concluded_mismatch failed trivial
    obtain ⟨earlier, stage, later, place, split, stops, told⟩ :=
      stops_of_mismatch ((congrArg Prod.fst ran).trans broken) trivial
    obtain ⟨rfl, rfl, rfl, rfl⟩ := Failure.deviceMismatch.inj told
    exact ⟨earlier, stage, later, split, stops, rfl, rfl⟩
  · rintro ⟨earlier, stage, later, split, stops, rfl, rfl⟩
    obtain ⟨_, _, _, _, ran, -⟩ := stops.ends split
    exact congrArg Prod.fst ran

section Stranded

def hostOnly : SessionOptions := { SessionOptions.empty with providers := [⟨"cpu", []⟩] }

def stranded : Pipeline where
  stages := [
    .ofConfig { StageConfig.named "embedding" with inputs := ["ids"], outputs := ["hidden"] },
    .ofConfig { StageConfig.named "decoder" with
      inputs := ["hidden"], outputs := ["features"], options := some hostOnly },
    .ofConfig { StageConfig.named "head" with
      inputs := ["features", "ids"], outputs := ["scores"], options := some hostOnly }]
  primary := ⟨"cuda"⟩
  scoresName := "scores"

theorem stranded_stops : Stops relayModel stranded.primary .prompt [] relayBuffers ()
    (stranded.stages.take 2) stranded.stages[2] (.input, "ids") where
  runs := rfl
  misplaced := by decide +kernel
  first := by decide +kernel
  completed := by
    have succeeds : (runStages relayModel stranded.primary .prompt (stranded.stages.take 2) []
        relayBuffers ()).1.toOption = some () := by
      decide +kernel
    exact Outcome.toOption_eq_some.mp succeeds

theorem stranded_mismatch :
    (runStep relayModel .prompt (stranded, relayBuffers, ())).1 =
      .error (.deviceMismatch "head" "ids" .input "cuda") ∧
    ∃ result pipeline final state, ∃ calls : List Call,
      runStep relayModel .prompt (stranded, relayBuffers, ()) = (result, pipeline, final, state) ∧
      runStep relayModel.transcribed .prompt (stranded, relayBuffers, (), []) =
        (result, pipeline, final, state, calls.map Call.entry) ∧
      calls.map Call.stage = stranded.stages.take 2 ∧
      ∀ call ∈ calls, call.invocation.stage = call.stage.id ∧ call.Delivered := by
  obtain ⟨mismatch, calls⟩ := mismatch_iff_stops relayModel .prompt stranded relayBuffers ()
  have split : stranded.stages = stranded.stages.take 2 ++ stranded.stages[2] :: [] := rfl
  refine ⟨(mismatch ..).mpr ⟨_, _, _, split, stranded_stops, rfl, rfl⟩, ?_⟩
  exact calls _ _ _ _ split stranded_stops

end Stranded

end Pipeline

end StagedDecoding
