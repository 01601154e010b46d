import StagedDecoding.Proofs.Conditions
import StagedDecoding.Proofs.StepCalls

/-! Inputs that come too late.

Validation counts every output that an earlier stage declares as available, under the name that it
would be handed on under. A step hands on less: outputs that the buffers manage never reach the
pool, and stages that do not run give nothing. In a step of an accepted pipeline an input comes too
late exactly where earlier stages announce its name and withhold whatever carries it.
-/

set_option autoImplicit false

namespace StagedDecoding

namespace Outcome

variable {ε α : Type}

theorem forIn_checks {check : α → PUnit.{1} → Except ε (ForInStep PUnit)} {values : List α}
    (goesOn : ∀ value state next, check value state = .ok next → next = .yield ⟨⟩) :
    (∃ u, forIn values PUnit.unit check = .ok u) ↔
      ∀ value ∈ values, check value ⟨⟩ = .ok (.yield ⟨⟩) := by
  induction values with
  | nil => simp [pure, Except.pure]
  | cons value rest ih =>
    rw [List.forIn_cons, List.forall_mem_cons, ← ih]
    simp only [bind_eq_ok]
    constructor
    · rintro ⟨u, next, passed, others⟩
      obtain rfl := goesOn _ _ _ passed
      exact ⟨passed, u, others⟩
    · rintro ⟨passed, u, others⟩
      exact ⟨u, _, passed, others⟩

end Outcome

/-- Buffers that manage the same names, in the same order, whatever they are given. -/
class FixedNames (μ : Type) [ManagedBuffers μ] : Prop where
  inputNames_store : ∀ {name : String} {tensor : Tensor} {buffers next : μ},
    ManagedBuffers.store name tensor buffers = .ok next →
      ManagedBuffers.inputNames next = ManagedBuffers.inputNames buffers
  outputNames_store : ∀ {name : String} {tensor : Tensor} {buffers next : μ},
    ManagedBuffers.store name tensor buffers = .ok next →
      ManagedBuffers.outputNames next = ManagedBuffers.outputNames buffers

instance {μ : Type} [ManagedBuffers μ] [FixedNames μ] : FixedOutputs μ where
  isOutput_store stored other := by
    rw [ManagedBuffers.isOutput, ManagedBuffers.isOutput, FixedNames.outputNames_store stored]

instance : FixedNames TableBuffers where
  inputNames_store stored := by
    rw [← Except.ok.inj stored]
    rfl
  outputNames_store stored := by
    rw [← Except.ok.inj stored]
    rfl

theorem Buffers.names_of_store {name : String} {tensor : Tensor} {buffers next : Buffers}
    (stored : buffers.store name tensor = .ok next) :
    next.inputNames = buffers.inputNames ∧ next.outputNames = buffers.outputNames := by
  unfold Buffers.store at stored
  split at stored
  · obtain rfl := Except.ok.inj stored
    exact ⟨rfl, rfl⟩
  · split at stored
    · obtain rfl := Except.ok.inj stored
      exact ⟨rfl, rfl⟩
    · cases stored

instance : FixedNames Buffers where
  inputNames_store stored := (Buffers.names_of_store stored).1
  outputNames_store stored := (Buffers.names_of_store stored).2

def Stage.HandsOn (managed : String → Bool) (stage : Stage) (name : String) : Prop :=
  ∃ output ∈ stage.config.outputs, managed output = false ∧ stage.forwardedName output = name

instance (managed : String → Bool) (stage : Stage) (name : String) :
    Decidable (stage.HandsOn managed name) :=
  inferInstanceAs (Decidable (∃ output ∈ stage.config.outputs, _ ∧ _))

namespace Pipeline

variable {μ : Type} [ManagedBuffers μ] {β : Type}

def announced (stages : List Stage) : List String :=
  stages.flatMap fun stage => stage.config.outputs.map stage.forwardedName

/-- No later stage produces an input that a stage declares, unless it is managed or available. -/
def InTime (buffers : μ) (available : List String) (stage : Stage) (later : List Stage) : Prop :=
  ∀ name, stage.hasInput name = true → ManagedBuffers.isInput name buffers = false →
    name ∈ available ∨ ∀ other ∈ later, other.produces name = false

theorem checkStages_cons {buffers : μ} {available : List String} {stage : Stage}
    {later : List Stage} :
    checkStages buffers available (stage :: later) = .ok () ↔
      InTime buffers available stage later ∧
        checkStages buffers (available ++ announced [stage]) later = .ok () := by
  rw [checkStages, announced, List.flatMap_singleton]
  simp only [Outcome.bind_eq_ok, exists_and_right]
  refine and_congr_left fun _ => (Outcome.forIn_checks fun name _ next passed => ?_).trans ?_
  · -- a check that does not refuse the pipeline goes on with the next input
    split at passed
    · split at passed
      · cases passed
      · exact (Except.ok.inj passed).symm
    · exact (Except.ok.inj passed).symm
  · refine forall_congr' fun name => imp_congr ?_ ?_
    · rw [Stage.declaredInputs, List.mem_eraseDups, Stage.hasInput, List.contains_iff_mem]
    · cases managed : ManagedBuffers.isInput name buffers with
      | true => simp [pure, Except.pure]
      | false =>
        cases found : later.find? (·.produces name) with
        | none =>
          have none : ∀ other ∈ later, other.produces name = false := fun other member => by
            simpa using List.find?_eq_none.mp found other member
          exact iff_of_true (by simp [pure, Except.pure]) fun _ => .inr none
        | some producer =>
          have some : ¬ ∀ other ∈ later, other.produces name = false := fun none => by
            have produces := List.find?_some found
            rw [none producer (List.mem_of_find?_eq_some found)] at produces
            cases produces
          simp only [some, or_false, forall_const, Outcome.throw_bind]
          by_cases available : name ∈ available
          · simp [available, pure, Except.pure]
          · simp [available, throw, throwThe, MonadExceptOf.throw]

theorem checkStages_eq_ok {buffers : μ} {available : List String} {stages : List Stage} :
    checkStages buffers available stages = .ok () ↔
      ∀ earlier stage later, stages = earlier ++ stage :: later →
        InTime buffers (available ++ announced earlier) stage later := by
  induction stages generalizing available with
  | nil => simp [checkStages]
  | cons stage later ih =>
    rw [checkStages_cons, ih]
    constructor
    · rintro ⟨first, others⟩ earlier own rest split
      obtain ⟨rfl, same⟩ | ⟨front, rfl, rfl⟩ := List.cons_eq_append_iff.mp split
      · obtain ⟨rfl, rfl⟩ := List.cons_eq_cons.mp same
        simpa [announced] using first
      · simpa [announced] using others front own rest rfl
    · intro every
      refine ⟨by simpa [announced] using every [] stage later rfl, fun front own rest split => ?_⟩
      simpa [announced] using every (stage :: front) own rest (congrArg (stage :: ·) split)

/-- The call of a stage misses an input that a call after it hands on. -/
def Late (managed : String → Bool) (call : Call) (after : List Call) (name : String) : Prop :=
  call.invocation.inputs.get? name = none ∧ ∃ later ∈ after,
    (handed managed later.stage later.tensors later.stage.config.outputs.eraseDups name).isSome

/-- Some stages announce a name, but whatever carries it is managed, or its stage does not run. -/
structure Withheld (managed : String → Bool) (phase : Phase) (stages : List Stage)
    (name : String) : Prop where
  announced : name ∈ announced stages
  kept : ∀ stage ∈ stages, stage.runsIn phase = true → ¬ stage.HandsOn managed name

variable {managed : String → Bool} {name : String}

theorem handed_isSome_iff {stage : Stage} {outputs : Named Tensor}
    (all : ∀ output ∈ stage.config.outputs, ∃ tensor, outputs.get? output = some tensor) :
    (handed managed stage outputs stage.config.outputs.eraseDups name).isSome = true ↔
      stage.HandsOn managed name := by
  have member : ∀ output, output ∈ carriers managed stage name stage.config.outputs.eraseDups ↔
      output ∈ stage.config.outputs ∧ managed output = false ∧
        stage.forwardedName output = name := by
    intro output
    simp [carriers, List.mem_eraseDups]
  unfold handed Stage.HandsOn
  cases last : (carriers managed stage name stage.config.outputs.eraseDups).getLast? with
  | none =>
    rw [List.getLast?_eq_none_iff] at last
    simp only [last, List.not_mem_nil, false_iff] at member
    simpa using member
  | some output =>
    have carries := (member output).mp (List.mem_of_getLast? last)
    obtain ⟨tensor, there⟩ := all output carries.1
    rw [Option.bind_some, there]
    exact iff_of_true rfl ⟨output, carries⟩

theorem handed_of_delivered {call : Call} (delivered : call.Delivered)
    (asked : ∀ name, name ∈ call.invocation.outputs ↔ name ∈ call.stage.config.outputs) :
    (handed managed call.stage call.tensors call.stage.config.outputs.eraseDups name).isSome = true
      ↔ call.stage.HandsOn managed name :=
  handed_isSome_iff fun output member => delivered.complete output ((asked output).mpr member)

theorem latest_eq_none_iff {calls : List Call} (delivered : ∀ call ∈ calls, call.Delivered)
    (asked : ∀ call ∈ calls, ∀ name,
      name ∈ call.invocation.outputs ↔ name ∈ call.stage.config.outputs) :
    latest managed calls name = none ↔ ∀ call ∈ calls, ¬ call.stage.HandsOn managed name := by
  simp only [latest, List.findSome?_eq_none_iff, List.mem_reverse]
  refine forall₂_congr fun call member => ?_
  rw [← handed_of_delivered (delivered call member) (asked call member),
    Option.not_isSome_iff_eq_none]

theorem names_of_storeAll [FixedNames μ] {calls : List Call} {start now : μ}
    (stored : storeAll managed calls start = .ok now) :
    ManagedBuffers.inputNames now = ManagedBuffers.inputNames start := by
  refine Outcome.foldlM_preserves
    (P := fun buffers => ManagedBuffers.inputNames buffers = ManagedBuffers.inputNames start)
    (fun call _ before after same kept => ?_) rfl stored
  refine Outcome.foldlM_preserves
    (P := fun buffers => ManagedBuffers.inputNames buffers = ManagedBuffers.inputNames start)
    (fun name _ before after same kept => ?_) same kept
  split at kept
  · exact (FixedNames.inputNames_store kept).trans same
  · exact Except.ok.inj kept ▸ same

/-- What earlier stages announce, validation takes for available. -/
theorem announced_of_handsOn {buffers : μ} {pipeline : Pipeline}
    (valid : validateDataflow buffers pipeline = .ok ()) {earlier later : List Stage}
    {stage : Stage} (split : pipeline.stages = earlier ++ stage :: later)
    (declared : stage.hasInput name = true)
    (unmanaged : ManagedBuffers.isInput name buffers = false) {other : Stage}
    (member : other ∈ later) (gives : other.HandsOn managed name) : name ∈ announced earlier := by
  obtain ready | none :=
    checkStages_eq_ok.mp valid earlier stage later split name declared unmanaged
  · simpa using ready
  · obtain ⟨output, inside, -, carried⟩ := gives
    have produces : other.produces name = true := by
      simp only [Stage.produces, List.any_eq_true]
      exact ⟨output, inside, by simp [carried]⟩
    rw [none other member] at produces
    cases produces

/-- What a call misses is told by the stages: those before it hand nothing on under the name, and
one of those after it does. -/
theorem late_call_iff [FixedNames μ] {start : μ} {before after : List Call} {call : Call}
    (wired : Wired managed start before call)
    (unmanaged : ManagedBuffers.isInput name start = false)
    (declared : call.stage.hasInput name = true)
    (delivered : ∀ other ∈ before ++ after, other.Delivered)
    (asked : ∀ other ∈ before ++ after, ∀ name,
      name ∈ other.invocation.outputs ↔ name ∈ other.stage.config.outputs) :
    Late managed call after name ↔ (∀ stage ∈ before.map Call.stage, ¬ stage.HandsOn managed name) ∧
      ∃ stage ∈ after.map Call.stage, stage.HandsOn managed name := by
  obtain ⟨now, stored, bound⟩ := wired.inputs
  have still : ManagedBuffers.isInput name now = false := by
    rw [← unmanaged, ManagedBuffers.isInput, ManagedBuffers.isInput, names_of_storeAll stored]
  have given : call.invocation.inputs.get? name = latest managed before name := by
    simp [bound, declared, still]
  have nothing := @latest_eq_none_iff managed name before
    (fun other member => delivered other (List.mem_append_left after member))
    (fun other member => asked other (List.mem_append_left after member))
  rw [Late, given, nothing, List.forall_mem_map]
  refine and_congr_right fun _ => ?_
  simp only [List.mem_map, exists_exists_and_eq_and]
  refine exists_congr fun other => and_congr_right fun member => ?_
  have inside := List.mem_append_right before member
  exact handed_of_delivered (delivered other inside) (asked other inside)

structure Answered (phase : Phase) (pipeline : Pipeline) (calls : List Call) : Prop where
  every : calls.map Call.stage = pipeline.stages.filter (·.runsIn phase)
  delivered : ∀ call ∈ calls, call.Delivered

/-- If all stages answer, the calls before and after that of a stage are those of the stages before
and after it, so what it misses is told by their declarations. -/
theorem Accounts.late_iff [FixedNames μ] {α : Type} {phase : Phase} {pipeline : Pipeline}
    {start final : μ} {calls : List Call} {result : Except Failure α}
    (accounts : Accounts managed start (pipeline.stages.filter (·.runsIn phase)) [] calls result
      final)
    (answered : Answered phase pipeline calls) {earlier later : List Stage} {stage : Stage}
    (split : pipeline.stages = earlier ++ stage :: later) (runs : stage.runsIn phase = true) :
    ∃ before call after, calls = before ++ call :: after ∧ call.stage = stage ∧
      ∀ name, stage.hasInput name = true → ManagedBuffers.isInput name start = false →
        (Late managed call after name ↔
          (∀ other ∈ earlier, other.runsIn phase = true → ¬ other.HandsOn managed name) ∧
          ∃ other ∈ later, other.runsIn phase = true ∧ other.HandsOn managed name) := by
  obtain ⟨every, delivered⟩ := answered
  have asked : ∀ call ∈ calls, ∀ name,
      name ∈ call.invocation.outputs ↔ name ∈ call.stage.config.outputs := by
    intro call member
    obtain ⟨i, here⟩ := List.getElem?_of_mem member
    exact (accounts.wired i call here).asked
  rw [split, List.filter_append, List.filter_cons_of_pos runs] at every
  -- the calls come in the order of the stages, so they are split where these are
  obtain ⟨before, rest, rfl, front, back⟩ := List.map_eq_append_iff.mp every
  obtain ⟨call, after, rfl, rfl, behind⟩ := List.map_eq_cons_iff.mp back
  have wired : Wired managed start before call := by
    simpa using accounts.wired before.length call (by simp)
  have others : ∀ other ∈ before ++ after, other ∈ before ++ call :: after := by
    simp only [List.mem_append, List.mem_cons]
    exact fun other => Or.imp_right .inr
  refine ⟨before, call, after, rfl, rfl, fun name declared unmanaged => ?_⟩
  rw [late_call_iff wired unmanaged declared
    (fun other member => delivered other (others other member))
    (fun other member => asked other (others other member)), front, behind]
  simp only [List.mem_filter, and_assoc, and_imp]

def concluded (scoresName : String) (final : μ) : Except Failure Unit → Except Failure Tensor
  | .error failure => .error failure
  | .ok () =>
    match ManagedBuffers.output scoresName final with
    | some tensor => .ok tensor
    | none => .error (.missingOutput "pipeline" scoresName)

theorem runStep_eq {model : Model β} {phase : Phase} {pipeline : Pipeline} {buffers final : μ}
    {state state' : β} {result : Except Failure Unit} {stages : List Stage}
    (ran : runStages model pipeline.primary phase pipeline.stages [] buffers state =
      (result, stages, final, state')) :
    runStep model phase (pipeline, buffers, state) =
      (concluded pipeline.scoresName final result, { pipeline with stages := stages }, final,
        state') := by
  unfold runStep
  simp only [ran]
  rcases result with failure | ⟨⟩
  · rfl
  · cases given : ManagedBuffers.output pipeline.scoresName final <;> simp only [concluded, given]

theorem Accounts.concluding {managed : String → Bool} {start final : μ} {active : List Stage}
    {calls : List Call} {result : Except Failure Unit}
    (accounts : Accounts managed start active [] calls result final) (scoresName : String) :
    Accounts managed start active [] calls (Pipeline.concluded scoresName final result)
      final := by
  rcases result with failure | ⟨⟩
  · exact accounts.failed
  · exact accounts.concluded _

theorem runStep_accounts [FixedOutputs μ] (model : Model β) (phase : Phase) (pipeline : Pipeline)
    (buffers : μ) (state : β) :
    ∃ result pipeline' final state' calls,
      runStep model phase (pipeline, buffers, state) = (result, pipeline', final, state') ∧
      runStep model.transcribed phase (pipeline, buffers, state, []) =
        (result, pipeline', final, state', calls.map Call.entry) ∧
      Accounts (ManagedBuffers.isOutput · buffers) buffers
        (pipeline.stages.filter (·.runsIn phase)) [] calls result final := by
  obtain ⟨result, stages, final, state', calls, ran, recorded, accounts⟩ :=
    runStages_accounts model pipeline.primary phase pipeline.stages buffers state []
  exact ⟨_, _, _, _, calls, runStep_eq ran, runStep_eq recorded, accounts.concluding _⟩

theorem Accounts.answered {α : Type} {phase : Phase} {pipeline : Pipeline} {start final : μ}
    {calls : List Call} {value : α}
    (accounts : Accounts managed start (pipeline.stages.filter (·.runsIn phase)) [] calls
      (.ok value : Except Failure α) final) : Answered phase pipeline calls := by
  obtain ⟨every, delivered, -⟩ := accounts.success value rfl
  exact ⟨every, delivered⟩

/-- If every stage that runs in a step of an accepted pipeline gives all that it is asked for, a
stage misses an input that a later one hands on exactly where earlier stages withhold what they
announce under the name. -/
theorem late_iff_withheld [FixedNames μ] (model : Model β) (phase : Phase) {pipeline : Pipeline}
    {buffers : μ} (valid : validateDataflow buffers pipeline = .ok ()) (state : β) :
    ∃ result pipeline' final state' calls,
      runStep model phase (pipeline, buffers, state) = (result, pipeline', final, state') ∧
      runStep model.transcribed phase (pipeline, buffers, state, []) =
        (result, pipeline', final, state', calls.map Call.entry) ∧
      (∀ tensor, result = .ok tensor → Answered phase pipeline calls) ∧
      (Answered phase pipeline calls → ∀ earlier stage later,
        pipeline.stages = earlier ++ stage :: later → stage.runsIn phase = true →
        ∃ before call after, calls = before ++ call :: after ∧ call.stage = stage ∧
          ∀ name, stage.hasInput name = true → ManagedBuffers.isInput name buffers = false →
            (Late (ManagedBuffers.isOutput · buffers) call after name ↔
              Withheld (ManagedBuffers.isOutput · buffers) phase earlier name ∧
                ∃ other ∈ later, other.runsIn phase = true ∧
                  other.HandsOn (ManagedBuffers.isOutput · buffers) name)) := by
  obtain ⟨result, pipeline', final, state', calls, ran, recorded, accounts⟩ :=
    runStep_accounts model phase pipeline buffers state
  refine ⟨result, pipeline', final, state', calls, ran, recorded,
    fun tensor returned => (returned ▸ accounts).answered,
    fun answered earlier stage later split runs => ?_⟩
  obtain ⟨before, call, after, placed, same, lates⟩ := accounts.late_iff answered split runs
  refine ⟨before, call, after, placed, same, fun name declared unmanaged => ?_⟩
  rw [lates name declared unmanaged]
  constructor
  · rintro ⟨kept, other, member, answers, gives⟩
    have known := announced_of_handsOn valid split declared unmanaged member gives
    exact ⟨⟨known, kept⟩, other, member, answers, gives⟩
  · exact fun ⟨withheld, given⟩ => ⟨withheld.kept, given⟩

section Advice

def advice : Pipeline where
  stages := [
    .ofConfig { StageConfig.named "scorer" with
      inputs := ["ids"], outputs := ["scores"], forward := [("scores", "hint")] },
    .ofConfig { StageConfig.named "refiner" with inputs := ["hint"], outputs := ["draft"] },
    .ofConfig { StageConfig.named "adviser" with outputs := ["hint"] }]
  primary := .host
  scoresName := "scores"

theorem advice_succeeds :
    (runStep relayModel .prompt (advice, relayBuffers, ())).1.toOption.isSome = true := by
  decide +kernel

/-- A pipeline that is accepted although a stage takes what only a later one gives: scores are
managed and never reach the pool. -/
theorem accepted_late : validateDataflow relayBuffers advice = .ok () ∧
    (∀ stage ∈ advice.stages, stage.runsIn .prompt = true) ∧
    ∃ tensor pipeline final before call after,
      runStep relayModel.transcribed .prompt (advice, relayBuffers, (), []) =
        (.ok tensor, pipeline, final, (), (before ++ call :: after).map Call.entry) ∧
      call.stage.hasInput "hint" = true ∧ ManagedBuffers.isInput "hint" relayBuffers = false ∧
      Late (ManagedBuffers.isOutput · relayBuffers) call after "hint" := by
  refine ⟨by decide +kernel, by decide, ?_⟩
  obtain ⟨result, pipeline, final, state, calls, ran, recorded, accounts⟩ :=
    runStep_accounts relayModel .prompt advice relayBuffers ()
  have succeeds := advice_succeeds
  rw [ran] at succeeds
  obtain ⟨tensor, returned⟩ := Option.isSome_iff_exists.mp succeeds
  obtain rfl := Outcome.toOption_eq_some.mp returned
  have split :
      advice.stages = advice.stages.take 1 ++ advice.stages[1] :: advice.stages.drop 2 := rfl
  obtain ⟨before, call, after, rfl, same, lates⟩ := accounts.late_iff accounts.answered split rfl
  refine ⟨tensor, pipeline, final, before, call, after, recorded, same ▸ rfl, rfl, ?_⟩
  exact (lates "hint" rfl rfl).mpr (by decide +kernel)

theorem advice_late_iff_withheld : ∃ result pipeline final state calls,
    validateDataflow relayBuffers advice = .ok () ∧
    runStep relayModel .prompt (advice, relayBuffers, ()) = (result, pipeline, final, state) ∧
    runStep relayModel.transcribed .prompt (advice, relayBuffers, (), []) =
      (result, pipeline, final, state, calls.map Call.entry) ∧
    ∃ before call after, calls = before ++ call :: after ∧ call.stage = advice.stages[1] ∧
      (Late (ManagedBuffers.isOutput · relayBuffers) call after "hint" ↔
        Withheld (ManagedBuffers.isOutput · relayBuffers) .prompt (advice.stages.take 1) "hint" ∧
          ∃ other ∈ advice.stages.drop 2, other.runsIn .prompt = true ∧
            other.HandsOn (ManagedBuffers.isOutput · relayBuffers) "hint") := by
  have valid : validateDataflow relayBuffers advice = .ok () := by decide +kernel
  obtain ⟨result, pipeline, final, state, calls, ran, recorded, success, lates⟩ :=
    late_iff_withheld relayModel .prompt valid ()
  have succeeds := advice_succeeds
  rw [ran] at succeeds
  obtain ⟨tensor, returned⟩ := Option.isSome_iff_exists.mp succeeds
  obtain ⟨before, call, after, placed, same, lates⟩ :=
    lates (success tensor (Outcome.toOption_eq_some.mp returned)) (advice.stages.take 1)
      advice.stages[1] (advice.stages.drop 2) rfl rfl
  exact ⟨result, pipeline, final, state, calls, valid, ran, recorded, before, call, after, placed,
    same, lates "hint" rfl rfl⟩

end Advice

end Pipeline

end StagedDecoding
