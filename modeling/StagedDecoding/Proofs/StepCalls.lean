import StagedDecoding.Proofs.Precedence

/-! The calls of a step.

A transcript lists what a model was asked in a step and what it answered. The stages that run are
called in order, and what each of them was given and asked for can be computed from the calls that
came before. A step that fails breaks off in one of the calls or between two of them.
-/

set_option autoImplicit false

namespace StagedDecoding

variable {β : Type}

abbrev Answer := Except ModelFault (Named Tensor)

def Model.transcribed (model : Model β) : Model (β × List (Invocation × Answer)) :=
  fun invocation (state, transcript) =>
    let (answer, state) := model invocation state
    (answer, state, transcript ++ [(invocation, answer)])

structure Call where
  stage : Stage
  invocation : Invocation
  answer : Answer

namespace Call

def ofWired (stage wired : Stage) (answer : Answer) : Call :=
  ⟨stage, ⟨wired.id, wired.bound, wired.requested⟩, answer⟩

def entry (call : Call) : Invocation × Answer := (call.invocation, call.answer)

def tensors (call : Call) : Named Tensor :=
  match call.answer with
  | .ok outputs => outputs
  | .error _ => []

structure Delivered (call : Call) : Prop where
  answered : call.answer = .ok call.tensors
  complete : ∀ name ∈ call.invocation.outputs, ∃ tensor, call.tensors.get? name = some tensor

end Call

namespace Pipeline

/-- The tensor that the latest of some calls has handed on under a name. What a stage declares
again counts where it is declared first. -/
def latest (managed : String → Bool) (calls : List Call) (name : String) : Option Tensor :=
  calls.reverse.findSome? fun call =>
    handed managed call.stage call.tensors call.stage.config.outputs.eraseDups name

theorem latest_concat (managed : String → Bool) (calls : List Call) (call : Call) (name : String) :
    latest managed (calls ++ [call]) name =
      (handed managed call.stage call.tensors call.stage.config.outputs.eraseDups name).or
        (latest managed calls name) := by
  unfold latest
  rw [List.reverse_append, List.reverse_singleton, List.singleton_append, List.findSome?_cons]
  cases handed managed call.stage call.tensors call.stage.config.outputs.eraseDups name with
  | none => rw [Option.none_or]
  | some tensor => rw [Option.some_or]

section Wiring

variable {μ : Type} [ManagedBuffers μ]

theorem wire_requested {primary : Device} {buffers : μ} {pool : Named Tensor}
    {stage wired : Stage} {u : Unit}
    (ran : Step.Returns (wire primary buffers pool) stage u wired) :
    wired.requested =
      ((ManagedBuffers.outputNames buffers).filter (stage.hasOutput ·) ++
        stage.config.outputs).eraseDups := by
  obtain ⟨managed, unasked, -⟩ := bindManaged_spec buffers stage.clear
  obtain ⟨pooled, still, -⟩ := bindPool_spec pool (bindManaged buffers stage.clear)
  have config := pooled.trans managed
  have blank : (bindPool pool (bindManaged buffers stage.clear)).requested = [] :=
    still.trans unasked
  rw [wire_eq ran, requestOutputs, Stage.requested_foldl, blank, List.nil_append]
  unfold Stage.hasOutput
  rw [config]
  simp [Stage.clear]

theorem carriers_congr {stage other : Stage} (same : stage.config = other.config)
    (managed : String → Bool) (carried : String) (names : List String) :
    carriers managed stage carried names = carriers managed other carried names := by
  unfold carriers Stage.forwardedName
  rw [same]

theorem handed_requested {primary : Device} {buffers : μ} {pool outputs : Named Tensor}
    {stage wired : Stage} {u : Unit} {managed : String → Bool}
    (fixed : ∀ name, ManagedBuffers.isOutput name buffers = managed name)
    (ran : Step.Returns (wire primary buffers pool) stage u wired) (carried : String) :
    handed managed wired outputs wired.requested carried =
      handed managed stage outputs stage.config.outputs.eraseDups carried := by
  have own : carriers managed stage carried
      ((ManagedBuffers.outputNames buffers).filter (stage.hasOutput ·)) = [] := by
    refine List.filter_eq_nil_iff.mpr fun name member => ?_
    have there : managed name = true := by
      rw [← fixed, ManagedBuffers.isOutput, List.contains_iff_mem]
      exact List.mem_of_mem_filter member
    rw [there]
    exact Bool.false_ne_true
  unfold handed
  rw [carriers_congr (wire_returns ran).1, wire_requested ran]
  unfold carriers at own ⊢
  rw [← filter_eraseDups, List.filter_append, own, List.nil_append, filter_eraseDups]

def storeAll (managed : String → Bool) (calls : List Call) (buffers : μ) : Except Failure μ :=
  calls.foldlM (fun buffers call =>
    storeOutputs managed call.tensors call.invocation.outputs buffers) buffers

theorem storeAll_concat {managed : String → Bool} {calls : List Call} {call : Call}
    {start buffers next : μ} (before : storeAll managed calls start = .ok buffers)
    (stored : storeOutputs managed call.tensors call.invocation.outputs buffers = .ok next) :
    storeAll managed (calls ++ [call]) start = .ok next := by
  unfold storeAll at before ⊢
  rw [List.foldlM_append]
  refine Outcome.bind_eq_ok.mpr ⟨buffers, before, ?_⟩
  rw [List.foldlM_cons, stored]
  rfl

/-- A call after some earlier ones of a step, as its stage declares it: every input that has a
tensor is there, every output is asked for once, and it goes to the buffers or to later stages. -/
structure Wired (managed : String → Bool) (start : μ) (earlier : List Call) (call : Call) :
    Prop where
  stage : call.invocation.stage = call.stage.id
  inputs : ∃ now, storeAll managed earlier start = .ok now ∧
    ∀ name, call.invocation.inputs.get? name =
      if call.stage.hasInput name then
        (if ManagedBuffers.isInput name now then ManagedBuffers.input name now else none).or
          (latest managed earlier name)
      else none
  once : call.invocation.outputs.Nodup
  asked : ∀ name, name ∈ call.invocation.outputs ↔ name ∈ call.stage.config.outputs

/-- The calls for some stages of a step, from earlier ones on. Without a failure there is one for
every stage, and all are delivered; the last one before a failure may be delivered in part. -/
structure Accounts {α : Type} (managed : String → Bool) (start : μ) (active : List Stage)
    (earlier calls : List Call) (result : Except Failure α) (final : μ) : Prop where
  inOrder : calls.map Call.stage <+: active
  wired : ∀ i call, calls[i]? = some call → Wired managed start (earlier ++ calls.take i) call
  delivered : ∀ call ∈ calls.dropLast, call.Delivered
  success : ∀ value, result = .ok value → calls.map Call.stage = active ∧
    (∀ call ∈ calls, call.Delivered) ∧ storeAll managed (earlier ++ calls) start = .ok final
  failure : ∀ failure, result = .error failure →
    ((∀ call ∈ calls, call.Delivered) ∧ storeAll managed (earlier ++ calls) start = .ok final) ∨
    ∃ before call now first, calls = before ++ [call] ∧
      storeAll managed (earlier ++ before) start = .ok now ∧ first <+: call.invocation.outputs ∧
      storeOutputs managed call.tensors first now = .ok final

namespace Accounts

variable {α : Type} {managed : String → Bool} {start final : μ} {active : List Stage}
  {earlier calls : List Call} {call : Call} {result : Except Failure α}

theorem done (before : storeAll managed earlier start = .ok final) (value : α) :
    Accounts managed start [] earlier [] (.ok value : Except Failure α) final where
  inOrder := List.nil_prefix
  wired _ _ found := by cases found
  delivered _ member := by cases member
  success _ _ := ⟨rfl, fun _ member => by (cases member), by rwa [List.append_nil]⟩
  failure _ failed := by cases failed

theorem unwired (before : storeAll managed earlier start = .ok final) (failure : Failure) :
    Accounts managed start active earlier [] (.error failure : Except Failure α) final where
  inOrder := List.nil_prefix
  wired _ _ found := by cases found
  delivered _ member := by cases member
  success _ returned := by cases returned
  failure _ _ := .inl ⟨fun _ member => by (cases member), by rwa [List.append_nil]⟩

theorem broken {now : μ} {first : List String} (failure : Failure)
    (wired : Wired managed start earlier call)
    (before : storeAll managed earlier start = .ok now) (front : first <+: call.invocation.outputs)
    (stored : storeOutputs managed call.tensors first now = .ok final) :
    Accounts managed start (call.stage :: active) earlier [call]
      (.error failure : Except Failure α) final where
  inOrder := List.cons_prefix_cons.mpr ⟨rfl, List.nil_prefix⟩
  wired i call' found := by
    cases i with
    | zero =>
      obtain rfl := Option.some.inj found
      simpa using wired
    | succ i => cases found
  delivered _ member := by cases member
  success _ returned := by cases returned
  failure _ _ := .inr ⟨[], call, now, first, rfl, by rwa [List.append_nil], front, stored⟩

theorem cons (wired : Wired managed start earlier call) (delivered : call.Delivered)
    (later : Accounts managed start active (earlier ++ [call]) calls result final) :
    Accounts managed start (call.stage :: active) earlier (call :: calls) result final where
  inOrder := List.cons_prefix_cons.mpr ⟨rfl, later.inOrder⟩
  wired i call' found := by
    cases i with
    | zero =>
      obtain rfl := Option.some.inj found
      simpa using wired
    | succ i => simpa using later.wired i call' found
  delivered call' member := by
    cases calls with
    | nil => cases member
    | cons next rest =>
      rcases List.mem_cons.mp member with rfl | member
      · exact delivered
      · exact later.delivered call' member
  success value returned := by
    obtain ⟨every, each, stored⟩ := later.success value returned
    exact ⟨congrArg (call.stage :: ·) every, List.forall_mem_cons.mpr ⟨delivered, each⟩,
      by simpa using stored⟩
  failure failure failed := by
    -- a failure happened between two stages or in the last call
    obtain ⟨each, stored⟩ | ⟨before, last, now, first, rfl, stored, rest⟩ :=
      later.failure failure failed
    · exact .inl ⟨List.forall_mem_cons.mpr ⟨delivered, each⟩, by simpa using stored⟩
    · exact .inr ⟨call :: before, last, now, first, rfl, by simpa using stored, rest⟩

end Accounts

/-- Run some stages when the pool may be gone through in any order, which may depend on the stages
that are still to run. -/
def runStagesBy (order : List Stage → Named Tensor → Named Tensor) (model : Model β)
    (primary : Device) (phase : Phase) :
    List Stage → Named Tensor → μ → β → Except Failure Unit × List Stage × μ × β
  | [], _, buffers, state => (.ok (), [], buffers, state)
  | stage :: rest, pool, buffers, state =>
    if stage.runsIn phase then
      match wire primary buffers (order (stage :: rest) pool) stage with
      | (.error failure, stage) => (.error failure, stage :: rest, buffers, state)
      | (.ok (), stage) =>
        match model ⟨stage.id, stage.bound, stage.requested⟩ state with
        | (.error fault, state) => (.error (.model stage.id fault), stage :: rest, buffers, state)
        | (.ok outputs, state) =>
          match deliver stage outputs stage.requested pool buffers with
          | (.error failure, buffers) => (.error failure, stage :: rest, buffers, state)
          | (.ok pool, buffers) =>
            let (result, rest, buffers, state) :=
              runStagesBy order model primary phase rest pool buffers state
            (result, stage :: rest, buffers, state)
    else
      let (result, rest, buffers, state) :=
        runStagesBy order model primary phase rest pool buffers state
      (result, stage.clear :: rest, buffers, state)

def runStepBy (order : List Stage → Named Tensor → Named Tensor) (model : Model β)
    (phase : Phase) : Step (Pipeline × μ × β) Tensor :=
  fun (pipeline, buffers, state) =>
    let (result, stages, buffers, state) :=
      runStagesBy order model pipeline.primary phase pipeline.stages [] buffers state
    let next := ({ pipeline with stages := stages }, buffers, state)
    match result with
    | .error failure => (.error failure, next)
    | .ok () =>
      match ManagedBuffers.output pipeline.scoresName buffers with
      | some tensor => (.ok tensor, next)
      | none => (.error (.missingOutput "pipeline" pipeline.scoresName), next)

theorem runStagesBy_pool (model : Model β) (primary : Device) (phase : Phase)
    (stages : List Stage) (pool : Named Tensor) (buffers : μ) (state : β) :
    runStagesBy (fun _ pool => pool) model primary phase stages pool buffers state =
      runStages model primary phase stages pool buffers state := by
  induction stages generalizing pool buffers state with
  | nil => rfl
  | cons stage rest ih =>
    conv_lhs =>
      unfold runStagesBy
      simp only [ih]
    rfl

theorem runStepBy_pool (model : Model β) (phase : Phase) :
    runStepBy (μ := μ) (fun _ pool => pool) model phase = runStep model phase := by
  funext before
  conv_lhs =>
    unfold runStepBy
    simp only [runStagesBy_pool]
  rfl

theorem Accounts.concluded {α : Type} {managed : String → Bool} {start final : μ}
    {active : List Stage} {earlier calls : List Call}
    (accounts : Accounts managed start active earlier calls (.ok () : Except Failure Unit) final)
    (result : Except Failure α) : Accounts managed start active earlier calls result final where
  inOrder := accounts.inOrder
  wired := accounts.wired
  delivered := accounts.delivered
  success _ _ := accounts.success () rfl
  failure _ _ := .inl (accounts.success () rfl).2

theorem Accounts.failed {α : Type} {managed : String → Bool} {start final : μ}
    {active : List Stage} {earlier calls : List Call} {failure : Failure}
    (accounts : Accounts managed start active earlier calls (.error failure : Except Failure Unit)
      final) :
    Accounts managed start active earlier calls (.error failure : Except Failure α) final where
  inOrder := accounts.inOrder
  wired := accounts.wired
  delivered := accounts.delivered
  success _ returned := by cases returned
  failure _ _ := accounts.failure failure rfl

theorem wired_call {primary : Device} {managed : String → Bool} {start buffers : μ}
    {earlier : List Call} {pool pool' : Named Tensor} {stage wired : Stage} {u : Unit}
    (before : storeAll managed earlier start = .ok buffers)
    (distinct : pool.Distinct) (shuffled : pool'.Perm pool)
    (pooled : ∀ name, pool.get? name = latest managed earlier name)
    (ran : Step.Returns (wire primary buffers pool') stage u wired) (answer : Answer) :
    Wired managed start earlier (.ofWired stage wired answer) := by
  obtain ⟨config, bound, asked⟩ := wire_returns ran
  have once : wired.requested.Nodup := by
    rw [wire_requested ran]
    exact Scores.nodup_eraseDups _
  refine ⟨congrArg StageConfig.id config, ⟨buffers, before, fun name => ?_⟩, once, asked⟩
  refine (bound name).trans ?_
  rw [source, Named.get?_perm distinct shuffled, pooled]
  rfl

variable [FixedOutputs μ]

theorem runStagesBy_accounts {order : List Stage → Named Tensor → Named Tensor}
    (shuffles : ∀ rest pool, (order rest pool).Perm pool) (model : Model β) (primary : Device)
    (phase : Phase) (stages : List Stage) {managed : String → Bool} {start buffers : μ}
    {earlier : List Call} {pool : Named Tensor}
    (fixed : ∀ name, ManagedBuffers.isOutput name buffers = managed name)
    (before : storeAll managed earlier start = .ok buffers) (distinct : pool.Distinct)
    (pooled : ∀ name, pool.get? name = latest managed earlier name) (state : β)
    (transcript : List (Invocation × Answer)) :
    ∃ result stages' final state' calls,
      runStagesBy order model primary phase stages pool buffers state =
        (result, stages', final, state') ∧
      runStagesBy order model.transcribed primary phase stages pool buffers (state, transcript) =
        (result, stages', final, state', transcript ++ calls.map Call.entry) ∧
      Accounts managed start (stages.filter (·.runsIn phase)) earlier calls result final := by
  induction stages generalizing buffers earlier pool state transcript with
  | nil => exact ⟨.ok (), [], buffers, state, [], rfl, by simp [runStagesBy], .done before ()⟩
  | cons stage rest ih =>
    unfold runStagesBy
    by_cases runs : stage.runsIn phase
    case neg =>
      obtain ⟨result, stages', final, state', calls, ran, recorded, accounts⟩ :=
        ih fixed before distinct pooled state transcript
      refine ⟨result, stage.clear :: stages', final, state', calls, ?_, ?_, ?_⟩
      · simp only [runs, ran, Bool.false_eq_true, if_false]
      · simp only [runs, recorded, Bool.false_eq_true, if_false]
      · rwa [List.filter_cons_of_neg runs]
    simp only [runs, if_true]
    rw [List.filter_cons_of_pos runs]
    rcases connected : wire primary buffers (order (stage :: rest) pool) stage with
      ⟨failure | ⟨⟩, wired⟩
    · exact ⟨.error failure, wired :: rest, buffers, state, [], rfl, by simp,
        .unwired before failure⟩
    have call :=
      wired_call before distinct (shuffles (stage :: rest) pool) pooled connected
    rcases answered : model ⟨wired.id, wired.bound, wired.requested⟩ state with
      ⟨fault | outputs, state₁⟩
    · refine ⟨.error (.model wired.id fault), wired :: rest, buffers, state₁,
        [.ofWired stage wired (.error fault)], ?_, ?_,
        .broken _ (call (.error fault)) before List.nil_prefix rfl⟩
      · simp [answered]
      · simp [Model.transcribed, answered, Call.entry, Call.ofWired]
    rcases given : deliver wired outputs wired.requested pool buffers with ⟨failure | pool₁, buffers₁⟩
    · obtain ⟨first, front, stored⟩ := deliver_fails fixed given
      refine ⟨.error failure, wired :: rest, buffers₁, state₁,
        [.ofWired stage wired (.ok outputs)], ?_, ?_,
        .broken _ (call (.ok outputs)) before front stored⟩
      · simp [answered, given]
      · simp [Model.transcribed, answered, given, Call.entry, Call.ofWired]
    obtain ⟨complete, stored, fixed₁, distinct₁, handedOn⟩ := deliver_returns fixed distinct given
    have later : ∀ name, pool₁.get? name = latest managed
        (earlier ++ [.ofWired stage wired (.ok outputs)]) name := fun name => by
      rw [handedOn, handed_requested fixed connected, pooled, latest_concat]
      rfl
    have now : storeAll managed (earlier ++ [.ofWired stage wired (.ok outputs)]) start =
        .ok buffers₁ := storeAll_concat before stored
    obtain ⟨result, stages', final, state', calls, ran, recorded, accounts⟩ :=
      ih fixed₁ now distinct₁ later state₁ (transcript ++ [(Call.ofWired stage wired (.ok outputs)).entry])
    refine ⟨result, wired :: stages', final, state', .ofWired stage wired (.ok outputs) :: calls,
      ?_, ?_,
      .cons (call (.ok outputs)) ⟨rfl, complete⟩ accounts⟩
    · simp [answered, given, ran]
    · have recorded' := recorded
      simp only [Call.entry, Call.ofWired] at recorded'
      simp [Model.transcribed, answered, given, recorded', Call.entry, Call.ofWired]

/-- The calls of stages that go through the pool in its own order, from the start of a step. -/
theorem runStages_accounts (model : Model β) (primary : Device) (phase : Phase)
    (stages : List Stage) (buffers : μ) (state : β) (transcript : List (Invocation × Answer)) :
    ∃ result stages' final state' calls,
      runStages model primary phase stages [] buffers state = (result, stages', final, state') ∧
      runStages model.transcribed primary phase stages [] buffers (state, transcript) =
        (result, stages', final, state', transcript ++ calls.map Call.entry) ∧
      Accounts (ManagedBuffers.isOutput · buffers) buffers (stages.filter (·.runsIn phase)) []
        calls result final := by
  have kept : storeAll (ManagedBuffers.isOutput · buffers) [] buffers = .ok buffers := rfl
  have distinct : Named.Distinct ([] : Named Tensor) := List.nodup_nil
  simp only [← runStagesBy_pool]
  exact runStagesBy_accounts (fun _ _ => .refl _) model primary phase stages (fun _ => rfl) kept
    distinct (fun _ => rfl) state transcript

/-- A step calls the model once for every stage that runs, in order, and every call is wired as its
stage declares it: a managed tensor comes first, then what the latest stage hands on. The pool may
be gone through in any order, and it does not matter what earlier steps have left bound. -/
theorem runStepBy_accounts {order : List Stage → Named Tensor → Named Tensor}
    (shuffles : ∀ rest pool, (order rest pool).Perm pool) (model : Model β) (phase : Phase)
    (pipeline : Pipeline) (buffers : μ) (state : β) :
    ∃ result pipeline' final state' calls,
      runStepBy order model phase (pipeline, buffers, state) =
        (result, pipeline', final, state') ∧
      runStepBy order model.transcribed phase (pipeline, buffers, state, []) =
        (result, pipeline', final, state', calls.map Call.entry) ∧
      Accounts (ManagedBuffers.isOutput · buffers) buffers
        (pipeline.stages.filter (·.runsIn phase)) [] calls result final := by
  have kept : storeAll (ManagedBuffers.isOutput · buffers) [] buffers = .ok buffers := rfl
  have distinct : Named.Distinct ([] : Named Tensor) := List.nodup_nil
  obtain ⟨result, stages, final, state', calls, ran, recorded, accounts⟩ :=
    runStagesBy_accounts shuffles model pipeline.primary phase pipeline.stages (fun _ => rfl) kept
      distinct (fun _ => rfl) state []
  rw [List.nil_append] at recorded
  cases result with
  | error failure =>
    refine ⟨.error failure, { pipeline with stages := stages }, final, state', calls, ?_, ?_,
      accounts.failed⟩
    · simp only [runStepBy, ran]
    · simp only [runStepBy, recorded]
  | ok =>
    cases scores : ManagedBuffers.output pipeline.scoresName final with
    | some tensor =>
      refine ⟨.ok tensor, { pipeline with stages := stages }, final, state', calls, ?_, ?_,
        accounts.concluded _⟩
      · simp only [runStepBy, ran, scores]
      · simp only [runStepBy, recorded, scores]
    | none =>
      refine ⟨.error (.missingOutput "pipeline" pipeline.scoresName),
        { pipeline with stages := stages }, final, state', calls, ?_, ?_, accounts.concluded _⟩
      · simp only [runStepBy, ran, scores]
      · simp only [runStepBy, recorded, scores]

end Wiring

section Relay

def relay : Pipeline where
  stages := [
    .ofConfig { StageConfig.named "embedding" with
      inputs := ["ids"], outputs := ["hidden", "mask", "hidden"], forward := [("hidden", "x")] },
    .ofConfig { StageConfig.named "decoder" with
      inputs := ["mask", "x", "ids"], outputs := ["scores"] }]
  primary := .host
  scoresName := "scores"

def relayBuffers : TableBuffers := .ofInputs [("ids", some (.filled .i64 [1] (.whole 7)))] ["scores"]

def relayModel : Model Unit := fun invocation state =>
  (.ok (invocation.outputs.map fun name => (name, .filled .f32 [1] (.real 0))), state)

def backwards : List Stage → Named Tensor → Named Tensor := fun _ pool => pool.reverse

/-- The step succeeds with two calls, also when the pool is gone through backwards. -/
theorem relay_accounts : ∃ result pipeline final state calls,
    (∀ rest pool, (backwards rest pool).Perm pool) ∧
    runStepBy backwards relayModel .prompt (relay, relayBuffers, ()) =
      (result, pipeline, final, state) ∧
    runStepBy backwards relayModel.transcribed .prompt (relay, relayBuffers, (), []) =
      (result, pipeline, final, state, calls.map Call.entry) ∧
    Accounts (ManagedBuffers.isOutput · relayBuffers) relayBuffers
      (relay.stages.filter (·.runsIn .prompt)) [] calls result final ∧
    calls.length = 2 := by
  have shuffles : ∀ rest pool, (backwards rest pool).Perm pool := fun _ pool => pool.reverse_perm
  obtain ⟨result, pipeline, final, state, calls, ran, recorded, accounts⟩ :=
    runStepBy_accounts shuffles relayModel .prompt relay relayBuffers ()
  have succeeds : (runStepBy backwards relayModel .prompt
      (relay, relayBuffers, ())).1.toOption.isSome = true := by
    decide +kernel
  rw [ran] at succeeds
  obtain ⟨tensor, returned⟩ := Option.isSome_iff_exists.mp succeeds
  have two : calls.map Call.stage = relay.stages.filter (·.runsIn .prompt) :=
    (accounts.success tensor (Outcome.toOption_eq_some.mp returned)).1
  refine ⟨result, pipeline, final, state, calls, shuffles, ran, recorded, accounts, ?_⟩
  rw [← List.length_map Call.stage, two]
  rfl

end Relay

end Pipeline

end StagedDecoding
