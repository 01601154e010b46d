import StagedDecoding.Pipeline.Basic
import StagedDecoding.Proofs.Step

/-! What a stage is wired to, and what becomes of its outputs.

A wired stage has under every declared name the managed tensor of that name, or else what the pool
has, and it is asked for every declared output. A property of buffers, pool and model that each
stage preserves holds after all of them.
-/

set_option autoImplicit false

namespace StagedDecoding

namespace Named

variable {α : Type}

theorem get?_cons (entry : String × α) (rest : Named α) (name : String) :
    get? name (entry :: rest) = if entry.1 = name then some entry.2 else get? name rest := by
  by_cases same : entry.1 = name <;> simp [get?, same]

theorem get?_insert (name other : String) (value : α) (values : Named α) :
    (values.insert name value).get? other =
      if name = other then some value else values.get? other := by
  induction values with
  | nil => simp [insert, get?]
  | cons entry rest ih =>
    by_cases here : entry.1 = name
    · by_cases same : name = other <;> simp [insert, here, get?_cons, same]
    · by_cases first : entry.1 = other
      · subst first
        simp [insert, here, get?_cons, Ne.symm here]
      · simp [insert, here, get?_cons, first, ih]

theorem contains_eq_isSome (name : String) (values : Named α) :
    values.contains name = (values.get? name).isSome := by
  induction values with
  | nil => rfl
  | cons entry rest ih =>
    by_cases here : entry.1 = name
    · simp [contains, get?_cons, here]
    · simp [contains, get?_cons, here, ← ih]

theorem mem_of_get? {name : String} {value : α} {values : Named α}
    (found : values.get? name = some value) : (name, value) ∈ values := by
  simp only [get?, Option.map_eq_some_iff] at found
  obtain ⟨entry, found, rfl⟩ := found
  have same : entry.1 = name := by simpa using List.find?_some found
  exact same ▸ List.mem_of_find?_eq_some found

theorem mem_insert {name : String} {value : α} {values : Named α} {entry : String × α}
    (member : entry ∈ values.insert name value) : entry = (name, value) ∨ entry ∈ values := by
  induction values with
  | nil => simpa [insert] using member
  | cons first rest ih =>
    by_cases here : first.1 = name
    · simp only [insert, here, beq_self_eq_true, if_true, List.mem_cons] at member
      exact member.imp_right (List.mem_cons_of_mem first)
    · simp only [insert, here, beq_iff_eq, if_false, List.mem_cons] at member
      rcases member with rfl | member
      · exact .inr (by simp)
      · exact (ih member).imp_right (List.mem_cons_of_mem first)

end Named

namespace Stage

theorem hasInput_congr {stage other : Stage} (same : stage.config = other.config)
    (name : String) : stage.hasInput name = other.hasInput name := by
  simp only [hasInput, same]

@[simp] theorem bind_config (name : String) (tensor : Tensor) (stage : Stage) :
    (stage.bind name tensor).config = stage.config := rfl

@[simp] theorem bind_requested (name : String) (tensor : Tensor) (stage : Stage) :
    (stage.bind name tensor).requested = stage.requested := rfl

theorem get?_bind (name other : String) (tensor : Tensor) (stage : Stage) :
    (stage.bind name tensor).bound.get? other =
      if name = other then some tensor else stage.bound.get? other :=
  Named.get?_insert name other tensor stage.bound

@[simp] theorem request_config (name : String) (stage : Stage) :
    (stage.request name).config = stage.config := by
  unfold request
  split <;> rfl

@[simp] theorem request_bound (name : String) (stage : Stage) :
    (stage.request name).bound = stage.bound := by
  unfold request
  split <;> rfl

theorem mem_request (name other : String) (stage : Stage) :
    other ∈ (stage.request name).requested ↔ other ∈ stage.requested ∨ other = name := by
  unfold request
  split
  · next there =>
    have there : name ∈ stage.requested := by simpa using there
    constructor
    · exact .inl
    · rintro (inside | rfl)
      · exact inside
      · exact there
  · simp

end Stage

namespace Pipeline

variable {μ : Type} [ManagedBuffers μ] {β : Type}

def source (buffers : μ) (pool : Named Tensor) (name : String) : Option Tensor :=
  (if ManagedBuffers.isInput name buffers then ManagedBuffers.input name buffers else none).or
    (pool.get? name)

def bindOne (buffers : μ) (stage : Stage) (name : String) : Stage :=
  if stage.hasInput name then
    match ManagedBuffers.input name buffers with
    | some tensor => stage.bind name tensor
    | none => stage
  else stage

theorem bindOne_spec (buffers : μ) (stage : Stage) (name : String) :
    (bindOne buffers stage name).config = stage.config ∧
    (bindOne buffers stage name).requested = stage.requested ∧
    ∀ other, (bindOne buffers stage name).bound.get? other =
      if stage.hasInput other ∧ name = other then
        (ManagedBuffers.input other buffers).or (stage.bound.get? other)
      else stage.bound.get? other := by
  unfold bindOne
  by_cases declared : stage.hasInput name
  · cases given : ManagedBuffers.input name buffers with
    | none =>
      refine ⟨by simp [declared], by simp [declared], fun other => ?_⟩
      by_cases same : name = other
      · subst same
        simp [declared, given]
      · simp [declared, same]
    | some tensor =>
      refine ⟨by simp [declared], by simp [declared], fun other => ?_⟩
      by_cases same : name = other
      · subst same
        simp [declared, given, Stage.get?_bind]
      · simp [declared, same, Stage.get?_bind]
  · refine ⟨by simp [declared], by simp [declared], fun other => ?_⟩
    by_cases same : name = other
    · subst same
      simp [declared]
    · simp [declared, same]

theorem bindManaged_spec (buffers : μ) (stage : Stage) :
    (bindManaged buffers stage).config = stage.config ∧
    (bindManaged buffers stage).requested = stage.requested ∧
    ∀ name, (bindManaged buffers stage).bound.get? name =
      if stage.hasInput name ∧ ManagedBuffers.isInput name buffers then
        (ManagedBuffers.input name buffers).or (stage.bound.get? name)
      else stage.bound.get? name := by
  rw [show bindManaged buffers stage =
    (ManagedBuffers.inputNames buffers).foldl (bindOne buffers) stage from rfl]
  unfold ManagedBuffers.isInput
  generalize ManagedBuffers.inputNames buffers = names
  induction names generalizing stage with
  | nil => simp
  | cons first rest ih =>
    obtain ⟨config, requested, bound⟩ := ih (bindOne buffers stage first)
    obtain ⟨config', requested', bound'⟩ := bindOne_spec buffers stage first
    refine ⟨config.trans config', requested.trans requested', fun name => ?_⟩
    rw [List.foldl_cons, bound name, bound' name, Stage.hasInput_congr config']
    by_cases declared : stage.hasInput name
    · by_cases here : first = name
      · subst here
        cases ManagedBuffers.input first buffers <;> simp [declared]
      · simp [declared, here, Ne.symm here]
    · simp [declared]

def bindEntry (stage : Stage) (entry : String × Tensor) : Stage :=
  if stage.hasInput entry.1 && !stage.isBound entry.1 then stage.bind entry.1 entry.2 else stage

theorem bindEntry_spec (stage : Stage) (entry : String × Tensor) :
    (bindEntry stage entry).config = stage.config ∧
    (bindEntry stage entry).requested = stage.requested ∧
    ∀ name, (bindEntry stage entry).bound.get? name =
      if stage.hasInput name ∧ entry.1 = name then (stage.bound.get? name).or (some entry.2)
      else stage.bound.get? name := by
  unfold bindEntry
  by_cases declared : stage.hasInput entry.1 <;>
    cases bound : stage.bound.get? entry.1 <;>
    refine ⟨by simp [declared, Stage.isBound, Named.contains_eq_isSome, bound],
      by simp [declared, Stage.isBound, Named.contains_eq_isSome, bound], fun name => ?_⟩ <;>
    by_cases same : entry.1 = name
  all_goals
    first
      | subst same
        simp [declared, Stage.isBound, Named.contains_eq_isSome, bound, Stage.get?_bind]
      | simp [declared, Stage.isBound, Named.contains_eq_isSome, bound, Stage.get?_bind, same]

theorem bindPool_spec (pool : Named Tensor) (stage : Stage) :
    (bindPool pool stage).config = stage.config ∧
    (bindPool pool stage).requested = stage.requested ∧
    ∀ name, (bindPool pool stage).bound.get? name =
      if stage.hasInput name then (stage.bound.get? name).or (pool.get? name)
      else stage.bound.get? name := by
  rw [show bindPool pool stage = pool.foldl bindEntry stage from rfl]
  induction pool generalizing stage with
  | nil => simp [Named.get?]
  | cons entry rest ih =>
    obtain ⟨config, requested, bound⟩ := ih (bindEntry stage entry)
    obtain ⟨config', requested', bound'⟩ := bindEntry_spec stage entry
    refine ⟨config.trans config', requested.trans requested', fun name => ?_⟩
    rw [List.foldl_cons, bound name, bound' name, Stage.hasInput_congr config', Named.get?_cons]
    by_cases declared : stage.hasInput name
    · by_cases here : entry.1 = name
      · cases stage.bound.get? name <;> simp [declared, here]
      · simp [declared, here]
    · simp [declared]

theorem requestOutputs_spec (buffers : μ) (stage : Stage) :
    (requestOutputs buffers stage).config = stage.config ∧
    (requestOutputs buffers stage).bound = stage.bound ∧
    ∀ name, name ∈ (requestOutputs buffers stage).requested ↔
      name ∈ stage.requested ∨ name ∈ stage.config.outputs := by
  have folded : ∀ (names : List String) (stage : Stage),
      let asked := names.foldl (fun stage name => stage.request name) stage
      asked.config = stage.config ∧ asked.bound = stage.bound ∧
        ∀ name, name ∈ asked.requested ↔ name ∈ stage.requested ∨ name ∈ names := by
    intro names
    induction names with
    | nil => simp
    | cons first rest ih =>
      intro stage
      obtain ⟨config, bound, requested⟩ := ih (stage.request first)
      refine ⟨config.trans (by simp), bound.trans (by simp), fun name => ?_⟩
      rw [List.foldl_cons, requested name, Stage.mem_request, List.mem_cons, or_assoc]
  obtain ⟨config, bound, requested⟩ := folded
    ((ManagedBuffers.outputNames buffers).filter (stage.hasOutput ·) ++ stage.config.outputs) stage
  refine ⟨config, bound, fun name => (requested name).trans (or_congr_right ?_)⟩
  simp only [List.mem_append, List.mem_filter, Stage.hasOutput, List.contains_eq_mem,
    decide_eq_true_eq, or_iff_right_iff_imp]
  exact fun both => both.2

theorem wire_eq {primary : Device} {buffers : μ} {pool : Named Tensor} {stage wired : Stage}
    {u : Unit} (ran : Step.Returns (wire primary buffers pool) stage u wired) :
    wired = requestOutputs buffers (bindPool pool (bindManaged buffers stage.clear)) := by
  simp only [wire, Step.returns_bind, Step.returns_modify, Step.returns_get,
    Step.throw_bind] at ran
  obtain ⟨_, _, rfl, _, _, ⟨rfl, rfl⟩, ran⟩ := ran
  split at ran
  all_goals
    simp only [Step.returns_guard, Step.returns_bind, Step.returns_modify] at ran
  case h_1 =>
    obtain ⟨_, _, _, rfl, ran⟩ := ran
    split at ran <;> simp only [Step.returns_guard, Step.returns_modify] at ran
    · exact ran.2.symm
    · exact ran.symm
  case h_2 =>
    obtain ⟨_, _, rfl, ran⟩ := ran
    split at ran <;> simp only [Step.returns_guard, Step.returns_modify] at ran
    · exact ran.2.symm
    · exact ran.symm

/-- A wired stage gets every declared input from its source and is asked for every declared
output. -/
theorem wire_returns {primary : Device} {buffers : μ} {pool : Named Tensor} {stage wired : Stage}
    {u : Unit} (ran : Step.Returns (wire primary buffers pool) stage u wired) :
    wired.config = stage.config ∧
    (∀ name, wired.bound.get? name =
      if stage.hasInput name then source buffers pool name else none) ∧
    ∀ name, name ∈ wired.requested ↔ name ∈ stage.config.outputs := by
  rw [wire_eq ran]
  obtain ⟨managed, unasked, ids⟩ := bindManaged_spec buffers stage.clear
  obtain ⟨pooled, still, bound⟩ := bindPool_spec pool (bindManaged buffers stage.clear)
  obtain ⟨config, wires, requested⟩ :=
    requestOutputs_spec buffers (bindPool pool (bindManaged buffers stage.clear))
  have same := config.trans (pooled.trans managed)
  refine ⟨same, fun name => ?_, fun name => ?_⟩
  · rw [wires, bound name, ids name, Stage.hasInput_congr managed]
    have cleared : stage.clear.bound.get? name = none := rfl
    by_cases declared : stage.hasInput name
    · have declared' : stage.clear.hasInput name := declared
      by_cases given : ManagedBuffers.isInput name buffers
      · simp [declared, declared', given, cleared, source]
      · simp [declared, declared', given, cleared, source]
    · have declared' : ¬ stage.clear.hasInput name := declared
      simp [declared, declared', cleared]
  · rw [requested name, still, unasked, pooled, managed]
    simp [Stage.clear]

theorem deliver_cons_returns {stage : Stage} {outputs pool pool' : Named Tensor} {name : String}
    {rest : List String} {buffers buffers' : μ} :
    Step.Returns (deliver stage outputs (name :: rest) pool) buffers pool' buffers' ↔
      ∃ tensor, outputs.get? name = some tensor ∧
        ((ManagedBuffers.isOutput name buffers = true ∧ ∃ next,
          ManagedBuffers.store name tensor buffers = .ok next ∧
          Step.Returns (deliver stage outputs rest pool) next pool' buffers') ∨
        (ManagedBuffers.isOutput name buffers = false ∧
          Step.Returns (deliver stage outputs rest (pool.insert (stage.forwardedName name) tensor))
            buffers pool' buffers')) := by
  rw [deliver]
  cases found : outputs.get? name with
  | none => simp [Step.returns_throw]
  | some tensor =>
    simp only [Step.returns_bind, Step.returns_get, Option.some.injEq, exists_eq_left']
    cases managed : ManagedBuffers.isOutput name buffers with
    | true => simp [managed, Step.returns_bind, Step.returns_attempt]
    | false => simp [managed]

theorem deliver_cons_fails {stage : Stage} {outputs pool : Named Tensor} {name : String}
    {rest : List String} {buffers buffers' : μ} {failure : Failure} :
    Step.Fails (deliver stage outputs (name :: rest) pool) buffers failure buffers' ↔
      (outputs.get? name = none ∧ .missingOutput stage.id name = failure ∧ buffers = buffers') ∨
      ∃ tensor, outputs.get? name = some tensor ∧
        ((ManagedBuffers.isOutput name buffers = true ∧
          ((ManagedBuffers.store name tensor buffers = .error failure ∧ buffers = buffers') ∨
          ∃ next, ManagedBuffers.store name tensor buffers = .ok next ∧
            Step.Fails (deliver stage outputs rest pool) next failure buffers')) ∨
        (ManagedBuffers.isOutput name buffers = false ∧
          Step.Fails (deliver stage outputs rest (pool.insert (stage.forwardedName name) tensor))
            buffers failure buffers')) := by
  rw [deliver]
  cases found : outputs.get? name with
  | none => simp [Step.fails_throw]
  | some tensor =>
    simp only [Step.fails_bind, Step.fails_get, Step.returns_get, false_or, Option.some.injEq,
      exists_eq_left', reduceCtorEq, false_and]
    cases managed : ManagedBuffers.isOutput name buffers with
    | true => simp [managed, Step.fails_bind, Step.fails_attempt, Step.returns_attempt]
    | false => simp [managed]

theorem deliver_preserves {P : μ → Named Tensor → Prop} {stage : Stage} {outputs : Named Tensor}
    {names : List String}
    (stored : ∀ name ∈ names, ∀ tensor, outputs.get? name = some tensor → ∀ buffers pool next,
      P buffers pool → ManagedBuffers.isOutput name buffers →
      ManagedBuffers.store name tensor buffers = .ok next → P next pool)
    (pooled : ∀ name ∈ names, ∀ tensor, outputs.get? name = some tensor → ∀ buffers pool,
      P buffers pool → ¬ ManagedBuffers.isOutput name buffers →
      P buffers (pool.insert (stage.forwardedName name) tensor))
    {pool pool' : Named Tensor} {buffers buffers' : μ} (start : P buffers pool)
    (ran : Step.Returns (deliver stage outputs names pool) buffers pool' buffers') :
    P buffers' pool' := by
  induction names generalizing pool buffers with
  | nil =>
    obtain ⟨rfl, rfl⟩ := Step.returns_pure.mp ran
    exact start
  | cons name rest ih =>
    replace ih := @ih (fun other member => stored other (by simp [member]))
      fun other member => pooled other (by simp [member])
    obtain ⟨tensor, found, ⟨managed, next, kept, passed⟩ | ⟨unmanaged, passed⟩⟩ :=
      deliver_cons_returns.mp ran
    · exact ih (stored name (by simp) tensor found _ _ _ start managed kept) passed
    · exact ih (pooled name (by simp) tensor found _ _ start (by simp [unmanaged])) passed

/-- One stage of a step: it is wired, the model answers, and its outputs are delivered. -/
structure Serves (model : Model β) (primary : Device) (stage wired : Stage)
    (outputs pool pool' : Named Tensor) (buffers buffers' : μ) (state state' : β) : Prop where
  connected : Step.Returns (wire primary buffers pool) stage () wired
  answered : model ⟨wired.id, wired.bound, wired.requested⟩ state = (.ok outputs, state')
  delivered : Step.Returns (deliver wired outputs wired.requested pool) buffers pool' buffers'

theorem runStages_cons_eq_ok {model : Model β} {primary : Device} {phase : Phase} {stage : Stage}
    {rest stages' : List Stage} {pool : Named Tensor} {buffers buffers' : μ} {state state' : β} :
    runStages model primary phase (stage :: rest) pool buffers state =
        (.ok (), stages', buffers', state') ↔
      (stage.runsIn phase = true ∧ ∃ wired outputs pool₁ buffers₁ state₁ later,
        Serves model primary stage wired outputs pool pool₁ buffers buffers₁ state state₁ ∧
        runStages model primary phase rest pool₁ buffers₁ state₁ =
          (.ok (), later, buffers', state') ∧ stages' = wired :: later) ∨
      stage.runsIn phase = false ∧ ∃ later, runStages model primary phase rest pool buffers state =
          (.ok (), later, buffers', state') ∧ stages' = stage.clear :: later := by
  constructor
  · intro ran
    unfold runStages at ran
    split at ran
    case isTrue runs =>
      split at ran
      case h_1 => simp at ran
      case h_2 wired connected =>
      split at ran
      case h_1 => simp at ran
      case h_2 outputs state₁ answered =>
      split at ran
      case h_1 => simp at ran
      case h_2 pool₁ buffers₁ delivered =>
      simp only [Prod.mk.injEq] at ran
      obtain ⟨passed, rfl, rfl, rfl⟩ := ran
      exact .inl ⟨runs, wired, outputs, pool₁, buffers₁, state₁, _,
        ⟨connected, answered, delivered⟩, Prod.ext passed rfl, rfl⟩
    case isFalse skipped =>
      simp only [Prod.mk.injEq] at ran
      obtain ⟨passed, rfl, rfl, rfl⟩ := ran
      exact .inr ⟨Bool.eq_false_iff.mpr skipped, _, Prod.ext passed rfl, rfl⟩
  · rintro (⟨runs, wired, outputs, pool₁, buffers₁, state₁, later, served, ran, rfl⟩ |
      ⟨skipped, later, ran, rfl⟩)
    · obtain ⟨connected, answered, delivered⟩ := served
      unfold Step.Returns at connected delivered
      simp only [runStages, runs, if_true, connected, answered, delivered, ran]
    · rw [runStages, if_neg (Bool.eq_false_iff.mp skipped), ran]

theorem runStages_preserves {P : μ → Named Tensor → β → Prop} {model : Model β}
    {primary : Device} {phase : Phase} {stages stages' : List Stage}
    (each : ∀ stage ∈ stages, stage.runsIn phase →
      ∀ wired outputs pool pool' buffers buffers' state state', P buffers pool state →
      Serves model primary stage wired outputs pool pool' buffers buffers' state state' →
      P buffers' pool' state')
    {pool : Named Tensor} {buffers buffers' : μ} {state state' : β} (start : P buffers pool state)
    (ran : runStages model primary phase stages pool buffers state =
      (.ok (), stages', buffers', state')) :
    stages'.map (·.config) = stages.map (·.config) ∧ ∃ pool', P buffers' pool' state' := by
  induction stages generalizing stages' pool buffers state with
  | nil =>
    simp only [runStages, Prod.mk.injEq] at ran
    obtain ⟨-, rfl, rfl, rfl⟩ := ran
    exact ⟨rfl, pool, start⟩
  | cons stage rest ih =>
    have later : ∀ other ∈ rest, _ := fun other member => each other (by simp [member])
    obtain ⟨runs, wired, outputs, pool₁, buffers₁, state₁, others, served, passed, rfl⟩ |
      ⟨-, others, passed, rfl⟩ := runStages_cons_eq_ok.mp ran
    · have kept := each stage (by simp) runs _ _ _ _ _ _ _ _ start served
      obtain ⟨configs, last⟩ := ih later kept passed
      exact ⟨by simp [configs, (wire_returns served.connected).1], last⟩
    · obtain ⟨configs, last⟩ := ih later start passed
      exact ⟨by simp [configs, Stage.clear], last⟩

theorem runStep_returns {model : Model β} {phase : Phase} {pipeline pipeline' : Pipeline}
    {buffers buffers' : μ} {state state' : β} {tensor : Tensor}
    (ran : Step.Returns (runStep model phase) (pipeline, buffers, state) tensor
      (pipeline', buffers', state')) :
    ∃ stages, runStages model pipeline.primary phase pipeline.stages [] buffers state =
        (.ok (), stages, buffers', state') ∧
      pipeline' = { pipeline with stages := stages } ∧
      ManagedBuffers.output pipeline.scoresName buffers' = some tensor := by
  unfold Step.Returns runStep at ran
  dsimp only at ran
  split at ran
  case h_1 => simp at ran
  case h_2 passed =>
  split at ran
  case h_2 => simp at ran
  case h_1 given =>
  simp only [Prod.mk.injEq, Except.ok.injEq] at ran
  obtain ⟨rfl, rfl, rfl, rfl⟩ := ran
  exact ⟨_, Prod.ext passed rfl, rfl, given⟩

end Pipeline

end StagedDecoding
