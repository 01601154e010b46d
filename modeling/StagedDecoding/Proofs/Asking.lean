import StagedDecoding.Proofs.Wiring

/-! What a model is asked in a step, and steps that never fail.

On the host every stage can be wired, so a step is at the mercy of its model and its buffers alone.
If the model answers whatever it is asked, and the buffers take what it gives them, all stages run
and every output that they declare is delivered.
-/

set_option autoImplicit false

namespace StagedDecoding.Pipeline

variable {μ : Type} [ManagedBuffers μ] {β : Type} {model : Model β} {phase : Phase}

/-- What a model is asked, and in which of its states, when some stages are run on some buffers. -/
inductive Asks (model : Model β) (primary : Device) (phase : Phase) :
    List Stage → Named Tensor → μ → β → Invocation → β → Prop where
  | here {stage wired : Stage} {rest : List Stage} {pool : Named Tensor} {buffers : μ} {state : β} :
      stage.runsIn phase = true → Step.Returns (wire primary buffers pool) stage () wired →
      Asks model primary phase (stage :: rest) pool buffers state
        ⟨wired.id, wired.bound, wired.requested⟩ state
  | later {stage wired : Stage} {rest : List Stage} {outputs pool pool' : Named Tensor}
      {buffers buffers' : μ} {state state' asked : β} {invocation : Invocation} :
      stage.runsIn phase = true →
      Serves model primary stage wired outputs pool pool' buffers buffers' state state' →
      Asks model primary phase rest pool' buffers' state' invocation asked →
      Asks model primary phase (stage :: rest) pool buffers state invocation asked
  | idle {stage : Stage} {rest : List Stage} {pool : Named Tensor} {buffers : μ}
      {state asked : β} {invocation : Invocation} :
      stage.runsIn phase = false →
      Asks model primary phase rest pool buffers state invocation asked →
      Asks model primary phase (stage :: rest) pool buffers state invocation asked

theorem wire_supported {primary : Device} {stage : Stage} (supported : stage.supports primary = true)
    (buffers : μ) (pool : Named Tensor) :
    Step.Returns (wire primary buffers pool) stage ()
      (requestOutputs buffers (bindPool pool (bindManaged buffers stage.clear))) := by
  have cleared : stage.clear.supports primary = true := supported
  simp only [wire, Step.returns_bind, Step.returns_modify, Step.returns_get, Step.throw_bind]
  refine ⟨(), _, rfl, _, _, ⟨rfl, rfl⟩, ?_⟩
  simp only [cleared]
  split
  all_goals
    simp only [Step.returns_guard, Step.returns_bind, Step.returns_modify]
  -- inputs that are managed, then outputs: neither is refused
  · refine ⟨by simp, (), _, rfl, ?_⟩
    split <;> simp [Step.returns_modify]
  · refine ⟨(), _, rfl, ?_⟩
    split <;> simp [Step.returns_modify]

theorem supports_host (stage : Stage) : stage.supports .host = true := by
  simp [Stage.supports, Device.isHost]

/-- Outputs that are all there are delivered if the buffers take those that they manage. What the
buffers are known to hold grows with every name. -/
theorem deliver_total {P : List String → μ → Prop} {stage : Stage} {outputs : Named Tensor}
    {names kept : List String} {buffers : μ}
    (given : ∀ name ∈ names, ∃ tensor, outputs.get? name = some tensor)
    (stored : ∀ name ∈ names, ∀ tensor, outputs.get? name = some tensor → ∀ kept buffers,
      P kept buffers → ManagedBuffers.isOutput name buffers = true →
      ∃ next, ManagedBuffers.store name tensor buffers = .ok next ∧ P (name :: kept) next)
    (passed : ∀ name kept buffers, P kept buffers →
      ManagedBuffers.isOutput name buffers = false → P (name :: kept) buffers)
    (holds : P kept buffers) (pool : Named Tensor) :
    ∃ pool' buffers', Step.Returns (deliver stage outputs names pool) buffers pool' buffers' ∧
      P (names.reverse ++ kept) buffers' := by
  induction names generalizing kept buffers pool with
  | nil => exact ⟨pool, buffers, Step.returns_pure.mpr ⟨rfl, rfl⟩, holds⟩
  | cons name rest ih =>
    have given' : ∀ other ∈ rest, _ := fun other member => given other (by simp [member])
    have stored' : ∀ other ∈ rest, _ := fun other member => stored other (by simp [member])
    obtain ⟨tensor, found⟩ := given name (by simp)
    rw [List.reverse_cons, List.append_assoc, List.singleton_append]
    -- a managed output is stored, any other one goes to the pool
    cases managed : ManagedBuffers.isOutput name buffers with
    | true =>
      obtain ⟨next, taken, grown⟩ := stored name (by simp) tensor found kept buffers holds managed
      obtain ⟨pool', buffers', ran, last⟩ := ih given' stored' grown pool
      exact ⟨pool', buffers',
        deliver_cons_returns.mpr ⟨tensor, found, .inl ⟨managed, next, taken, ran⟩⟩, last⟩
    | false =>
      have grown := passed name kept buffers holds managed
      obtain ⟨pool', buffers', ran, last⟩ :=
        ih given' stored' grown (pool.insert (stage.forwardedName name) tensor)
      exact ⟨pool', buffers',
        deliver_cons_returns.mpr ⟨tensor, found, .inr ⟨managed, ran⟩⟩, last⟩

/-- All stages run if the model answers what it is asked, and the buffers take its answers. They
then hold the declared outputs of every stage that ran. -/
theorem runStages_total {P : List String → μ → Prop} {fits : List String → Named Tensor → Prop}
    (given : ∀ {names outputs}, fits names outputs →
      ∀ name ∈ names, ∃ tensor, outputs.get? name = some tensor)
    (stored : ∀ {names outputs}, fits names outputs → ∀ name ∈ names, ∀ tensor,
      outputs.get? name = some tensor → ∀ kept buffers, P kept buffers →
      ManagedBuffers.isOutput name buffers = true →
      ∃ next, ManagedBuffers.store name tensor buffers = .ok next ∧ P (name :: kept) next)
    (passed : ∀ name kept buffers, P kept buffers →
      ManagedBuffers.isOutput name buffers = false → P (name :: kept) buffers)
    {primary : Device} {stages : List Stage} {kept : List String} {pool : Named Tensor}
    {buffers : μ} {state : β}
    (supported : ∀ stage ∈ stages, stage.runsIn phase = true → stage.supports primary = true)
    (answered : ∀ invocation asked,
      Asks model primary phase stages pool buffers state invocation asked →
      ∃ outputs next, model invocation asked = (.ok outputs, next) ∧
        fits invocation.outputs outputs)
    (holds : P kept buffers) :
    ∃ stages' buffers' state' kept', runStages model primary phase stages pool buffers state =
        (.ok (), stages', buffers', state') ∧ P kept' buffers' ∧
      (∀ name ∈ kept, name ∈ kept') ∧
      ∀ stage ∈ stages, stage.runsIn phase = true → ∀ name ∈ stage.config.outputs,
        name ∈ kept' := by
  induction stages generalizing kept pool buffers state with
  | nil => exact ⟨[], buffers, state, kept, rfl, holds, fun _ member => member, by simp⟩
  | cons stage rest ih =>
    have others : ∀ other ∈ rest, _ := fun other member => supported other (by simp [member])
    cases runs : stage.runsIn phase with
    | false =>
      -- nothing is asked for a stage that is passed over
      obtain ⟨stages', buffers', state', kept', ran, last, grown, declared⟩ :=
        ih others (fun invocation asked asks => answered invocation asked (.idle runs asks)) holds
      refine ⟨stage.clear :: stages', buffers', state', kept', ?_, last, grown, ?_⟩
      · exact runStages_cons_eq_ok.mpr (.inr ⟨runs, _, ran, rfl⟩)
      · intro other member active
        cases List.mem_cons.mp member with
        | inl same => simp [same, runs] at active
        | inr later => exact declared other later active
    | true =>
      obtain ⟨wired, connected⟩ : ∃ wired,
          Step.Returns (wire primary buffers pool) stage () wired :=
        ⟨_, wire_supported (supported stage (by simp) runs) buffers pool⟩
      obtain ⟨outputs, next, answer, fit⟩ := answered _ _ (.here runs connected)
      obtain ⟨-, -, requested⟩ := wire_returns connected
      obtain ⟨pool', buffers₁, delivered, held⟩ :=
        deliver_total (given fit) (stored fit) passed holds pool
      have served : Serves model primary stage wired outputs pool pool' buffers buffers₁ state
          next := ⟨connected, answer, delivered⟩
      obtain ⟨stages', buffers', state', kept', ran, last, grown, declared⟩ :=
        ih others (fun invocation asked asks => answered invocation asked (.later runs served asks))
          held
      refine ⟨wired :: stages', buffers', state', kept', ?_, last, ?_, ?_⟩
      · exact runStages_cons_eq_ok.mpr (.inl ⟨runs, _, _, _, _, _, _, served, ran, rfl⟩)
      · exact fun name member => grown name (by simp [member])
      · intro other member active name output
        cases List.mem_cons.mp member with
        | inl same =>
          subst same
          exact grown name (by simp [(requested name).mpr output])
        | inr later => exact declared other later active name output

theorem runStages_stores {P : μ → Prop} {primary : Device} {stages stages' : List Stage}
    {pool : Named Tensor} {buffers buffers' : μ} {state state' : β}
    (stored : ∀ invocation asked outputs next,
      Asks model primary phase stages pool buffers state invocation asked →
      model invocation asked = (.ok outputs, next) → ∀ name ∈ invocation.outputs, ∀ tensor,
      outputs.get? name = some tensor → ∀ before after, P before →
      ManagedBuffers.store name tensor before = .ok after → P after)
    (start : P buffers) (ran : runStages model primary phase stages pool buffers state =
      (.ok (), stages', buffers', state')) : P buffers' := by
  induction stages generalizing stages' pool buffers state with
  | nil =>
    simp only [runStages, Prod.mk.injEq] at ran
    obtain ⟨-, -, rfl, -⟩ := ran
    exact start
  | cons stage rest ih =>
    obtain ⟨runs, wired, outputs, pool₁, buffers₁, next, _, served, passed, -⟩ |
      ⟨skipped, _, passed, -⟩ := runStages_cons_eq_ok.mp ran
    · -- the pool is not looked at, so only what is stored has to be checked
      have held : P buffers₁ := deliver_preserves (P := fun (buffers : μ) (_ : Named Tensor) =>
          P buffers)
        (fun name member tensor found before _ after holds _ kept =>
          stored _ _ outputs next (.here runs served.connected) served.answered name member tensor
            found before after holds kept)
        (fun _ _ _ _ _ _ holds _ => holds) start served.delivered
      exact ih (fun invocation asked outputs next asks => stored invocation asked outputs next
        (.later runs served asks)) held passed
    · exact ih (fun invocation asked outputs next asks => stored invocation asked outputs next
        (.idle skipped asks)) start passed

end StagedDecoding.Pipeline
