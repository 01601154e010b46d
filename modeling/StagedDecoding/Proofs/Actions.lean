import StagedDecoding.Proofs.BeamBounds
import StagedDecoding.Proofs.Finished
import StagedDecoding.Proofs.Truncation

/-! Every call ends with a value or a failure of the caller.

A strategy that a constructor accepts can be called in any order and with any arguments, and again
after a call that failed half-way. A call that does not fit is refused with a failure that tells
what was wrong. None breaks an assumption of the library: nothing is ever looked up where nothing
is, and no count goes below zero.
-/

set_option autoImplicit false

namespace StagedDecoding.Strategy

inductive Action where
  | setScores (tensor : Tensor)
  | constrainLength (minLength : Nat)
  | penalize (penalty : Float32)
  | selectTop
  | sampleTop (k : Nat) (temperature : Float32)
  | sampleShare (p temperature : Float32)
  | sampleTopShare (k : Nat) (p temperature : Float32)
  | dropLast (count : Nat)
  | setNextTokens (tokens : List Token)
  | checkCandidates (tokens : List Token) (count : Nat)
  | constrainLengthAt (minLength position : Nat)
  | penalizeAt (penalty : Float32) (position : Nat)
  | finalize (count : Nat)
  | sequence (index : Nat)

def perform : Action → Step Strategy Unit
  | .setScores tensor => setScores tensor
  | .constrainLength minLength => constrainLength minLength
  | .penalize penalty => penalize penalty
  | .selectTop => selectTop
  | .sampleTop k temperature => sampleTop k temperature
  | .sampleShare p temperature => sampleShare p temperature
  | .sampleTopShare k p temperature => sampleTopShare k p temperature
  | .dropLast count => dropLast count
  | .setNextTokens tokens => setNextTokens tokens
  | .checkCandidates tokens count => do
    let _ ← checkCandidates tokens count
    return
  | .constrainLengthAt minLength position => constrainLengthAt minLength position
  | .penalizeAt penalty position => penalizeAt penalty position
  | .finalize count => do
    let _ ← finalize count
    return
  | .sequence index => do
    let _ ← sequence index
    return

/-- Make calls one after the other and go on after those that fail. -/
def conduct : List Action → Strategy → List (Except Failure Unit) × Strategy
  | [], strategy => ([], strategy)
  | action :: rest, strategy =>
    let (outcome, strategy) := perform action strategy
    let (outcomes, strategy) := conduct rest strategy
    (outcome :: outcomes, strategy)

/-- A strategy that one of the constructors accepts. -/
inductive Started (settings : Settings) (inputIds : List Token) : Strategy → Prop where
  | greedy {g : Greedy} : Greedy.start settings inputIds false = .ok g →
      Started settings inputIds (.greedy g)
  | beam {b : Beam} : Beam.start settings inputIds = .ok b → Started settings inputIds (.beam b)
  | speculative {s : Speculative} : Speculative.start settings inputIds = .ok s →
      Started settings inputIds (.speculative s)

theorem started_of_create {settings : Settings} {inputIds : List Token} {speculative : Bool}
    {strategy : Strategy} (created : create settings inputIds speculative = .ok strategy) :
    Started settings inputIds strategy := by
  unfold create at created
  split at created
  · obtain ⟨s, started, rfl⟩ := Outcome.map_eq_ok.mp created
    exact .speculative started
  · split at created
    · obtain ⟨b, started, rfl⟩ := Outcome.map_eq_ok.mp created
      exact .beam started
    · obtain ⟨g, started, rfl⟩ := Outcome.map_eq_ok.mp created
      exact .greedy started

section

variable {α : Type} {greedy : Step Greedy α} {beam : Step Beam α}
  {speculative : Step Speculative α} {right : α → Strategy → Prop}
  {wrong : Failure → Strategy → Prop}

theorem ends_greedy {g : Greedy} :
    Step.Ends (byCases greedy beam speculative) (.greedy g) right wrong ↔
      Step.Ends greedy g (fun a g' => right a (.greedy g'))
        fun failure g' => wrong failure (.greedy g') := by
  simp only [Step.Ends, byCases]
  rcases greedy g with ⟨_ | _, _⟩ <;> rfl

theorem ends_beam {b : Beam} :
    Step.Ends (byCases greedy beam speculative) (.beam b) right wrong ↔
      Step.Ends beam b (fun a b' => right a (.beam b'))
        fun failure b' => wrong failure (.beam b') := by
  simp only [Step.Ends, byCases]
  rcases beam b with ⟨_ | _, _⟩ <;> rfl

theorem ends_speculative {s : Speculative} :
    Step.Ends (byCases greedy beam speculative) (.speculative s) right wrong ↔
      Step.Ends speculative s (fun a s' => right a (.speculative s'))
        fun failure s' => wrong failure (.speculative s') := by
  simp only [Step.Ends, byCases]
  rcases speculative s with ⟨_ | _, _⟩ <;> rfl

end

/-- The sizes that the operations of a strategy rely on. -/
inductive Sized (settings : Settings) : Strategy → Prop where
  | greedy {g : Greedy} : g.Sized settings (fun _ => True) → Sized settings (.greedy g)
  | beam {b : Beam} : b.Sized settings → Sized settings (.beam b)
  | speculative {s : Speculative} : s.Sized settings → Sized settings (.speculative s)

variable {α : Type} {settings : Settings} {strategy : Strategy}

theorem Sized.settings_eq (sized : strategy.Sized settings) : strategy.settings = settings := by
  cases sized with
  | greedy sized => exact sized.fixed
  | beam sized => exact sized.fixed
  | speculative sized => exact sized.inner.fixed

theorem Started.sized {inputIds : List Token} (started : Started settings inputIds strategy) :
    strategy.Sized strategy.settings := by
  have sized : ∃ settings, strategy.Sized settings := by
    cases started with
    | greedy began => exact ⟨_, .greedy (.start began)⟩
    | beam began => exact ⟨_, .beam (.start began)⟩
    | speculative began => exact ⟨_, .speculative (.start began)⟩
  obtain ⟨own, sized⟩ := sized
  exact sized.settings_eq.symm ▸ sized

theorem Sized.byCases {greedy : Step Greedy α} {beam : Step Beam α}
    {speculative : Step Speculative α} (sized : strategy.Sized settings)
    (onGreedy : ∀ {g}, g.Sized settings (fun _ => True) →
      Step.Safe (Greedy.Sized settings fun _ => True) greedy g)
    (onBeam : ∀ {b}, b.Sized settings → Step.Safe (Beam.Sized settings) beam b)
    (onSpeculative : ∀ {s}, s.Sized settings →
      Step.Safe (Speculative.Sized settings) speculative s) :
    Step.Safe (Sized settings) (Strategy.byCases greedy beam speculative) strategy := by
  cases sized with
  | greedy sized =>
    exact ends_greedy.mpr ((onGreedy sized).imp (fun _ _ => .greedy)
      fun _ _ ended => ⟨ended.1, .greedy ended.2⟩)
  | beam sized =>
    exact ends_beam.mpr ((onBeam sized).imp (fun _ _ => .beam)
      fun _ _ ended => ⟨ended.1, .beam ended.2⟩)
  | speculative sized =>
    exact ends_speculative.mpr ((onSpeculative sized).imp (fun _ _ => .speculative)
      fun _ _ ended => ⟨ended.1, .speculative ended.2⟩)

theorem refused_safe {σ : Type} {invariant : σ → Prop} {state : σ} {kind : StrategyKind}
    {operation : Operation} (holds : invariant state) :
    Step.Safe invariant (throw (.unsupportedOperation kind operation) : Step σ α) state :=
  Step.ends_throw.mpr ⟨trivial, holds⟩

theorem Sized.rowBased {operation : Operation} {step : Step Greedy α}
    (sized : strategy.Sized settings)
    (safe : ∀ {known g}, g.Sized settings known → Step.Safe (Greedy.Sized settings known) step g) :
    Step.Safe (Sized settings) (Strategy.rowBased operation step) strategy :=
  sized.byCases safe refused_safe fun sized => sized.inside (safe sized.inner)

theorem Sized.draftOnly {operation : Operation} {step : Step Speculative α}
    (sized : strategy.Sized settings)
    (safe : ∀ {s}, s.Sized settings → Step.Safe (Speculative.Sized settings) step s) :
    Step.Safe (Sized settings) (Strategy.draftOnly operation step) strategy :=
  sized.byCases refused_safe refused_safe safe

theorem discard_safe {step : Step Strategy α} (safe : Step.Safe (Sized settings) step strategy) :
    Step.Safe (Sized settings) (do let _ ← step; return) strategy := by
  rw [Step.Safe, Step.ends_bind]
  exact safe

theorem Sized.perform (sized : strategy.Sized settings) (action : Action) :
    Step.Safe (Sized settings) (Strategy.perform action) strategy := by
  cases action with
  | setScores tensor =>
    refine sized.byCases (fun sized => ?_) (·.setScores) (·.setScores)
    exact sized.setScores.imp (fun _ _ loaded => loaded)
      fun _ _ ended => ⟨ended.1, ended.2 ▸ sized⟩
  | constrainLength minLength =>
    exact sized.byCases (·.constrainLength minLength) (·.constrainLength minLength)
      fun sized => sized.inside (sized.inner.constrainLength minLength)
  | penalize penalty =>
    exact sized.byCases (·.penalize penalty) (·.penalize penalty)
      fun sized => sized.inside (sized.inner.penalize penalty)
  | selectTop =>
    exact sized.byCases (·.selectTop) (·.selectTop) fun sized => sized.inside sized.inner.selectTop
  | sampleTop k temperature => exact sized.rowBased (·.sample _)
  | sampleShare p temperature => exact sized.rowBased (·.sample _)
  | sampleTopShare k p temperature => exact sized.rowBased (·.sample _)
  | dropLast count => exact sized.rowBased (·.dropLast count)
  | setNextTokens tokens => exact sized.rowBased (·.setNextTokens tokens)
  | checkCandidates tokens count => exact discard_safe (sized.draftOnly (·.checkCandidates _ _))
  | constrainLengthAt minLength position => exact sized.draftOnly (·.constrainLengthAt _ _)
  | penalizeAt penalty position => exact sized.draftOnly (·.penalizeAt _ _)
  | finalize count =>
    exact discard_safe (sized.byCases refused_safe (·.finalize count) refused_safe)
  | sequence index =>
    exact discard_safe (sized.byCases (·.sequence index) (·.sequence index)
      fun sized => sized.inside (sized.inner.sequence index))

theorem Sized.conduct (sized : strategy.Sized settings) (actions : List Action) :
    (∀ outcome ∈ (Strategy.conduct actions strategy).1,
      ∀ kind, outcome ≠ .error (.defect kind)) ∧
      (Strategy.conduct actions strategy).2.Sized settings := by
  -- along the calls; the sizes are kept also by a call that fails
  induction actions generalizing strategy with
  | nil => exact ⟨by simp [Strategy.conduct], sized⟩
  | cons action rest ih =>
    have first : (∀ kind, (Strategy.perform action strategy).1 ≠ .error (.defect kind)) ∧
        (Strategy.perform action strategy).2.Sized settings := by
      obtain ⟨returned, refused⟩ := Step.ends_iff.mp (sized.perform action)
      obtain ⟨u, ran⟩ | ⟨failure, failed⟩ :=
        Step.returns_or_fails (Strategy.perform action) strategy
      · refine ⟨fun kind same => ?_, returned u _ ran⟩
        rw [ran] at same
        cases same
      · obtain ⟨proper, kept⟩ := refused failure _ failed
        refine ⟨fun kind same => ?_, kept⟩
        rw [failed] at same
        obtain rfl := Except.error.inj same
        exact proper
    obtain ⟨later, ended⟩ := ih first.2
    exact ⟨List.forall_mem_cons.mpr ⟨first.1, later⟩, ended⟩

end StagedDecoding.Strategy
