import Mathlib.Data.List.Forall2
import StagedDecoding.Failure

/-! Successful runs of operations, taken apart.

`Returns` holds of an operation, the state before it, its result and the state after it. Every way
to build an operation has a law that tells when the whole returns, so that a run of a composite
operation splits into runs of its parts. `Except` has the same laws, and `Fails` has those of a run
that breaks off.
-/

set_option autoImplicit false

namespace StagedDecoding

namespace Outcome

variable {ε α β : Type}

theorem bind_eq_ok {x : Except ε α} {f : α → Except ε β} {b : β} :
    (x >>= f) = .ok b ↔ ∃ a, x = .ok a ∧ f a = .ok b := by
  cases x <;> simp [bind, Except.bind]

theorem map_eq_ok {x : Except ε α} {f : α → β} {b : β} :
    (f <$> x) = .ok b ↔ ∃ a, x = .ok a ∧ f a = b := by
  cases x <;> simp [Functor.map, Except.map]

theorem pure_eq_ok {a b : α} : (pure a : Except ε α) = .ok b ↔ a = b := by
  simp [pure, Except.pure]

theorem throw_eq_ok {failure : ε} {b : α} :
    (throw failure : Except ε α) = .ok b ↔ False := by
  simp [throw, throwThe, MonadExceptOf.throw]

theorem throw_bind (failure : ε) (f : α → Except ε β) :
    ((throw failure : Except ε α) >>= f) = throw failure := rfl

theorem guard_eq_ok {condition : Prop} [Decidable condition] {failure : ε} {rest : Except ε α}
    {b : α} :
    (if condition then throw failure else rest) = .ok b ↔ ¬ condition ∧ rest = .ok b := by
  by_cases holds : condition <;> simp [holds, throw_eq_ok]

theorem mapM_eq_ok {f : α → Except ε β} {values : List α} {results : List β} :
    values.mapM f = .ok results ↔ List.Forall₂ (fun a b => f a = .ok b) values results := by
  induction values generalizing results with
  | nil => rw [List.mapM_nil, pure_eq_ok, List.forall₂_nil_left_iff, eq_comm]
  | cons value rest ih =>
    simp only [List.mapM_cons, bind_eq_ok, pure_eq_ok, ih, List.forall₂_cons_left_iff]
    constructor
    · rintro ⟨first, found, others, tail, rfl⟩
      exact ⟨first, others, found, tail, rfl⟩
    · rintro ⟨first, others, found, tail, rfl⟩
      exact ⟨first, found, others, tail, rfl⟩

theorem toOption_eq_some {x : Except ε α} {a : α} : x.toOption = some a ↔ x = .ok a := by
  cases x <;> simp [Except.toOption]

theorem fetch_eq_ok {values : List α} {i : Nat} {value : α} :
    fetch values i = .ok value ↔ values[i]? = some value := by
  unfold fetch
  cases values[i]? <;> simp

theorem store_eq_ok {values after : List α} {i : Nat} {value : α} :
    store values i value = .ok after ↔ i < values.length ∧ values.set i value = after := by
  unfold store
  split <;> simp [*]

theorem divide_eq_ok {n divisor : Nat} {parts : Nat × Nat} :
    divide n divisor = .ok parts ↔ divisor ≠ 0 ∧ (n / divisor, n % divisor) = parts := by
  unfold divide
  split <;> simp [*]

theorem mapM_range_map_eq_ok {f : Nat → Except ε α} {g : Nat → α → β} {results : List β}
    {count : Nat} :
    (List.range count).mapM (fun i => g i <$> f i) = .ok results ↔
      ∃ values, (List.range count).mapM f = .ok values ∧ values.mapIdx g = results := by
  simp only [mapM_eq_ok, map_eq_ok]
  constructor
  · intro each
    have counted : count = results.length := by simpa using each.length_eq
    have found : ∀ i : Fin count, ∃ a, f i = .ok a ∧ g i a = results.get (i.cast counted) := by
      intro i
      simpa using each.get (i := i) (by simp) (counted ▸ i.isLt)
    choose value here same using found
    refine ⟨List.ofFn value, List.forall₂_iff_get.mpr ⟨by simp, fun i below _ => ?_⟩,
      List.ext_getElem (by simp [counted]) fun i _ below => ?_⟩
    · simpa using here ⟨i, by simpa using below⟩
    · simpa using same ⟨i, counted ▸ below⟩
  · rintro ⟨values, each, rfl⟩
    refine List.forall₂_iff_get.mpr ⟨by simpa using each.length_eq, fun i below there => ?_⟩
    have there : i < values.length := by simpa using there
    exact ⟨values[i], by simpa using each.get below there, by simp⟩

theorem mapM_range_eq_ok {f : Nat → Except ε α} {values found : List α} {count : Nat}
    (each : ∀ i a, f i = .ok a ↔ values[i]? = some a) :
    (List.range count).mapM f = .ok found ↔ count ≤ values.length ∧ values.take count = found := by
  rw [mapM_eq_ok]
  constructor
  · intro looked
    have counted : count = found.length := by simpa using looked.length_eq
    have there : ∀ i (here : i < found.length), values[i]? = some found[i] := by
      intro i here
      simpa [each] using looked.get (by simpa [counted] using here) here
    have enough : count ≤ values.length := by
      by_contra short
      have inside : values.length < found.length := counted ▸ Nat.lt_of_not_le short
      exact Nat.lt_irrefl _ (List.getElem?_eq_some_iff.mp (there _ inside)).1
    refine ⟨enough, List.ext_getElem ?_ fun i _ here => ?_⟩
    · rw [List.length_take, Nat.min_eq_left enough, counted]
    · rw [List.getElem_take]
      exact (List.getElem?_eq_some_iff.mp (there i here)).2
  · rintro ⟨enough, rfl⟩
    refine List.forall₂_iff_get.mpr ⟨by simp [enough], fun i here there => ?_⟩
    have inside : i < values.length := by
      rw [List.length_range] at here
      exact Nat.lt_of_lt_of_le here enough
    simp [each, inside]

theorem foldlM_store_eq_ok {f : Nat → Except Failure α} {values before after : List α} {count : Nat}
    (each : ∀ i a, f i = .ok a ↔ values[i]? = some a) :
    (List.range count).foldlM (fun stored i => do store stored i (← f i)) before = .ok after ↔
      count ≤ values.length ∧ count ≤ before.length ∧
        values.take count ++ before.drop count = after := by
  induction count generalizing after with
  | zero => simp [pure_eq_ok]
  | succ count ih =>
    rw [List.range_succ, List.foldlM_append, bind_eq_ok]
    simp only [List.foldlM_cons, List.foldlM_nil, bind_eq_ok, pure_eq_ok, ih, store_eq_ok, each]
    have next : ∀ (here : count < values.length), count < before.length →
        (values.take count ++ before.drop count).set count values[count] =
          values.take (count + 1) ++ before.drop (count + 1) := by
      intro here there
      have taken : (values.take count).length = count := by
        rw [List.length_take, Nat.min_eq_left (Nat.le_of_lt here)]
      rw [List.set_append, if_neg (by omega), taken, Nat.sub_self, List.drop_eq_getElem_cons there,
        List.set_cons_zero, List.take_succ_eq_append_getElem here, List.append_assoc]
      rfl
    constructor
    · rintro ⟨_, ⟨-, -, rfl⟩, _, ⟨value, found, inside, rfl⟩, rfl⟩
      obtain ⟨here, rfl⟩ := List.getElem?_eq_some_iff.mp found
      have there : count < before.length := by
        simp only [List.length_append, List.length_take, List.length_drop] at inside
        omega
      exact ⟨here, there, (next here there).symm⟩
    · rintro ⟨here, there, rfl⟩
      refine ⟨_, ⟨Nat.le_of_succ_le here, Nat.le_of_succ_le there, rfl⟩, _,
        ⟨values[count], List.getElem?_eq_getElem here, ?_, rfl⟩, next here there⟩
      simp only [List.length_append, List.length_take, List.length_drop]
      omega

theorem tensorStep_eq_ok {x : Except TensorFault α} {a : α} :
    tensorStep x = .ok a ↔ x = .ok a := by
  cases x <;> simp [tensorStep]

end Outcome

namespace Step

variable {σ τ α β : Type}

/-- The operation succeeds on `before` with the given result and leaves `after`. -/
def Returns (step : Step σ α) (before : σ) (result : α) (after : σ) : Prop :=
  @Eq (Except Failure α × σ) (step before) (.ok result, after)

theorem bind_eq (step : Step σ α) (next : α → Step σ β) (before : σ) :
    @Eq (Except Failure β × σ) ((step >>= next) before)
      (match step before with
      | (.ok a, state) => next a state
      | (.error failure, state) => (.error failure, state)) := by
  simp only [bind, ExceptT.bind, ExceptT.mk, StateT.bind, ExceptT.bindCont]
  rcases step before with ⟨_ | a, state⟩ <;> rfl

theorem bind_of_ok {x : Except Failure α} {a : α} (found : x = .ok a) (next : α → Step σ β)
    (before : σ) :
    @Eq (Except Failure β × σ) ((liftM x >>= next) before) (next a before) := by
  rw [found]
  rfl

theorem returns_bind {step : Step σ α} {next : α → Step σ β} {before after : σ} {result : β} :
    Returns (step >>= next) before result after ↔
      ∃ middle state, Returns step before middle state ∧ Returns (next middle) state result after := by
  unfold Returns
  rw [bind_eq]
  rcases step before with ⟨_ | a, state⟩ <;> simp

theorem returns_unique {step : Step σ α} {before first second : σ} {a b : α}
    (ran : Returns step before a first) (again : Returns step before b second) :
    a = b ∧ first = second := by
  obtain ⟨result, state⟩ := Prod.mk.inj (Eq.trans (Eq.symm ran) again)
  exact ⟨Except.ok.inj result, state⟩

theorem returns_pure {a b : α} {before after : σ} :
    Returns (pure a) before b after ↔ a = b ∧ before = after := by
  change (Except.ok a, before) = (Except.ok b, after) ↔ _
  simp

theorem returns_throw {failure : Failure} {before after : σ} {b : α} :
    Returns (throw failure) before b after ↔ False := by
  change (Except.error failure, before) = (Except.ok b, after) ↔ _
  simp

theorem throw_bind (failure : Failure) (next : α → Step σ β) :
    ((throw failure : Step σ α) >>= next) = throw failure := rfl

theorem returns_guard {condition : Prop} [Decidable condition] {failure : Failure}
    {rest : Step σ α} {before after : σ} {b : α} :
    Returns (if condition then throw failure else rest) before b after ↔
      ¬ condition ∧ Returns rest before b after := by
  by_cases holds : condition <;> simp [holds, returns_throw]

theorem returns_when {condition : Prop} [Decidable condition] {step : Step σ Unit}
    {rest : Step σ α} {before after : σ} {a : α} :
    Returns (if condition then step >>= fun _ => rest else rest) before a after ↔
      ∃ middle, (if condition then Returns step before () middle else middle = before) ∧
        Returns rest middle a after := by
  by_cases holds : condition
  · simp only [holds, if_true, returns_bind]
    exact ⟨fun ⟨_, middle, ran⟩ => ⟨middle, ran⟩, fun ⟨middle, ran⟩ => ⟨(), middle, ran⟩⟩
  · simp [holds]

theorem when_unique {condition : Prop} [Decidable condition] {step : Step σ Unit}
    {before first second : σ}
    (ran : if condition then Returns step before () first else first = before)
    (again : if condition then Returns step before () second else second = before) :
    first = second := by
  split at ran
  · next holds =>
    rw [if_pos holds] at again
    exact (returns_unique ran again).2
  · next fails =>
    rw [if_neg fails] at again
    exact ran.trans again.symm

theorem returns_whenBoth {condition : Prop} [Decidable condition] {first second : Step σ Unit}
    {rest : Step σ α} {before after : σ} {a : α} :
    Returns (if condition then first >>= fun _ => second >>= fun _ => rest else rest) before a
        after ↔
      ∃ middle, (if condition then
          ∃ state, Returns first before () state ∧ Returns second state () middle
        else middle = before) ∧ Returns rest middle a after := by
  by_cases holds : condition
  · simp only [holds, if_true, returns_bind]
    constructor
    · rintro ⟨_, state, here, _, middle, there, ran⟩
      exact ⟨middle, ⟨state, here, there⟩, ran⟩
    · rintro ⟨middle, ⟨state, here, there⟩, ran⟩
      exact ⟨(), state, here, (), middle, there, ran⟩
  · simp [holds]

theorem returns_get {before after found : σ} :
    Returns get before found after ↔ before = found ∧ before = after := by
  change (Except.ok before, before) = (Except.ok found, after) ↔ _
  simp

theorem returns_set {before after next : σ} {u : PUnit} :
    Returns (set next) before u after ↔ next = after := by
  change (Except.ok PUnit.unit, next) = (Except.ok u, after) ↔ _
  simp

theorem returns_modify {before after : σ} {f : σ → σ} {u : PUnit} :
    Returns (modify f) before u after ↔ f before = after := by
  change (Except.ok PUnit.unit, f before) = (Except.ok u, after) ↔ _
  simp

theorem returns_lift {x : Except Failure α} {before after : σ} {a : α} :
    Returns (liftM x) before a after ↔ x = .ok a ∧ before = after := by
  change (x, before) = (Except.ok a, after) ↔ _
  simp

theorem returns_within {part : σ → τ} {replace : τ → σ → σ} {step : Step τ α} {before after : σ}
    {a : α} :
    Returns (within part replace step) before a after ↔
      ∃ changed, Returns step (part before) a changed ∧ replace changed before = after := by
  unfold Returns within
  rcases step (part before) with ⟨result, changed⟩
  simp

theorem returns_withinOption {part : σ → Option τ} {replace : τ → σ → σ} {step : Step τ Unit}
    {before after : σ} {u : Unit} :
    Returns (withinOption part replace step) before u after ↔
      (part before = none ∧ before = after) ∨
      ∃ value changed, part before = some value ∧ Returns step value () changed ∧
        replace changed before = after := by
  unfold Returns withinOption
  cases found : part before with
  | none => simp
  | some value =>
    rcases ran : step value with ⟨result, changed⟩
    simp [ran]

theorem returns_attempt {change : σ → Except Failure σ} {before after : σ} {u : Unit} :
    Returns (attempt change) before u after ↔ change before = .ok after := by
  unfold Returns attempt
  cases change before <;> simp

theorem returns_inspect {view : σ → Except Failure α} {before after : σ} {a : α} :
    Returns (inspect view) before a after ↔ view before = .ok a ∧ before = after := by
  simp [Returns, inspect]

theorem returns_of_result {step : Step σ α} {before : σ} {result : α}
    (found : (step before).1.toOption = some result) :
    Returns step before result (step before).2 :=
  Prod.ext (Outcome.toOption_eq_some.mp found) rfl

/-- The operation fails on `before`, and leaves `after` nevertheless. -/
def Fails (step : Step σ α) (before : σ) (failure : Failure) (after : σ) : Prop :=
  @Eq (Except Failure α × σ) (step before) (.error failure, after)

theorem returns_or_fails (step : Step σ α) (before : σ) :
    (∃ result, Returns step before result (step before).2) ∨
      ∃ failure, Fails step before failure (step before).2 := by
  unfold Returns Fails
  rcases step before with ⟨failure | result, after⟩
  · exact .inr ⟨failure, rfl⟩
  · exact .inl ⟨result, rfl⟩

theorem fails_bind {step : Step σ α} {next : α → Step σ β} {before after : σ}
    {failure : Failure} :
    Fails (step >>= next) before failure after ↔ Fails step before failure after ∨
      ∃ middle state, Returns step before middle state ∧
        Fails (next middle) state failure after := by
  unfold Fails Returns
  rw [bind_eq]
  rcases step before with ⟨_ | a, state⟩ <;> simp

theorem fails_pure {a : α} {before after : σ} {failure : Failure} :
    Fails (pure a) before failure after ↔ False := by
  change (Except.ok a, before) = (Except.error failure, after) ↔ _
  simp

theorem fails_throw {thrown failure : Failure} {before after : σ} :
    Fails (throw thrown : Step σ α) before failure after ↔ thrown = failure ∧ before = after := by
  change (Except.error thrown, before) = (Except.error failure, after) ↔ _
  simp

theorem fails_get {before after : σ} {failure : Failure} :
    Fails get before failure after ↔ False := by
  change (Except.ok before, before) = (Except.error failure, after) ↔ _
  simp

theorem fails_set {next before after : σ} {failure : Failure} :
    Fails (set next) before failure after ↔ False := by
  change (Except.ok PUnit.unit, next) = (Except.error failure, after) ↔ _
  simp

theorem fails_modify {f : σ → σ} {before after : σ} {failure : Failure} :
    Fails (modify f) before failure after ↔ False := by
  change (Except.ok PUnit.unit, f before) = (Except.error failure, after) ↔ _
  simp

theorem fails_lift {x : Except Failure α} {before after : σ} {failure : Failure} :
    Fails (liftM x) before failure after ↔ x = .error failure ∧ before = after := by
  change (x, before) = (Except.error failure, after) ↔ _
  simp

theorem fails_within {part : σ → τ} {replace : τ → σ → σ} {step : Step τ α} {before after : σ}
    {failure : Failure} :
    Fails (within part replace step) before failure after ↔
      ∃ changed, Fails step (part before) failure changed ∧ replace changed before = after := by
  unfold Fails within
  rcases step (part before) with ⟨result, changed⟩
  simp

theorem fails_withinOption {part : σ → Option τ} {replace : τ → σ → σ} {step : Step τ Unit}
    {before after : σ} {failure : Failure} :
    Fails (withinOption part replace step) before failure after ↔
      ∃ value changed, part before = some value ∧ Fails step value failure changed ∧
        replace changed before = after := by
  unfold Fails withinOption
  cases found : part before with
  | none => simp
  | some value =>
    rcases ran : step value with ⟨result, changed⟩
    simp [ran]

theorem fails_attempt {change : σ → Except Failure σ} {before after : σ} {failure : Failure} :
    Fails (attempt change) before failure after ↔
      change before = .error failure ∧ before = after := by
  unfold Fails attempt
  cases change before <;> simp

end Step

end StagedDecoding
