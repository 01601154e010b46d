import StagedDecoding.Proofs.Step

/-! Everything that a run can come to.

`Ends` holds of an operation on a state when what it returns is right, or else the failure is an
accepted one; both may speak about the state that is left. Every way to build an operation has a
law that tells when the whole ends well, so that a condition on a composite operation turns into
one on its first part. A safe operation keeps an invariant whatever it comes to, and no assumption
of the library itself is broken on the way.
-/

set_option autoImplicit false

namespace StagedDecoding

/-- The failure is not a broken assumption of this library. -/
def Failure.Proper : Failure → Prop
  | .defect _ => False
  | _ => True

namespace Outcome

variable {ε α β : Type} {right : α → Prop} {wrong : ε → Prop}

/-- A value is right, or a failure is accepted. -/
def Ends (x : Except ε α) (right : α → Prop) (wrong : ε → Prop) : Prop :=
  match x with
  | .ok a => right a
  | .error failure => wrong failure

theorem ends_iff {x : Except ε α} :
    Ends x right wrong ↔
      (∀ a, x = .ok a → right a) ∧ ∀ failure, x = .error failure → wrong failure := by
  cases x <;> simp [Ends]

theorem ends_bind {x : Except ε α} {f : α → Except ε β} {right : β → Prop} :
    Ends (x >>= f) right wrong ↔ Ends x (fun a => Ends (f a) right wrong) wrong := by
  cases x <;> rfl

theorem ends_pure {a : α} : Ends (pure a) right wrong ↔ right a := Iff.rfl

theorem Ends.imp {x : Except ε α} {right' : α → Prop} {wrong' : ε → Prop}
    (ends : Ends x right wrong) (better : ∀ a, right a → right' a)
    (worse : ∀ failure, wrong failure → wrong' failure) : Ends x right' wrong' := by
  cases x with
  | ok a => exact better a ends
  | error failure => exact worse failure ends

theorem ends_of_ok {x : Except ε α} {a : α} (found : x = .ok a) (holds : right a) :
    Ends x right wrong := by
  rw [found]
  exact holds

theorem foldlM_preserves {σ : Type} {P : σ → Prop} {f : σ → α → Except ε σ} {values : List α}
    {before after : σ}
    (each : ∀ a ∈ values, ∀ before after, P before → f before a = .ok after → P after)
    (start : P before) (ran : values.foldlM f before = .ok after) : P after := by
  induction values generalizing before with
  | nil => exact Except.ok.inj ran ▸ start
  | cons value rest ih =>
    rw [List.foldlM_cons, bind_eq_ok] at ran
    obtain ⟨middle, first, ran⟩ := ran
    exact ih (fun a member => each a (by simp [member])) (each value (by simp) _ _ start first) ran

/-- What one step of a fold reaches and no step loses, the fold reaches. Steps may rely on what all
of them preserve. -/
theorem foldlM_reaches {σ : Type} {I P : σ → Prop} {f : σ → α → Except ε σ} {values : List α}
    {a : α} {before after : σ} (member : a ∈ values)
    (still : ∀ a ∈ values, ∀ before after, I before → f before a = .ok after → I after)
    (reaches : ∀ before after, I before → f before a = .ok after → P after)
    (keeps : ∀ a ∈ values, ∀ before after, I before → P before → f before a = .ok after → P after)
    (start : I before) (ran : values.foldlM f before = .ok after) : P after := by
  induction values generalizing before with
  | nil => cases member
  | cons value rest ih =>
    rw [List.foldlM_cons, bind_eq_ok] at ran
    obtain ⟨middle, first, ran⟩ := ran
    have still' : ∀ a ∈ rest, _ := fun a member => still a (by simp [member])
    have keeps' : ∀ a ∈ rest, _ := fun a member => keeps a (by simp [member])
    have held : I middle := still value (by simp) _ _ start first
    rcases List.mem_cons.mp member with rfl | later
    · refine (foldlM_preserves (P := fun state => I state ∧ P state) ?_
        ⟨held, reaches _ _ start first⟩ ran).2
      exact fun a member _ _ both step =>
        ⟨still' a member _ _ both.1 step, keeps' a member _ _ both.1 both.2 step⟩
    · exact ih later still' keeps' held ran

theorem ends_mapM {f : α → Except ε β} {values : List α}
    (each : ∀ a ∈ values, Ends (f a) (fun _ => True) wrong) :
    Ends (values.mapM f) (fun _ => True) wrong := by
  induction values with
  | nil => rw [List.mapM_nil]; trivial
  | cons value rest ih =>
    rw [List.mapM_cons, ends_bind]
    refine (each value (by simp)).imp (fun _ _ => ?_) fun _ accepted => accepted
    rw [ends_bind]
    exact (ih fun a member => each a (by simp [member])).imp (fun _ _ => trivial)
      fun _ accepted => accepted

theorem ends_fetch {values : List α} {i : Nat} {wrong : Failure → Prop}
    (inside : i < values.length) (holds : right values[i]) : Ends (fetch values i) right wrong :=
  ends_of_ok (fetch_eq_ok.mpr (List.getElem?_eq_getElem inside)) holds

end Outcome

namespace Step

variable {σ τ α β : Type} {before : σ} {right : α → σ → Prop} {wrong : Failure → σ → Prop}

def Ends (step : Step σ α) (before : σ) (right : α → σ → Prop) (wrong : Failure → σ → Prop) :
    Prop :=
  match (step before : Except Failure α × σ) with
  | (.ok a, after) => right a after
  | (.error failure, after) => wrong failure after

theorem ends_iff {step : Step σ α} :
    Ends step before right wrong ↔ (∀ a after, Returns step before a after → right a after) ∧
      ∀ failure after, Fails step before failure after → wrong failure after := by
  unfold Ends Returns Fails
  rcases step before with ⟨_ | _, _⟩ <;> simp

theorem ends_bind {step : Step σ α} {next : α → Step σ β} {right : β → σ → Prop} :
    Ends (step >>= next) before right wrong ↔
      Ends step before (fun a middle => Ends (next a) middle right wrong) wrong := by
  unfold Ends
  rw [bind_eq]
  rcases step before with ⟨_ | _, _⟩ <;> rfl

theorem ends_pure {a : α} : Ends (pure a) before right wrong ↔ right a before := Iff.rfl

theorem ends_throw {failure : Failure} :
    Ends (throw failure : Step σ α) before right wrong ↔ wrong failure before := Iff.rfl

theorem ends_get {right : σ → σ → Prop} : Ends get before right wrong ↔ right before before :=
  Iff.rfl

theorem ends_set {next : σ} {right : PUnit → σ → Prop} :
    Ends (set next) before right wrong ↔ right ⟨⟩ next := Iff.rfl

theorem ends_modify {f : σ → σ} {right : PUnit → σ → Prop} :
    Ends (modify f) before right wrong ↔ right ⟨⟩ (f before) := Iff.rfl

theorem ends_lift {x : Except Failure α} :
    Ends (liftM x) before right wrong ↔
      Outcome.Ends x (fun a => right a before) fun failure => wrong failure before := by
  cases x <;> rfl

theorem ends_within {part : σ → τ} {replace : τ → σ → σ} {step : Step τ α} :
    Ends (within part replace step) before right wrong ↔
      Ends step (part before) (fun a changed => right a (replace changed before))
        fun failure changed => wrong failure (replace changed before) := by
  unfold Ends within
  rcases step (part before) with ⟨_ | _, _⟩ <;> rfl

theorem ends_withinOption {part : σ → Option τ} {replace : τ → σ → σ} {step : Step τ Unit}
    {right : Unit → σ → Prop} :
    Ends (withinOption part replace step) before right wrong ↔
      (part before = none → right () before) ∧ ∀ value, part before = some value →
        Ends step value (fun u changed => right u (replace changed before))
          fun failure changed => wrong failure (replace changed before) := by
  unfold Ends withinOption
  cases part before with
  | none => simp
  | some value =>
    simp only [reduceCtorEq, false_implies, true_and, Option.some.injEq, forall_eq']
    rcases step value with ⟨_ | _, _⟩ <;> rfl

theorem ends_attempt {change : σ → Except Failure σ} {right : Unit → σ → Prop} :
    Ends (attempt change) before right wrong ↔
      Outcome.Ends (change before) (right ()) fun failure => wrong failure before := by
  unfold Ends attempt
  cases change before <;> rfl

theorem ends_inspect {view : σ → Except Failure α} :
    Ends (inspect view) before right wrong ↔
      Outcome.Ends (view before) (fun a => right a before) fun failure => wrong failure before := by
  unfold Ends inspect
  cases view before <;> rfl

theorem Ends.imp {step : Step σ α} {right' : α → σ → Prop} {wrong' : Failure → σ → Prop}
    (ends : Ends step before right wrong) (better : ∀ a after, right a after → right' a after)
    (worse : ∀ failure after, wrong failure after → wrong' failure after) :
    Ends step before right' wrong' := by
  rw [ends_iff] at ends ⊢
  exact ⟨fun a after ran => better a after (ends.1 a after ran),
    fun failure after ran => worse failure after (ends.2 failure after ran)⟩

theorem ends_of_returns {step : Step σ α} {a : α} {after : σ} (ran : Returns step before a after)
    (holds : right a after) : Ends step before right wrong := by
  unfold Returns at ran
  unfold Ends
  rw [ran]
  exact holds

theorem ends_of_fails {step : Step σ α} {failure : Failure} {after : σ}
    (failed : Fails step before failure after) (holds : wrong failure after) :
    Ends step before right wrong := by
  unfold Fails at failed
  unfold Ends
  rw [failed]
  exact holds

theorem ends_outcome (holds : Except Failure α → σ → Prop) {step : Step σ α} :
    Ends step before (fun a => holds (.ok a)) (fun failure => holds (.error failure)) ↔
      holds (step before).1 (step before).2 := by
  unfold Ends
  rcases step before with ⟨_ | _, _⟩ <;> rfl

def Leaves (holds : σ → Prop) (step : Step σ α) (before : σ) : Prop :=
  Ends step before (fun _ => holds) fun _ => holds

theorem leaves_iff {step : Step σ α} {holds : σ → Prop} :
    Leaves holds step before ↔ holds (step before).2 := by
  unfold Leaves Ends
  rcases step before with ⟨_ | _, _⟩ <;> rfl

theorem Leaves.bind {step : Step σ α} {next : α → Step σ β} {holds : σ → Prop}
    (first : Leaves holds step before)
    (later : ∀ a after, holds after → Leaves holds (next a) after) :
    Leaves holds (step >>= next) before :=
  ends_bind.mpr (Ends.imp first later fun _ _ left => left)

/-- The operation keeps an invariant, whatever it comes to, and breaks no assumption. -/
def Safe (invariant : σ → Prop) (step : Step σ α) (before : σ) : Prop :=
  Ends step before (fun _ after => invariant after)
    fun failure after => failure.Proper ∧ invariant after

theorem Safe.leaves {step : Step σ α} {invariant : σ → Prop} (safe : Safe invariant step before) :
    invariant (step before).2 :=
  leaves_iff.mp (Ends.imp safe (fun _ _ left => left) fun _ _ ended => ended.2)

end Step

end StagedDecoding
