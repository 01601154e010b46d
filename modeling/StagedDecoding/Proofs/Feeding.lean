import StagedDecoding.Proofs.Retraction

/-! Sessions whose model writes as it reads.

In a step the model gives every present, and nothing else is new in the buffers. So a session is
always in a state from which it can be fed or rolled back, and two sessions that remember the same
stay together whatever is done to both.
-/

set_option autoImplicit false

namespace StagedDecoding

namespace Buffers

variable {before after ready now next : Buffers} {writer : Writer} {name : String} {tensor : Tensor}
  {asked : List String} {outputs : Named Tensor} {tokens : List Token} {indices : List Nat}
  {length new count : Nat}

/-- Everything that is asked for in a step, with presents as the writer has them. -/
structure Appends (writer : Writer) (buffers : Buffers) (asked : List String)
    (outputs : Named Tensor) : Prop where
  given : ∀ name ∈ asked, ∃ tensor, outputs.get? name = some tensor
  presents : ∀ slot ∈ buffers.slots, slot.presentName ∈ asked → ∀ tensor,
    outputs.get? slot.presentName = some tensor → buffers.Continues writer slot tensor

/-- Buffers during a step, of which some presents have been stored. -/
structure Filling (writer : Writer) (ready now : Buffers) : Prop where
  framed : now.frame = ready.frame
  placed : now.positions = ready.positions
  slots : List.Forall₂ (fun slot next => slot ∈ ready.slots ∧ next.presentName = slot.presentName ∧
    ∀ present, next.present = some present → ready.Continues writer slot present)
    ready.slots now.slots

theorem store_managed (apart : now.frame.Apart) (managed : ManagedBuffers.isOutput name now = true)
    (tensor : Tensor) : ∃ next, now.store name tensor = .ok next := by
  have outputs : now.outputNames = now.scoresName :: now.presentNames := by
    rw [presentNames_eq]
    exact apart.outputs
  have distinct : (now.scoresName :: now.presentNames).Nodup := outputs ▸ apart.distinct
  have member : name ∈ now.scoresName :: now.presentNames :=
    outputs ▸ List.contains_iff_mem.mp managed
  rcases List.mem_cons.mp member with rfl | present
  · exact ⟨_, if_pos rfl⟩
  · obtain ⟨free, distinct⟩ := List.nodup_cons.mp distinct
    obtain ⟨next, kept, -⟩ := @store_present now name tensor distinct present fun same =>
      free (same ▸ present)
    exact ⟨next, kept⟩

theorem Filling.start (idle : ∀ slot ∈ ready.slots, slot.present = none) :
    ready.Filling writer ready := by
  refine ⟨rfl, rfl, List.forall₂_same.mpr fun slot member => ⟨member, rfl, fun _ given => ?_⟩⟩
  rw [idle slot member] at given
  cases given

theorem Filling.store (filling : ready.Filling writer now)
    (appends : ready.Appends writer asked outputs) (member : name ∈ asked)
    (found : outputs.get? name = some tensor) (stored : now.store name tensor = .ok next) :
    ready.Filling writer next := by
  have framed := (frame_of_store stored).trans filling.framed
  unfold Buffers.store at stored
  split at stored
  · obtain rfl := Except.ok.inj stored
    exact ⟨framed, filling.placed, filling.slots⟩
  · split at stored
    · next changed taken =>
      obtain ⟨cache, there, taken⟩ := Option.bind_eq_some_iff.mp taken
      obtain ⟨i, first, rfl⟩ := Option.map_eq_some_iff.mp taken
      obtain rfl := Except.ok.inj stored
      have related := filling.slots
      rw [show now.slots = cache.slots by simp [Buffers.slots, there]] at related
      refine ⟨framed, filling.placed, forall₂_modify related fun slot old here held => ?_⟩
      -- the slot that is changed has the name of the present
      obtain ⟨inside, same, -⟩ := held
      obtain ⟨bound, named, -⟩ := List.findIdx?_eq_some_iff_getElem.mp first
      obtain rfl : cache.slots[i] = old :=
        Option.some.inj ((List.getElem?_eq_getElem bound).symm.trans here)
      obtain rfl : slot.presentName = name := same.symm.trans (by simpa using named)
      refine ⟨inside, same, fun present given => ?_⟩
      obtain rfl := Option.some.inj given
      exact appends.presents slot inside member tensor found
    · cases stored

theorem Filling.stepped (filling : ready.Filling writer now) (full : now.Full) :
    ready.Stepped writer now := by
  refine ⟨?_, filling.framed, filling.placed⟩
  have filled := (List.forall₂_and_left _ _).mpr ⟨full, filling.slots.flip⟩
  refine filled.flip.imp fun slot next held => ?_
  obtain ⟨some, -, -, continues⟩ := held
  obtain ⟨present, given⟩ := Option.isSome_iff_exists.mp some
  exact ⟨present, given, continues present given⟩

theorem Stepped.solid (stepped : ready.Stepped writer after) : after.Solid := by
  refine forall_of_forall₂ stepped.written fun slot _ next written tensor given => ?_
  obtain ⟨present, given', rows, heads, length, size, -, laid, -⟩ := written
  obtain rfl := Option.some.inj (given'.symm.trans given)
  exact ⟨rows, heads, _, size, laid⟩

theorem Stepped.full (stepped : ready.Stepped writer after) : after.Full := by
  refine forall_of_forall₂ stepped.written fun slot _ next written => ?_
  obtain ⟨present, given, -⟩ := written
  rw [given]
  rfl

theorem Solid.rollback (solid : before.Solid) (ran : Step.Returns (rollback count) before () after) :
    after.Solid := by
  obtain ⟨_, moved, placing, caching⟩ := Step.returns_bind.mp ran
  obtain ⟨movedEq, -, -⟩ := onPositions_returns placing
  have slots : moved.slots = before.slots := by
    rw [movedEq]
    rfl
  have trimmed : List.Forall₂ _ moved.slots after.slots := onCache_slots caching
  rw [slots] at trimmed
  refine forall_of_forall₂ trimmed fun slot member next passed tensor given => ?_
  obtain ⟨whole, length, kept, there, -, -, narrowed, rfl⟩ := LayerCache.trimSlot_returns passed
  obtain ⟨rows, heads, _, size, laid⟩ := solid slot member whole there
  obtain rfl := Option.some.inj given
  exact ⟨rows, heads, _, size, (laid.narrow narrowed).2.2.1⟩

theorem Updated.idle (updated : Updated new length tokens indices before ready) :
    ∀ slot ∈ ready.slots, slot.present = none :=
  forall_of_forall₂ updated.cached fun _ _ _ passed =>
    (LayerCache.advanceSlot_returns passed).elim fun _ held => held.2.2.2.2

end Buffers

namespace Session

variable {β : Type} {writer : Writer} {model : Model β} {session before after start : Session β}
  {phase : Phase} {tensor : Tensor} {length count : Nat} {tokens : List Token} {indices : List Nat}

def Writes (writer : Writer) (model : Model β) (length : Nat) (tokens : List Token)
    (indices : List Nat) (session : Session β) : Prop :=
  ∀ phase entered invocation asked, Enters length tokens indices session phase entered →
    Pipeline.Asks model entered.pipeline.primary phase entered.pipeline.stages [] entered.buffers
      entered.model invocation asked →
    ∃ outputs next, model invocation asked = (.ok outputs, next) ∧
      entered.buffers.Appends writer invocation.outputs outputs

/-- A step in which the model has given every present, as the writer has it. -/
structure Wrote (writer : Writer) (model : Model β) (length : Nat) (tokens : List Token)
    (indices : List Nat) (session after : Session β) : Prop where
  ran : ∃ scores, Step.Returns (run model length tokens indices) session scores after
  writes : session.Writes writer model length tokens indices
  full : after.buffers.Full

inductive Reached (writer : Writer) (model : Model β) (start : Session β) : Session β → Prop
  | start : Reached writer model start start
  | run {before after : Session β} {length : Nat} {tokens : List Token} {indices : List Nat} :
      Reached writer model start before → Wrote writer model length tokens indices before after →
      Reached writer model start after
  | rollback {before after : Session β} {count : Nat} : Reached writer model start before →
      Step.Returns (Session.rollback count) before () after → Reached writer model start after

/-- Pairs of sessions that the same steps and rollbacks lead to. -/
inductive Together (writer : Writer) (model : Model β) (one other : Session β) :
    Session β → Session β → Prop
  | start : Together writer model one other one other
  | run {here there after after' : Session β} {length : Nat} {tokens : List Token}
      {indices : List Nat} : Together writer model one other here there →
      Wrote writer model length tokens indices here after →
      Wrote writer model length tokens indices there after' →
      Together writer model one other after after'
  | rollback {here there after after' : Session β} {count : Nat} :
      Together writer model one other here there →
      Step.Returns (Session.rollback count) here () after →
      Step.Returns (Session.rollback count) there () after' →
      Together writer model one other after after'

theorem runPhase_stepped (ran : Step.Returns (runPhase model phase) session tensor after)
    (full : after.buffers.Full) (idle : ∀ slot ∈ session.buffers.slots, slot.present = none)
    (answers : ∀ invocation asked,
      Pipeline.Asks model session.pipeline.primary phase session.pipeline.stages []
        session.buffers session.model invocation asked →
      ∃ outputs next, model invocation asked = (.ok outputs, next) ∧
        session.buffers.Appends writer invocation.outputs outputs) :
    session.buffers.Stepped writer after.buffers := by
  obtain ⟨⟨pipeline, buffers, state⟩, stepped, rfl⟩ := Step.returns_within.mp ran
  obtain ⟨stages, passed, rfl, -⟩ := Pipeline.runStep_returns stepped
  have filling : session.buffers.Filling writer buffers := by
    refine Pipeline.runStages_stores ?_ (Buffers.Filling.start idle) passed
    intro invocation asked outputs next asks answered name member tensor found before after filling
      stored
    obtain ⟨outputs', _, answered', appends⟩ := answers invocation asked asks
    obtain rfl : outputs' = outputs :=
      Except.ok.inj (Prod.mk.inj (answered'.symm.trans answered)).1
    exact filling.store appends member found stored
  exact filling.stepped full

theorem Wrote.later (wrote : Wrote writer model length tokens indices session after)
    (later : session.first = false) :
    ∃ ready, Step.Returns (Buffers.update tokens indices length) session.buffers () ready ∧
      ready.Stepped writer after.buffers ∧ after.first = false := by
  obtain ⟨scores, ran⟩ := wrote.ran
  obtain ⟨ready, updated, passed⟩ := Reading.run_later later ran
  refine ⟨ready, updated, ?_, (run_fixed ran).2⟩
  exact runPhase_stepped passed wrote.full (Buffers.updated updated).2.2.idle
    fun invocation asked asks => wrote.writes _ _ invocation asked (.token later updated) asks

theorem Wrote.first (wrote : Wrote writer model length tokens indices session after)
    (first : session.first = true) (idle : ∀ slot ∈ session.buffers.slots, slot.present = none) :
    session.buffers.Stepped writer after.buffers ∧ after.first = false := by
  obtain ⟨scores, ran⟩ := wrote.ran
  have stepped : ({ session with first := false } : Session β).buffers.Stepped writer
      after.buffers :=
    runPhase_stepped (Reading.run_first first ran) wrote.full idle
      fun invocation asked asks => wrote.writes _ _ invocation asked (.prompt first) asks
  exact ⟨stepped, (run_fixed ran).2⟩

structure Settled (session : Session β) : Prop where
  level : ∀ positions, session.buffers.positions = some positions →
    positions.Level session.buffers.rows
  solid : session.buffers.Solid
  idle : session.first = true → ∀ slot ∈ session.buffers.slots, slot.present = none
  full : session.first = false → session.buffers.Full

theorem settled_of_create {config : Config} {request : Request} {state : β} {device : Device}
    {registry : DeviceRegistry}
    (created : Session.create config request state device registry = .ok session) :
    session.Settled := by
  have opened := opened_of_create created
  obtain ⟨buffers, filled, rfl⟩ := Session.create_eq_ok created
  refine ⟨fun positions given => ?_, fun slot member tensor given => ?_,
    fun _ => opened.cleared.presents, fun later => by cases later⟩
  · obtain ⟨_, own, _, -, placed, -, rfl⟩ := Buffers.create_eq_ok filled
    exact Positions.level_ofPrompt (placed.made given)
  · rw [opened.cleared.presents slot member] at given
    cases given

theorem Settled.wrote (settled : session.Settled)
    (wrote : Wrote writer model length tokens indices session after) : after.Settled := by
  cases first : session.first with
  | true =>
    obtain ⟨stepped, later⟩ := wrote.first first (settled.idle first)
    refine ⟨fun positions given => ?_, stepped.solid, fun again => ?_, fun _ => stepped.full⟩
    · rw [stepped.placed] at given
      rw [show after.buffers.rows = session.buffers.rows from congrArg Frame.rows stepped.framed]
      exact settled.level positions given
    · cases later.symm.trans again
  | false =>
    -- positions move with the update, and the stages leave them there
    obtain ⟨ready, ran, stepped, later⟩ := wrote.later first
    obtain ⟨-, -, updated⟩ := Buffers.updated ran
    refine ⟨fun positions given => ?_, stepped.solid, fun again => ?_, fun _ => stepped.full⟩
    · rw [stepped.placed] at given
      rw [show after.buffers.rows = session.buffers.rows from
        congrArg Frame.rows (stepped.framed.trans updated.framed)]
      cases placed : session.buffers.positions with
      | none =>
        have counts := congrArg Frame.counts updated.framed
        simp [Buffers.frame, placed, given] at counts
      | some old =>
        obtain ⟨_, there, passed⟩ := updated.placed old placed
        obtain rfl := Option.some.inj (there.symm.trans given)
        exact (settled.level old placed).update passed
    · cases later.symm.trans again

theorem rollback_returns_iff : Step.Returns (Session.rollback count) session () after ↔
    ∃ buffers, Step.Returns (Buffers.rollback count) session.buffers () buffers ∧
      { session with buffers := buffers } = after := by
  unfold Session.rollback onBuffers
  exact Step.returns_within

theorem Settled.rollback (settled : session.Settled)
    (ran : Step.Returns (Session.rollback count) session () after) :
    after.Settled ∧ after.first = session.first := by
  obtain ⟨buffers, rolled, rfl⟩ := rollback_returns_iff.mp ran
  obtain ⟨_, moved, placing, caching⟩ := Step.returns_bind.mp rolled
  obtain ⟨movedEq, movedFrame, positions⟩ := Buffers.onPositions_returns placing
  obtain ⟨cachedEq, framed, -⟩ := Buffers.onCache_returns LayerCache.trimSlot_names caching
  refine ⟨⟨fun own given => ?_, settled.solid.rollback rolled, fun first => ?_,
    fun _ => Buffers.full_of_rollback rolled⟩, rfl⟩
  · change own.Level buffers.rows
    rw [show buffers.rows = session.buffers.rows from congrArg Frame.rows (framed.trans movedFrame)]
    rw [cachedEq] at given
    obtain ⟨old, there, passed⟩ := positions own given
    exact (settled.level old there).rollback passed
  · -- before the first step no present can be cut, so there is no slot
    have slots : moved.slots = session.buffers.slots := by
      rw [movedEq]
      rfl
    have trimmed : List.Forall₂ _ moved.slots buffers.slots := Buffers.onCache_slots caching
    rw [slots] at trimmed
    refine forall_of_forall₂ trimmed fun slot member next passed => ?_
    obtain ⟨_, _, _, given, -⟩ := LayerCache.trimSlot_returns passed
    rw [settled.idle first slot member] at given
    cases given

theorem Reached.settled (reached : Reached writer model start session) (settled : start.Settled) :
    session.Settled := by
  induction reached with
  | start => exact settled
  | run _ wrote ih => exact ih.wrote wrote
  | rollback _ ran ih => exact (ih.rollback ran).1

theorem Reached.fixed (reached : Reached writer model start session) :
    session.fixed = start.fixed := by
  induction reached with
  | start => rfl
  | run _ wrote ih => exact (wrote.ran.elim fun _ ran => (run_fixed ran).1).trans ih
  | rollback _ ran ih => exact (rollback_fixed ran).trans ih

/-- Sessions that remember the same, go on alike. -/
theorem Together.alike {one other here there : Session β}
    (together : Together writer model one other here there)
    (alike : one.buffers.Alike other.buffers) (later : one.first = false)
    (later' : other.first = false) :
    here.buffers.Alike there.buffers ∧ here.first = false ∧ there.first = false := by
  induction together with
  | start => exact ⟨alike, later, later'⟩
  | run _ wrote wrote' ih =>
    obtain ⟨alike, later, later'⟩ := ih
    obtain ⟨ready, ran, stepped, first⟩ := wrote.later later
    obtain ⟨ready', ran', stepped', first'⟩ := wrote'.later later'
    obtain ⟨_, ran'', shows⟩ := alike.update (Buffers.packed_of_update ran') ran
    obtain ⟨-, rfl⟩ := Step.returns_unique ran'' ran'
    exact ⟨shows.alike stepped stepped', first, first'⟩
  | rollback _ ran ran' ih =>
    obtain ⟨alike, later, later'⟩ := ih
    obtain ⟨buffers, rolled, rfl⟩ := rollback_returns_iff.mp ran
    obtain ⟨buffers', rolled', rfl⟩ := rollback_returns_iff.mp ran'
    obtain ⟨_, rolled'', same⟩ := alike.rollback rolled
    obtain ⟨-, rfl⟩ := Step.returns_unique rolled'' rolled'
    exact ⟨same, later, later'⟩

theorem Writes.run_returns {ready : Buffers}
    (writes : session.Writes writer model length tokens indices) (later : session.first = false)
    (updated : Step.Returns (Buffers.update tokens indices length) session.buffers () ready)
    (sustained : session.Sustained)
    (supported : ∀ stage ∈ session.pipeline.stages,
      stage.supports session.pipeline.primary = true) :
    ∃ after, Wrote writer model length tokens indices session after := by
  have framed := Reading.frame_of_update updated
  have sustained' : ({ session with buffers := ready } : Session β).Sustained :=
    sustained.of_fixed (by simp only [Session.fixed, framed])
  -- whatever the buffers manage, they take
  have stored : ∀ {asked : List String} {outputs : Named Tensor},
      ready.Appends writer asked outputs → ∀ name ∈ asked, ∀ tensor,
      outputs.get? name = some tensor → ∀ (_ : List String) (now : Buffers),
      now.frame = ready.frame → ManagedBuffers.isOutput name now = true →
      ∃ next, ManagedBuffers.store name tensor now = .ok next ∧ next.frame = ready.frame := by
    intro _ _ _ name _ tensor _ _ now own managed
    have apart : now.frame.Apart := own ▸ sustained'.apart
    obtain ⟨next, kept⟩ := Buffers.store_managed apart managed tensor
    exact ⟨next, kept, (Buffers.frame_of_store kept).trans own⟩
  obtain ⟨stages, final, state, -, passed, -⟩ := @Pipeline.runStages_total Buffers _ _ model
    .token (fun _ now => now.frame = ready.frame) (ready.Appends writer)
    (fun appends => appends.given) stored (fun _ _ _ own _ => own) _ _ [] _ _ _
    (fun stage member _ => supported stage member)
    (fun invocation asked asks => writes _ _ invocation asked (.token later updated) asks) rfl
  obtain ⟨full, scores, output⟩ := sustained'.delivers passed
  refine ⟨{ session with
    pipeline := { session.pipeline with stages := stages }
    buffers := final
    model := state }, ⟨scores, ?_⟩, writes, full⟩
  simp only [run, Step.returns_bind, Step.returns_get]
  refine ⟨_, _, ⟨rfl, rfl⟩, ?_⟩
  rw [if_neg (by simp [later]), Step.returns_bind]
  refine ⟨(), _, Step.returns_within.mpr ⟨ready, updated, rfl⟩, Step.returns_within.mpr
    ⟨({ session.pipeline with stages := stages }, final, state), ?_, rfl⟩⟩
  unfold Step.Returns Pipeline.runStep
  simp only [passed, ManagedBuffers.output, output]

end Session

end StagedDecoding
