import Mathlib.Data.List.Nodup
import StagedDecoding.Proofs.Sessions
import StagedDecoding.Proofs.Supply

/-! Steps of a session that never fail.

A model serves a session if it gives every output that it is asked for: scores for all tokens that
are fed, and presents that go on by as many positions where the pasts end. On the host such a model
is all that a step needs, as long as the outputs that the session keeps are declared by stages that
run.
-/

set_option autoImplicit false

namespace StagedDecoding

theorem LayerCache.store?_slots {cache : LayerCache} {name : String} {tensor : Tensor}
    (distinct : (cache.slots.map (·.presentName)).Nodup)
    (member : name ∈ cache.slots.map (·.presentName)) :
    cache.store? name tensor = some ⟨cache.slots.map fun slot =>
      if slot.presentName = name then { slot with present := some tensor } else slot⟩ := by
  obtain ⟨old, inside, same⟩ := List.mem_map.mp member
  cases found : cache.slots.findIdx? (·.presentName == name) with
  | none =>
    have absent := List.findIdx?_eq_none_iff.mp found old inside
    simp [same] at absent
  | some i =>
    obtain ⟨bound, named, -⟩ := List.findIdx?_eq_some_iff_getElem.mp found
    have named : cache.slots[i].presentName = name := by simpa using named
    simp only [store?, found, Option.map_some, Option.some.injEq, LayerCache.mk.injEq]
    refine List.ext_getElem (by simp) fun j here _ => ?_
    simp only [List.length_modify] at here
    simp only [List.getElem_map, List.getElem_modify]
    by_cases same : i = j
    · subst same
      simp [named]
    · -- no other slot has the name, for the names are distinct
      have other : cache.slots[j].presentName ≠ name := by
        intro equal
        apply same
        apply (@List.Nodup.getElem_inj_iff _ _ distinct i (by simpa using bound) j
          (by simpa using here)).mp
        rw [List.getElem_map, List.getElem_map, named, equal]
      simp [same, other]

namespace Buffers

/-- The outputs that are asked for in a step, and all of them: scores at every position that is fed,
and presents that continue the pasts by these positions. -/
structure Fits (vocabulary : Nat) (moves : Prop) (buffers : Buffers) (asked : List String)
    (outputs : Named Tensor) : Prop where
  given : ∀ name ∈ asked, ∃ tensor, outputs.get? name = some tensor
  scores : buffers.scoresName ∈ asked → ∀ tensor,
    outputs.get? buffers.scoresName = some tensor →
    tensor.shape = [buffers.inputIds.length, Positions.width buffers.inputIds, vocabulary] ∧
      tensor.values.length = Tensor.volume tensor.shape
  presents : ∀ slot ∈ buffers.slots, slot.presentName ∈ asked → ∀ tensor,
    outputs.get? slot.presentName = some tensor →
    (∀ rows heads old size, slot.past.shape = [rows, heads, old, size] →
      tensor.shape = [rows, heads, old + Positions.width buffers.inputIds, size]) ∧
    (moves → tensor.isPacked = true)

variable {buffers ready now next : Buffers} {vocabulary : Nat} {moves : Prop}
  {kept : List String} {name : String} {tensor : Tensor}

theorem store_present (distinct : (buffers.slots.map (·.presentName)).Nodup)
    (member : name ∈ buffers.slots.map (·.presentName)) (free : name ≠ buffers.scoresName) :
    ∃ next, buffers.store name tensor = .ok next ∧
      next = { buffers with cache := next.cache } ∧
      next.slots = buffers.slots.map fun slot =>
        if slot.presentName = name then { slot with present := some tensor } else slot := by
  cases there : buffers.cache with
  | none => simp [slots, there] at member
  | some cache =>
    have own : buffers.slots = cache.slots := by simp [slots, there]
    rw [own] at distinct member ⊢
    refine ⟨{ buffers with cache := some ⟨_⟩ }, ?_, rfl, rfl⟩
    simp [store, free, there, LayerCache.store?_slots distinct member]

theorem frame_of_store (stored : buffers.store name tensor = .ok next) :
    next.frame = buffers.frame := by
  unfold store at stored
  split at stored
  · rw [← Except.ok.inj stored]
    rfl
  · split at stored
    · next cache taken =>
      obtain ⟨before, there, taken⟩ := Option.bind_eq_some_iff.mp taken
      rw [← Except.ok.inj stored]
      simp [frame, there, (slots_of_store taken).1]
    · cases stored

/-- What buffers hold during a step, of which some outputs have been delivered. -/
structure Serving (vocabulary : Nat) (moves : Prop) (ready : Buffers) (kept : List String)
    (now : Buffers) : Prop where
  same : now = { ready with cache := now.cache, scores := now.scores }
  framed : now.frame = ready.frame
  pasts : now.slots.map (fun slot => (slot.presentName, slot.past)) =
    ready.slots.map (fun slot => (slot.presentName, slot.past))
  scores : ready.scoresName ∈ kept → ∃ tensor, now.scores = some tensor ∧
    tensor.shape = [ready.inputIds.length, Positions.width ready.inputIds, vocabulary] ∧
    tensor.values.length = Tensor.volume tensor.shape
  presents : ∀ slot ∈ now.slots, slot.presentName ∈ kept →
    slot.HasPresent ready.rows (Positions.width ready.inputIds) moves

theorem Serving.start (vocabulary : Nat) (moves : Prop) (ready : Buffers) :
    Serving vocabulary moves ready [] ready :=
  ⟨rfl, rfl, rfl, by simp, by simp⟩

theorem Serving.outputs (serving : Serving vocabulary moves ready kept now)
    (sturdy : ready.frame.Sturdy) :
    now.outputNames = ready.scoresName :: now.slots.map (·.presentName) ∧
      now.scoresName = ready.scoresName ∧ (now.slots.map (·.presentName)).Nodup := by
  have names : (ready.frame.slots.getD []).map (·.2) = now.slots.map (·.presentName) := by
    rw [← serving.framed, ← slotNames_eq_frame, List.map_map]
    rfl
  have outputs : now.outputNames = ready.outputNames := by rw [serving.same]
  refine ⟨?_, by rw [serving.same], names ▸ sturdy.distinct⟩
  rw [outputs, ← names]
  exact sturdy.outputs

theorem Serving.continues {asked : List String} {outputs : Named Tensor} {slot : CacheSlot}
    (serving : Serving vocabulary moves ready kept now) (set : ready.Ready)
    (fits : ready.Fits vocabulary moves asked outputs) (member : name ∈ asked)
    (found : outputs.get? name = some tensor) (inside : slot ∈ now.slots)
    (same : slot.presentName = name) :
    (∃ heads length size, tensor.shape = [ready.rows, heads, length, size] ∧
      Positions.width ready.inputIds ≤ length) ∧ (moves → tensor.isPacked = true) := by
  have listed : (slot.presentName, slot.past) ∈
      ready.slots.map (fun slot => (slot.presentName, slot.past)) := by
    rw [← serving.pasts]
    exact List.mem_map_of_mem (f := fun slot : CacheSlot => (slot.presentName, slot.past)) inside
  obtain ⟨own, there, equal⟩ := List.mem_map.mp listed
  obtain ⟨heads, length, size, shape⟩ := set.pasts own there
  have named : own.presentName = name := (Prod.mk.inj equal).1.trans same
  obtain ⟨continued, gapless⟩ := fits.presents own there (named.symm ▸ member) tensor
    (named.symm ▸ found)
  exact ⟨⟨heads, _, size, continued _ _ _ _ shape, Nat.le_add_left _ _⟩, gapless⟩

theorem Serving.store_scores {asked : List String} {outputs : Named Tensor}
    (serving : Serving vocabulary moves ready kept now) (sturdy : ready.frame.Sturdy)
    (set : ready.Ready) (fits : ready.Fits vocabulary moves asked outputs)
    (member : ready.scoresName ∈ asked)
    (found : outputs.get? ready.scoresName = some tensor) :
    ∃ next, ManagedBuffers.store ready.scoresName tensor now = .ok next ∧
      Serving vocabulary moves ready (ready.scoresName :: kept) next := by
  obtain ⟨-, scoresName, -⟩ := serving.outputs sturdy
  obtain ⟨shape, filled⟩ := fits.scores member tensor found
  refine ⟨{ now with scores := some (tensor.convert .f32) }, ?_, ?_⟩
  · simp [ManagedBuffers.store, Buffers.store, scoresName]
  · refine ⟨?_, serving.framed, serving.pasts, fun _ => ?_, fun slot inside kept => ?_⟩
    · rw [serving.same]
    · refine ⟨_, rfl, ?_, ?_⟩
      · rw [tensor.convert_f32.1, shape]
      · rw [Tensor.convert_length, tensor.convert_f32.1, filled]
    · -- the scores are no present, for they have another rank
      cases List.mem_cons.mp kept with
      | inl same =>
        obtain ⟨⟨heads, length, size, ranked, -⟩, -⟩ :=
          serving.continues set fits member found inside same
        rw [shape] at ranked
        simp at ranked
      | inr earlier => exact serving.presents slot inside earlier

theorem Serving.store {asked : List String} {outputs : Named Tensor}
    (serving : Serving vocabulary moves ready kept now) (sturdy : ready.frame.Sturdy)
    (set : ready.Ready) (fits : ready.Fits vocabulary moves asked outputs) (member : name ∈ asked)
    (found : outputs.get? name = some tensor) (managed : ManagedBuffers.isOutput name now = true) :
    ∃ next, ManagedBuffers.store name tensor now = .ok next ∧
      Serving vocabulary moves ready (name :: kept) next := by
  by_cases scored : name = ready.scoresName
  · subst scored
    exact serving.store_scores sturdy set fits member found
  · obtain ⟨outputNames, scoresName, distinct⟩ := serving.outputs sturdy
    have listed : name ∈ now.slots.map (·.presentName) := by
      simpa [ManagedBuffers.isOutput, ManagedBuffers.outputNames, outputNames, scored] using managed
    obtain ⟨next, stored, same, slots⟩ := @store_present now name tensor distinct listed
      (scoresName ▸ scored)
    refine ⟨next, stored, ?_, (frame_of_store stored).trans serving.framed, ?_, ?_, ?_⟩
    · rw [same]
      simp only
      rw [serving.same]
    · rw [slots, List.map_map, ← serving.pasts]
      apply List.map_congr_left
      intro slot _
      by_cases here : slot.presentName = name <;> simp [here]
    · intro kept
      obtain ⟨tensor, given, sized⟩ :=
        serving.scores ((List.mem_cons.mp kept).resolve_left (Ne.symm scored))
      exact ⟨tensor, by rw [same]; exact given, sized⟩
    · intro slot inside kept
      rw [slots] at inside
      obtain ⟨old, there, rfl⟩ := List.mem_map.mp inside
      -- the slot of this name has the new present, every other one what it had
      by_cases here : old.presentName = name
      · obtain ⟨⟨heads, length, size, shape, long⟩, gapless⟩ :=
          serving.continues set fits member found there here
        simp only [here, if_true]
        exact ⟨tensor, heads, length, size, rfl, shape, long, gapless⟩
      · simp only [here, if_false] at kept ⊢
        exact serving.presents old there ((List.mem_cons.mp kept).resolve_left here)

theorem Serving.pass (serving : Serving vocabulary moves ready kept now)
    (sturdy : ready.frame.Sturdy) (unmanaged : ManagedBuffers.isOutput name now = false) :
    Serving vocabulary moves ready (name :: kept) now := by
  obtain ⟨outputNames, -, -⟩ := serving.outputs sturdy
  simp only [ManagedBuffers.isOutput, ManagedBuffers.outputNames, outputNames,
    List.contains_eq_mem, decide_eq_false_iff_not, List.mem_cons, List.mem_map, not_or, not_exists,
    not_and] at unmanaged
  refine ⟨serving.same, serving.framed, serving.pasts, fun kept => ?_, fun slot inside kept => ?_⟩
  · exact serving.scores ((List.mem_cons.mp kept).resolve_left (Ne.symm unmanaged.1))
  · exact serving.presents slot inside
      ((List.mem_cons.mp kept).resolve_left (unmanaged.2 slot inside))

end Buffers

namespace Session

variable {β : Type} {model : Model β} {session after : Session β} {phase : Phase}
  {vocabulary : Nat} {moves : Prop} {tensor : Tensor} {name : String}

def fixed (session : Session β) : Device × String × List StageConfig × Frame :=
  (session.pipeline.primary, session.pipeline.scoresName,
    session.pipeline.stages.map (·.config), session.buffers.frame)

def Declares (session : Session β) (phase : Phase) (name : String) : Prop :=
  ∃ stage ∈ session.pipeline.stages, stage.runsIn phase = true ∧ name ∈ stage.config.outputs

theorem declares_iff : session.Declares phase name ↔ ∃ config ∈ session.fixed.2.2.1,
    (Stage.ofConfig config).runsIn phase = true ∧ name ∈ config.outputs := by
  constructor
  · rintro ⟨stage, inside, runs, declared⟩
    exact ⟨stage.config, List.mem_map_of_mem inside, by cases phase <;> exact runs, declared⟩
  · rintro ⟨config, inside, runs, declared⟩
    obtain ⟨stage, there, rfl⟩ := List.mem_map.mp inside
    exact ⟨stage, there, by cases phase <;> exact runs, declared⟩

/-- A session on the host whose kept outputs are distinct and declared by stages that run, in
either phase. -/
structure Wired (session : Session β) : Prop where
  host : session.pipeline.primary = .host
  scores : session.pipeline.scoresName = session.buffers.scoresName
  sturdy : session.buffers.frame.Sturdy
  produced : ∀ phase, ∀ name ∈ session.buffers.outputNames, ∃ stage ∈ session.pipeline.stages,
    stage.runsIn phase = true ∧ name ∈ stage.config.outputs

theorem wired_iff : session.Wired ↔
    session.fixed.1 = .host ∧ session.fixed.2.1 = session.fixed.2.2.2.scoresName ∧
    session.fixed.2.2.2.Sturdy ∧ ∀ phase, ∀ name ∈ session.fixed.2.2.2.outputNames,
      ∃ config ∈ session.fixed.2.2.1, (Stage.ofConfig config).runsIn phase = true ∧
        name ∈ config.outputs := by
  constructor
  · rintro ⟨host, scores, sturdy, produced⟩
    exact ⟨host, scores, sturdy, fun phase name member =>
      declares_iff.mp (produced phase name member)⟩
  · rintro ⟨host, scores, sturdy, produced⟩
    exact ⟨host, scores, sturdy, fun phase name member =>
      declares_iff.mpr (produced phase name member)⟩

theorem Wired.of_fixed (wired : session.Wired) (fixed : after.fixed = session.fixed) :
    after.Wired := by
  rw [wired_iff, fixed]
  exact wired_iff.mp wired

theorem rows_of_fixed (fixed : after.fixed = session.fixed) :
    after.buffers.rows = session.buffers.rows :=
  congrArg (fun fixed : Device × String × List StageConfig × Frame => fixed.2.2.2.rows) fixed

inductive Enters (length : Nat) (tokens : List Token) (indices : List Nat) :
    Session β → Phase → Session β → Prop where
  | prompt {session : Session β} : session.first = true →
      Enters length tokens indices session .prompt { session with first := false }
  | token {session : Session β} {buffers : Buffers} : session.first = false →
      Step.Returns (Buffers.update tokens indices length) session.buffers () buffers →
      Enters length tokens indices session .token { session with buffers := buffers }

/-- The model answers whatever it is asked when tokens are fed, and its outputs fit. -/
def Answered (vocabulary : Nat) (moves : Prop) (model : Model β) (length : Nat)
    (tokens : List Token) (indices : List Nat) (session : Session β) : Prop :=
  ∀ phase entered invocation asked, Enters length tokens indices session phase entered →
    Pipeline.Asks model entered.pipeline.primary phase entered.pipeline.stages [] entered.buffers
      entered.model invocation asked →
    ∃ outputs next, model invocation asked = (.ok outputs, next) ∧
      entered.buffers.Fits vocabulary moves invocation.outputs outputs

theorem runPhase_preserves {P : Buffers → Prop}
    (stored : ∀ name tensor (before next : Buffers), P before → before.store name tensor = .ok next →
      P next)
    (start : P session.buffers) (ran : Step.Returns (runPhase model phase) session tensor after) :
    P after.buffers ∧
      after.pipeline.stages.map (·.config) = session.pipeline.stages.map (·.config) ∧
      after = { session with
        pipeline := { session.pipeline with stages := after.pipeline.stages }
        buffers := after.buffers
        model := after.model } := by
  obtain ⟨⟨pipeline, buffers, state⟩, stepped, rfl⟩ := Step.returns_within.mp ran
  obtain ⟨stages, passed, rfl, -⟩ := Pipeline.runStep_returns stepped
  have each : ∀ stage ∈ session.pipeline.stages, stage.runsIn phase = true →
      ∀ wired outputs pool pool' (before now : Buffers) (old new : β), P before →
      Pipeline.Serves model session.pipeline.primary stage wired outputs pool pool' before now old
        new → P now := by
    intro stage _ _ wired outputs pool pool' before now old new holds served
    exact Pipeline.deliver_preserves (P := fun (buffers : Buffers) (_ : Named Tensor) => P buffers)
      (fun name _ tensor _ before _ next holds _ => stored name tensor before next holds)
      (fun _ _ _ _ _ _ holds _ => holds) holds served.delivered
  obtain ⟨configs, _, holds⟩ :=
    Pipeline.runStages_preserves (P := fun buffers _ _ => P buffers) each start passed
  exact ⟨holds, configs, rfl⟩

theorem runPhase_fixed (ran : Step.Returns (runPhase model phase) session tensor after) :
    after.fixed = session.fixed ∧ after.first = session.first := by
  obtain ⟨framed, configs, same⟩ :=
    runPhase_preserves (P := fun buffers => buffers.frame = session.buffers.frame)
      (fun _ _ _ _ framed stored => (Buffers.frame_of_store stored).trans framed) rfl ran
  rw [same]
  exact ⟨by simp only [fixed, configs, framed], rfl⟩

theorem run_fixed {length : Nat} {tokens : List Token} {indices : List Nat}
    (ran : Step.Returns (run model length tokens indices) session tensor after) :
    after.fixed = session.fixed ∧ after.first = false := by
  cases first : session.first with
  | true => exact runPhase_fixed (Reading.run_first first ran)
  | false =>
    obtain ⟨buffers, updated, passed⟩ := Reading.run_later first ran
    obtain ⟨same, later⟩ := runPhase_fixed passed
    refine ⟨same.trans ?_, later.trans first⟩
    simp only [fixed, Reading.frame_of_update updated]

theorem rollback_fixed {count : Nat} {u : Unit}
    (ran : Step.Returns (rollback count) session u after) : after.fixed = session.fixed := by
  unfold rollback onBuffers at ran
  obtain ⟨buffers, rolled, rfl⟩ := Step.returns_within.mp ran
  have framed : buffers.frame = session.buffers.frame := by
    simp only [Buffers.rollback, Step.returns_bind] at rolled
    obtain ⟨_, middle, positions, cache⟩ := rolled
    exact (Buffers.onCache_returns LayerCache.trimSlot_names cache).2.1.trans
      (Buffers.onPositions_returns positions).2.1
  simp only [fixed, framed]

structure Served (vocabulary : Nat) (moves : Prop) (session : Session β) (tensor : Tensor)
    (after : Session β) : Prop where
  shape : tensor.shape =
    [session.buffers.rows, Positions.width session.buffers.inputIds, vocabulary]
  filled : tensor.values.length = Tensor.volume tensor.shape
  positions : after.buffers.positions = session.buffers.positions
  supplied : after.buffers.Supplied (Positions.width session.buffers.inputIds) moves
  fixed : after.fixed = session.fixed
  first : after.first = session.first

theorem runPhase_total (wired : session.Wired) (ready : session.buffers.Ready)
    (answered : ∀ invocation asked, Pipeline.Asks model session.pipeline.primary phase
      session.pipeline.stages [] session.buffers session.model invocation asked →
      ∃ outputs next, model invocation asked = (.ok outputs, next) ∧
        session.buffers.Fits vocabulary moves invocation.outputs outputs) :
    ∃ tensor after, Step.Returns (runPhase model phase) session tensor after ∧
      Served vocabulary moves session tensor after := by
  rw [wired.host] at answered
  obtain ⟨stages, buffers, state, kept, passed, serving, -, declared⟩ :=
    Pipeline.runStages_total (P := session.buffers.Serving vocabulary moves)
      (fun (fits : session.buffers.Fits vocabulary moves _ _) => fits.given)
      (fun fits name member tensor found kept now serving managed =>
        serving.store wired.sturdy ready fits member found managed)
      (fun name kept now serving unmanaged => serving.pass wired.sturdy unmanaged)
      (fun stage _ _ => Pipeline.supports_host stage) answered
      (Buffers.Serving.start vocabulary moves session.buffers)
  -- every managed output is declared by a stage that ran
  have all : ∀ name ∈ session.buffers.outputNames, name ∈ kept := by
    intro name member
    obtain ⟨stage, inside, runs, output⟩ := wired.produced phase name member
    exact declared stage inside runs name output
  obtain ⟨outputNames, scoresName, -⟩ := serving.outputs wired.sturdy
  have same : buffers.outputNames = session.buffers.outputNames := by rw [serving.same]
  rw [← same, outputNames] at all
  obtain ⟨tensor, given, shape, filled⟩ := serving.scores (all _ (by simp))
  have output : ManagedBuffers.output session.pipeline.scoresName buffers = some tensor := by
    simp [ManagedBuffers.output, Buffers.output, wired.scores, scoresName, given]
  have ran : Step.Returns (runPhase model phase) session tensor
      { session with
        pipeline := { session.pipeline with stages := stages }
        buffers := buffers
        model := state } := by
    refine Step.returns_within.mpr
      ⟨({ session.pipeline with stages := stages }, buffers, state), ?_, rfl⟩
    unfold Step.Returns Pipeline.runStep
    simp only [wired.host, passed, output]
  obtain ⟨fixed, first⟩ := runPhase_fixed ran
  have rows : buffers.rows = session.buffers.rows := by rw [serving.same]
  refine ⟨tensor, _, ran, ready.rows ▸ shape, filled, ?_, ?_, fixed, first⟩
  · change buffers.positions = session.buffers.positions
    rw [serving.same]
  · intro slot inside
    change slot.HasPresent buffers.rows _ moves
    rw [rows]
    exact serving.presents slot inside (all _ (List.mem_cons_of_mem _ (List.mem_map_of_mem inside)))

theorem runPhase_served (wired : session.Wired) (ready : session.buffers.Ready)
    (answered : ∀ invocation asked, Pipeline.Asks model session.pipeline.primary phase
      session.pipeline.stages [] session.buffers session.model invocation asked →
      ∃ outputs next, model invocation asked = (.ok outputs, next) ∧
        session.buffers.Fits vocabulary moves invocation.outputs outputs)
    (ran : Step.Returns (runPhase model phase) session tensor after) :
    Served vocabulary moves session tensor after := by
  obtain ⟨tensor', after', ran', served⟩ := runPhase_total wired ready answered
  obtain ⟨rfl, rfl⟩ := Step.returns_unique ran' ran
  exact served

variable {length columns fed new : Nat} {tokens : List Token} {indices : List Nat}

structure Fed (vocabulary : Nat) (moves : Prop) (new length : Nat) (session : Session β)
    (tensor : Tensor) (after : Session β) : Prop where
  feeds : 0 < new
  shape : tensor.shape = [session.buffers.rows, new, vocabulary]
  filled : tensor.values.length = Tensor.volume tensor.shape
  lined : after.buffers.Lined length
  counts : session.first = false → after.buffers.Counts new
  supplied : after.buffers.Supplied new moves
  fixed : after.fixed = session.fixed
  later : after.first = false

theorem Fed.of_first (wired : session.Wired) (first : session.first = true)
    (ready : session.buffers.Ready) (lined : session.buffers.Lined columns)
    (answered : session.Answered vocabulary moves model length tokens indices)
    (ran : Step.Returns (run model length tokens indices) session tensor after) :
    Fed vocabulary moves (Positions.width session.buffers.inputIds) columns session tensor
      after := by
  have served := @runPhase_served _ model { session with first := false } after .prompt vocabulary
    moves tensor (wired.of_fixed rfl) ready
    (fun invocation asked asks => answered _ _ invocation asked (.prompt first) asks)
    (Reading.run_first first ran)
  exact ⟨ready.feeds, served.shape, served.filled,
    fun positions given => lined positions (served.positions ▸ given), by simp [first],
    served.supplied, served.fixed, served.first⟩

theorem Fed.of_later (wired : session.Wired) (later : session.first = false)
    (lined : session.buffers.Lined columns) (supplied : session.buffers.Supplied fed moves)
    (counted : indices = [] ∨ indices.length = session.buffers.rows)
    (answered : session.Answered vocabulary moves model length tokens indices)
    (ran : Step.Returns (run model length tokens indices) session tensor after) :
    Fed vocabulary moves (tokens.length / session.buffers.rows) length session tensor after := by
  obtain ⟨buffers, updated, passed⟩ := Reading.run_later later ran
  obtain ⟨ready, width, wide, counts⟩ := Buffers.Ready.of_update lined supplied counted updated
  have framed := Reading.frame_of_update updated
  have fixed : ({ session with buffers := buffers } : Session β).fixed = session.fixed := by
    simp only [Session.fixed, framed]
  have served := runPhase_served (wired.of_fixed fixed) ready
    (fun invocation asked asks => answered _ _ invocation asked (.token later updated) asks) passed
  have rows : buffers.rows = session.buffers.rows := congrArg Frame.rows framed
  refine ⟨width ▸ ready.feeds, ?_, served.filled, ?_, fun _ => ?_, ?_, served.fixed.trans fixed,
    served.first.trans later⟩
  · rw [served.shape, ← width, ← rows]
  · exact fun positions given => wide positions (served.positions ▸ given)
  · exact fun positions given => counts positions (served.positions ▸ given)
  · rw [← width]
    exact served.supplied

theorem run_total_first (wired : session.Wired) (first : session.first = true)
    (ready : session.buffers.Ready)
    (answered : session.Answered vocabulary moves model length tokens indices) :
    ∃ tensor after, Step.Returns (run model length tokens indices) session tensor after := by
  obtain ⟨tensor, after, ran, -⟩ := @runPhase_total _ model { session with first := false } .prompt
    vocabulary moves (wired.of_fixed rfl) ready
    (fun invocation asked asks => answered _ _ invocation asked (.prompt first) asks)
  refine ⟨tensor, after, ?_⟩
  simp only [run, Step.returns_bind, Step.returns_get]
  refine ⟨_, _, ⟨rfl, rfl⟩, ?_⟩
  rw [if_pos first, Step.returns_bind]
  exact ⟨(), _, Step.returns_modify.mpr rfl, ran⟩

theorem run_total_later (wired : session.Wired) (later : session.first = false)
    (lined : session.buffers.Lined columns) (supplied : session.buffers.Supplied fed moves)
    (count : tokens.length = session.buffers.rows * new) (feeds : 0 < new)
    (chosen : indices = [] ∨ moves ∧ indices.length = session.buffers.rows ∧
      ∀ i ∈ indices, i < session.buffers.rows)
    (answered : session.Answered vocabulary moves model (columns + new) tokens indices) :
    ∃ tensor after,
      Step.Returns (run model (columns + new) tokens indices) session tensor after := by
  have some : 0 < session.buffers.rows := wired.sturdy.some
  obtain ⟨buffers, updated⟩ := Buffers.update_total some lined supplied count feeds chosen
  obtain ⟨ready, -⟩ := Buffers.Ready.of_update lined supplied (chosen.imp_right fun all => all.2.1)
    updated
  have fixed : ({ session with buffers := buffers } : Session β).fixed = session.fixed := by
    simp only [Session.fixed, Reading.frame_of_update updated]
  obtain ⟨tensor, after, ran, -⟩ := runPhase_total (wired.of_fixed fixed) ready
    (fun invocation asked asks => answered _ _ invocation asked (.token later updated) asks)
  refine ⟨tensor, after, ?_⟩
  simp only [run, Step.returns_bind, Step.returns_get]
  refine ⟨_, _, ⟨rfl, rfl⟩, ?_⟩
  rw [if_neg (by simp [later]), Step.returns_bind]
  exact ⟨(), _, Step.returns_within.mpr ⟨buffers, updated, rfl⟩, ran⟩

theorem rollback_total {count : Nat} (fixed : ¬ moves) (lined : session.buffers.Lined columns)
    (counts : session.buffers.Counts fed) (supplied : session.buffers.Supplied fed moves)
    (fits : count ≤ fed) (within : count ≤ columns) :
    ∃ after, Step.Returns (rollback count) session () after ∧ after.fixed = session.fixed ∧
      after.first = session.first ∧ after.buffers.Lined (columns - count) ∧
      after.buffers.Supplied 0 moves := by
  obtain ⟨buffers, rolled, framed, lined', supplied'⟩ :=
    Buffers.rollback_total fixed lined counts supplied fits within
  refine ⟨{ session with buffers := buffers }, ?_, ?_, rfl, lined', supplied'⟩
  · unfold rollback onBuffers
    exact Step.returns_within.mpr ⟨buffers, rolled, rfl⟩
  · simp only [Session.fixed, framed]

end Session

end StagedDecoding
