import StagedDecoding.Proofs.Feeding

/-! A rollback undoes what was fed.

On a model that only appends, and writes for every token from what stands before it, tokens that
are fed and rolled back leave nothing behind: neither in mask and counts, nor in any present. The one
trace is in the storage. Presents that were cut share the storage of the ones that they were cut
from, and as long as that has gaps, no rows can be picked from them.
-/

set_option autoImplicit false

namespace StagedDecoding

theorem Grid.Even.append {rows heads length fed size : Nat} {grid : Grid}
    {cells : Nat → Nat → List (List Scalar)} (even : grid.Even rows heads length size)
    (count : ∀ row head, (cells row head).length = fed)
    (sized : ∀ row head, ∀ cell ∈ cells row head, cell.length = size) :
    (grid.append cells).Even rows heads (length + fed) size where
  rows := by simp [Grid.append, even.rows]
  heads := by
    intro row member
    obtain ⟨i, bound, rfl⟩ := List.mem_mapIdx.mp member
    rw [List.length_mapIdx, even.heads _ (List.getElem_mem bound)]
  length := by
    intro row member lane inside
    obtain ⟨i, bound, rfl⟩ := List.mem_mapIdx.mp member
    obtain ⟨j, within, rfl⟩ := List.mem_mapIdx.mp inside
    rw [List.length_append, count,
      even.length _ (List.getElem_mem bound) _ (List.getElem_mem within)]
  size := by
    intro row member lane inside cell here
    obtain ⟨i, bound, rfl⟩ := List.mem_mapIdx.mp member
    obtain ⟨j, within, rfl⟩ := List.mem_mapIdx.mp inside
    rcases List.mem_append.mp here with old | new
    · exact even.size _ (List.getElem_mem bound) _ (List.getElem_mem within) cell old
    · exact sized i j cell new

/-! ### A model that takes down what it is fed -/

namespace Scribe

def writer : Writer := fun _ row _ glimpse =>
  [.whole ((glimpse.ids.getD row []).getLastD 0 : Nat)]

def entries (ids : List (List Token)) (row _head : Nat) : List (List Scalar) :=
  (List.range (Positions.width ids)).map fun i =>
    [.whole (((ids.map (·.take (i + 1))).getD row []).getLastD 0 : Nat)]

def continued (ids : List (List Token)) (past : Tensor) : Tensor :=
  match past.shape with
  | [rows, heads, length, size] =>
    .packed past.type [rows, heads, length + Positions.width ids, size]
      (past.grid.append (entries ids)).flatten.flatten.flatten
  | _ => past

def answer (inputs : Named Tensor) (name : String) : Tensor :=
  match inputs.get? (Blank.pastName name) with
  | some past =>
    if name = "logits" then .filled .f32 [] (.whole 0)
    else continued (Recital.rowsOf "input_ids" inputs) past
  | none => .filled .f32 [] (.whole 0)

def run : Model Unit := fun invocation state =>
  (.ok (invocation.outputs.map fun name => (name, answer invocation.inputs name)), state)

theorem continued_extends {past : Tensor} {rows heads length : Nat} (ids : List (List Token))
    (laid : past.Laid rows heads length 1) :
    past.Extends (Positions.width ids) (entries ids) (continued ids past) := by
  have even : (past.grid.append (entries ids)).Even rows heads (length + Positions.width ids) 1 :=
    laid.values_eq.1.append (by simp [entries]) (by simp [entries])
  have made : continued ids past = .packed past.type [rows, heads, length + Positions.width ids, 1]
      (past.grid.append (entries ids)).flatten.flatten.flatten := by
    unfold continued
    rw [laid.shape]
  rw [made]
  obtain ⟨longer, grid⟩ := Tensor.laid_of_even even
    (t := .packed past.type [rows, heads, length + Positions.width ids, 1] _) rfl rfl
  exact ⟨rows, heads, length, 1, laid, longer, rfl, grid⟩

variable {session : Session Unit} {length : Nat} {tokens : List Token} {indices : List Nat}

theorem writes (staged : session.pipeline.stages.map (·.config) = Recital.decoder.stages)
    (framed : Blank.Framed session.buffers.frame)
    (laid : ∀ phase entered, Session.Enters length tokens indices session phase entered →
      (∃ rows width, Rectangular rows width entered.buffers.inputIds) ∧
      ∀ slot ∈ entered.buffers.slots, ∃ rows heads old, slot.past.Laid rows heads old 1) :
    session.Writes writer run length tokens indices := by
  intro phase entered invocation asked enters asks
  obtain ⟨⟨rows, width, even⟩, laid⟩ := laid phase entered enters
  obtain ⟨framed, stage, wired, config, wires, rfl⟩ := Blank.asked_alone staged framed enters asks
  refine ⟨_, _, rfl, fun name member => ?_, fun slot inside member tensor found => ?_⟩
  · exact ⟨_, by rw [Blank.get?_answers, if_pos member]⟩
  · rw [Blank.get?_answers, if_pos member] at found
    obtain rfl := Option.some.inj found
    obtain ⟨named, past⟩ := Blank.shown_past framed config wires inside
    -- the ids that the stage is shown are those that the buffers were fed
    have ids : Recital.rowsOf "input_ids" wired.bound = entered.buffers.inputIds := by
      have named : entered.buffers.names.inputIds = "input_ids" :=
        congrArg InputNames.inputIds framed.names
      have read : "input_ids" ∈ ["input_ids", "past_key_values.0.key", "past_key_values.0.value"] :=
        List.mem_cons_self
      have shown := Blank.shown framed config wires read
      rw [← named, Buffers.input_ids] at shown
      rw [Recital.rowsOf, ← named, shown]
      exact Recital.rows_matrix even
    obtain ⟨_, _, _, laid⟩ := laid slot inside
    rw [answer, past]
    simp only [named, if_false, ids]
    exact continued_extends _ laid

abbrev Shaped (columns length : Nat) (buffers : Buffers) : Prop :=
  (buffers.inputIds.length = 2 ∧ ∀ row ∈ buffers.inputIds, row.length = columns) ∧
    ∀ slot ∈ buffers.slots, slot.past.shape = [2, 1, length, 1] ∧
      slot.past.values.length = 2 * 1 * length * 1

theorem wrote (columns old : Nat)
    (staged : session.pipeline.stages.map (·.config) = Recital.decoder.stages)
    (framed : Blank.Framed session.buffers.frame)
    (checked : Shaped columns old (if session.first then session.buffers
        else (Buffers.update tokens indices length session.buffers).2) ∧
      (Session.run run length tokens indices session).1.toOption.isSome = true ∧
      ∀ slot ∈ (Session.run run length tokens indices session).2.buffers.slots,
        slot.present.isSome = true) :
    Session.Wrote writer run length tokens indices session
      (Session.run run length tokens indices session).2 := by
  obtain ⟨shaped, ran, full⟩ := checked
  obtain ⟨scores, ran⟩ := Option.isSome_iff_exists.mp ran
  refine ⟨⟨scores, Step.returns_of_result ran⟩, writes staged framed ?_, full⟩
  intro phase entered enters
  have here : Shaped columns old entered.buffers := by
    cases enters with
    | prompt first => rwa [if_pos first] at shaped
    | @token buffers later updated =>
      have same : (Buffers.update tokens indices length session.buffers).2 = buffers :=
        congrArg Prod.snd updated
      rwa [if_neg (by simp [later]), same] at shaped
  exact ⟨⟨2, columns, here.1.1, here.1.2⟩,
    fun slot member => ⟨2, 1, old, (here.2 slot member).1, (here.2 slot member).2⟩⟩

def opened : Except Failure (Session Unit) :=
  Session.create Recital.config (.ofConfig Recital.config 2 [1, 2, 2, 1]) () .host .standard

def start : Session Unit := opened.toOption.get (by decide +kernel)

def prompted : Session Unit := (Session.run run 2 [] [] start).2

def fed : Session Unit := (Session.run run 4 [1, 2, 2, 2] [] prompted).2

def unfed : Session Unit := (Session.rollback 1 fed).2

def spared : Session Unit := (Session.run run 3 [1, 2] [] prompted).2

theorem created : opened = .ok start :=
  Outcome.toOption_eq_some.mp (Option.some_get _).symm

theorem framed_of_fixed (fixed : session.fixed = start.fixed) :
    session.pipeline.stages.map (·.config) = Recital.decoder.stages ∧
      Blank.Framed session.buffers.frame := by
  have made := Blank.framed_of_create rfl ⟨by decide, by decide, by decide⟩ created
  obtain ⟨-, rest⟩ := Prod.mk.inj fixed
  obtain ⟨-, rest⟩ := Prod.mk.inj rest
  obtain ⟨stages, frame⟩ := Prod.mk.inj rest
  exact ⟨stages.trans made.1, frame ▸ made.2⟩

theorem wrote_prompt : Session.Wrote writer run 2 [] [] start prompted := by
  obtain ⟨staged, framed⟩ := framed_of_fixed rfl
  exact wrote 2 0 staged framed (by decide +kernel)

theorem prompted_fixed : prompted.fixed = start.fixed :=
  wrote_prompt.ran.elim fun _ ran => (Session.run_fixed ran).1

theorem wrote_fed : Session.Wrote writer run 4 [1, 2, 2, 2] [] prompted fed := by
  obtain ⟨staged, framed⟩ := framed_of_fixed prompted_fixed
  exact wrote 2 2 staged framed (by decide +kernel)

theorem wrote_spared : Session.Wrote writer run 3 [1, 2] [] prompted spared := by
  obtain ⟨staged, framed⟩ := framed_of_fixed prompted_fixed
  exact wrote 1 2 staged framed (by decide +kernel)

theorem rolled_back : Step.Returns (Session.rollback 1) fed () unfed :=
  Step.returns_of_result (by decide +kernel)

end Scribe

namespace Session

variable {β : Type} {writer : Writer} {model : Model β} {config : Config} {request : Request}
  {device : Device} {registry : DeviceRegistry} {state : β} {start session : Session β}
  {positions : Positions} {kept dropped : List (List Token)} {columns new more : Nat}
  {indices : List Nat}

theorem supports_of_fixed (created : Session.create config request state device registry = .ok start)
    (fixed : session.fixed = start.fixed)
    (supported : ∀ stage ∈ config.model.decoder.stages,
      (Stage.ofConfig stage).supports device = true) :
    ∀ stage ∈ session.pipeline.stages, stage.supports session.pipeline.primary = true := by
  obtain ⟨buffers, -, rfl⟩ := Session.create_eq_ok created
  obtain ⟨primary, rest⟩ := Prod.mk.inj fixed
  obtain ⟨-, rest⟩ := Prod.mk.inj rest
  obtain ⟨stages, -⟩ := Prod.mk.inj rest
  have primary : session.pipeline.primary = device := primary
  have configs : session.pipeline.stages.map (·.config) = config.model.decoder.stages := by
    rw [stages, List.map_map]
    exact List.map_id' _
  intro stage member
  rw [primary]
  exact supported stage.config (configs ▸ List.mem_map_of_mem member)

/-- Whatever steps and rollbacks led to a session, some tokens and others behind them can be fed,
and when the others are taken back, the session remembers what it would if only the first ones had
been fed. From there all updates show the same, whatever steps and rollbacks follow, and those of
the one are exactly those of the other, save that rows are not picked from storage with gaps. -/
theorem rollback_unfeeds
    (created : Session.create config request state device registry = .ok start)
    (reached : Reached writer model start session) (later : session.first = false)
    (placed : session.buffers.positions = some positions)
    (wide : Positions.width positions.mask = columns)
    (keeps : Rectangular session.buffers.rows new kept) (feeds : 0 < new)
    (drops : Rectangular session.buffers.rows more dropped)
    (pickable : session.buffers.Pickable indices)
    (writesBoth : session.Writes writer model (columns + (new + more)) (beside kept dropped).flatten
      indices)
    (writesKept : session.Writes writer model (columns + new) kept.flatten indices) :
    (∃ ready, Step.Returns (Buffers.update (beside kept dropped).flatten indices
      (columns + (new + more))) session.buffers () ready) ∧
    (∃ ready, Step.Returns (Buffers.update kept.flatten indices (columns + new)) session.buffers ()
      ready) ∧
    (config.model.decoder.Sustains →
      (∀ stage ∈ config.model.decoder.stages, (Stage.ofConfig stage).supports device = true) →
      (∃ both, Wrote writer model (columns + (new + more)) (beside kept dropped).flatten indices
        session both) ∧
      ∃ alone, Wrote writer model (columns + new) kept.flatten indices session alone) ∧
    ∀ both alone,
      Wrote writer model (columns + (new + more)) (beside kept dropped).flatten indices session both →
      Wrote writer model (columns + new) kept.flatten indices session alone →
      ∃ back, Step.Returns (Session.rollback more) both () back ∧
        back.buffers.Alike alone.buffers ∧
        ∀ here there, Together writer model back alone here there →
          here.buffers.Follows there.buffers ∧ there.buffers.Follows here.buffers := by
  subst wide
  have settled := reached.settled (settled_of_create created)
  have level := settled.level positions placed
  have full := settled.full later
  obtain ⟨readyBoth, ranBoth⟩ := Buffers.update_possible level placed full settled.solid pickable
    (keeps.beside drops).length_flatten (Nat.add_pos_left feeds more)
  obtain ⟨readyKept, ranKept⟩ := Buffers.update_possible level placed full settled.solid pickable
    keeps.length_flatten feeds
  refine ⟨⟨readyBoth, ranBoth⟩, ⟨readyKept, ranKept⟩, fun sustains supported => ?_,
    fun both alone wroteBoth wroteAlone => ?_⟩
  · have sustained := ((opened_of_create created).provided sustains).sustained.of_fixed reached.fixed
    have supports := supports_of_fixed created reached.fixed supported
    exact ⟨writesBoth.run_returns later ranBoth sustained supports,
      writesKept.run_returns later ranKept sustained supports⟩
  · obtain ⟨ready, ran, stepped, first⟩ := wroteBoth.later later
    obtain ⟨ready', ran', stepped', first'⟩ := wroteAlone.later later
    have updatedBoth := Buffers.updated_rows level.some (keeps.beside drops) ran
    have updatedKept := Buffers.updated_rows level.some keeps ran'
    obtain ⟨buffers, rolled, alike⟩ :=
      updatedBoth.retract level placed keeps drops updatedKept stepped stepped'
    refine ⟨{ both with buffers := buffers }, rollback_returns_iff.mpr ⟨buffers, rolled, rfl⟩, alike,
      fun here there together => ?_⟩
    obtain ⟨same, -⟩ := together.alike alike first first'
    exact ⟨same.follows, same.symm.follows⟩

/-- A token for every row is fed with another one behind, which is taken back. -/
theorem scribe_unfeeds : ∃ start session both alone back,
    Session.create Recital.config (.ofConfig Recital.config 2 [1, 2, 2, 1]) () .host .standard =
      .ok start ∧
    Reached Scribe.writer Scribe.run start session ∧
    Wrote Scribe.writer Scribe.run 4 [1, 2, 2, 2] [] session both ∧
    Wrote Scribe.writer Scribe.run 3 [1, 2] [] session alone ∧
    Step.Returns (Session.rollback 1) both () back ∧ back.buffers.Alike alone.buffers ∧
    back.buffers.Follows alone.buffers := by
  have reached := Reached.start.run Scribe.wrote_prompt
  have masked : (Scribe.prompted.buffers.positions.map fun positions =>
      Positions.width positions.mask) = some 2 := by
    decide +kernel
  obtain ⟨positions, placed, wide⟩ := Option.map_eq_some_iff.mp masked
  have rows : Scribe.prompted.buffers.rows = 2 := by decide +kernel
  have keeps : Rectangular Scribe.prompted.buffers.rows 1 [[1], [2]] :=
    ⟨rows.symm, by decide⟩
  have drops : Rectangular Scribe.prompted.buffers.rows 1 [[2], [2]] :=
    ⟨rows.symm, by decide⟩
  have pickable : Scribe.prompted.buffers.Pickable [] := ⟨.inl rfl, by simp⟩
  obtain ⟨-, -, -, undone⟩ := rollback_unfeeds Scribe.created reached (by decide +kernel) placed wide
    keeps Nat.one_pos drops pickable Scribe.wrote_fed.writes Scribe.wrote_spared.writes
  obtain ⟨back, rolled, alike, together⟩ := undone _ _ Scribe.wrote_fed Scribe.wrote_spared
  exact ⟨_, _, _, _, back, Scribe.created, reached, Scribe.wrote_fed, Scribe.wrote_spared, rolled,
    alike, (together _ _ .start).1⟩

/-- After that the rows cannot change places, although they could if the other token had never been
fed. -/
theorem unfed_rows_stay : ∃ start session both alone back ready,
    Session.create Recital.config (.ofConfig Recital.config 2 [1, 2, 2, 1]) () .host .standard =
      .ok start ∧
    Reached Scribe.writer Scribe.run start session ∧
    Wrote Scribe.writer Scribe.run 4 [1, 2, 2, 2] [] session both ∧
    Wrote Scribe.writer Scribe.run 3 [1, 2] [] session alone ∧
    Step.Returns (Session.rollback 1) both () back ∧
    Step.Returns (Buffers.update [1, 1] [1, 0] 4) alone.buffers () ready ∧
    (Buffers.update [1, 1] [1, 0] 4 back.buffers).1 = .error (.tensor .gaps) :=
  ⟨Scribe.start, Scribe.prompted, Scribe.fed, Scribe.spared, Scribe.unfed, _, Scribe.created,
    Reached.start.run Scribe.wrote_prompt, Scribe.wrote_fed, Scribe.wrote_spared,
    Scribe.rolled_back, Step.returns_of_result (by decide +kernel), by decide +kernel⟩

end Session

end StagedDecoding
