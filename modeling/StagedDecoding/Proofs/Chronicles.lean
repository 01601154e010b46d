import StagedDecoding.Proofs.Recital
import StagedDecoding.Proofs.Origins

/-! No tensor of an older step is ever used.

Steps and rollbacks come in any order and end in any way. A step may break off with some presents
stored, a rollback with some of them cut, and an update with some moved to the pasts. Still every
present that is there belongs to the latest step that called the model, because a slot that an
update empties is filled only by a call, and an update needs all slots to be filled.
-/

set_option autoImplicit false

namespace StagedDecoding

open Relation (ReflTransGen)

/-- A tensor of which the last positions may be cut off. -/
def Tensor.Trimmed : Tensor → Tensor → Prop :=
  ReflTransGen fun whole cut => ∃ kept, whole.narrow 2 0 kept = .ok cut

def Episode.latest (episodes : List Episode) : Episode :=
  (episodes.find? fun episode => !episode.isEmpty).getD []

theorem Episode.latest_cons {episode : Episode} (played : episode ≠ []) (episodes : List Episode) :
    latest (episode :: episodes) = episode := by
  simp [latest, played]

/-- The present of a slot, if it has one, was given under its name in one of the calls, and may
have been cut since. -/
def CacheSlot.Dated (episode : Episode) (slot : CacheSlot) : Prop :=
  ∀ tensor, slot.present = some tensor →
    ∃ raw, Episode.Gave episode slot.presentName raw ∧ raw.Trimmed tensor

theorem CacheSlot.Dated.of_none {slot : CacheSlot} {episode : Episode}
    (empty : slot.present = none) : slot.Dated episode := by
  intro tensor given
  rw [empty] at given
  cases given

structure CacheSlot.Keeps (episode : Episode) (slot next : CacheSlot) : Prop where
  pastName : next.pastName = slot.pastName
  presentName : next.presentName = slot.presentName
  dated : slot.Dated episode → next.Dated episode

namespace LayerCache

variable {episode : Episode} {slot : CacheSlot}

/-- However an operation on the slots ends, it has done to each of them what it does, or nothing. -/
theorem leaves_onSlots {R : CacheSlot → CacheSlot → Prop} {operation : Step CacheSlot Unit}
    (still : ∀ slot, R slot slot) (each : ∀ slot, Step.Leaves (R slot) operation slot)
    (cache : LayerCache) :
    Step.Leaves (fun after => List.Forall₂ R cache.slots after.slots) (onSlots operation)
      cache := by
  rw [Step.leaves_iff]
  change List.Forall₂ R cache.slots (eachSlot operation cache.slots).2
  induction cache.slots with
  | nil => exact .nil
  | cons slot rest ih =>
    have left := Step.leaves_iff.mp (each slot)
    unfold eachSlot
    split
    · next failure changed failed =>
      rw [failed] at left
      exact .cons left (List.forall₂_same.mpr fun slot _ => still slot)
    · next changed passed =>
      rw [passed] at left
      exact .cons left ih

theorem leaves_advanceSlot (indices : List Nat) (slot : CacheSlot) :
    Step.Leaves (slot.Keeps episode) (advanceSlot indices) slot := by
  have emptied : ∀ past, slot.Keeps episode { slot with past := past, present := none } :=
    fun _ => ⟨rfl, rfl, fun _ => .of_none rfl⟩
  simp only [Step.Leaves, advanceSlot, Step.ends_bind, Step.ends_get]
  cases slot.present with
  | none => exact ⟨rfl, rfl, id⟩
  | some tensor =>
    simp only [Step.ends_bind, Step.ends_set]
    split
    · exact emptied _
    · rw [Step.ends_bind, Step.ends_lift, Outcome.ends_iff]
      exact ⟨fun _ _ => emptied _, fun _ _ => emptied _⟩

theorem leaves_trimSlot (count : Nat) (slot : CacheSlot) :
    Step.Leaves (slot.Keeps episode) (trimSlot count) slot := by
  refine Step.ends_iff.mpr ⟨fun _ after ran => ?_, fun failure after failed => ?_⟩
  · obtain ⟨whole, length, kept, present, -, -, narrowed, rfl⟩ := trimSlot_returns ran
    refine ⟨rfl, rfl, fun dated tensor given => ?_⟩
    obtain rfl := Option.some.inj given
    obtain ⟨raw, gave, cut⟩ := dated whole present
    exact ⟨raw, gave, cut.tail ⟨_, narrowed⟩⟩
  · rw [trimSlot, Step.fails_attempt] at failed
    exact failed.2 ▸ ⟨rfl, rfl, id⟩

end LayerCache

def Frame.Listed (frame : Frame) : Prop :=
  ∀ names ∈ frame.slots.getD [], names.1 ∈ frame.inputNames

namespace Buffers

variable {episode : Episode} {start before after : Buffers} {frame : Frame} {name : String}
  {tensor : Tensor}

structure Dated (frame : Frame) (episode : Episode) (buffers : Buffers) : Prop where
  framed : buffers.frame = frame
  scores : ∀ tensor, buffers.scores = some tensor →
    ∃ raw, Episode.Gave episode frame.scoresName raw ∧ tensor = raw.convert .f32
  presents : ∀ slot ∈ buffers.slots, slot.Dated episode

theorem Gathered.dated (gathered : start.Gathered episode after) :
    after.Dated start.frame episode where
  framed := gathered.framed
  scores := gathered.scores
  presents slot member tensor given :=
    ⟨tensor, gathered.presents slot member tensor given, .refl⟩

theorem Dated.cleared (dated : before.Dated frame []) : before.Cleared where
  scores := by
    cases given : before.scores with
    | none => rfl
    | some tensor =>
      obtain ⟨_, ⟨_, _, member, _⟩, _⟩ := dated.scores tensor given
      cases member
  presents slot member := by
    cases given : slot.present with
    | none => rfl
    | some tensor =>
      obtain ⟨_, ⟨_, _, listed, _⟩, _⟩ := dated.presents slot member tensor given
      cases listed

theorem Cleared.dated (cleared : before.Cleared) : before.Dated before.frame episode where
  framed := rfl
  scores tensor given := by simp [cleared.scores] at given
  presents slot member := .of_none (cleared.presents slot member)

theorem leaves_onPositions {step : Step Positions Unit} (dated : before.Dated frame episode) :
    Step.Leaves (Dated frame episode) (onPositions step) before := by
  unfold Step.Leaves onPositions
  rw [Step.ends_withinOption]
  refine ⟨fun _ => dated, fun own placed => ?_⟩
  have kept : ∀ positions, Dated frame episode { before with positions := some positions } :=
    fun _ => ⟨by rw [← dated.framed]; simp [Buffers.frame, placed], dated.scores, dated.presents⟩
  exact Step.ends_iff.mpr ⟨fun _ _ _ => kept _, fun _ _ _ => kept _⟩

theorem leaves_onCache {operation : Step CacheSlot Unit} (dated : before.Dated frame episode)
    (each : ∀ slot : CacheSlot, Step.Leaves (slot.Keeps episode) operation slot) :
    Step.Leaves (Dated frame episode) (onCache (LayerCache.onSlots operation)) before := by
  unfold Step.Leaves onCache
  rw [Step.ends_withinOption]
  refine ⟨fun _ => dated, fun cache kept => ?_⟩
  have own : before.slots = cache.slots := by simp [slots, kept]
  have changes : ∀ next : LayerCache,
      List.Forall₂ (CacheSlot.Keeps episode) cache.slots next.slots →
      Dated frame episode { before with cache := some next } := by
    intro next keeps
    have names : next.slotNames = cache.slotNames := by
      unfold LayerCache.slotNames
      rw [← List.forall₂_eq_eq_eq, List.forall₂_map_left_iff, List.forall₂_map_right_iff]
      exact keeps.flip.imp fun slot old same => by rw [same.pastName, same.presentName]
    refine ⟨by rw [← dated.framed]; simp [Buffers.frame, kept, names], dated.scores, ?_⟩
    have presents := dated.presents
    rw [own] at presents
    exact forall_of_forall₂ keeps fun old inside slot same => same.dated (presents old inside)
  exact (LayerCache.leaves_onSlots (fun _ => ⟨rfl, rfl, id⟩) each cache).imp
    (fun _ => changes) fun _ => changes

theorem leaves_update (tokens : List Token) (indices : List Nat) (length : Nat)
    (dated : before.Dated frame episode) :
    Step.Leaves (Dated frame episode) (update tokens indices length) before := by
  unfold update
  simp only [Step.Leaves, Step.throw_bind, Step.ends_bind, Step.ends_get]
  split
  · exact dated
  split
  · exact dated
  rw [Step.ends_bind, Step.ends_lift, Outcome.ends_iff]
  refine ⟨fun ids _ => ?_, fun _ _ => dated⟩
  rw [Step.ends_bind, Step.ends_set]
  have fed : Dated frame episode { before with inputIds := ids } :=
    ⟨dated.framed, dated.scores, dated.presents⟩
  refine (leaves_onPositions fed).bind fun _ _ dated => ?_
  refine (leaves_onCache dated (LayerCache.leaves_advanceSlot indices)).bind fun _ _ dated => ?_
  exact Step.ends_modify.mpr ⟨dated.framed, nofun, dated.presents⟩

theorem leaves_rollback (count : Nat) (dated : before.Dated frame episode) :
    Step.Leaves (Dated frame episode) (rollback count) before :=
  (leaves_onPositions dated).bind fun _ _ dated =>
    leaves_onCache dated (LayerCache.leaves_trimSlot count)

theorem cleared_of_update {tokens : List Token} {indices : List Nat} {length : Nat} {u : Unit}
    (ran : Step.Returns (update tokens indices length) before u after) :
    after.Cleared ∧ ∀ slot ∈ after.slots, ∃ old ∈ before.slots,
      Step.Returns (LayerCache.advanceSlot indices) old () slot := by
  obtain ⟨-, -, -, placed, cached, placing, caching, rfl⟩ := update_returns ran
  obtain ⟨placedEq, -, -⟩ := onPositions_returns placing
  obtain ⟨-, -, slots⟩ := onCache_returns LayerCache.advanceSlot_names caching
  -- moving the positions leaves the cache alone
  have advanced : ∀ slot ∈ cached.slots, ∃ old ∈ before.slots,
      Step.Returns (LayerCache.advanceSlot indices) old () slot := by
    intro slot member
    cases kept : cached.cache with
    | none => simp [Buffers.slots, kept] at member
    | some cache =>
      obtain ⟨earlier, there, each⟩ := slots cache kept
      obtain ⟨old, inside, passed⟩ := each slot (by simpa [Buffers.slots, kept] using member)
      have kept : before.cache = some earlier := by
        rw [placedEq] at there
        exact there
      exact ⟨old, by simpa [Buffers.slots, kept] using inside, passed⟩
  refine ⟨⟨rfl, fun slot member => ?_⟩, advanced⟩
  obtain ⟨old, -, passed⟩ := advanced slot member
  obtain ⟨_, _, _, _, _, gone⟩ := LayerCache.advanceSlot_returns passed
  exact gone

/-- Where a tensor comes from that a stage is given in a step after the first. The tensors of a
model are those of the step itself and the pasts; a past is what the model gave, in the latest step
that called it, for the present of its slot, with the last positions cut off by rollbacks and with
the rows of the parents. -/
inductive Origin (before after : Buffers) (indices : List Nat) (latest earlier : Episode)
    (name : String) (tensor : Tensor) : Prop where
  | ids : name = after.names.inputIds → tensor = after.idsTensor →
      Origin before after indices latest earlier name tensor
  | positions {positions : Positions} : after.positions = some positions →
      name = after.names.positionIds → tensor = positions.idsTensor →
      Origin before after indices latest earlier name tensor
  | mask {positions : Positions} : after.positions = some positions →
      name = after.names.attentionMask → tensor = positions.maskTensor →
      Origin before after indices latest earlier name tensor
  | past {slot : CacheSlot} {raw cut : Tensor} : slot ∈ before.slots → slot.pastName = name →
      Episode.Gave latest slot.presentName raw → raw.Trimmed cut →
      (if indices.isEmpty then tensor = cut else cut.selectRows indices = .ok tensor) →
      Origin before after indices latest earlier name tensor
  | extra : (∀ slot ∈ before.slots, slot.pastName ≠ name) →
      after.extraInputs.get? name = some tensor →
      Origin before after indices latest earlier name tensor
  | output {output : String} : (∀ slot ∈ before.slots, slot.pastName ≠ name) →
      Episode.Gave earlier output tensor → Origin before after indices latest earlier name tensor

theorem mem_slotNames {slot : CacheSlot} (member : slot ∈ start.slots) :
    (slot.pastName, slot.presentName) ∈ start.frame.slots.getD [] := by
  rw [← slotNames_eq_frame]
  exact List.mem_map_of_mem
    (f := fun slot : CacheSlot => (slot.pastName, slot.presentName)) member

theorem exists_slot {slot : CacheSlot} (framed : after.frame = before.frame)
    (member : slot ∈ before.slots) : ∃ next ∈ after.slots, next.pastName = slot.pastName := by
  have listed := mem_slotNames member
  rw [← framed, ← slotNames_eq_frame] at listed
  obtain ⟨next, inside, same⟩ := List.mem_map.mp listed
  exact ⟨next, inside, (Prod.mk.inj same).1⟩

theorem past_ne_none {slot : CacheSlot} (member : slot ∈ start.slots) :
    start.cache.bind (·.past slot.pastName) ≠ none := by
  have there : start.pasts.contains slot.pastName = true :=
    List.any_eq_true.mpr ⟨_, List.mem_map_of_mem
      (f := fun slot : CacheSlot => (slot.pastName, slot.past)) member, beq_self_eq_true _⟩
  rw [Named.contains_eq_isSome, ← past_eq] at there
  exact Option.isSome_iff_ne_none.mp there

theorem managed_ne_none {slot : CacheSlot} (listed : start.frame.Listed)
    (member : slot ∈ start.slots) : start.managed slot.pastName ≠ none := by
  have isInput : ManagedBuffers.isInput slot.pastName start = true :=
    List.contains_iff_mem.mpr (listed _ (mem_slotNames member))
  rw [managed, if_pos isInput]
  intro absent
  unfold Buffers.input at absent
  split at absent
  · cases absent
  · have none := (Option.or_eq_none_iff.mp absent).1
    exact past_ne_none member (Option.or_eq_none_iff.mp none).2

theorem origin_of_managed {tokens : List Token} {indices : List Nat} {length : Nat} {u : Unit}
    {latest : Episode} (dated : before.Dated frame latest)
    (ran : Step.Returns (update tokens indices length) before u start)
    (gathered : start.Gathered episode after) (found : start.managed name = some tensor)
    (earlier : Episode) : Origin before after indices latest earlier name tensor := by
  rw [gathered.same]
  unfold managed at found
  split at found
  case isFalse => cases found
  unfold Buffers.input at found
  split at found
  · next ids => exact .ids ids (Option.some.inj found).symm
  -- positions are looked up first, then the cache, then the extra inputs
  rcases Option.or_eq_some_iff.mp found with found | ⟨absent, extra⟩
  · rcases Option.or_eq_some_iff.mp found with placed | ⟨-, past⟩
    · obtain ⟨positions, there, placed⟩ := Option.bind_eq_some_iff.mp placed
      split at placed
      · next named => exact .positions there named (Option.some.inj placed).symm
      · split at placed
        · next named => exact .mask there named (Option.some.inj placed).symm
        · cases placed
    · rw [past_eq] at past
      obtain ⟨slot, member, same⟩ := List.mem_map.mp (Named.mem_of_get? past)
      obtain ⟨rfl, rfl⟩ := Prod.mk.inj same
      obtain ⟨old, inside, passed⟩ := (cleared_of_update ran).2 slot member
      obtain ⟨cut, present, moved, pastName, -, -⟩ := LayerCache.advanceSlot_returns passed
      obtain ⟨raw, gave, trimmed⟩ := dated.presents old inside cut present
      exact .past inside pastName.symm gave trimmed moved
  · refine .extra (fun slot member named => ?_) extra
    obtain ⟨next, inside, same⟩ := exists_slot (Reading.frame_of_update ran) member
    have none := (Option.or_eq_none_iff.mp absent).2
    rw [← named, ← same] at none
    exact past_ne_none inside none

end Buffers

namespace Session

variable {β : Type} {model : Model β} {before after : Session (β × Episode)} {episode : Episode}

/-- The calls of a phase are written down; they gave what the buffers keep, and each was given what
was there before or an output of an earlier one. -/
structure Played (before : Session (β × Episode)) (episode : Episode)
    (after : Session (β × Episode)) : Prop where
  transcript : after.model.2 = before.model.2 ++ episode
  gathered : before.buffers.Gathered episode after.buffers
  inputs : ∀ (i : Nat) invocation answer, episode[i]? = some (invocation, answer) →
    ∀ name tensor, invocation.inputs.get? name = some tensor →
      before.buffers.managed name = some tensor ∨ before.buffers.managed name = none ∧
        ∃ output, Episode.Gave (episode.take i) output tensor
  scoresName : after.pipeline.scoresName = before.pipeline.scoresName
  first : after.first = before.first

/-- What a step leaves does not depend on what becomes of the scores. -/
theorem runStep_state {β : Type} (model : Model β) (phase : Phase) (pipeline : Pipeline)
    (buffers : Buffers) (state : β) :
    (Pipeline.runStep model phase (pipeline, buffers, state)).2 =
      let ran := Pipeline.runStages model pipeline.primary phase pipeline.stages [] buffers state
      ({ pipeline with stages := ran.2.1 }, ran.2.2.1, ran.2.2.2) := by
  unfold Pipeline.runStep
  dsimp only
  split
  · rfl
  · split <;> rfl

theorem runPhase_played (model : Model β) (phase : Phase) (cleared : before.buffers.Cleared) :
    ∃ episode, Played before episode (runPhase model.transcribed phase before).2 := by
  obtain ⟨result, stages, final, state, calls, -, recorded, accounts⟩ :=
    Pipeline.runStages_accounts model before.pipeline.primary phase before.pipeline.stages
      before.buffers before.model.1 before.model.2
  -- whether the scores are found or not, the stages leave the same
  have left : (runPhase model.transcribed phase before).2 =
      { before with
        pipeline := { before.pipeline with stages := stages }
        buffers := final
        model := (state, before.model.2 ++ calls.map Call.entry) } := by
    change (fun changed : Pipeline × Buffers × β × Episode =>
      ({ before with pipeline := changed.1, buffers := changed.2.1, model := changed.2.2 } :
        Session (β × Episode))) (Pipeline.runStep model.transcribed phase
          (before.pipeline, before.buffers, before.model)).2 = _
    rw [runStep_state]
    simp only [recorded]
  rw [left]
  refine ⟨calls.map Call.entry, rfl, accounts.gathered cleared, ?_, rfl, rfl⟩
  intro i invocation answer here name tensor found
  rw [List.getElem?_map] at here
  obtain ⟨call, there, same⟩ := Option.map_eq_some_iff.mp here
  obtain ⟨rfl, rfl⟩ := Prod.mk.inj same
  rw [← List.map_take]
  exact accounts.inputs cleared there found

theorem runPhase_scores {β : Type} {model : Model β} {before after : Session β} {phase : Phase}
    {tensor : Tensor} (ran : Step.Returns (runPhase model phase) before tensor after) :
    after.buffers.output before.pipeline.scoresName = some tensor := by
  obtain ⟨⟨pipeline, buffers, state⟩, stepped, rfl⟩ := Step.returns_within.mp ran
  obtain ⟨-, -, -, given⟩ := Pipeline.runStep_returns stepped
  exact given

/-- What holds of a session after some steps, given with their calls, the latest first. -/
structure Timely (episodes : List Episode) (session : Session (β × Episode)) : Prop where
  first : session.first = episodes.isEmpty
  named : session.buffers.scoresName = session.pipeline.scoresName
  listed : session.buffers.frame.Listed
  dated : session.buffers.Dated session.buffers.frame (.latest episodes)

theorem Timely.create {config : Config} {request : Request} {state : β × Episode} {device : Device}
    {registry : DeviceRegistry} {session : Session (β × Episode)}
    (created : Session.create config request state device registry = .ok session) :
    session.Timely [] := by
  obtain ⟨buffers, filled, rfl⟩ := Session.create_eq_ok created
  have cleared := Buffers.cleared_of_create filled
  obtain ⟨ids, positions, cache, -, -, -, rfl⟩ := Buffers.create_eq_ok filled
  refine ⟨rfl, rfl, fun names member => ?_, cleared.dated⟩
  cases cache with
  | none => cases member
  | some cache =>
    have past : names.1 ∈ cache.pastNames := by
      obtain ⟨slot, inside, rfl⟩ := List.mem_map.mp member
      exact List.mem_map_of_mem inside
    simp [Buffers.frame, past]

variable {episodes episodes' : List Episode}

theorem Timely.later (timely : before.Timely episodes) (first : after.first = episodes'.isEmpty)
    (scoresName : after.pipeline.scoresName = before.pipeline.scoresName)
    (dated : after.buffers.Dated before.buffers.frame (.latest episodes')) :
    after.Timely episodes' where
  first := first
  named := (congrArg Frame.scoresName dated.framed).trans (timely.named.trans scoresName.symm)
  listed := dated.framed ▸ timely.listed
  dated := by
    rw [dated.framed]
    exact dated

/-- The calls of a step, whatever it comes to: they are written down, its scores come from one of
them, and unless it is the first step, everything that they were given has a proper origin. -/
structure UpToDate (episodes : List Episode) (before : Session (β × Episode)) (indices : List Nat)
    (episode : Episode) (result : Except Failure Tensor) (after : Session (β × Episode)) :
    Prop where
  transcript : after.model.2 = before.model.2 ++ episode
  scores : ∀ tensor, result = .ok tensor →
    ∃ raw, Episode.Gave episode before.pipeline.scoresName raw ∧ tensor = raw.convert .f32
  inputs : episodes ≠ [] → ∀ (i : Nat) invocation answer,
    episode[i]? = some (invocation, answer) →
    ∀ name tensor, invocation.inputs.get? name = some tensor →
      Buffers.Origin before.buffers after.buffers indices (.latest episodes) (episode.take i)
        name tensor

theorem ends_runPhase (model : Model β) (phase : Phase) {ready : Session (β × Episode)}
    {P : Except Failure Tensor → Session (β × Episode) → Prop}
    (cleared : ready.buffers.Cleared)
    (named : ready.buffers.scoresName = ready.pipeline.scoresName)
    (concludes : ∀ episode result after, Played ready episode after →
      (∀ tensor, result = .ok tensor →
        ∃ raw, Episode.Gave episode ready.pipeline.scoresName raw ∧ tensor = raw.convert .f32) →
      P result after) :
    Step.Ends (runPhase model.transcribed phase) ready (fun tensor after => P (.ok tensor) after)
      fun failure after => P (.error failure) after := by
  obtain ⟨episode, played⟩ := runPhase_played model phase cleared
  refine Step.ends_iff.mpr ⟨fun tensor after ran => ?_, fun failure after failed => ?_⟩
  · have same : (runPhase model.transcribed phase ready).2 = after := congrArg Prod.snd ran
    rw [same] at played
    have given := runPhase_scores ran
    have kept : after.buffers.scoresName = ready.pipeline.scoresName :=
      (congrArg Frame.scoresName played.gathered.framed).trans named
    rw [Buffers.output, if_pos kept.symm] at given
    refine concludes episode (.ok tensor) after played fun _ answer => ?_
    obtain rfl := Except.ok.inj answer
    exact named ▸ played.gathered.scores tensor given
  · have same : (runPhase model.transcribed phase ready).2 = after := congrArg Prod.snd failed
    refine concludes episode (.error failure) after (same ▸ played) fun _ answer => ?_
    cases answer

theorem Played.dated {ready : Session (β × Episode)} (played : Played ready episode after) :
    after.buffers.Dated ready.buffers.frame (.latest (episode :: episodes)) := by
  by_cases idle : episode = []
  · have cleared := (idle ▸ played.gathered.dated).cleared
    exact played.gathered.framed ▸ cleared.dated
  · rw [Episode.latest_cons idle]
    exact played.gathered.dated

theorem Timely.origins {ready : Buffers} {tokens : List Token} {indices : List Nat} {length : Nat}
    {u : Unit} (timely : before.Timely episodes)
    (updated : Step.Returns (Buffers.update tokens indices length) before.buffers u ready)
    (played : Played { before with buffers := ready } episode after) (i : Nat)
    (invocation : Invocation) (answer : Answer) (here : episode[i]? = some (invocation, answer))
    (name : String) (tensor : Tensor) (found : invocation.inputs.get? name = some tensor) :
    Buffers.Origin before.buffers after.buffers indices (.latest episodes) (episode.take i) name
      tensor := by
  have framed : ready.frame = before.buffers.frame := Reading.frame_of_update updated
  rcases played.inputs i invocation answer here name tensor found with
    managed | ⟨unmanaged, _, gave⟩
  · exact Buffers.origin_of_managed timely.dated updated played.gathered managed _
  · refine .output (fun slot member named => ?_) gave
    obtain ⟨next, inside, same⟩ := Buffers.exists_slot framed member
    rw [← named, ← same] at unmanaged
    exact Buffers.managed_ne_none (framed ▸ timely.listed) inside unmanaged

theorem Timely.run (timely : before.Timely episodes) (model : Model β) (length : Nat)
    (tokens : List Token) (indices : List Nat) :
    ∃ episode,
      UpToDate episodes before indices episode
        (Session.run model.transcribed length tokens indices before).1
        (Session.run model.transcribed length tokens indices before).2 ∧
      (Session.run model.transcribed length tokens indices before).2.Timely
        (episode :: episodes) := by
  let P (result : Except Failure Tensor) (after : Session (β × Episode)) : Prop := ∃ episode,
    UpToDate episodes before indices episode result after ∧ after.Timely (episode :: episodes)
  refine (Step.ends_outcome P).mp ?_
  simp only [Session.run, Step.ends_bind, Step.ends_get]
  split
  · -- before the first step nothing was recorded, so that no input needs an origin
    next first =>
    have none : episodes = [] := List.isEmpty_iff.mp (timely.first.symm.trans first)
    subst none
    rw [Step.ends_bind, Step.ends_modify]
    have cleared : before.buffers.Cleared := timely.dated.cleared
    refine ends_runPhase (P := P) model .prompt cleared timely.named
      fun episode result after played scores => ?_
    exact ⟨episode, ⟨played.transcript, scores, fun later => absurd rfl later⟩,
      timely.later played.first played.scoresName played.dated⟩
  · next later =>
    have later : before.first = false := by simpa using later
    simp only [Step.ends_bind, onBuffers, Step.ends_within]
    refine Step.ends_iff.mpr ⟨fun _ ready updated => ?_, fun failure buffers failed => ?_⟩
    · have framed : ready.frame = before.buffers.frame := Reading.frame_of_update updated
      have cleared : ready.Cleared := (Buffers.cleared_of_update updated).1
      have named : ready.scoresName = before.pipeline.scoresName :=
        (congrArg Frame.scoresName framed).trans timely.named
      refine ends_runPhase (P := P) model .token cleared named
        fun episode result after played scores => ?_
      exact ⟨episode, ⟨played.transcript, scores, fun _ => timely.origins updated played⟩,
        timely.later (played.first.trans later) played.scoresName (framed ▸ played.dated)⟩
    · -- an update that fails leaves presents of the same calls, and no stage is run
      have dated := Step.leaves_iff.mp
        (Buffers.leaves_update tokens indices length timely.dated)
      have same : (Buffers.update tokens indices length before.buffers).2 = buffers :=
        congrArg Prod.snd failed
      rw [same] at dated
      refine ⟨[], ⟨(List.append_nil _).symm, fun _ same => ?_, fun _ _ _ _ here => ?_⟩,
        timely.later later rfl dated⟩
      · cases same
      · cases here

theorem Timely.rollback (timely : before.Timely episodes) (count : Nat) :
    (Session.rollback count before).2.Timely episodes :=
  timely.later timely.first rfl (Step.leaves_iff.mp (Buffers.leaves_rollback count timely.dated))

/-- Steps of a session and rollbacks in any order, with the calls of every step, the latest first.
Any of them may fail. -/
inductive Chronicle (model : Model β) : List Episode → Session (β × Episode) → Prop where
  | create {config : Config} {request : Request} {state : β × Episode} {device : Device}
      {registry : DeviceRegistry} {session : Session (β × Episode)} :
      Session.create config request state device registry = .ok session →
      Chronicle model [] session
  | run {episodes : List Episode} {episode : Episode} {before : Session (β × Episode)}
      {length : Nat} {tokens : List Token} {indices : List Nat} :
      Chronicle model episodes before →
      (Session.run model.transcribed length tokens indices before).2.model.2 =
        before.model.2 ++ episode →
      Chronicle model (episode :: episodes)
        (Session.run model.transcribed length tokens indices before).2
  | rollback {episodes : List Episode} {before : Session (β × Episode)} {count : Nat} :
      Chronicle model episodes before → Chronicle model episodes (Session.rollback count before).2

theorem Chronicle.timely (chronicle : Chronicle model episodes before) :
    before.Timely episodes := by
  induction chronicle with
  | create created => exact .create created
  | @run episodes episode before length tokens indices _ written ih =>
    obtain ⟨own, told, timely⟩ := ih.run model length tokens indices
    -- the transcript determines the calls of the step
    obtain rfl := List.append_cancel_left (told.transcript.symm.trans written)
    exact timely
  | rollback _ ih => exact ih.rollback _

/-- Whatever was run before, scores that a step returns were given in one of its own calls, and
every past that it shows to the model was given in the latest step that called the model. -/
theorem never_stale (chronicle : Chronicle model episodes before) (length : Nat)
    (tokens : List Token) (indices : List Nat) :
    ∃ episode, UpToDate episodes before indices episode
      (Session.run model.transcribed length tokens indices before).1
      (Session.run model.transcribed length tokens indices before).2 := by
  obtain ⟨episode, told, -⟩ := chronicle.timely.run model length tokens indices
  exact ⟨episode, told⟩

def recite : Step (Session (Unit × Episode)) Unit := do
  let _ ← run (Recital.run Recital.counting).transcribed 2 [] []
  let _ ← run (Recital.run Recital.counting).transcribed 3 [2] []

theorem recital_never_stale :
    let model := Recital.run Recital.counting
    ∃ episode before tensor, Chronicle model [episode] before ∧
      (run model.transcribed 3 [2] [] before).1 = .ok tensor ∧
      ∃ next, UpToDate [episode] before [] next (run model.transcribed 3 [2] [] before).1
        (run model.transcribed 3 [2] [] before).2 := by
  intro model
  have checked : ((Session.create Recital.config (.ofConfig Recital.config 1 [0, 1])
      ((), []) .host .standard).toOption.bind fun start => (recite start).1.toOption) =
        some () := by
    decide +kernel
  obtain ⟨start, opened, recited⟩ := Option.bind_eq_some_iff.mp checked
  have chronicle : Chronicle model [] start := .create (Outcome.toOption_eq_some.mp opened)
  have ran := Step.returns_of_result recited
  simp only [recite, Step.returns_bind] at ran
  obtain ⟨_, before, prompted, tensor, _, continued, -⟩ := ran
  obtain ⟨episode, told⟩ := never_stale chronicle 2 [] []
  have left : (run model.transcribed 2 [] [] start).2 = before := congrArg Prod.snd prompted
  have reached : Chronicle model [episode] before := left ▸ chronicle.run told.transcript
  exact ⟨episode, before, tensor, reached, congrArg Prod.fst continued,
    never_stale reached 3 [2] []⟩

end Session

end StagedDecoding
