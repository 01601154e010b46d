import StagedDecoding.Proofs.Conditions
import StagedDecoding.Proofs.Serving
import StagedDecoding.Proofs.StepCalls

/-! Where the tensors of a step come from.

A step starts with buffers that hold no scores and no presents. What they hold later, whether the
step succeeds or breaks off, was given by the model in one of its calls. What a call is given was
there when the step started, or was given by an earlier call of the step.
-/

set_option autoImplicit false

namespace StagedDecoding

/-- The calls of a model in one step of a session, with the answers. -/
abbrev Episode := List (Invocation × Answer)

def Episode.Gave (episode : Episode) (name : String) (tensor : Tensor) : Prop :=
  ∃ invocation outputs, (invocation, Except.ok outputs) ∈ episode ∧
    name ∈ invocation.outputs ∧ outputs.get? name = some tensor

theorem Call.gave {calls : List Call} {call : Call} {name : String} {tensor : Tensor}
    (member : call ∈ calls) (asked : name ∈ call.invocation.outputs)
    (found : call.tensors.get? name = some tensor) :
    Episode.Gave (calls.map Call.entry) name tensor := by
  have entered : call.entry ∈ calls.map Call.entry := List.mem_map_of_mem member
  unfold Call.tensors at found
  unfold Call.entry at entered
  cases answered : call.answer with
  | error _ =>
    rw [answered] at found
    cases found
  | ok outputs =>
    rw [answered] at found entered
    exact ⟨call.invocation, outputs, entered, asked, found⟩

namespace Buffers

def pasts (buffers : Buffers) : Named Tensor :=
  buffers.slots.map fun slot => (slot.pastName, slot.past)

def managed (buffers : Buffers) (name : String) : Option Tensor :=
  if ManagedBuffers.isInput name buffers then buffers.input name else none

structure Cleared (buffers : Buffers) : Prop where
  scores : buffers.scores = none
  presents : ∀ slot ∈ buffers.slots, slot.present = none

theorem cleared_of_create {config : Config} {request : Request} {stages : List Stage}
    {buffers : Buffers} (created : Buffers.create config request stages = .ok buffers) :
    buffers.Cleared := by
  obtain ⟨ids, positions, cache, -, -, kept, rfl⟩ := create_eq_ok created
  refine ⟨rfl, fun slot member => ?_⟩
  cases cache with
  | none => simp [slots] at member
  | some cache =>
    have inside : slot ∈ cache.slots := by simpa [slots] using member
    exact ((LayerCache.ofConfig_eq_ok (kept.made rfl)).2 slot inside).1

/-- Scores and presents were given in some calls. Nothing else is different. -/
structure Gathered (start : Buffers) (episode : Episode) (now : Buffers) : Prop where
  same : now = { start with cache := now.cache, scores := now.scores }
  framed : now.frame = start.frame
  pasts : now.pasts = start.pasts
  scores : ∀ tensor, now.scores = some tensor →
    ∃ raw, Episode.Gave episode start.scoresName raw ∧ tensor = raw.convert .f32
  presents : ∀ slot ∈ now.slots, ∀ tensor, slot.present = some tensor →
    Episode.Gave episode slot.presentName tensor

variable {start now next : Buffers} {episode : Episode} {name : String} {tensor : Tensor}

theorem past_eq (buffers : Buffers) (name : String) :
    buffers.cache.bind (·.past name) = Named.get? name buffers.pasts := by
  unfold Buffers.pasts slots
  cases buffers.cache with
  | none => rfl
  | some cache =>
    simp only [Option.bind_some, Option.map_some, Option.getD_some, LayerCache.past, Named.get?,
      List.find?_map, Option.map_map]
    rfl

theorem Cleared.gathered (cleared : start.Cleared) : start.Gathered episode start where
  same := rfl
  framed := rfl
  pasts := rfl
  scores tensor given := by simp [cleared.scores] at given
  presents slot member tensor given := by simp [cleared.presents slot member] at given

theorem Gathered.managed (gathered : start.Gathered episode now) (name : String) :
    now.managed name = start.managed name := by
  have same : now.input name = start.input name := by
    unfold Buffers.input
    rw [past_eq, past_eq, gathered.pasts, gathered.same]
    rfl
  unfold Buffers.managed
  rw [same, gathered.same]
  rfl

theorem pasts_of_store {cache changed : LayerCache}
    (stored : cache.store? name tensor = some changed) :
    changed.slots.map (fun slot => (slot.pastName, slot.past)) =
      cache.slots.map fun slot => (slot.pastName, slot.past) := by
  obtain ⟨i, -, rfl⟩ := Option.map_eq_some_iff.mp stored
  refine List.ext_getElem (by simp) fun j _ _ => ?_
  by_cases here : i = j <;> simp [here]

theorem Gathered.store (gathered : start.Gathered episode now)
    (gave : Episode.Gave episode name tensor) (stored : now.store name tensor = .ok next) :
    start.Gathered episode next := by
  have framed := (frame_of_store stored).trans gathered.framed
  unfold Buffers.store at stored
  split at stored
  · next scores =>
    obtain rfl := Except.ok.inj stored
    refine ⟨?_, framed, gathered.pasts, fun kept given => ⟨tensor, ?_, ?_⟩, gathered.presents⟩
    · rw [gathered.same]
    · rw [scores, gathered.same] at gave
      exact gave
    · exact (Option.some.inj given).symm
  · split at stored
    · next changed taken =>
      obtain ⟨cache, there, taken⟩ := Option.bind_eq_some_iff.mp taken
      obtain rfl := Except.ok.inj stored
      have own : now.slots = cache.slots := by simp [slots, there]
      refine ⟨?_, framed, ?_, gathered.scores, fun slot member present given => ?_⟩
      · rw [gathered.same]
      · rw [← gathered.pasts, Buffers.pasts, Buffers.pasts, own]
        exact pasts_of_store taken
      · -- a slot is as it was or is the one that got the tensor
        obtain inside | ⟨old, inside, named, rfl⟩ := (slots_of_store taken).2 slot member
        · exact gathered.presents slot (own ▸ inside) present given
        · obtain rfl := Option.some.inj given
          exact named.symm ▸ gave
    · cases stored

theorem Gathered.storeOutputs {managed : String → Bool} {outputs : Named Tensor}
    {names : List String} (gathered : start.Gathered episode now)
    (gave : ∀ name ∈ names, ∀ tensor, outputs.get? name = some tensor →
      Episode.Gave episode name tensor)
    (stored : Pipeline.storeOutputs managed outputs names now = .ok next) :
    start.Gathered episode next := by
  refine Outcome.foldlM_preserves (fun name member before after kept given => ?_) gathered stored
  split at given
  · next tensor found =>
    exact kept.store (gave name (List.mem_of_mem_filter member) tensor found) given
  · exact Except.ok.inj given ▸ kept

theorem Gathered.storeAll {managed : String → Bool} {all calls : List Call}
    (gathered : start.Gathered (all.map Call.entry) now) (among : ∀ call ∈ calls, call ∈ all)
    (stored : Pipeline.storeAll managed calls now = .ok next) :
    start.Gathered (all.map Call.entry) next :=
  Outcome.foldlM_preserves (fun call member _ _ kept given =>
    kept.storeOutputs (fun _ asked _ found => Call.gave (among call member) asked found) given)
    gathered stored

end Buffers

namespace Pipeline

open Buffers

variable {α : Type} {managed : String → Bool} {start final : Buffers} {active : List Stage}
  {earlier calls : List Call} {call : Call} {result : Except Failure α} {name : String}
  {tensor : Tensor}

theorem Accounts.gathered (accounts : Accounts managed start active [] calls result final)
    (cleared : start.Cleared) : start.Gathered (calls.map Call.entry) final := by
  have whole : storeAll managed ([] ++ calls) start = .ok final →
      start.Gathered (calls.map Call.entry) final :=
    cleared.gathered.storeAll fun _ member => member
  cases result with
  | ok value => exact whole (accounts.success value rfl).2.2
  | error failure =>
    obtain ⟨-, stored⟩ | ⟨before, call, now, first, rfl, stored, front, rest⟩ :=
      accounts.failure failure rfl
    · exact whole stored
    · have kept : start.Gathered ((before ++ [call]).map Call.entry) now :=
        cleared.gathered.storeAll (fun call member => List.mem_append_left _ member) stored
      exact kept.storeOutputs
        (fun _ member _ found => Call.gave (by simp) (front.subset member) found) rest

theorem gave_of_latest (asked : ∀ call ∈ earlier, ∀ name, name ∈ call.invocation.outputs ↔
      name ∈ call.stage.config.outputs)
    (found : latest managed earlier name = some tensor) :
    ∃ output, Episode.Gave (earlier.map Call.entry) output tensor := by
  obtain ⟨call, member, given⟩ := List.exists_of_findSome?_eq_some found
  rw [List.mem_reverse] at member
  obtain ⟨output, last, there⟩ := Option.bind_eq_some_iff.mp given
  have declared : output ∈ call.stage.config.outputs :=
    List.mem_eraseDups.mp (List.mem_of_mem_filter (List.mem_of_getLast? last))
  exact ⟨output, Call.gave member ((asked call member output).mpr declared) there⟩

/-- A call is given what was there when the step started, or else an output of an earlier call. -/
theorem Accounts.inputs (accounts : Accounts managed start active [] calls result final)
    (cleared : start.Cleared) {i : Nat} (here : calls[i]? = some call)
    (found : call.invocation.inputs.get? name = some tensor) :
    start.managed name = some tensor ∨ start.managed name = none ∧
      ∃ output, Episode.Gave ((calls.take i).map Call.entry) output tensor := by
  obtain ⟨-, ⟨now, stored, bound⟩, -, -⟩ := accounts.wired i call here
  rw [List.nil_append] at stored bound
  have gathered : start.Gathered ((calls.take i).map Call.entry) now :=
    cleared.gathered.storeAll (fun _ member => member) stored
  rw [bound] at found
  split at found
  · change (now.managed name).or _ = some tensor at found
    rw [gathered.managed] at found
    refine (Option.or_eq_some_iff.mp found).imp_right (And.imp_right fun handedOn => ?_)
    refine gave_of_latest (fun other member => ?_) handedOn
    obtain ⟨j, inside, rfl⟩ := List.mem_iff_getElem.mp member
    rw [List.length_take] at inside
    exact (accounts.wired j _ (by simp)).asked
  · cases found

end Pipeline

end StagedDecoding
