import StagedDecoding.Proofs.Origins

/-! What the buffers have after a step.

If no two outputs of a session share a name, the buffers have after a step whatever was declared by
a stage that ran. Conversely, they have no more than that, and presents of one name, or one under
the name of the scores, are never all there.
-/

set_option autoImplicit false

namespace StagedDecoding

structure Frame.Apart (frame : Frame) : Prop where
  outputs : frame.outputNames = frame.scoresName :: (frame.slots.getD []).map (·.2)
  distinct : frame.outputNames.Nodup

namespace Buffers

variable {start now next : Buffers} {frame : Frame} {managed : String → Bool}
  {outputs : Named Tensor} {names : List String} {name : String} {tensor : Tensor}

structure Has (buffers : Buffers) (name : String) : Prop where
  scores : buffers.scoresName = name → buffers.scores.isSome = true
  presents : ∀ slot ∈ buffers.slots, slot.presentName = name → slot.present.isSome = true

def presentNames (buffers : Buffers) : List String := buffers.slots.map (·.presentName)

theorem presentNames_eq (buffers : Buffers) :
    buffers.presentNames = (buffers.frame.slots.getD []).map (·.2) := by
  rw [presentNames, ← slotNames_eq_frame, List.map_map]
  rfl

theorem has_of_store (apart : now.frame.Apart) (stored : now.store name tensor = .ok next) :
    next.Has name ∧ ∀ other, now.Has other → next.Has other := by
  have distinct : (now.scoresName :: now.presentNames).Nodup := by
    have distinct := apart.distinct
    rw [apart.outputs, ← presentNames_eq] at distinct
    exact distinct
  obtain ⟨free, distinct⟩ := List.nodup_cons.mp distinct
  by_cases scores : name = now.scoresName
  · -- no present is kept under the name of the scores
    rw [Buffers.store, if_pos scores] at stored
    obtain rfl := Except.ok.inj stored
    refine ⟨⟨fun _ => rfl, fun slot member same => absurd ?_ free⟩,
      fun other has => ⟨fun _ => rfl, has.presents⟩⟩
    exact scores ▸ same ▸ List.mem_map_of_mem (f := fun slot : CacheSlot => slot.presentName) member
  · -- names are distinct, so that the first slot with the name is the only one
    have member : name ∈ now.slots.map (·.presentName) := by
      rw [Buffers.store, if_neg scores] at stored
      split at stored
      · next changed taken =>
        obtain ⟨cache, there, taken⟩ := Option.bind_eq_some_iff.mp taken
        obtain ⟨i, found, -⟩ := Option.map_eq_some_iff.mp taken
        obtain ⟨bound, same, -⟩ := List.findIdx?_eq_some_iff_getElem.mp found
        have own : now.slots = cache.slots := by simp [slots, there]
        rw [own]
        exact List.mem_map.mpr ⟨_, List.getElem_mem bound, by simpa using same⟩
      · cases stored
    obtain ⟨_, stored', same, slots⟩ := store_present distinct member scores
    obtain rfl := Except.ok.inj (stored'.symm.trans stored)
    refine ⟨⟨fun named => ?_, fun slot inside named => ?_⟩,
      fun other has => ⟨fun named => ?_, fun slot inside named => ?_⟩⟩
    · rw [same] at named
      exact absurd named.symm scores
    · rw [slots] at inside
      obtain ⟨old, -, rfl⟩ := List.mem_map.mp inside
      by_cases here : old.presentName = name
      · simp [here]
      · rw [if_neg here] at named
        exact absurd named here
    · rw [same] at named ⊢
      exact has.scores named
    · rw [slots] at inside
      obtain ⟨old, there, rfl⟩ := List.mem_map.mp inside
      by_cases here : old.presentName = name
      · simp [here]
      · rw [if_neg here] at named ⊢
        exact has.presents old there named

theorem has_of_kept (apart : frame.Apart) (framed : now.frame = frame)
    (kept : (match outputs.get? name with
      | some tensor => ManagedBuffers.store name tensor now
      | none => .ok now) = .ok next) :
    next.frame = frame ∧ (∀ other, now.Has other → next.Has other) ∧
      ((outputs.get? name).isSome = true → next.Has name) := by
  split at kept
  · next tensor found =>
    obtain ⟨has, others⟩ := has_of_store (framed ▸ apart) kept
    exact ⟨(frame_of_store kept).trans framed, others, fun _ => has⟩
  · next none =>
    obtain rfl := Except.ok.inj kept
    exact ⟨framed, fun _ has => has, fun some => by simp [none] at some⟩

theorem has_of_storeOutputs (apart : frame.Apart) (framed : now.frame = frame)
    (stored : Pipeline.storeOutputs managed outputs names now = .ok next) :
    next.frame = frame ∧ (∀ other, now.Has other → next.Has other) ∧
      ∀ name ∈ names, managed name = true → (outputs.get? name).isSome = true → next.Has name := by
  have still : ∀ name ∈ names.filter managed, ∀ before after : Buffers, before.frame = frame →
      (match outputs.get? name with
        | some tensor => ManagedBuffers.store name tensor before
        | none => .ok before) = .ok after → after.frame = frame :=
    fun name _ before after framed kept => (has_of_kept apart framed kept).1
  refine ⟨Outcome.foldlM_preserves (P := fun buffers : Buffers => buffers.frame = frame) still
    framed stored, fun other has => ?_,
    fun name member own given => ?_⟩
  · exact (Outcome.foldlM_preserves (P := fun buffers : Buffers =>
        buffers.frame = frame ∧ buffers.Has other)
      (fun name inside before after holds kept => ⟨still name inside before after holds.1 kept,
        (has_of_kept apart holds.1 kept).2.1 other holds.2⟩) ⟨framed, has⟩ stored).2
  · exact Outcome.foldlM_reaches (I := fun buffers : Buffers => buffers.frame = frame)
      (P := fun buffers : Buffers => buffers.Has name) (List.mem_filter.mpr ⟨member, own⟩) still
      (fun before after framed kept => (has_of_kept apart framed kept).2.2 given)
      (fun other inside before after framed has kept =>
        (has_of_kept apart framed kept).2.1 name has) framed stored

theorem has_of_storeAll {calls : List Call} (apart : frame.Apart) (framed : now.frame = frame)
    (stored : Pipeline.storeAll managed calls now = .ok next) {call : Call} (member : call ∈ calls)
    (delivered : call.Delivered) (asked : name ∈ call.invocation.outputs)
    (own : managed name = true) : next.Has name := by
  refine Outcome.foldlM_reaches (I := fun buffers : Buffers => buffers.frame = frame)
    (P := fun buffers : Buffers => buffers.Has name) member
    (fun call _ before after framed kept => (has_of_storeOutputs apart framed kept).1)
    (fun before after framed kept => ?_)
    (fun other inside before after framed has kept =>
      (has_of_storeOutputs apart framed kept).2.1 name has) framed stored
  exact (has_of_storeOutputs apart framed kept).2.2 name asked own
    (Option.isSome_iff_exists.mpr (delivered.complete name asked))

/-- Every present that is there is in the first slot of its name, and has not that of the scores. -/
def Orderly (buffers : Buffers) : Prop :=
  ∀ (i : Nat) slot, buffers.slots[i]? = some slot → slot.present.isSome = true →
    slot.presentName ≠ buffers.scoresName ∧
      buffers.presentNames.findIdx? (· == slot.presentName) = some i

theorem Cleared.orderly (cleared : start.Cleared) : start.Orderly := by
  intro i slot found given
  rw [cleared.presents slot (List.mem_of_getElem? found)] at given
  cases given

theorem getElem?_of_store {cache changed : LayerCache} {i : Nat} {slot : CacheSlot}
    (stored : cache.store? name tensor = some changed) (found : changed.slots[i]? = some slot) :
    (slot.presentName = name ∧ cache.slots.findIdx? (·.presentName == name) = some i) ∨
      cache.slots[i]? = some slot := by
  obtain ⟨j, first, rfl⟩ := Option.map_eq_some_iff.mp stored
  obtain ⟨bound, same, -⟩ := List.findIdx?_eq_some_iff_getElem.mp first
  by_cases here : j = i
  · subst here
    simp only [List.getElem?_modify, List.getElem?_eq_getElem bound] at found
    obtain rfl := Option.some.inj found
    exact .inl ⟨by simpa using same, first⟩
  · exact .inr (by simpa [List.getElem?_modify, here] using found)

theorem Orderly.store (orderly : now.Orderly) (stored : now.store name tensor = .ok next) :
    next.Orderly := by
  have names : next.presentNames = now.presentNames := by
    rw [presentNames_eq, presentNames_eq, frame_of_store stored]
  have scoresName : next.scoresName = now.scoresName :=
    congrArg Frame.scoresName (frame_of_store stored)
  intro i slot found given
  rw [names, scoresName]
  unfold Buffers.store at stored
  split at stored
  · obtain rfl := Except.ok.inj stored
    exact orderly i slot found given
  · next other =>
    split at stored
    · next changed taken =>
      obtain ⟨cache, there, taken⟩ := Option.bind_eq_some_iff.mp taken
      obtain rfl := Except.ok.inj stored
      have own : now.slots = cache.slots := by simp [slots, there]
      obtain ⟨rfl, first⟩ | before := getElem?_of_store taken found
      · -- the slot that takes a tensor is the first of its name
        refine ⟨other, ?_⟩
        rw [presentNames, own, List.findIdx?_map]
        exact first
      · exact orderly i slot (own ▸ before) given
    · cases stored

theorem Orderly.storeAll {calls : List Call} (orderly : now.Orderly)
    (stored : Pipeline.storeAll managed calls now = .ok next) : next.Orderly := by
  refine Outcome.foldlM_preserves (fun call _ before after orderly kept => ?_) orderly stored
  refine Outcome.foldlM_preserves (P := Orderly) (fun name _ before after orderly kept => ?_)
    orderly kept
  split at kept
  · exact orderly.store kept
  · exact Except.ok.inj kept ▸ orderly

theorem Orderly.distinct (orderly : now.Orderly)
    (full : ∀ slot ∈ now.slots, slot.present.isSome = true) :
    (now.scoresName :: now.presentNames).Nodup := by
  refine List.nodup_cons.mpr ⟨fun member => ?_, ?_⟩
  · obtain ⟨slot, inside, same⟩ := List.mem_map.mp member
    obtain ⟨i, found⟩ := List.getElem?_of_mem inside
    exact (orderly i slot found (full slot inside)).1 same
  · refine List.nodup_iff_injective_getElem.mpr fun i j same => Fin.ext ?_
    have place : ∀ i : Fin now.presentNames.length,
        now.presentNames.findIdx? (· == now.presentNames[i]) = some i.val := by
      intro i
      have bound : i.val < now.slots.length := by
        simpa [presentNames] using i.isLt
      have named : now.presentNames[i] = now.slots[i.val].presentName := List.getElem_map ..
      rw [named]
      exact (orderly i _ (List.getElem?_eq_getElem bound) (full _ (List.getElem_mem bound))).2
    have same : now.presentNames[i] = now.presentNames[j] := same
    exact Option.some.inj ((place i).symm.trans (same ▸ place j))

end Buffers

namespace Pipeline

open Buffers

variable {α : Type} {managed : String → Bool} {start final : Buffers} {active : List Stage}
  {calls : List Call} {call : Call} {result : Except Failure α} {name : String} {tensor : Tensor}

theorem Accounts.asked_iff (accounts : Accounts managed start active [] calls result final)
    (member : call ∈ calls) :
    name ∈ call.invocation.outputs ↔ name ∈ call.stage.config.outputs := by
  obtain ⟨i, here⟩ := List.getElem?_of_mem member
  exact (accounts.wired i call here).asked name

theorem Accounts.has {value : α}
    (accounts : Accounts managed start active [] calls (.ok value : Except Failure α) final)
    (apart : start.frame.Apart) {stage : Stage} (ran : stage ∈ active)
    (declared : name ∈ stage.config.outputs) (own : managed name = true) : final.Has name := by
  obtain ⟨every, delivered, stored⟩ := accounts.success value rfl
  rw [← every] at ran
  obtain ⟨call, member, rfl⟩ := List.mem_map.mp ran
  exact has_of_storeAll apart rfl stored member (delivered call member)
    ((accounts.asked_iff member).mpr declared) own

theorem Accounts.declared (accounts : Accounts managed start active [] calls result final)
    (gave : Episode.Gave (calls.map Call.entry) name tensor) :
    ∃ stage ∈ active, name ∈ stage.config.outputs := by
  obtain ⟨invocation, outputs, member, asked, -⟩ := gave
  obtain ⟨call, inside, same⟩ := List.mem_map.mp member
  obtain ⟨rfl, -⟩ := Prod.mk.inj same
  exact ⟨call.stage, accounts.inOrder.subset (List.mem_map_of_mem inside),
    (accounts.asked_iff inside).mp asked⟩

theorem Accounts.orderly {value : α}
    (accounts : Accounts managed start active [] calls (.ok value : Except Failure α) final)
    (cleared : start.Cleared) : final.Orderly :=
  cleared.orderly.storeAll (accounts.success value rfl).2.2

end Pipeline

end StagedDecoding
