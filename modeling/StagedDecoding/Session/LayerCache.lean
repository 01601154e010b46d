import StagedDecoding.Config.Basic

/-! Keys and values of every layer, handed from one step to the next.

A slot pairs an input of the next step, the past, with an output of this one, the present. Tensors
are laid out by row, head, position and feature. After a step the presents become the pasts,
possibly with other rows, and presents can be cut at the end before that. Operations go through
the slots in order and stop at the first that fails, with those before it changed.
-/

set_option autoImplicit false

namespace StagedDecoding

structure CacheSlot where
  pastName : String
  presentName : String
  past : Tensor
  present : Option Tensor
  deriving Repr

structure LayerCache where
  slots : List CacheSlot
  deriving Repr

namespace LayerCache

/-- Run an operation on every slot, in order, up to the first failure. -/
def eachSlot (operation : Step CacheSlot Unit) : List CacheSlot →
    Except Failure Unit × List CacheSlot
  | [] => (.ok (), [])
  | slot :: rest =>
    match operation slot with
    | (.error failure, slot) => (.error failure, slot :: rest)
    | (.ok (), slot) =>
      let (result, rest) := eachSlot operation rest
      (result, slot :: rest)

def onSlots (operation : Step CacheSlot Unit) : Step LayerCache Unit := fun cache =>
  let (result, slots) := eachSlot operation cache.slots
  (result, ⟨slots⟩)

def ofConfig (decoder : DecoderConfig) (rows : Nat) : Except Failure LayerCache := do
  let type ← elementType decoder.cacheType
  let empty := Tensor.filled type [rows, decoder.cacheHeads, 0, decoder.headSize] (.whole 0)
  return ⟨(List.range decoder.layers).flatMap fun layer =>
    [⟨layerName decoder.inputs.pastKeys layer, layerName decoder.outputs.presentKeys layer,
        empty, none⟩,
      ⟨layerName decoder.inputs.pastValues layer, layerName decoder.outputs.presentValues layer,
        empty, none⟩]⟩

def pastNames (cache : LayerCache) : List String := cache.slots.map (·.pastName)

def presentNames (cache : LayerCache) : List String := cache.slots.map (·.presentName)

def past (name : String) (cache : LayerCache) : Option Tensor :=
  (cache.slots.find? (·.pastName == name)).map (·.past)

def present (name : String) (cache : LayerCache) : Option Tensor :=
  (cache.slots.find? (·.presentName == name)).bind (·.present)

def store? (name : String) (tensor : Tensor) (cache : LayerCache) : Option LayerCache :=
  (cache.slots.findIdx? (·.presentName == name)).map fun i =>
    ⟨cache.slots.modify i fun slot => { slot with present := some tensor }⟩

def pastLength (cache : LayerCache) : Except Failure Nat :=
  match cache.slots with
  | [] => .ok 0
  | slot :: _ => tensorStep (slot.past.extent 2)

def missing (slot : CacheSlot) : Failure :=
  .missingOutput "kv_cache" slot.presentName

/-- Make the present of a slot its past. The present is gone even if its rows cannot be chosen. -/
def advanceSlot (indices : List Nat) : Step CacheSlot Unit := do
  let slot ← get
  match slot.present with
  | none => throw (missing slot)
  | some tensor =>
    set { slot with present := none }
    let past ←
      if indices.isEmpty then pure tensor else tensorStep (tensor.selectRows indices)
    set { slot with present := none, past := past }

/-- Make all presents the pasts of the next step, with the rows named by `indices`. No indices
keep all rows. -/
def update (indices : List Nat) : Step LayerCache Unit :=
  onSlots (advanceSlot indices)

def trimSlot (count : Nat) : Step CacheSlot Unit :=
  .attempt fun slot => do
    match slot.present with
    | none => throw (missing slot)
    | some tensor =>
      let length ← tensorStep (tensor.extent 2)
      if length < count then throw (.rollback count length)
      let trimmed ← tensorStep (tensor.narrow 2 0 (length - count))
      return { slot with present := some trimmed }

def rollback (count : Nat) : Step LayerCache Unit :=
  onSlots (trimSlot count)

end LayerCache

end StagedDecoding
