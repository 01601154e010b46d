import StagedDecoding.Proofs.Grids
import StagedDecoding.Proofs.Origins

/-! Models that write as they read.

A causal model that only appends writes an entry for every token that it is fed, from what it is
shown up to that token. Two steps with the same inputs then leave the same entries. What is left of
older inputs, or of how tensors lie in storage, is of no account: sessions that agree in mask, counts
and presents go on alike.
-/

set_option autoImplicit false

namespace StagedDecoding

/-- What a step shows up to one of the tokens that it feeds. -/
structure Glimpse where
  ids : List (List Token)
  positionIds : List (List Nat)
  mask : List (List Nat)
  pasts : List (ElementType × List Nat × List Scalar)

/-- What is written for a token: by the name of the present, the row, the head, and what is shown up
to the token. -/
abbrev Writer := String → Nat → Nat → Glimpse → List Scalar

def Grid.append (cells : Nat → Nat → List (List Scalar)) (grid : Grid) : Grid :=
  grid.mapIdx fun row lanes => lanes.mapIdx fun head lane => lane ++ cells row head

def Tensor.Extends (fed : Nat) (cells : Nat → Nat → List (List Scalar)) (past present : Tensor) :
    Prop :=
  ∃ rows heads length size, past.Laid rows heads length size ∧
    present.Laid rows heads (length + fed) size ∧ present.type = past.type ∧
    present.grid = past.grid.append cells

namespace Buffers

def glimpse (count : Nat) (buffers : Buffers) : Glimpse where
  ids := buffers.inputIds.map (·.take count)
  positionIds := ((buffers.positions.map Positions.ids).getD []).map (·.take count)
  mask := ((buffers.positions.map Positions.mask).getD []).map fun row =>
    row.take (row.length - (Positions.width buffers.inputIds - count))
  pasts := buffers.slots.map (·.past.contents)

def cells (writer : Writer) (name : String) (buffers : Buffers) (row head : Nat) :
    List (List Scalar) :=
  (List.range (Positions.width buffers.inputIds)).map fun i =>
    writer name row head (buffers.glimpse (i + 1))

def Continues (writer : Writer) (buffers : Buffers) (slot : CacheSlot) (present : Tensor) : Prop :=
  slot.past.Extends (Positions.width buffers.inputIds) (buffers.cells writer slot.presentName)
    present

def Written (writer : Writer) (ready after : Buffers) : Prop :=
  List.Forall₂ (fun slot next => ∃ present, next.present = some present ∧
    ready.Continues writer slot present) ready.slots after.slots

structure Stepped (writer : Writer) (ready after : Buffers) : Prop where
  written : ready.Written writer after
  framed : after.frame = ready.frame
  placed : after.positions = ready.positions

/-- Buffers that show the same to every step. -/
structure Shows (one other : Buffers) : Prop where
  framed : one.frame = other.frame
  ids : one.inputIds = other.inputIds
  positions : one.positions = other.positions
  pasts : one.slots.map (·.past.contents) = other.slots.map (·.past.contents)

/-- Buffers that remember the same for the steps to come. -/
structure Alike (one other : Buffers) : Prop where
  framed : one.frame = other.frame
  mask : one.positions.map Positions.mask = other.positions.map Positions.mask
  next : one.positions.map Positions.next = other.positions.map Positions.next
  presents : one.slots.map (fun slot => slot.present.map Tensor.contents) =
    other.slots.map fun slot => slot.present.map Tensor.contents

def Packed (buffers : Buffers) : Prop :=
  ∀ slot ∈ buffers.slots, ∀ tensor, slot.present = some tensor → tensor.isPacked = true

end Buffers

theorem forall₂_of_map_eq {α β γ : Type} {f : α → γ} {g : β → γ} {xs : List α} {ys : List β}
    (same : xs.map f = ys.map g) : List.Forall₂ (fun x y => f x = g y) xs ys := by
  rwa [← List.forall₂_eq_eq_eq, List.forall₂_map_left_iff, List.forall₂_map_right_iff] at same

theorem map_eq_of_forall₂ {α β γ : Type} {f : α → γ} {g : β → γ} {xs : List α} {ys : List β}
    (same : List.Forall₂ (fun x y => f x = g y) xs ys) : xs.map f = ys.map g := by
  rwa [← List.forall₂_eq_eq_eq, List.forall₂_map_left_iff, List.forall₂_map_right_iff]

theorem forall₂_across {α β γ : Type} {r : α → β → Prop} {p : α → γ → Prop} {q : β → γ → Prop}
    (each : ∀ a b c, r a b → p a c → q b c) {as : List α} {bs : List β} {cs : List γ}
    (related : List.Forall₂ r as bs) (passed : List.Forall₂ p as cs) : List.Forall₂ q bs cs := by
  induction related generalizing cs with
  | nil =>
    cases passed
    exact .nil
  | cons here _ ih =>
    cases passed with
    | cons first later => exact .cons (each _ _ _ here first) (ih later)

theorem forall₂_between {α β γ : Type} {p : α → γ → Prop} {q : β → γ → Prop} {as : List α}
    {bs : List β} (between : List.Forall₂ (fun a b => ∃ c, p a c ∧ q b c) as bs) :
    ∃ cs, List.Forall₂ p as cs ∧ List.Forall₂ q bs cs := by
  induction between with
  | nil => exact ⟨[], .nil, .nil⟩
  | cons here _ ih =>
    obtain ⟨c, first, second⟩ := here
    obtain ⟨cs, left, right⟩ := ih
    exact ⟨c :: cs, .cons first left, .cons second right⟩

theorem rel_iff {α β : Type} {r : α → β → Prop} {x : Option α} {y : Option β} :
    Option.Rel r x y ↔ x = none ∧ y = none ∨ ∃ a b, x = some a ∧ y = some b ∧ r a b := by
  constructor
  · intro related
    cases related with
    | some related => exact .inr ⟨_, _, rfl, rfl, related⟩
    | none => exact .inl ⟨rfl, rfl⟩
  · rintro (⟨rfl, rfl⟩ | ⟨a, b, rfl, rfl, related⟩)
    · exact .none
    · exact .some related

theorem map_eq_of_rel {α β γ : Type} {r : α → β → Prop} {f : α → γ} {g : β → γ} {x : Option α}
    {y : Option β} (related : Option.Rel r x y) (same : ∀ a b, r a b → f a = g b) :
    x.map f = y.map g := by
  obtain ⟨rfl, rfl⟩ | ⟨a, b, rfl, rfl, both⟩ := rel_iff.mp related
  · rfl
  · exact congrArg some (same a b both)

theorem forall₂_modify {α β : Type} {r : α → β → Prop} {change : β → β} {as : List α} {bs : List β}
    {i : Nat} (related : List.Forall₂ r as bs)
    (each : ∀ a b, bs[i]? = some b → r a b → r a (change b)) :
    List.Forall₂ r as (bs.modify i change) := by
  induction related generalizing i with
  | nil =>
    rw [List.modify_nil]
    exact .nil
  | cons here later ih =>
    cases i with
    | zero => exact .cons (each _ _ rfl here) later
    | succ i => exact .cons here (ih each)

theorem Grid.append_upTo {grid : Grid} {rows heads length size count : Nat}
    (even : grid.Even rows heads length size) (cells : Nat → Nat → List (List Scalar)) :
    (grid.append cells).upTo (length + count) =
      grid.append fun row head => (cells row head).take count := by
  unfold Grid.append Grid.upTo
  refine List.ext_getElem (by simp) fun row here _ => ?_
  have inside : row < grid.length := by simpa using here
  simp only [List.getElem_map, List.getElem_mapIdx]
  refine List.ext_getElem (by simp) fun head here _ => ?_
  have within : head < grid[row].length := by simpa using here
  have long : grid[row][head].length = length :=
    even.length _ (List.getElem_mem inside) _ (List.getElem_mem within)
  simp only [List.getElem_map, List.getElem_mapIdx, ← long, List.take_length_add_append]

namespace Tensor

variable {past past' present present' : Tensor} {fed new more : Nat}
  {cells wide : Nat → Nat → List (List Scalar)}

theorem Laid.unique {t : Tensor} {rows heads length size rows' heads' length' size' : Nat}
    (laid : t.Laid rows heads length size) (laid' : t.Laid rows' heads' length' size') :
    rows = rows' ∧ heads = heads' ∧ length = length' ∧ size = size' := by
  simpa using laid.shape.symm.trans laid'.shape

theorem Extends.of_contents (continued : past.Extends fed cells present)
    (same : past.contents = past'.contents) : past'.Extends fed cells present := by
  obtain ⟨rows, heads, length, size, laid, longer, type, grid⟩ := continued
  exact ⟨rows, heads, length, size, laid.of_contents same, longer,
    type.trans (contents_eq.mp same).1, by rw [grid, grid_of_contents same]⟩

theorem Extends.unique (first : past.Extends fed cells present)
    (second : past.Extends fed cells present') : present.contents = present'.contents := by
  obtain ⟨rows, heads, length, size, laid, longer, type, grid⟩ := first
  obtain ⟨_, _, _, _, laid', longer', type', grid'⟩ := second
  obtain ⟨rfl, rfl, rfl, rfl⟩ := laid.unique laid'
  exact longer.contents_ext longer' (type.trans type'.symm) (grid.trans grid'.symm)

theorem Extends.cut (first : past.Extends (new + more) wide present)
    (second : past.Extends new cells present')
    (front : ∀ row head, (wide row head).take new = cells row head) :
    ∃ length kept, present.extent 2 = .ok length ∧ more ≤ length ∧
      present.narrow 2 0 (length - more) = .ok kept ∧ kept.contents = present'.contents := by
  obtain ⟨rows, heads, length, size, laid, longer, type, grid⟩ := first
  obtain ⟨_, _, _, _, laid', longer', type', grid'⟩ := second
  obtain ⟨rfl, rfl, rfl, rfl⟩ := laid.unique laid'
  have fits : more ≤ length + (new + more) := by omega
  have whole : length + (new + more) - more = length + new := by omega
  obtain ⟨kept, narrowed, -⟩ := narrow_total more longer.shape
  refine ⟨_, kept, by simp [extent, longer.shape], fits, narrowed, ?_⟩
  rw [whole] at narrowed
  obtain ⟨-, type₁, laid₁, grid₁⟩ := longer.narrow narrowed
  refine laid₁.contents_ext longer' (type₁.trans (type.trans type'.symm)) ?_
  rw [grid₁, grid, Grid.append_upTo laid.values_eq.1, grid']
  simp only [front]

end Tensor

theorem Step.withinOption_transports {σ τ : Type} {part : σ → Option τ} {replace : τ → σ → σ}
    {step : Step τ Unit} {r q : τ → τ → Prop}
    {before before' after : σ} (ran : Step.Returns (withinOption part replace step) before () after)
    (related : Option.Rel r (part before) (part before'))
    (each : ∀ t t' next, r t t' → Step.Returns step t () next →
      ∃ next', Step.Returns step t' () next' ∧ q next next')
    (replaced : ∀ t state, part (replace t state) = some t) :
    ∃ after', Step.Returns (withinOption part replace step) before' () after' ∧
      Option.Rel q (part after) (part after') := by
  obtain ⟨here, there⟩ | ⟨t, t', here, there, both⟩ := rel_iff.mp related
  · -- nothing is done on either side
    obtain ⟨-, rfl⟩ | ⟨_, _, given, -⟩ := Step.returns_withinOption.mp ran
    · exact ⟨before', Step.returns_withinOption.mpr (.inl ⟨there, rfl⟩),
        rel_iff.mpr (.inl ⟨here, there⟩)⟩
    · cases here.symm.trans given
  · obtain ⟨absent, -⟩ | ⟨_, changed, given, passed, rfl⟩ := Step.returns_withinOption.mp ran
    · cases here.symm.trans absent
    · obtain rfl := Option.some.inj (here.symm.trans given)
      obtain ⟨changed', passed', alike⟩ := each t t' changed both passed
      refine ⟨_, Step.returns_withinOption.mpr (.inr ⟨t', changed', there, passed', rfl⟩), ?_⟩
      rw [replaced, replaced]
      exact .some alike

theorem LayerCache.onSlots_transports {r q : CacheSlot → CacheSlot → Prop}
    {operation : Step CacheSlot Unit}
    (each : ∀ slot slot' next, r slot slot' → Step.Returns operation slot () next →
      ∃ next', Step.Returns operation slot' () next' ∧ q next next')
    (cache cache' changed : LayerCache) (related : List.Forall₂ r cache.slots cache'.slots)
    (ran : Step.Returns (onSlots operation) cache () changed) :
    ∃ changed', Step.Returns (onSlots operation) cache' () changed' ∧
      List.Forall₂ q changed.slots changed'.slots := by
  obtain ⟨changed', ran', alike⟩ := forall₂_between
    (forall₂_across each related (onSlots_returns.mp ran))
  exact ⟨⟨changed'⟩, onSlots_returns.mpr ran', alike⟩

namespace CacheSlot

variable {slot slot' next : CacheSlot} {indices : List Nat} {count : Nat}

def Agree (slot slot' : CacheSlot) : Prop :=
  slot.present.map Tensor.contents = slot'.present.map Tensor.contents

theorem Agree.present {tensor : Tensor} (agree : slot.Agree slot')
    (given : slot.present = some tensor) :
    ∃ tensor', slot'.present = some tensor' ∧ tensor.contents = tensor'.contents := by
  rw [Agree, given, Option.map_some, eq_comm, Option.map_eq_some_iff] at agree
  obtain ⟨tensor', given', same⟩ := agree
  exact ⟨tensor', given', same.symm⟩

theorem Agree.advance (agree : slot.Agree slot')
    (movable : indices = [] ∨ ∀ tensor, slot'.present = some tensor → tensor.isPacked = true)
    (ran : Step.Returns (LayerCache.advanceSlot indices) slot () next) :
    ∃ next', Step.Returns (LayerCache.advanceSlot indices) slot' () next' ∧
      next.past.contents = next'.past.contents := by
  obtain ⟨tensor, given, taken, -⟩ := LayerCache.advanceSlot_returns ran
  obtain ⟨tensor', given', same⟩ := agree.present given
  have outcome := LayerCache.advanceSlot_given indices given'
  cases indices with
  | nil =>
    obtain rfl : next.past = tensor := taken
    exact ⟨_, outcome, same⟩
  | cons i rest =>
    rw [if_neg (by simp)] at taken
    have gapless := movable.resolve_left (by simp) tensor' given'
    have chosen := Tensor.selectRows_contents same gapless taken
    simp only [List.isEmpty_cons, Bool.false_eq_true, if_false, chosen, tensorStep] at outcome
    exact ⟨_, outcome, rfl⟩

theorem Agree.trim (agree : slot.Agree slot')
    (ran : Step.Returns (LayerCache.trimSlot count) slot () next) :
    ∃ next', Step.Returns (LayerCache.trimSlot count) slot' () next' ∧ next.Agree next' := by
  obtain ⟨tensor, length, kept, given, extent, fits, narrowed, rfl⟩ :=
    LayerCache.trimSlot_returns ran
  obtain ⟨tensor', given', same⟩ := agree.present given
  obtain ⟨kept', narrowed', alike⟩ := Tensor.narrow_contents same narrowed
  have extent' : tensor'.extent 2 = .ok length := by
    rw [Tensor.extent, ← (Tensor.contents_eq.mp same).2.1]
    exact extent
  exact ⟨_, LayerCache.trimSlot_given given' extent' fits narrowed', congrArg some alike⟩

end CacheSlot

/-- Two positions go on alike, whatever tokens they were fed last. -/
def Positions.Agree (p p' : Positions) : Prop := p.mask = p'.mask ∧ p.next = p'.next

theorem Positions.Agree.update {p p' next : Positions} {new length : Nat} (agree : p.Agree p')
    (ran : Step.Returns (Positions.update new length) p () next) :
    ∃ next', Step.Returns (Positions.update new length) p' () next' ∧ next = next' := by
  obtain ⟨mask, start⟩ := agree
  obtain ⟨fits, rfl⟩ := update_returns ran
  exact ⟨_, update_returns_iff.mpr ⟨mask ▸ fits, rfl⟩, by rw [mask, start]⟩

theorem Positions.Agree.rollback {p p' next : Positions} {count : Nat} (agree : p.Agree p')
    (ran : Step.Returns (Positions.rollback count) p () next) :
    ∃ next', Step.Returns (Positions.rollback count) p' () next' ∧ next.Agree next' := by
  obtain ⟨mask, start⟩ := agree
  obtain rfl := rollback_returns ran
  have allowed : ¬ (decide (width p.mask < count) || decide (least p.next < count)) = true := by
    intro refused
    rw [Positions.rollback, Step.returns_attempt] at ran
    dsimp only at ran
    rw [if_pos refused] at ran
    cases ran
  rw [mask, start] at allowed
  refine ⟨_, Step.returns_attempt.mpr (if_neg allowed), ?_, ?_⟩ <;> dsimp only
  · rw [mask]
  · rw [start]

namespace Buffers

variable {one other after : Buffers} {tokens : List Token} {indices : List Nat}
  {length count : Nat}

theorem Alike.positions (alike : one.Alike other) :
    Option.Rel Positions.Agree one.positions other.positions := by
  obtain ⟨-, mask, next, -⟩ := alike
  cases here : one.positions <;> cases there : other.positions <;>
    simp only [here, there, Option.map_none, Option.map_some, reduceCtorEq, Option.some.injEq]
      at mask next
  · exact .none
  · exact .some ⟨mask, next⟩

theorem Alike.caches (alike : one.Alike other) :
    Option.Rel (fun cache cache' => List.Forall₂ CacheSlot.Agree cache.slots cache'.slots)
      one.cache other.cache := by
  have framed : one.cache.map LayerCache.slotNames = other.cache.map LayerCache.slotNames :=
    congrArg Frame.slots alike.framed
  have presents := forall₂_of_map_eq alike.presents
  cases here : one.cache <;> cases there : other.cache <;>
    simp only [here, there, Option.map_none, Option.map_some, reduceCtorEq] at framed
  · exact .none
  · rw [slots, slots, here, there] at presents
    exact .some presents

theorem slots_alike {r : CacheSlot → CacheSlot → Prop}
    (caches : Option.Rel (fun cache cache' => List.Forall₂ r cache.slots cache'.slots)
      one.cache other.cache) : List.Forall₂ r one.slots other.slots := by
  obtain ⟨here, there⟩ | ⟨_, _, here, there, both⟩ := rel_iff.mp caches
  · rw [slots, slots, here, there]
    exact .nil
  · rw [slots, slots, here, there]
    exact both

theorem slotNames_of_framed (framed : one.frame = other.frame) :
    one.slots.map (fun slot => (slot.pastName, slot.presentName)) =
      other.slots.map fun slot => (slot.pastName, slot.presentName) := by
  rw [slotNames_eq_frame, slotNames_eq_frame, framed]

theorem pastNames_of_framed (framed : one.frame = other.frame) :
    one.slots.map (·.pastName) = other.slots.map (·.pastName) := by
  simpa [Function.comp_def] using congrArg (List.map Prod.fst) (slotNames_of_framed framed)

theorem Shows.input (shows : one.Shows other) (name : String) :
    (one.input name).map Tensor.contents = (other.input name).map Tensor.contents := by
  have names : one.names = other.names := congrArg Frame.names shows.framed
  have extras : one.extraInputs = other.extraInputs := congrArg Frame.extraInputs shows.framed
  have named : ∀ buffers : Buffers, (Named.get? name buffers.pasts).map Tensor.contents =
      Named.get? name ((buffers.slots.map (·.pastName)).zip
        (buffers.slots.map (·.past.contents))) := by
    intro buffers
    simp only [Buffers.pasts, List.zip_map', Named.get?, List.find?_map, Option.map_map]
    rfl
  have pasts : (Named.get? name one.pasts).map Tensor.contents =
      (Named.get? name other.pasts).map Tensor.contents := by
    rw [named, named, pastNames_of_framed shows.framed, shows.pasts]
  unfold Buffers.input idsTensor
  rw [names, extras, shows.ids, shows.positions]
  split
  · rfl
  · simp only [Option.map_or, past_eq, pasts]

theorem onPositions_transports {step : Step Positions Unit} {r q : Positions → Positions → Prop}
    (each : ∀ p p' next, r p p' → Step.Returns step p () next →
      ∃ next', Step.Returns step p' () next' ∧ q next next')
    {before after : Buffers} (other : Buffers)
    (related : Option.Rel r before.positions other.positions)
    (ran : Step.Returns (onPositions step) before () after) :
    ∃ after', Step.Returns (onPositions step) other () after' ∧
      Option.Rel q after.positions after'.positions :=
  Step.withinOption_transports ran related each fun _ _ => rfl

theorem onCache_transports {operation : Step CacheSlot Unit} {r q : CacheSlot → CacheSlot → Prop}
    (each : ∀ slot slot' next, r slot slot' → Step.Returns operation slot () next →
      ∃ next', Step.Returns operation slot' () next' ∧ q next next')
    {before before' after : Buffers}
    (related : Option.Rel (fun cache cache' => List.Forall₂ r cache.slots cache'.slots)
      before.cache before'.cache)
    (ran : Step.Returns (onCache (LayerCache.onSlots operation)) before () after) :
    ∃ after', Step.Returns (onCache (LayerCache.onSlots operation)) before' () after' ∧
      List.Forall₂ q after.slots after'.slots := by
  obtain ⟨after', ran', alike⟩ := Step.withinOption_transports ran related
    (LayerCache.onSlots_transports each) fun _ _ => rfl
  exact ⟨after', ran', slots_alike alike⟩

theorem Alike.movables (alike : one.Alike other) (movable : indices = [] ∨ other.Packed) :
    Option.Rel (fun cache cache' => List.Forall₂ (fun slot slot' =>
      (indices = [] ∨ ∀ tensor, slot'.present = some tensor → tensor.isPacked = true) ∧
        slot.Agree slot') cache.slots cache'.slots) one.cache other.cache := by
  obtain ⟨here, there⟩ | ⟨own, cache', here, there, agree⟩ := rel_iff.mp alike.caches
  · exact rel_iff.mpr (.inl ⟨here, there⟩)
  · have each : ∀ slot ∈ cache'.slots, indices = [] ∨ ∀ tensor,
        slot.present = some tensor → tensor.isPacked = true := fun slot member =>
      movable.imp_right fun packed => packed slot (by simpa [slots, there] using member)
    exact rel_iff.mpr (.inr ⟨own, cache', here, there,
      ((List.forall₂_and_left _ _).mpr ⟨each, agree.flip⟩).flip⟩)

/-- What one of two buffers can be updated with, so can the other, unless rows are picked from
storage with gaps. Then they show the same. -/
theorem Alike.update (alike : one.Alike other) (movable : indices = [] ∨ other.Packed)
    (ran : Step.Returns (Buffers.update tokens indices length) one () after) :
    ∃ after', Step.Returns (Buffers.update tokens indices length) other () after' ∧
      after.Shows after' := by
  have rows : one.rows = other.rows := congrArg Frame.rows alike.framed
  obtain ⟨some, feeds, whole, placed, cached, placing, caching, rfl⟩ := update_returns ran
  obtain ⟨placedEq, -, -⟩ := onPositions_returns placing
  obtain ⟨cachedEq, -, -⟩ := onCache_returns LayerCache.advanceSlot_names caching
  rw [rows] at some feeds whole placing
  let fed : Buffers := { other with
    inputIds := Tensor.blocks (tokens.length / other.rows) other.rows tokens }
  -- positions and cache are moved one after the other, on either side
  obtain ⟨placed', placing', positions⟩ := onPositions_transports
    (fun _ _ _ agree => Positions.Agree.update agree) fed (by exact alike.positions) placing
  obtain ⟨placedEq', -, -⟩ := onPositions_returns placing'
  have related := alike.movables movable
  rw [show one.cache = placed.cache by rw [placedEq],
    show other.cache = placed'.cache by rw [placedEq']] at related
  obtain ⟨cached', caching', pasts⟩ := onCache_transports
    (fun _ _ _ both => both.2.advance both.1) related caching
  obtain ⟨cachedEq', -, -⟩ := onCache_returns LayerCache.advanceSlot_names caching'
  have ran' := update_returns_iff.mpr ⟨some, feeds, whole, placed', cached', placing', caching', rfl⟩
  refine ⟨_, ran', ?_, ?_, ?_, map_eq_of_forall₂ pasts⟩
  · exact (Reading.frame_of_update ran).trans
      (alike.framed.trans (Reading.frame_of_update ran').symm)
  · change cached.inputIds = cached'.inputIds
    rw [cachedEq, cachedEq', placedEq, placedEq', rows]
  · change cached.positions = cached'.positions
    rw [cachedEq, cachedEq']
    simpa using map_eq_of_rel (f := id) (g := id) positions fun _ _ => id

theorem Alike.rollback (alike : one.Alike other)
    (ran : Step.Returns (Buffers.rollback count) one () after) :
    ∃ after', Step.Returns (Buffers.rollback count) other () after' ∧ after.Alike after' := by
  obtain ⟨_, placed, placing, caching⟩ := Step.returns_bind.mp ran
  obtain ⟨placedEq, placedFrame, -⟩ := onPositions_returns placing
  obtain ⟨cachedEq, cachedFrame, -⟩ := onCache_returns LayerCache.trimSlot_names caching
  -- positions and cache are rolled back one after the other, on either side
  obtain ⟨placed', placing', positions⟩ := onPositions_transports
    (fun _ _ _ agree => Positions.Agree.rollback agree) other alike.positions placing
  obtain ⟨placedEq', placedFrame', -⟩ := onPositions_returns placing'
  have related := alike.caches
  rw [show one.cache = placed.cache by rw [placedEq],
    show other.cache = placed'.cache by rw [placedEq']] at related
  obtain ⟨after', caching', presents⟩ := onCache_transports
    (fun _ _ _ agree => CacheSlot.Agree.trim agree) related caching
  obtain ⟨cachedEq', cachedFrame', -⟩ := onCache_returns LayerCache.trimSlot_names caching'
  have agree : Option.Rel Positions.Agree after.positions after'.positions := by
    rw [cachedEq, cachedEq']
    exact positions
  refine ⟨after', Step.returns_bind.mpr ⟨(), placed', placing', caching'⟩, ?_, ?_, ?_,
    map_eq_of_forall₂ presents⟩
  · rw [cachedFrame, placedFrame, cachedFrame', placedFrame', alike.framed]
  · exact map_eq_of_rel agree fun _ _ both => both.1
  · exact map_eq_of_rel agree fun _ _ both => both.2

theorem Shows.written {writer : Writer} (shows : one.Shows other)
    (written : one.Written writer after) : other.Written writer after := by
  have glimpse : ∀ count, one.glimpse count = other.glimpse count := by
    intro count
    unfold Buffers.glimpse
    rw [shows.ids, shows.positions, shows.pasts]
  have named : one.slots.map (·.presentName) = other.slots.map (·.presentName) := by
    simpa [Function.comp_def] using congrArg (List.map Prod.snd) (slotNames_of_framed shows.framed)
  have both : one.slots.map (fun slot => (slot.presentName, slot.past.contents)) =
      other.slots.map fun slot => (slot.presentName, slot.past.contents) := by
    have zipped : ∀ slots : List CacheSlot,
        slots.map (fun slot => (slot.presentName, slot.past.contents)) =
          (slots.map (·.presentName)).zip (slots.map (·.past.contents)) :=
      fun _ => (List.zip_map' ..).symm
    rw [zipped, zipped, named, shows.pasts]
  refine forall₂_across ?_ (forall₂_of_map_eq both) written
  rintro slot slot' next same ⟨present, given, continues⟩
  obtain ⟨name, past⟩ := Prod.mk.inj same
  refine ⟨present, given, ?_⟩
  -- cells are computed from what is shown, and from the name of the slot
  have cells : one.cells writer slot.presentName = other.cells writer slot'.presentName := by
    unfold Buffers.cells
    simp only [shows.ids, glimpse, name]
  rw [Continues, cells, shows.ids] at continues
  exact continues.of_contents past

theorem Shows.alike {writer : Writer} {next next' : Buffers} (shows : one.Shows other)
    (stepped : one.Stepped writer next) (stepped' : other.Stepped writer next') :
    next.Alike next' := by
  refine ⟨stepped.framed.trans (shows.framed.trans stepped'.framed.symm), ?_, ?_, ?_⟩
  · rw [stepped.placed, stepped'.placed, shows.positions]
  · rw [stepped.placed, stepped'.placed, shows.positions]
  · refine map_eq_of_forall₂ (forall₂_across ?_ (shows.written stepped.written) stepped'.written)
    rintro slot next next' ⟨present, given, continues⟩ ⟨present', given', continues'⟩
    rw [given, given', Option.map_some, Option.map_some, continues.unique continues']

end Buffers

end StagedDecoding
