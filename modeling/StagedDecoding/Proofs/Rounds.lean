import StagedDecoding.Proofs.Grids
import StagedDecoding.Proofs.Serving

/-! Rounds of the cache.

In every round a present is stored for each slot, the presents are cut if need be, and become the
pasts. Slots are found by name, whatever the order of storing, and none takes anything from another
one. A cut shares the storage of the present, with gaps where positions are missing, and rows cannot
be picked from it; apart from that a round succeeds.
-/

set_option autoImplicit false

namespace StagedDecoding.LayerCache

section

variable {operation : Step CacheSlot Unit} {cache after : LayerCache} {failure : Failure}

theorem onSlots_returns_iff : (∃ after, Step.Returns (onSlots operation) cache () after) ↔
    ∀ slot ∈ cache.slots, ∃ next, Step.Returns operation slot () next := by
  constructor
  · rintro ⟨after, ran⟩
    exact forall_of_forall₂ (onSlots_returns.mp ran).flip fun next _ slot passed => ⟨next, passed⟩
  · intro each
    obtain ⟨after, ran, -⟩ := onSlots_total (p := fun _ => True)
      fun slot member => (each slot member).imp fun _ passed => ⟨passed, trivial⟩
    exact ⟨after, ran⟩

theorem eachSlot_fails {slots : List CacheSlot} : (eachSlot operation slots).1 = .error failure ↔
    ∃ passed slot rest, slots = passed ++ slot :: rest ∧
      (∀ earlier ∈ passed, ∃ next, Step.Returns operation earlier () next) ∧
      ∃ next, Step.Fails operation slot failure next := by
  induction slots with
  | nil => simp [eachSlot]
  | cons slot rest ih =>
    unfold eachSlot
    split
    case h_1 own next failed =>
      constructor
      · rintro ⟨⟩
        exact ⟨[], slot, rest, rfl, by simp, next, failed⟩
      · -- nothing can have passed before the first slot
        rintro ⟨passed, other, later, split, each, next', failed'⟩
        cases passed with
        | nil =>
          obtain ⟨rfl, rfl⟩ := List.cons.inj split
          exact (Prod.mk.inj (failed.symm.trans failed')).1
        | cons first passed =>
          obtain ⟨rfl, -⟩ := List.cons.inj split
          obtain ⟨_, returned⟩ := each slot (by simp)
          cases (Prod.mk.inj (failed.symm.trans returned)).1
    case h_2 next returned =>
      refine ih.trans ⟨?_, ?_⟩
      · rintro ⟨passed, other, later, rfl, each, failed⟩
        exact ⟨slot :: passed, other, later, rfl,
          List.forall_mem_cons.mpr ⟨⟨next, returned⟩, each⟩, failed⟩
      · rintro ⟨passed, other, later, split, each, next', failed⟩
        cases passed with
        | nil =>
          obtain ⟨rfl, -⟩ := List.cons.inj split
          cases (Prod.mk.inj (returned.symm.trans failed)).1
        | cons first passed =>
          obtain ⟨rfl, rfl⟩ := List.cons.inj split
          exact ⟨passed, other, later, rfl, (List.forall_mem_cons.mp each).2, next', failed⟩

theorem onSlots_fails : (∃ after, Step.Fails (onSlots operation) cache failure after) ↔
    ∃ passed slot rest, cache.slots = passed ++ slot :: rest ∧
      (∀ earlier ∈ passed, ∃ next, Step.Returns operation earlier () next) ∧
      ∃ next, Step.Fails operation slot failure next := by
  rw [← eachSlot_fails]
  constructor
  · rintro ⟨after, failed⟩
    exact congrArg Prod.fst failed
  · intro failed
    exact ⟨(onSlots operation cache).2, Prod.ext failed rfl⟩

end

section

variable {indices : List Nat} {slot next : CacheSlot} {tensor : Tensor} {failure : Failure}
  {rows heads length size : Nat}

theorem advanceSlot_absent (indices : List Nat) (absent : slot.present = none) :
    @Eq (Except Failure Unit × CacheSlot) (advanceSlot indices slot)
      (.error (missing slot), slot) := by
  obtain ⟨_, _, _, _⟩ := slot
  subst absent
  rfl

theorem advanceSlot_laid (given : slot.present = some tensor)
    (laid : tensor.Laid rows heads length size) (inside : ∀ i ∈ indices, i < rows) :
    ((∃ next, Step.Returns (advanceSlot indices) slot () next) ↔
      indices = [] ∨ tensor.isPacked = true) ∧
    ∀ failure next, Step.Fails (advanceSlot indices) slot failure next →
      failure = .tensor .gaps := by
  have outcome := advanceSlot_given indices given
  cases indices with
  | nil => simp [Step.Returns, Step.Fails, outcome]
  | cons i rest =>
    cases chosen : tensor.selectRows (i :: rest) with
    | ok past =>
      have gapless := (laid.selectRows chosen).1
      simp [Step.Returns, Step.Fails, outcome, chosen, tensorStep, gapless]
    | error fault =>
      obtain ⟨gaps, rfl⟩ := (laid.selectRows_error inside).mp chosen
      simp [Step.Returns, Step.Fails, outcome, chosen, tensorStep, gaps, eq_comm]

end

/-! ### Storing by name -/

def latest (stores : List (String × Tensor)) (name : String) : Option Tensor :=
  stores.reverse.lookup name

def storeAll (stores : List (String × Tensor)) (cache : LayerCache) : LayerCache :=
  stores.foldl (fun cache entry => (cache.store? entry.1 entry.2).getD cache) cache

section

variable {stores : List (String × Tensor)} {name : String} {tensor : Tensor}
  {cache : LayerCache}

theorem latest_cons : latest ((name, tensor) :: stores) = fun other =>
    (latest stores other).or (if other = name then some tensor else none) := by
  funext other
  rw [latest, List.reverse_cons, List.lookup_append, latest]
  rw [List.lookup_cons, List.lookup_nil]
  by_cases same : other = name
  · rw [if_pos same, beq_iff_eq.mpr same]
  · rw [if_neg same, beq_false_of_ne same]

theorem mem_of_latest (found : latest stores name = some tensor) : (name, tensor) ∈ stores := by
  obtain ⟨before, after, split, -⟩ := List.lookup_eq_some_iff.mp found
  rw [← List.mem_reverse, split]
  simp

theorem latest_of_mem (stored : (name, tensor) ∈ stores) : (latest stores name).isSome = true := by
  rw [Option.isSome_iff_ne_none]
  intro absent
  simpa using List.lookup_eq_none_iff.mp absent (name, tensor) (List.mem_reverse.mpr stored)

theorem store_slots (name : String) (tensor : Tensor) (distinct : cache.presentNames.Nodup) :
    ((cache.store? name tensor).getD cache).slots = cache.slots.map fun slot =>
      if slot.presentName = name then { slot with present := some tensor } else slot := by
  by_cases member : name ∈ cache.presentNames
  · rw [store?_slots distinct member]
    rfl
  · have absent : ∀ slot ∈ cache.slots, slot.presentName ≠ name := fun slot inside same =>
      member (List.mem_map.mpr ⟨slot, inside, same⟩)
    have none : cache.store? name tensor = none := by
      rw [store?, List.findIdx?_eq_none_iff.mpr fun slot inside => by simpa using absent slot inside]
      rfl
    rw [none, Option.getD_none]
    conv_lhs => rw [← List.map_id cache.slots]
    exact List.map_congr_left fun slot inside => (if_neg (absent slot inside)).symm

theorem storeAll_slots (stores : List (String × Tensor)) (distinct : cache.presentNames.Nodup) :
    (storeAll stores cache).slots = cache.slots.map fun slot =>
      { slot with present := (latest stores slot.presentName).or slot.present } := by
  induction stores generalizing cache with
  | nil => simp [storeAll, latest]
  | cons entry rest ih =>
    obtain ⟨name, tensor⟩ := entry
    have stored := store_slots name tensor distinct
    have names : ((cache.store? name tensor).getD cache).presentNames = cache.presentNames := by
      rw [presentNames, stored, List.map_map]
      refine List.map_congr_left fun slot _ => ?_
      rw [Function.comp_apply]
      split <;> rfl
    change (storeAll rest _).slots = _
    rw [ih (names ▸ distinct), stored, List.map_map, latest_cons]
    refine List.map_congr_left fun slot _ => ?_
    by_cases same : slot.presentName = name <;> simp [same]

end

/-! ### Whole rounds -/

/-- What happens to the cache between two updates, and the second of them. -/
structure Round where
  /-- The presents in the order of storing. -/
  stores : List (String × Tensor)
  /-- How many positions are rolled back, if any rollback is made. -/
  cut : Option Nat
  indices : List Nat

namespace Round

def prepare (round : Round) : Step LayerCache Unit := do
  modify (storeAll round.stores)
  match round.cut with
  | none => pure ()
  | some count => rollback count

def perform (round : Round) : Step LayerCache Unit := do
  round.prepare
  update round.indices

/-- Presents of one length for every name, with a row for every index, and no cut beyond them. -/
structure Fits (names : List String) (length : Nat) (round : Round) : Prop where
  complete : ∀ name ∈ names, ∃ tensor, (name, tensor) ∈ round.stores
  laid : ∀ entry ∈ round.stores, ∃ rows heads size, entry.2.Laid rows heads length size ∧
    ∀ i ∈ round.indices, i < rows
  cut : round.cut.getD 0 ≤ length

/-- No rows are to be picked, or what the cut leaves of the presents has no gaps. -/
def Movable (names : List String) (length : Nat) (round : Round) : Prop :=
  round.indices = [] ∨ ∀ name ∈ names, ∀ source kept, latest round.stores name = some source →
    source.narrow 2 0 (length - round.cut.getD 0) = .ok kept → kept.isPacked = true

end Round

/-- A past that continues a present of some length: without its last positions, and of its rows
those that were named. -/
def Continues (length cut : Nat) (indices : List Nat) (source past : Tensor) : Prop :=
  ∃ rows heads size, source.Laid rows heads length size ∧ past.type = source.type ∧
    past.Laid (if indices.isEmpty then rows else indices.length) heads (length - cut) size ∧
    past.grid = (source.grid.upTo (length - cut)).pick indices

inductive Reached (start : LayerCache) : LayerCache → Prop
  | start : Reached start start
  | round {cache next : LayerCache} {round : Round} {length : Nat} : Reached start cache →
      round.Fits start.presentNames length → Step.Returns round.perform cache () next →
      Reached start next

structure Idle (names : List (String × String)) (cache : LayerCache) : Prop where
  names : cache.slotNames = names
  empty : ∀ slot ∈ cache.slots, slot.present = none

section

variable {names : List (String × String)} {cache middle next : LayerCache} {round : Round}
  {length : Nat} {slot kept : CacheSlot} {indices : List Nat} {stores : List (String × Tensor)}

theorem presentNames_eq (cache : LayerCache) : cache.presentNames = cache.slotNames.map (·.2) := by
  rw [slotNames, List.map_map]
  rfl

theorem pastNames_eq (cache : LayerCache) : cache.pastNames = cache.slotNames.map (·.1) := by
  rw [slotNames, List.map_map]
  rfl

theorem past_of_mem (distinct : cache.pastNames.Nodup) (member : slot ∈ cache.slots) :
    cache.past slot.pastName = some slot.past := by
  have listed : (slot.pastName, slot.presentName) ∈ cache.slotNames :=
    List.mem_map.mpr ⟨slot, member, rfl⟩
  obtain ⟨own, inside, named, found⟩ := Buffers.slot_of_past listed
  obtain rfl := List.inj_on_of_nodup_map distinct inside member named
  exact found

theorem Idle.stored (idle : cache.Idle names) (stores : List (String × Tensor))
    (distinct : (names.map (·.2)).Nodup) :
    (storeAll stores cache).slotNames = names ∧
      ∀ slot ∈ (storeAll stores cache).slots, slot.present = latest stores slot.presentName := by
  rw [← idle.names, ← presentNames_eq] at distinct
  have slots := storeAll_slots stores distinct
  constructor
  · rw [← idle.names, slotNames, slots, List.map_map]
    rfl
  · rw [slots, List.forall_mem_map]
    intro slot member
    rw [idle.empty slot member, Option.or_none]

def Round.Readies (round : Round) (length : Nat) (slot : CacheSlot) : Prop :=
  ∃ source rows heads size kept, latest round.stores slot.presentName = some source ∧
    source.Laid rows heads length size ∧ (∀ i ∈ round.indices, i < rows) ∧
    source.narrow 2 0 (length - round.cut.getD 0) = .ok kept ∧ slot.present = some kept

theorem Round.Fits.found (fits : round.Fits (names.map (·.2)) length)
    (member : slot.presentName ∈ names.map (·.2)) :
    ∃ source rows heads size, latest round.stores slot.presentName = some source ∧
      source.Laid rows heads length size ∧ ∀ i ∈ round.indices, i < rows := by
  obtain ⟨_, stored⟩ := fits.complete _ member
  obtain ⟨source, found⟩ := Option.isSome_iff_exists.mp (latest_of_mem stored)
  obtain ⟨rows, heads, size, laid, inside⟩ := fits.laid _ (mem_of_latest found)
  exact ⟨source, rows, heads, size, found, laid, inside⟩

theorem Round.prepare_returns (idle : cache.Idle names) (distinct : (names.map (·.2)).Nodup)
    (fits : round.Fits (names.map (·.2)) length) :
    ∃ middle, Step.Returns round.prepare cache () middle ∧ middle.slotNames = names ∧
      ∀ slot ∈ middle.slots, round.Readies length slot := by
  obtain ⟨sameNames, presents⟩ := idle.stored round.stores distinct
  -- a slot holds what was stored last under its name
  have each : ∀ slot ∈ (storeAll round.stores cache).slots, ∃ source rows heads size,
      latest round.stores slot.presentName = some source ∧ slot.present = some source ∧
      source.Laid rows heads length size ∧ ∀ i ∈ round.indices, i < rows := by
    intro slot member
    have listed : slot.presentName ∈ names.map (·.2) := by
      rw [← sameNames, ← presentNames_eq]
      exact List.mem_map_of_mem member
    obtain ⟨source, rows, heads, size, found, laid, inside⟩ := fits.found listed
    exact ⟨source, rows, heads, size, found, (presents slot member).trans found, laid, inside⟩
  simp only [Round.prepare, Step.returns_bind, Step.returns_modify]
  cases cut : round.cut with
  | none =>
    refine ⟨_, ⟨(), _, rfl, Step.returns_pure.mpr ⟨rfl, rfl⟩⟩, sameNames, fun slot member => ?_⟩
    obtain ⟨source, rows, heads, size, found, given, laid, inside⟩ := each slot member
    refine ⟨source, rows, heads, size, source, found, laid, inside, ?_, given⟩
    rw [cut]
    exact laid.narrow_length
  | some count =>
    -- only the last positions are cut, so every slot that was stored can be cut
    have short : count ≤ length := by simpa [cut] using fits.cut
    obtain ⟨after, ran⟩ := onSlots_returns_iff.mpr fun slot member => by
      obtain ⟨source, rows, heads, size, -, given, laid, -⟩ := each slot member
      have present : slot.HasPresent rows length False :=
        ⟨source, heads, length, size, given, laid.shape, Nat.le_refl _, False.elim⟩
      obtain ⟨next, trimmed, -⟩ := trimSlot_total present short id
      exact ⟨next, trimmed⟩
    have slots := onSlots_returns.mp ran
    refine ⟨after, ⟨(), _, rfl, ran⟩, (slotNames_of_forall₂ trimSlot_names slots).trans sameNames, ?_⟩
    refine forall_of_forall₂ slots fun old member slot trimmed => ?_
    obtain ⟨source, rows, heads, size, found, given, laid, inside⟩ := each old member
    obtain ⟨tensor, extent, kept, given', axis, -, narrowed, rfl⟩ := trimSlot_returns trimmed
    obtain rfl := Option.some.inj (given.symm.trans given')
    obtain rfl : length = extent := by simpa [Tensor.extent, laid.shape] using axis
    refine ⟨source, rows, heads, size, kept, found, laid, inside, ?_, rfl⟩
    rw [cut]
    exact narrowed

/-- An update of ready slots succeeds exactly if they can be moved, and fails for nothing else. -/
theorem Round.update_ready (sameNames : middle.slotNames = names)
    (readies : ∀ slot ∈ middle.slots, round.Readies length slot) :
    ((∃ next, Step.Returns (update round.indices) middle () next) ↔
      round.Movable (names.map (·.2)) length) ∧
    ∀ failure after, Step.Fails (update round.indices) middle failure after →
      failure = .tensor .gaps := by
  constructor
  · -- names and slots come in one order, and a slot moves by what was stored under its name
    rw [update, onSlots_returns_iff, Round.Movable]
    constructor
    · intro each
      refine or_iff_not_imp_left.mpr fun moves name listed source kept found narrowed => ?_
      rw [← sameNames, ← presentNames_eq] at listed
      obtain ⟨slot, member, rfl⟩ := List.mem_map.mp listed
      obtain ⟨source', rows, heads, size, kept', found', laid, inside, narrowed', given⟩ :=
        readies slot member
      obtain rfl := Option.some.inj (found.symm.trans found')
      obtain rfl := Except.ok.inj (narrowed.symm.trans narrowed')
      have laid' := (laid.narrow narrowed).2.2.1
      exact ((advanceSlot_laid given laid' inside).1.mp
        (each slot member)).resolve_left moves
    · intro movable slot member
      obtain ⟨source, rows, heads, size, kept, found, laid, inside, narrowed, given⟩ :=
        readies slot member
      have laid' := (laid.narrow narrowed).2.2.1
      refine (advanceSlot_laid given laid' inside).1.mpr
        (movable.imp_right fun each => each slot.presentName ?_ source kept found narrowed)
      rw [← sameNames, ← presentNames_eq]
      exact List.mem_map_of_mem member
  · intro failure after failed
    obtain ⟨passed, slot, rest, split, -, next, failed⟩ := onSlots_fails.mp ⟨after, failed⟩
    obtain ⟨source, rows, heads, size, kept, -, laid, inside, narrowed, given⟩ :=
      readies slot (split ▸ by simp)
    exact (advanceSlot_laid given (laid.narrow narrowed).2.2.1 inside).2 failure next failed

theorem Round.updated (sameNames : middle.slotNames = names)
    (readies : ∀ slot ∈ middle.slots, round.Readies length slot)
    (ran : Step.Returns (update round.indices) middle () next) :
    next.Idle names ∧ ∀ slot ∈ next.slots, ∃ source,
      latest round.stores slot.presentName = some source ∧
      Continues length (round.cut.getD 0) round.indices source slot.past := by
  have slots := onSlots_returns.mp ran
  have each : ∀ slot ∈ next.slots, slot.present = none ∧ ∃ source,
      latest round.stores slot.presentName = some source ∧
      Continues length (round.cut.getD 0) round.indices source slot.past := by
    refine forall_of_forall₂ slots fun old member slot advanced => ?_
    obtain ⟨source, rows, heads, size, kept, found, laid, inside, narrowed, given⟩ :=
      readies old member
    obtain ⟨tensor, given', taken, -, presentName, gone⟩ := advanceSlot_returns advanced
    obtain rfl := Option.some.inj (given.symm.trans given')
    obtain ⟨-, type, laid', grid⟩ := laid.narrow narrowed
    refine ⟨gone, source, presentName ▸ found, rows, heads, size, laid, ?_⟩
    rw [Grid.pick]
    -- without indices the cut tensor is taken as it is
    split at taken
    case isTrue stays =>
      rw [if_pos stays, if_pos stays, taken]
      exact ⟨type, laid', grid⟩
    case isFalse moves =>
      obtain ⟨-, type', chosen, grid'⟩ := laid'.selectRows taken
      rw [if_neg moves, if_neg moves, ← grid]
      exact ⟨type'.trans type, chosen, grid'⟩
  exact ⟨⟨(slotNames_of_forall₂ advanceSlot_names slots).trans sameNames,
    fun slot member => (each slot member).1⟩, fun slot member => (each slot member).2⟩

/-- The cut of fresh presents leaves no gaps only where it cuts nothing, or where a present has
nothing to keep apart: no elements, or a single lane. -/
theorem Round.movable_fresh (fits : round.Fits (names.map (·.2)) length)
    (fresh : ∀ entry ∈ round.stores, entry.2.strides = Tensor.packedStrides entry.2.shape) :
    round.Movable (names.map (·.2)) length ↔ round.indices = [] ∨ round.cut.getD 0 = 0 ∨
      ∀ name ∈ names.map (·.2), ∀ source rows heads size, latest round.stores name = some source →
        source.Laid rows heads length size → size = 0 ∨ heads = 0 ∨ heads = 1 ∧ rows ≤ 1 := by
  unfold Round.Movable
  refine or_congr_right ⟨fun each => or_iff_not_imp_left.mpr ?_, ?_⟩
  · intro cuts name listed source rows heads size found laid
    obtain ⟨kept, narrowed, -⟩ := Tensor.narrow_total (round.cut.getD 0) laid.shape
    have packed := each name listed source kept found narrowed
    rw [laid.isPacked_narrow (fresh _ (mem_of_latest found)) fits.cut narrowed] at packed
    exact packed.resolve_left cuts
  · intro given name listed source kept found narrowed
    obtain ⟨rows, heads, size, laid, -⟩ := fits.laid _ (mem_of_latest found)
    rw [laid.isPacked_narrow (fresh _ (mem_of_latest found)) fits.cut narrowed]
    exact given.imp_right fun each => each name listed source rows heads size found laid

theorem Round.perform_idle (idle : cache.Idle names) (distinct : (names.map (·.2)).Nodup)
    (fits : round.Fits (names.map (·.2)) length) :
    ((∃ next, Step.Returns round.perform cache () next) ↔ round.Movable (names.map (·.2)) length) ∧
    (∀ failure after, Step.Fails round.perform cache failure after → failure = .tensor .gaps) ∧
    ∀ next, Step.Returns round.perform cache () next →
      next.Idle names ∧ ∀ slot ∈ next.slots, ∃ source,
        latest round.stores slot.presentName = some source ∧
        Continues length (round.cut.getD 0) round.indices source slot.past := by
  obtain ⟨middle, prepared, sameNames, readies⟩ := Round.prepare_returns idle distinct fits
  obtain ⟨movable, refused⟩ := Round.update_ready sameNames readies
  have split : ∀ next, Step.Returns round.perform cache () next ↔
      Step.Returns (update round.indices) middle () next := by
    intro next
    rw [Round.perform, Step.returns_bind]
    constructor
    · rintro ⟨_, _, prepared', ran⟩
      obtain ⟨-, rfl⟩ := Step.returns_unique prepared prepared'
      exact ran
    · exact fun ran => ⟨(), middle, prepared, ran⟩
  refine ⟨by simp only [split, movable], fun failure after failed => ?_,
    fun next ran => Round.updated sameNames readies ((split next).mp ran)⟩
  rcases Step.fails_bind.mp failed with failed | ⟨_, _, prepared', failed⟩
  · cases (Prod.mk.inj (prepared.symm.trans failed)).1
  · obtain ⟨-, rfl⟩ := Step.returns_unique prepared prepared'
    exact refused failure after failed

theorem Reached.idle {start : LayerCache} {cache : LayerCache} (reached : Reached start cache)
    (fresh : start.Idle start.slotNames) (distinct : start.presentNames.Nodup) :
    cache.Idle start.slotNames := by
  rw [presentNames_eq] at distinct
  induction reached with
  | start => exact fresh
  | round _ fits ran ih =>
    rw [presentNames_eq] at fits
    exact ((Round.perform_idle ih distinct fits).2.2 _ ran).1

theorem Idle.read {held : Nat} {p : String → Tensor → Prop} (idle : cache.Idle names)
    (distinct : (names.map (·.1)).Nodup)
    (each : ∀ slot ∈ cache.slots, p slot.presentName slot.past ∧ slot.past.extent 2 = .ok held) :
    (∀ both ∈ names, ∃ past, cache.past both.1 = some past ∧ cache.present both.2 = none ∧
      p both.2 past) ∧
    ∃ held, cache.pastLength = .ok held ∧ ∀ name ∈ names.map (·.1), ∃ past,
      cache.past name = some past ∧ past.extent 2 = .ok held := by
  have sameNames := idle.names
  subst sameNames
  rw [← pastNames_eq] at distinct ⊢
  constructor
  · intro both listed
    obtain ⟨slot, member, rfl⟩ := List.mem_map.mp listed
    refine ⟨slot.past, past_of_mem distinct member, ?_, (each slot member).1⟩
    rw [LayerCache.present, Option.bind_eq_none_iff]
    exact fun own found => idle.empty own (List.mem_of_find?_eq_some found)
  · have pasts : ∀ slot ∈ cache.slots, ∃ past, cache.past slot.pastName = some past ∧
        past.extent 2 = .ok held := fun slot member =>
      ⟨slot.past, past_of_mem distinct member, (each slot member).2⟩
    rw [pastNames]
    -- the first slot tells the length, and the others agree with it
    cases slots : cache.slots with
    | nil => exact ⟨0, by simp [pastLength, slots], by simp⟩
    | cons first rest =>
      have own := (each first (slots ▸ by simp)).2
      refine ⟨held, by simp only [pastLength, slots, own, tensorStep], ?_⟩
      rw [← slots, List.forall_mem_map]
      exact pasts

theorem Idle.update_misses (idle : cache.Idle names) (distinct : (names.map (·.2)).Nodup)
    (laid : ∀ entry ∈ stores, ∃ rows heads length size, entry.2.Laid rows heads length size ∧
      ∀ i ∈ indices, i < rows) (name : String) :
    (∃ after, Step.Fails (update indices) (storeAll stores cache)
        (.missingOutput "kv_cache" name) after) ↔
      ∃ before rest, names.map (·.2) = before ++ name :: rest ∧ latest stores name = none ∧
        ∀ earlier ∈ before, ∃ tensor, latest stores earlier = some tensor ∧
          (indices = [] ∨ tensor.isPacked = true) := by
  obtain ⟨sameNames, presents⟩ := idle.stored stores distinct
  have given : ∀ slot ∈ (storeAll stores cache).slots, ∀ tensor,
      latest stores slot.presentName = some tensor →
      ((∃ next, Step.Returns (advanceSlot indices) slot () next) ↔
        indices = [] ∨ tensor.isPacked = true) ∧
      ∀ failure next, Step.Fails (advanceSlot indices) slot failure next →
        failure = .tensor .gaps := by
    intro slot member tensor found
    obtain ⟨rows, heads, length, size, laid, inside⟩ := laid _ (mem_of_latest found)
    exact advanceSlot_laid ((presents slot member).trans found) laid inside
  rw [update, onSlots_fails, ← sameNames, ← presentNames_eq]
  constructor
  · rintro ⟨passed, slot, rest, split, each, next, failed⟩
    have here : slot ∈ (storeAll stores cache).slots := split ▸ by simp
    -- a slot that was stored fails by its gaps alone, so nothing was stored for this one
    have absent : latest stores slot.presentName = none := by
      cases found : latest stores slot.presentName with
      | none => rfl
      | some tensor => cases (given slot here tensor found).2 _ _ failed
    have outcome := advanceSlot_absent indices ((presents slot here).trans absent)
    obtain ⟨rfl⟩ : missing slot = .missingOutput "kv_cache" name :=
      Except.error.inj (Prod.mk.inj (outcome.symm.trans failed)).1
    refine ⟨passed.map (·.presentName), rest.map (·.presentName), by simp [presentNames, split],
      absent, List.forall_mem_map.mpr fun earlier member => ?_⟩
    have there : earlier ∈ (storeAll stores cache).slots := split ▸ by simp [member]
    obtain ⟨next, returned⟩ := each earlier member
    obtain ⟨tensor, own, -⟩ := advanceSlot_returns returned
    have found := (presents earlier there).symm.trans own
    exact ⟨tensor, found, (given earlier there tensor found).1.mp ⟨next, returned⟩⟩
  · rintro ⟨before, rest, split, absent, each⟩
    -- the first name that was not stored belongs to the first slot that fails
    obtain ⟨passed, others, slots, rfl, tail⟩ := List.map_eq_append_iff.mp split
    obtain ⟨slot, later, rfl, rfl, rfl⟩ := List.map_eq_cons_iff.mp tail
    have here : slot ∈ (storeAll stores cache).slots := slots ▸ by simp
    refine ⟨passed, slot, later, slots, fun earlier member => ?_, slot,
      advanceSlot_absent indices ((presents slot here).trans absent)⟩
    have there : earlier ∈ (storeAll stores cache).slots := slots ▸ by simp [member]
    obtain ⟨tensor, found, movable⟩ := each _ (List.mem_map_of_mem member)
    exact (given earlier there tensor found).1.mpr movable

end

section

variable {decoder : DecoderConfig} {rows : Nat} {start cache : LayerCache}

/-- After every round each past continues the present of its own slot, as stored last. A round
succeeds exactly if no rows are picked from what has gaps, which cuts leave behind, and an update
misses exactly the first present that was not stored. -/
theorem rounds_separate (created : ofConfig decoder rows = .ok start)
    (pasts : start.pastNames.Nodup) (presents : start.presentNames.Nodup)
    (reached : Reached start cache) :
    (∀ (round : Round) length, round.Fits start.presentNames length →
      ((∃ next, Step.Returns round.perform cache () next) ↔
        round.Movable start.presentNames length) ∧
      (∀ failure after, Step.Fails round.perform cache failure after →
        failure = .tensor .gaps) ∧
      ∀ next, Step.Returns round.perform cache () next →
        (∀ names ∈ start.slotNames, ∃ past, next.past names.1 = some past ∧
          next.present names.2 = none ∧ ∃ source, latest round.stores names.2 = some source ∧
          Continues length (round.cut.getD 0) round.indices source past) ∧
        ∃ held, next.pastLength = .ok held ∧ ∀ name ∈ start.pastNames, ∃ past,
          next.past name = some past ∧ past.extent 2 = .ok held) ∧
    ∀ stores indices, (∀ entry ∈ stores, ∃ rows heads length size,
        entry.2.Laid rows heads length size ∧ ∀ i ∈ indices, i < rows) → ∀ name,
      (∃ after, Step.Fails (update indices) (storeAll stores cache)
          (.missingOutput "kv_cache" name) after) ↔
        ∃ before rest, start.presentNames = before ++ name :: rest ∧ latest stores name = none ∧
          ∀ earlier ∈ before, ∃ tensor, latest stores earlier = some tensor ∧
            (indices = [] ∨ tensor.isPacked = true) := by
  have fresh : start.Idle start.slotNames :=
    ⟨rfl, fun slot member => ((ofConfig_eq_ok created).2 slot member).1⟩
  have idle := reached.idle fresh presents
  rw [presentNames_eq] at presents ⊢
  rw [pastNames_eq] at pasts ⊢
  refine ⟨fun round length fits => ?_, fun stores indices => idle.update_misses presents⟩
  obtain ⟨movable, refused, moved⟩ := Round.perform_idle idle presents fits
  refine ⟨movable, refused, fun next ran => ?_⟩
  obtain ⟨after, continued⟩ := moved next ran
  have extents : ∀ slot ∈ next.slots, slot.past.extent 2 = .ok (length - round.cut.getD 0) := by
    intro slot member
    obtain ⟨source, -, _, _, _, -, -, laid, -⟩ := continued slot member
    simp [Tensor.extent, laid.shape]
  exact after.read (p := fun name past => ∃ source, latest round.stores name = some source ∧
    Continues length (round.cut.getD 0) round.indices source past) pasts
    fun slot member => ⟨continued slot member, extents slot member⟩

end

def pairs : DecoderConfig :=
  { DecoderConfig.standard with cacheHeads := 2, headSize := 1, layers := 1 }

def empty : LayerCache :=
  ⟨[⟨"past_key_values.0.key", "present.0.key", .filled .f32 [2, 2, 0, 1] (.whole 0), none⟩,
    ⟨"past_key_values.0.value", "present.0.value", .filled .f32 [2, 2, 0, 1] (.whole 0), none⟩]⟩

theorem created_empty : ofConfig pairs 2 = .ok empty := rfl

def triple (first : Nat) : Tensor :=
  .packed .f32 [2, 2, 3, 1] ((List.range 12).map fun n => .whole (first + n : Nat))

theorem triple_laid (first : Nat) : (triple first).Laid 2 2 3 1 :=
  ⟨rfl, by simp [triple, Tensor.packed]⟩

def crossed (cut : Option Nat) (indices : List Nat) : Round :=
  ⟨[("present.0.value", triple 12), ("present.0.key", triple 0)], cut, indices⟩

theorem crossed_fits {cut : Option Nat} (short : cut.getD 0 ≤ 3) {indices : List Nat}
    (inside : ∀ i ∈ indices, i < 2) : (crossed cut indices).Fits empty.presentNames 3 where
  complete := by simp [presentNames, empty, crossed]
  laid := by
    intro entry member
    rcases List.mem_cons.mp member with rfl | member
    · exact ⟨2, 2, 1, triple_laid 12, inside⟩
    · rw [List.mem_singleton.mp member]
      exact ⟨2, 2, 1, triple_laid 0, inside⟩
  cut := short

/-- Rows change places in one round, a position is cut off in the next, and then a present is left
out. -/
theorem crossed_rounds_separate : ∃ cache next,
    Step.Returns (crossed none [1, 0]).perform empty () cache ∧
    Step.Returns (crossed (some 1) []).perform cache () next ∧
    (∃ past, next.past "past_key_values.0.key" = some past ∧
      Continues 3 1 [] (triple 0) past) ∧
    ∃ after, Step.Fails (update []) (storeAll [("present.0.value", triple 0)] cache)
      (.missingOutput "kv_cache" "present.0.key") after := by
  have pasts : empty.pastNames.Nodup := by decide +kernel
  have presents : empty.presentNames.Nodup := by decide +kernel
  have first : Step.Returns (crossed none [1, 0]).perform empty ()
      ((crossed none [1, 0]).perform empty).2 := Step.returns_of_result (by decide +kernel)
  have reached := Reached.start.round (crossed_fits (by decide) (by decide)) first
  obtain ⟨rounds, misses⟩ := rounds_separate created_empty pasts presents reached
  obtain ⟨returns, -, moved⟩ := rounds (crossed (some 1) []) 3 (crossed_fits (by decide) (by simp))
  obtain ⟨next, second⟩ := returns.mpr (.inl rfl)
  obtain ⟨past, found, -, source, stored, continues⟩ := (moved next second).1
    ("past_key_values.0.key", "present.0.key") (by simp [slotNames, empty])
  obtain rfl : triple 0 = source := Option.some.inj stored
  refine ⟨_, next, first, second, ⟨past, found, continues⟩, ?_⟩
  refine (misses [("present.0.value", triple 0)] [] ?_ "present.0.key").mpr
    ⟨[], ["present.0.value"], rfl, rfl, by simp⟩
  intro entry member
  rw [List.mem_singleton.mp member]
  exact ⟨2, 2, 3, 1, triple_laid 0, by simp⟩

/-- A cut leaves gaps, and then rows cannot be picked. -/
theorem cut_rows_refused : ofConfig pairs 2 = .ok empty ∧
    empty.pastNames.Nodup ∧ empty.presentNames.Nodup ∧
    (crossed (some 1) [1, 0]).Fits empty.presentNames 3 ∧
    Step.Fails (crossed (some 1) [1, 0]).perform empty (.tensor .gaps)
      ((crossed (some 1) [1, 0]).perform empty).2 := by
  refine ⟨created_empty, by decide +kernel, by decide +kernel, crossed_fits (by decide) (by decide),
    Prod.ext rfl rfl⟩

end StagedDecoding.LayerCache
