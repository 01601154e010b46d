import StagedDecoding.Proofs.Viewing

/-! What buffers remember between steps.

After a step the buffers remember every row as far as the model has seen it. Rolling back forgets
the last tokens of every row. An update turns what they remember into the past of the next view,
with the rows of the parents.
-/

set_option autoImplicit false

namespace StagedDecoding

/-- The histories of the next rows: all as they are when nothing moved, else that of the parent
of each row. -/
def inherited (parents : List Nat) (histories : List (List Token)) : List (List Token) :=
  if parents.isEmpty then histories else parents.map fun parent => histories.getD parent []

namespace LayerCache

theorem eachSlot_eq_ok {operation : Step CacheSlot Unit} {slots changed : List CacheSlot} :
    eachSlot operation slots = (.ok (), changed) ↔
      List.Forall₂ (fun slot next => Step.Returns operation slot () next) slots changed := by
  induction slots generalizing changed with
  | nil => simp [eachSlot, eq_comm]
  | cons slot rest ih =>
    rw [List.forall₂_cons_left_iff]
    unfold eachSlot
    split
    case h_1 failure next failed =>
      simp [Step.Returns, failed]
    case h_2 next passed =>
      simp only [Prod.mk.injEq]
      constructor
      · rintro ⟨later, rfl⟩
        exact ⟨next, _, passed, ih.mp (Prod.ext later rfl), rfl⟩
      · rintro ⟨next', others, passed', later, rfl⟩
        have same := passed.symm.trans passed'
        obtain rfl := (Prod.mk.inj same).2
        rw [ih.mpr later]
        exact ⟨rfl, rfl⟩

theorem onSlots_returns {operation : Step CacheSlot Unit} {before after : LayerCache} {u : Unit} :
    Step.Returns (onSlots operation) before u after ↔
      List.Forall₂ (fun slot next => Step.Returns operation slot () next) before.slots
        after.slots := by
  rw [← eachSlot_eq_ok]
  unfold Step.Returns onSlots
  constructor
  · intro ran
    obtain ⟨passed, rfl⟩ := Prod.mk.inj ran
    exact Prod.ext passed rfl
  · intro passed
    simp [passed]

theorem advanceSlot_returns {indices : List Nat} {slot next : CacheSlot} {u : Unit}
    (ran : Step.Returns (advanceSlot indices) slot u next) :
    ∃ tensor, slot.present = some tensor ∧
      (if indices.isEmpty then next.past = tensor
        else tensor.selectRows indices = .ok next.past) ∧
      next.pastName = slot.pastName ∧ next.presentName = slot.presentName ∧
      next.present = none := by
  simp only [advanceSlot, Step.returns_bind, Step.returns_get] at ran
  obtain ⟨_, _, ⟨rfl, rfl⟩, ran⟩ := ran
  cases given : slot.present with
  | none => simp [given, Step.returns_throw] at ran
  | some tensor =>
    refine ⟨tensor, rfl, ?_⟩
    simp only [given, Step.returns_bind, Step.returns_set] at ran
    obtain ⟨_, _, rfl, ran⟩ := ran
    split at ran
    case isTrue stays =>
      rw [Step.returns_bind] at ran
      obtain ⟨_, _, kept, ran⟩ := ran
      obtain ⟨rfl, rfl⟩ := Step.returns_pure.mp kept
      obtain rfl := Step.returns_set.mp ran
      exact ⟨if_pos stays ▸ rfl, rfl, rfl, rfl⟩
    case isFalse moves =>
      rw [Step.returns_bind] at ran
      obtain ⟨_, _, chosen, ran⟩ := ran
      obtain ⟨selected, rfl⟩ := Step.returns_lift.mp chosen
      obtain rfl := Step.returns_set.mp ran
      rw [if_neg moves]
      exact ⟨Outcome.tensorStep_eq_ok.mp selected, rfl, rfl, rfl⟩

theorem advanceSlot_names {indices : List Nat} (slot next : CacheSlot)
    (ran : Step.Returns (advanceSlot indices) slot () next) :
    next.pastName = slot.pastName ∧ next.presentName = slot.presentName := by
  obtain ⟨_, _, _, past, present, _⟩ := advanceSlot_returns ran
  exact ⟨past, present⟩

theorem trimSlot_returns {count : Nat} {slot next : CacheSlot} {u : Unit}
    (ran : Step.Returns (trimSlot count) slot u next) :
    ∃ tensor length kept, slot.present = some tensor ∧ tensor.extent 2 = .ok length ∧
      count ≤ length ∧ tensor.narrow 2 0 (length - count) = .ok kept ∧
      next = { slot with present := some kept } := by
  rw [trimSlot, Step.returns_attempt] at ran
  cases given : slot.present with
  | none => simp [given, Outcome.throw_eq_ok] at ran
  | some tensor =>
    simp only [given, Outcome.bind_eq_ok, Outcome.tensorStep_eq_ok, Outcome.throw_bind,
      Outcome.guard_eq_ok, Outcome.pure_eq_ok] at ran
    obtain ⟨length, extent, enough, kept, narrowed, rfl⟩ := ran
    exact ⟨tensor, length, kept, rfl, extent, Nat.le_of_not_lt enough, narrowed, rfl⟩

theorem trimSlot_names {count : Nat} (slot next : CacheSlot)
    (ran : Step.Returns (trimSlot count) slot () next) :
    next.pastName = slot.pastName ∧ next.presentName = slot.presentName := by
  obtain ⟨_, _, _, _, _, _, _, rfl⟩ := trimSlot_returns ran
  exact ⟨rfl, rfl⟩

theorem slotNames_of_forall₂ {r : CacheSlot → CacheSlot → Prop} {cache next : LayerCache}
    (named : ∀ slot slot', r slot slot' →
      slot'.pastName = slot.pastName ∧ slot'.presentName = slot.presentName)
    (slots : List.Forall₂ r cache.slots next.slots) : next.slotNames = cache.slotNames := by
  unfold slotNames
  rw [← List.forall₂_eq_eq_eq, List.forall₂_map_left_iff, List.forall₂_map_right_iff]
  refine slots.flip.imp fun slot old passed => ?_
  obtain ⟨past, present⟩ := named old slot passed
  rw [past, present]

end LayerCache

namespace Positions

theorem update_returns_iff {newTokens length : Nat} {before after : Positions} :
    Step.Returns (update newTokens length) before () after ↔
    width before.mask + newTokens = length ∧
      after = {
        ids := before.next.map fun start => (List.range newTokens).map (start + ·)
        mask := before.mask.map (· ++ List.replicate newTokens 1)
        next := before.next.map (· + newTokens) } := by
  simp only [update, Step.returns_bind, Step.returns_modify, Step.returns_get, Step.throw_bind,
    Step.returns_guard, Step.returns_set]
  constructor
  · rintro ⟨_, _, rfl, _, _, ⟨rfl, rfl⟩, fits, rfl⟩
    exact ⟨Decidable.not_not.mp fits, rfl⟩
  · rintro ⟨fits, rfl⟩
    exact ⟨(), _, rfl, _, _, ⟨rfl, rfl⟩, not_not_intro fits, rfl⟩

theorem update_returns {newTokens length : Nat} {before after : Positions} {u : Unit}
    (ran : Step.Returns (update newTokens length) before u after) :
    width before.mask + newTokens = length ∧
      after = {
        ids := before.next.map fun start => (List.range newTokens).map (start + ·)
        mask := before.mask.map (· ++ List.replicate newTokens 1)
        next := before.next.map (· + newTokens) } :=
  update_returns_iff.mp ran

theorem rollback_returns {count : Nat} {before after : Positions} {u : Unit}
    (ran : Step.Returns (rollback count) before u after) :
    after = { before with
      mask := before.mask.map (·.take (width before.mask - count))
      next := before.next.map (· - count) } := by
  rw [rollback, Step.returns_attempt] at ran
  dsimp only at ran
  split at ran
  · simp at ran
  · exact (Except.ok.inj ran).symm

end Positions

namespace Buffers

theorem idRows_eq_ok {rows : Nat} {tokens : List Token} {ids : List (List Token)} :
    idRows rows tokens = .ok ids ↔
      rows * (tokens.length / max rows 1) = tokens.length ∧
        ids = Tensor.blocks (tokens.length / max rows 1) rows tokens := by
  unfold idRows
  dsimp only
  split
  · next fits => simp [fits, eq_comm]
  · next differs => simp [differs]

theorem onPositions_returns {step : Step Positions Unit} {before after : Buffers} {u : Unit}
    (ran : Step.Returns (onPositions step) before u after) :
    after = { before with positions := after.positions } ∧ after.frame = before.frame ∧
      ∀ next, after.positions = some next →
        ∃ positions, before.positions = some positions ∧
          Step.Returns step positions () next := by
  rcases Step.returns_withinOption.mp ran with ⟨absent, rfl⟩ | ⟨positions, next, placed, changed, rfl⟩
  · exact ⟨rfl, rfl, by simp [absent]⟩
  · refine ⟨rfl, by simp [frame, placed], fun other same => ⟨positions, placed, ?_⟩⟩
    obtain rfl := Option.some.inj same
    exact changed

theorem onCache_returns {operation : Step CacheSlot Unit} {before after : Buffers} {u : Unit}
    (named : ∀ slot next, Step.Returns operation slot () next →
      next.pastName = slot.pastName ∧ next.presentName = slot.presentName)
    (ran : Step.Returns (onCache (LayerCache.onSlots operation)) before u after) :
    after = { before with cache := after.cache } ∧ after.frame = before.frame ∧
      ∀ next, after.cache = some next → ∃ cache, before.cache = some cache ∧
        ∀ slot ∈ next.slots, ∃ old ∈ cache.slots, Step.Returns operation old () slot := by
  rcases Step.returns_withinOption.mp ran with ⟨absent, rfl⟩ | ⟨cache, next, kept, changed, rfl⟩
  · exact ⟨rfl, rfl, by simp [absent]⟩
  · have slots := LayerCache.onSlots_returns.mp changed
    have names := LayerCache.slotNames_of_forall₂ named slots
    refine ⟨rfl, by simp [frame, kept, names], fun other same => ⟨cache, kept, ?_⟩⟩
    obtain rfl := Option.some.inj same
    exact forall_of_forall₂ slots fun old here slot passed => ⟨old, here, passed⟩

theorem update_returns_iff {tokens : List Token} {indices : List Nat} {length : Nat}
    {before after : Buffers} :
    Step.Returns (update tokens indices length) before () after ↔
    0 < before.rows ∧ 0 < tokens.length / before.rows ∧
    tokens.length = before.rows * (tokens.length / before.rows) ∧
    ∃ placed cached,
      Step.Returns (onPositions (Positions.update (tokens.length / before.rows) length))
        { before with
          inputIds := Tensor.blocks (tokens.length / before.rows) before.rows tokens }
        () placed ∧
      Step.Returns (onCache (LayerCache.update indices)) placed () cached ∧
      after = { cached with scores := none } := by
  simp only [update, Step.returns_bind, Step.returns_get, Step.throw_bind, Step.returns_guard,
    Step.returns_set, Step.returns_modify, Step.returns_lift, idRows_eq_ok]
  constructor
  · rintro ⟨_, _, ⟨rfl, rfl⟩, divides, whole, _, _, ⟨⟨counted, rfl⟩, rfl⟩, _, _, rfl, _, placed,
      positions, _, cached, cache, rfl⟩
    simp only [Bool.and_eq_true, Bool.not_eq_true', decide_eq_true_eq, Bool.or_eq_true,
      List.isEmpty_eq_false_iff, List.isEmpty_iff, not_or, not_and] at divides whole
    obtain ⟨filled, -⟩ := whole
    have rows : 0 < before.rows := Nat.pos_of_ne_zero (divides filled)
    rw [Nat.max_eq_left rows] at counted positions
    have long : 0 < tokens.length := List.length_pos_iff.mpr filled
    refine ⟨rows, Nat.pos_of_ne_zero fun zero => ?_, counted.symm, placed, cached, positions, cache,
      rfl⟩
    rw [zero] at counted
    omega
  · rintro ⟨rows, feeds, counted, placed, cached, positions, cache, rfl⟩
    have filled : tokens.isEmpty = false := by
      rw [List.isEmpty_eq_false_iff, ← List.length_pos_iff, counted]
      exact Nat.mul_pos rows feeds
    have whole : tokens.length % before.rows = 0 :=
      Nat.mod_eq_zero_of_dvd ⟨_, counted⟩
    refine ⟨_, _, ⟨rfl, rfl⟩, by simp [Nat.ne_of_gt rows], by simp [filled, whole], _, _,
      ⟨⟨?_, rfl⟩, rfl⟩, (), _, rfl, (), placed, ?_, (), cached, cache, rfl⟩
    · rw [Nat.max_eq_left rows, ← counted]
    · rw [Nat.max_eq_left rows]
      exact positions

theorem update_returns {tokens : List Token} {indices : List Nat} {length : Nat}
    {before after : Buffers} {u : Unit}
    (ran : Step.Returns (update tokens indices length) before u after) :
    0 < before.rows ∧ 0 < tokens.length / before.rows ∧
    tokens.length = before.rows * (tokens.length / before.rows) ∧
    ∃ placed cached,
      Step.Returns (onPositions (Positions.update (tokens.length / before.rows) length))
        { before with
          inputIds := Tensor.blocks (tokens.length / before.rows) before.rows tokens }
        () placed ∧
      Step.Returns (onCache (LayerCache.update indices)) placed () cached ∧
      after = { cached with scores := none } :=
  update_returns_iff.mp ran

end Buffers

theorem Tensor.rectangular_blocks {α : Type} {size count : Nat} {values : List α}
    (filled : values.length = count * size) :
    Rectangular count size (Tensor.blocks size count values) where
  count := blocks_length size count values
  width := fun _ member => length_of_mem_blocks filled member

namespace Reading

variable {reading : Reading} {seen : List (List Token)} {before after : Buffers}
  {rows width : Nat}

theorem width_maskRows (rectangular : Rectangular rows width seen) (some : 0 < rows) :
    Positions.width (reading.maskRows seen) = width := by
  cases seen with
  | nil =>
    have none := rectangular.count
    simp only [List.length_nil] at none
    omega
  | cons row rest => simp [Positions.width, maskRows, rectangular.width row (by simp)]

theorem maskRows_seen {view : View} {new : Nat} (sized : view.Sized rows width new)
    (grown : reading.request.promptLength ≤ width) :
    reading.maskRows view.seen =
      (reading.maskRows view.past).map (· ++ List.replicate new 1) := by
  refine List.ext_getElem (by simp [maskRows, View.seen, sized.past.count, sized.fed.count])
    fun i here _ => ?_
  have bound : i < rows := by
    simpa [maskRows, View.seen, sized.past.count, sized.fed.count] using here
  have past : i < view.past.length := by rw [sized.past.count]; exact bound
  have fed : i < view.fed.length := by rw [sized.fed.count]; exact bound
  have long : reading.request.promptLength ≤ view.past[i].length := by
    rw [sized.past.width _ (List.getElem_mem past)]
    exact grown
  simp [maskRows, View.seen, Positions.maskRow_append long,
    sized.fed.width _ (List.getElem_mem fed)]

theorem positionRows_seen {view : View} {new : Nat} (sized : view.Sized rows width new)
    (grown : reading.request.promptLength ≤ width) :
    reading.positionRows view =
      (reading.maskRows view.past).map fun mask => (List.range new).map (mask.sum + ·) := by
  unfold positionRows
  rw [maskRows_seen sized grown]
  refine List.ext_getElem (by simp [maskRows]) fun i here _ => ?_
  simp [maskRows, Positions.runningCounts_append_ones]

theorem frame_of_update {tokens : List Token} {indices : List Nat} {length : Nat} {u : Unit}
    (ran : Step.Returns (Buffers.update tokens indices length) before u after) :
    after.frame = before.frame := by
  obtain ⟨-, -, -, placed, cached, positions, cache, rfl⟩ := Buffers.update_returns ran
  have same := (Buffers.onCache_returns LayerCache.advanceSlot_names cache).2.1
  exact same.trans (Buffers.onPositions_returns positions).2.1

/-- Positions and mask of a view that goes on with generated tokens. Mask and counts stay with
their rows, so every row must have the mask of the row that it descends from. -/
theorem Remembers.counted {view : View} {new length : Nat} {old positions : Positions}
    (remembers : reading.Remembers seen before) (placed : before.positions = some old)
    (rectangular : Rectangular rows width seen) (some : 0 < rows)
    (sized : view.Sized rows width new)
    (masks : reading.maskRows view.past = reading.maskRows seen)
    (grown : reading.request.promptLength ≤ width)
    (ran : Step.Returns (Positions.update new length) old () positions) :
    width + new = length ∧ positions.ids = reading.positionRows view ∧
      positions.mask = reading.maskRows view.seen ∧
      positions.next = (reading.maskRows view.seen).map List.sum := by
  obtain ⟨fits, rfl⟩ := Positions.update_returns ran
  rw [remembers.mask old placed, width_maskRows rectangular some] at fits
  refine ⟨fits, ?_, ?_, ?_⟩
  · rw [remembers.next old placed, positionRows_seen sized grown, masks]
    simp
  · rw [remembers.mask old placed, maskRows_seen sized grown, masks]
  · rw [remembers.next old placed, maskRows_seen sized grown, masks]
    simp

theorem Remembers.advanced {indices : List Nat} {cache : LayerCache} {old slot : CacheSlot}
    (remembers : reading.Remembers seen before) (kept : before.cache = some cache)
    (member : old ∈ cache.slots)
    (ran : Step.Returns (LayerCache.advanceSlot indices) old () slot) :
    slot.present = none ∧ (slot.pastName ∉ reading.decoder.inputs.placed →
      reading.Recorded slot.pastName (inherited indices seen) slot.past) := by
  obtain ⟨tensor, present, chosen, pastName, -, gone⟩ := LayerCache.advanceSlot_returns ran
  refine ⟨gone, fun free => ?_⟩
  have recorded := remembers.presents cache kept old member (pastName ▸ free) tensor present
  unfold inherited
  split at chosen
  case isTrue stays =>
    rw [if_pos stays, chosen, pastName]
    exact recorded
  case isFalse moves =>
    rw [if_neg moves, pastName]
    exact recorded.selectRows chosen

theorem Remembers.update {tokens : List Token} {indices : List Nat} {length : Nat} {u : Unit}
    (remembers : reading.Remembers seen before) (counted : before.rows = rows)
    (rectangular : Rectangular rows width seen)
    (moved : Rectangular rows width (inherited indices seen))
    (masks : reading.maskRows (inherited indices seen) = reading.maskRows seen)
    (grown : reading.request.promptLength ≤ width)
    (ran : Step.Returns (Buffers.update tokens indices length) before u after) :
    reading.Holds ⟨inherited indices seen, Tensor.blocks (tokens.length / rows) rows tokens⟩
        after ∧
      after.scores = none ∧
      ∀ positions, before.positions = some positions → width + tokens.length / rows = length := by
  subst counted
  obtain ⟨some, feeds, total, placed, cached, placing, caching, rfl⟩ := Buffers.update_returns ran
  obtain ⟨placedEq, -, counts⟩ := Buffers.onPositions_returns placing
  obtain ⟨cachedEq, -, slots⟩ := Buffers.onCache_returns LayerCache.advanceSlot_names caching
  have sized : View.Sized before.rows width (tokens.length / before.rows)
      ⟨inherited indices seen, Tensor.blocks (tokens.length / before.rows) before.rows tokens⟩ :=
    ⟨moved, Tensor.rectangular_blocks total⟩
  -- the cache changes after the positions, and leaves them alone
  have counted : ∀ positions, cached.positions = Option.some positions →
      ∃ old, before.positions = Option.some old ∧
        Step.Returns (Positions.update (tokens.length / before.rows) length) old () positions := by
    intro positions given
    rw [cachedEq] at given
    exact counts positions given
  have advanced : ∀ cache, cached.cache = Option.some cache → ∀ slot ∈ cache.slots,
      slot.present = none ∧ (slot.pastName ∉ reading.decoder.inputs.placed →
        reading.Recorded slot.pastName (inherited indices seen) slot.past) := by
    intro kept given slot inside
    obtain ⟨earlier, here, each⟩ := slots kept given
    obtain ⟨old, there, passed⟩ := each slot inside
    rw [placedEq] at here
    exact remembers.advanced here there passed
  refine ⟨⟨⟨?_, ?_, ?_⟩, ?_, ?_, ?_, by simp⟩, rfl, ?_⟩
  · intro positions given
    obtain ⟨old, here, passed⟩ := counted positions given
    exact (remembers.counted here rectangular some sized masks grown passed).2.2.1
  · intro positions given
    obtain ⟨old, here, passed⟩ := counted positions given
    exact (remembers.counted here rectangular some sized masks grown passed).2.2.2
  · intro cache given slot inside free tensor present
    rw [(advanced cache given slot inside).1] at present
    exact absurd present (by simp)
  · rw [cachedEq, placedEq]
  · intro positions given
    obtain ⟨old, here, passed⟩ := counted positions given
    exact (remembers.counted here rectangular some sized masks grown passed).2.1
  · exact fun cache given slot inside free => (advanced cache given slot inside).2 free
  · intro positions given
    rcases Step.returns_withinOption.mp placing with ⟨absent, -⟩ | ⟨old, next, here, passed, -⟩
    · exact absurd (absent.symm.trans given) (by simp)
    · exact (remembers.counted here rectangular some sized masks grown passed).1

theorem sum_maskRow_take {pad length count width : Nat} {row : List Token}
    (long : row.length = width) (grown : length + count ≤ width) :
    ((Positions.maskRow pad length row).take (width - count)).sum =
      (Positions.maskRow pad length row).sum - count := by
  have enough : length ≤ (row.take (width - count)).length := by
    rw [List.length_take]
    omega
  have cut : Positions.maskRow pad length (row.take (width - count) ++ row.drop (width - count)) =
      _ :=
    Positions.maskRow_append enough
  rw [List.take_append_drop, Positions.maskRow_take] at cut
  have total := congrArg List.sum cut
  simp only [List.sum_append, List.length_drop, long, List.sum_replicate_nat,
    Nat.mul_one] at total
  omega

theorem Remembers.trimmed {count : Nat} {cache : LayerCache} {old slot : CacheSlot}
    (remembers : reading.Remembers seen before) (rectangular : Rectangular rows width seen)
    (filled : 0 < rows) (kept : before.cache = some cache) (member : old ∈ cache.slots)
    (ran : Step.Returns (LayerCache.trimSlot count) old () slot)
    (free : slot.pastName ∉ reading.decoder.inputs.placed) {tensor : Tensor}
    (present : slot.present = some tensor) :
    reading.Recorded slot.pastName (seen.map (·.take (width - count))) tensor := by
  obtain ⟨whole, length, kept', present', extent, -, narrowed, rfl⟩ :=
    LayerCache.trimSlot_returns ran
  obtain rfl := Option.some.inj present
  have recorded := remembers.presents cache kept old member free whole present'
  -- the cut is measured on the tensor, which is as long as the histories that it records
  have same : length = width := by
    obtain ⟨width', wide, shape⟩ := recorded.shape
    obtain ⟨row, inside⟩ := List.exists_mem_of_length_pos (rectangular.count.symm ▸ filled)
    have axis : whole.extent 2 = .ok width' := by simp [Tensor.extent, shape]
    rw [← Except.ok.inj (axis.symm.trans extent), ← wide row inside,
      rectangular.width row inside]
  exact same ▸ recorded.narrow narrowed

theorem Remembers.rollback {count : Nat} {u : Unit} (remembers : reading.Remembers seen before)
    (rectangular : Rectangular rows width seen) (some : 0 < rows)
    (grown : reading.request.promptLength + count ≤ width)
    (ran : Step.Returns (Buffers.rollback count) before u after) :
    after.frame = before.frame ∧
      reading.Remembers (seen.map (·.take (width - count))) after := by
  rw [Buffers.rollback, Step.returns_bind] at ran
  obtain ⟨_, placed, placing, caching⟩ := ran
  obtain ⟨placedEq, placedFrame, counts⟩ := Buffers.onPositions_returns placing
  obtain ⟨cachedEq, cachedFrame, slots⟩ :=
    Buffers.onCache_returns LayerCache.trimSlot_names caching
  have counted : ∀ positions, after.positions = Option.some positions →
      ∃ old, before.positions = Option.some old ∧
        Step.Returns (Positions.rollback count) old () positions := by
    intro positions given
    rw [cachedEq] at given
    exact counts positions given
  -- masks are cut where the rows are
  have masks : reading.maskRows (seen.map (·.take (width - count))) =
      (reading.maskRows seen).map (·.take (width - count)) := by
    simp [maskRows, Positions.maskRow_take]
  refine ⟨cachedFrame.trans placedFrame, ?_, ?_, ?_⟩
  · intro positions given
    obtain ⟨old, placed, passed⟩ := counted positions given
    rw [Positions.rollback_returns passed, remembers.mask old placed,
      width_maskRows rectangular some, masks]
  · intro positions given
    obtain ⟨old, placed, passed⟩ := counted positions given
    rw [Positions.rollback_returns passed, remembers.next old placed, masks]
    simp only [maskRows, List.map_map]
    apply List.map_congr_left
    intro row inside
    exact (sum_maskRow_take (rectangular.width row inside) grown).symm
  · intro cache given slot inside free tensor present
    obtain ⟨earlier, here, each⟩ := slots cache given
    obtain ⟨old, there, passed⟩ := each slot inside
    rw [placedEq] at here
    exact remembers.trimmed rectangular some here there passed free present

end Reading

end StagedDecoding
