import StagedDecoding.Proofs.Asking
import StagedDecoding.Proofs.Remembering

/-! Buffers that never refuse a step.

Before a step every slot has a past over all rows, and after it a present. If presents go on where
the pasts end, this suffices for the next step: the presents can be trimmed, and moved to other rows
unless their storage has gaps. Nothing is said here of what the tensors hold.
-/

set_option autoImplicit false

namespace StagedDecoding

namespace Tensor

variable {t : Tensor}

theorem convert_length (t : Tensor) (type : ElementType) :
    (t.convert type).values.length = t.values.length := by
  unfold convert
  split
  · rfl
  · simp [packed]

theorem selectRows_total {rows : Nat} {rest indices : List Nat} (shape : t.shape = rows :: rest)
    (gapless : t.isPacked = true) (inside : ∀ i ∈ indices, i < rows) :
    ∃ chosen, t.selectRows indices = .ok chosen ∧ chosen.shape = indices.length :: rest :=
  ⟨_, (selectRows_eq_ok shape).mpr ⟨gapless, inside, rfl⟩, rfl⟩

theorem narrow_total {rows heads length size : Nat} (count : Nat)
    (shape : t.shape = [rows, heads, length, size]) :
    ∃ kept, t.narrow 2 0 (length - count) = .ok kept ∧
      kept.shape = [rows, heads, length - count, size] := by
  refine ⟨_, (narrow_eq_ok shape).mpr ⟨Nat.sub_le length count, rfl⟩, ?_⟩
  split
  case isTrue whole => rw [← whole, shape]
  case isFalse => rfl

end Tensor

def CacheSlot.HasPast (rows : Nat) (slot : CacheSlot) : Prop :=
  ∃ heads length size, slot.past.shape = [rows, heads, length, size]

/-- The present of a slot is a tensor over some rows with at least so many positions, and without
gaps if its rows are to move. -/
def CacheSlot.HasPresent (rows fed : Nat) (moves : Prop) (slot : CacheSlot) : Prop :=
  ∃ present heads length size, slot.present = some present ∧
    present.shape = [rows, heads, length, size] ∧ fed ≤ length ∧
    (moves → present.isPacked = true)

namespace LayerCache

variable {rows fed count : Nat} {moves : Prop} {indices : List Nat} {slot next : CacheSlot}

theorem advanceSlot_given (indices : List Nat) {tensor : Tensor}
    (given : slot.present = some tensor) :
    @Eq (Except Failure Unit × CacheSlot) (advanceSlot indices slot)
      (match (if indices.isEmpty then .ok tensor else tensorStep (tensor.selectRows indices)) with
      | .error failure => (.error failure, { slot with present := none })
      | .ok past => (.ok (), { slot with past := past, present := none })) := by
  obtain ⟨pastName, presentName, past, _⟩ := slot
  subst given
  cases indices with
  | nil => rfl
  | cons i rest =>
    have chosen : ∀ result : Except Failure Tensor,
        @Eq (Except Failure Unit × CacheSlot)
          ((liftM result >>= fun past => set (CacheSlot.mk pastName presentName past none) :
            Step CacheSlot Unit) ⟨pastName, presentName, past, none⟩)
          (match result with
          | .error failure => (.error failure, ⟨pastName, presentName, past, none⟩)
          | .ok past => (.ok (), ⟨pastName, presentName, past, none⟩)) := by
      intro result
      cases result <;> rfl
    exact chosen _

theorem advanceSlot_total (has : slot.HasPresent rows fed moves)
    (chosen : indices = [] ∨ moves ∧ indices.length = rows ∧ ∀ i ∈ indices, i < rows) :
    ∃ next, Step.Returns (advanceSlot indices) slot () next ∧ next.HasPast rows := by
  obtain ⟨present, heads, length, size, given, shape, -, gapless⟩ := has
  -- without indices the present stays as it is, otherwise its rows are chosen
  obtain ⟨past, taken, shaped⟩ : ∃ past,
      (if indices.isEmpty then .ok present else tensorStep (present.selectRows indices)) =
        Except.ok (ε := Failure) past ∧ past.shape = [rows, heads, length, size] := by
    rcases chosen with rfl | ⟨moves, counted, inside⟩
    · exact ⟨present, rfl, shape⟩
    · obtain ⟨past, selected, shaped⟩ := Tensor.selectRows_total shape (gapless moves) inside
      cases indices with
      | nil => exact ⟨present, rfl, shape⟩
      | cons i others =>
        exact ⟨past, Outcome.tensorStep_eq_ok.mpr selected, by rw [shaped, counted]⟩
  refine ⟨{ slot with past := past, present := none }, ?_, heads, length, size, shaped⟩
  rw [Step.Returns, advanceSlot_given indices given, taken]

theorem advanceSlot_past (has : slot.HasPresent rows fed moves)
    (counted : indices = [] ∨ indices.length = rows)
    (ran : Step.Returns (advanceSlot indices) slot () next) : next.HasPast rows := by
  obtain ⟨present, heads, length, size, given, shape, -, -⟩ := has
  obtain ⟨tensor, found, taken, -⟩ := advanceSlot_returns ran
  obtain rfl := Option.some.inj (given.symm.trans found)
  split at taken
  case isTrue => exact ⟨heads, length, size, taken ▸ shape⟩
  case isFalse moved =>
    refine ⟨heads, length, size, ?_⟩
    have rows' : indices.length = rows := counted.resolve_left (by simpa using moved)
    obtain ⟨-, -, same⟩ := (Tensor.selectRows_eq_ok shape).mp taken
    rw [same, ← rows']
    rfl

theorem trimSlot_given {tensor kept : Tensor} {length : Nat} (given : slot.present = some tensor)
    (extent : tensor.extent 2 = .ok length) (fits : count ≤ length)
    (narrowed : tensor.narrow 2 0 (length - count) = .ok kept) :
    Step.Returns (trimSlot count) slot () { slot with present := some kept } := by
  rw [trimSlot, Step.returns_attempt]
  simp only [given, Outcome.bind_eq_ok, Outcome.tensorStep_eq_ok, Outcome.throw_bind,
    Outcome.guard_eq_ok, Outcome.pure_eq_ok]
  exact ⟨length, extent, Nat.not_lt.mpr fits, kept, narrowed, rfl⟩

theorem trimSlot_total (has : slot.HasPresent rows fed moves) (fits : count ≤ fed)
    (fixed : ¬ moves) :
    ∃ next, Step.Returns (trimSlot count) slot () next ∧ next.HasPresent rows 0 moves := by
  obtain ⟨present, heads, length, size, given, shape, long, -⟩ := has
  have axis : present.extent 2 = .ok length := by simp [Tensor.extent, shape]
  have short := Nat.le_trans fits long
  obtain ⟨kept, narrowed, shaped⟩ := Tensor.narrow_total count shape
  exact ⟨_, trimSlot_given given axis short narrowed, kept, heads, _, size, rfl, shaped,
    Nat.zero_le _, fun moved => absurd moved fixed⟩

end LayerCache

namespace Positions

structure Lined (columns : Nat) (p : Positions) : Prop where
  mask : p.mask ≠ []
  next : p.next ≠ []
  wide : width p.mask = columns

variable {p : Positions} {columns count : Nat}

theorem width_map {rows : List (List Nat)} (some : rows ≠ []) (f : List Nat → List Nat) :
    width (rows.map f) = (f (rows.headD [])).length := by
  cases rows with
  | nil => exact absurd rfl some
  | cons row rest => rfl

theorem Lined.update_total (lined : p.Lined columns) (new : Nat) :
    ∃ p', Step.Returns (update new (columns + new)) p () p' :=
  ⟨_, update_returns_iff.mpr ⟨by rw [lined.wide], rfl⟩⟩

theorem Lined.update {p' : Positions} {new length : Nat} {u : Unit} (lined : p.Lined columns)
    (ran : Step.Returns (Positions.update new length) p u p') :
    columns + new = length ∧ p'.Lined length ∧ ∀ start ∈ p'.next, new ≤ start := by
  obtain ⟨fits, rfl⟩ := update_returns ran
  rw [lined.wide] at fits
  refine ⟨fits, ⟨by simp [lined.mask], by simp [lined.next], ?_⟩, ?_⟩
  · have wide : (p.mask.headD []).length = columns := lined.wide
    rw [width_map lined.mask, List.length_append, List.length_replicate, wide, fits]
  · rw [List.forall_mem_map]
    exact fun _ _ => Nat.le_add_left _ _

theorem le_least {numbers : List Nat} (some : numbers ≠ [])
    (each : ∀ number ∈ numbers, count ≤ number) : count ≤ least numbers := by
  -- the start of the fold changes along the way
  have folded : ∀ (rest : List Nat) (start : Nat), count ≤ start →
      (∀ number ∈ rest, count ≤ number) → count ≤ rest.foldl min start := by
    intro rest
    induction rest with
    | nil => exact fun start bound _ => bound
    | cons number rest ih =>
      intro start bound all
      apply ih (min start number) (Nat.le_min.mpr ⟨bound, all number (by simp)⟩)
      exact fun other member => all other (by simp [member])
  cases numbers with
  | nil => exact absurd rfl some
  | cons first rest =>
    exact folded rest first (each first (by simp)) fun other member => each other (by simp [member])

theorem Lined.rollback {p' : Positions} {u : Unit} (lined : p.Lined columns)
    (ran : Step.Returns (Positions.rollback count) p u p') : p'.Lined (columns - count) := by
  obtain rfl := rollback_returns ran
  refine ⟨by simp [lined.mask], by simp [lined.next], ?_⟩
  have wide : (p.mask.headD []).length = columns := lined.wide
  rw [width_map lined.mask, List.length_take, wide, lined.wide]
  omega

theorem Lined.rollback_total (lined : p.Lined columns) (fits : count ≤ columns)
    (counted : ∀ start ∈ p.next, count ≤ start) :
    ∃ p', Step.Returns (Positions.rollback count) p () p' ∧ p'.Lined (columns - count) := by
  have enough := le_least lined.next counted
  have passes : ¬ (decide (width p.mask < count) || decide (least p.next < count)) = true := by
    rw [lined.wide]
    simp only [Bool.or_eq_true, decide_eq_true_eq]
    omega
  have ran : Step.Returns (Positions.rollback count) p () { p with
      mask := p.mask.map (·.take (width p.mask - count))
      next := p.next.map (· - count) } := Step.returns_attempt.mpr (if_neg passes)
  exact ⟨_, ran, lined.rollback ran⟩

end Positions

theorem LayerCache.onSlots_total {p : CacheSlot → Prop} {operation : Step CacheSlot Unit}
    {cache : LayerCache}
    (each : ∀ slot ∈ cache.slots, ∃ next, Step.Returns operation slot () next ∧ p next) :
    ∃ after, Step.Returns (onSlots operation) cache () after ∧ ∀ slot ∈ after.slots, p slot := by
  obtain ⟨slots, all, holds⟩ : ∃ slots,
      List.Forall₂ (fun slot next => Step.Returns operation slot () next) cache.slots slots ∧
        ∀ slot ∈ slots, p slot := by
    obtain ⟨slots⟩ := cache
    dsimp only at each ⊢
    induction slots with
    | nil => exact ⟨[], .nil, by simp⟩
    | cons slot rest ih =>
      obtain ⟨next, ran, here⟩ := each slot (by simp)
      obtain ⟨others, all, there⟩ := ih fun other member => each other (by simp [member])
      exact ⟨next :: others, .cons ran all, List.forall_mem_cons.mpr ⟨here, there⟩⟩
  exact ⟨⟨slots⟩, LayerCache.onSlots_returns.mpr all, holds⟩

/-- Names that no slot shares with another one, and outputs that are the scores and the presents. -/
structure Frame.Sturdy (frame : Frame) : Prop where
  some : 0 < frame.rows
  outputs : frame.outputNames = frame.scoresName :: (frame.slots.getD []).map (·.2)
  distinct : ((frame.slots.getD []).map (·.2)).Nodup

namespace Buffers

variable {buffers before after : Buffers} {moves : Prop} {fed columns count : Nat}

def slots (buffers : Buffers) : List CacheSlot :=
  (buffers.cache.map LayerCache.slots).getD []

theorem slotNames_eq_frame (buffers : Buffers) :
    buffers.slots.map (fun slot => (slot.pastName, slot.presentName)) =
      buffers.frame.slots.getD [] := by
  unfold slots frame LayerCache.slotNames
  cases buffers.cache <;> rfl

def Lined (columns : Nat) (buffers : Buffers) : Prop :=
  ∀ positions, buffers.positions = some positions → positions.Lined columns

def Counts (fed : Nat) (buffers : Buffers) : Prop :=
  ∀ positions, buffers.positions = some positions → ∀ start ∈ positions.next, fed ≤ start

structure Ready (buffers : Buffers) : Prop where
  rows : buffers.inputIds.length = buffers.rows
  feeds : 0 < Positions.width buffers.inputIds
  pasts : ∀ slot ∈ buffers.slots, slot.HasPast buffers.rows

def Supplied (fed : Nat) (moves : Prop) (buffers : Buffers) : Prop :=
  ∀ slot ∈ buffers.slots, slot.HasPresent buffers.rows fed moves

theorem onPositions_total {step : Step Positions Unit}
    (each : ∀ positions, buffers.positions = some positions →
      ∃ next, Step.Returns step positions () next) :
    ∃ after, Step.Returns (onPositions step) buffers () after := by
  cases placed : buffers.positions with
  | none => exact ⟨buffers, Step.returns_withinOption.mpr (.inl ⟨placed, rfl⟩)⟩
  | some positions =>
    obtain ⟨next, ran⟩ := each positions placed
    exact ⟨_, Step.returns_withinOption.mpr (.inr ⟨positions, next, placed, ran, rfl⟩)⟩

theorem onCache_total {p : CacheSlot → Prop} {operation : Step CacheSlot Unit}
    (each : ∀ slot ∈ buffers.slots, ∃ next, Step.Returns operation slot () next ∧ p next) :
    ∃ after, Step.Returns (onCache (LayerCache.onSlots operation)) buffers () after ∧
      ∀ slot ∈ after.slots, p slot := by
  cases kept : buffers.cache with
  | none =>
    exact ⟨buffers, Step.returns_withinOption.mpr (.inl ⟨kept, rfl⟩), by simp [slots, kept]⟩
  | some cache =>
    have own : ∀ slot ∈ cache.slots, ∃ next, Step.Returns operation slot () next ∧ p next := by
      simpa [slots, kept] using each
    obtain ⟨next, ran, all⟩ := LayerCache.onSlots_total own
    exact ⟨_, Step.returns_withinOption.mpr (.inr ⟨cache, next, kept, ran, rfl⟩), all⟩

theorem update_total {tokens : List Token} {indices : List Nat} {new : Nat}
    (some : 0 < buffers.rows) (lined : buffers.Lined columns)
    (supplied : buffers.Supplied fed moves)
    (count : tokens.length = buffers.rows * new) (feeds : 0 < new)
    (chosen : indices = [] ∨
      moves ∧ indices.length = buffers.rows ∧ ∀ i ∈ indices, i < buffers.rows) :
    ∃ after, Step.Returns (update tokens indices (columns + new)) buffers () after := by
  have new' : tokens.length / buffers.rows = new := by
    rw [count, Nat.mul_div_cancel_left _ some]
  -- positions are advanced before the cache, and touch none of its slots
  obtain ⟨placed, placing⟩ := @onPositions_total { buffers with
      inputIds := Tensor.blocks new buffers.rows tokens } (Positions.update new (columns + new))
    fun positions given => (lined positions given).update_total new
  obtain ⟨same, -, -⟩ := onPositions_returns placing
  have slots : placed.slots = buffers.slots := by rw [same]; rfl
  obtain ⟨cached, caching, -⟩ := @onCache_total placed (·.HasPast buffers.rows)
    (LayerCache.advanceSlot indices)
    fun slot member => LayerCache.advanceSlot_total (supplied slot (slots ▸ member)) chosen
  refine ⟨_, update_returns_iff.mpr ⟨some, new' ▸ feeds, by rw [new', count], placed, cached, ?_,
    caching, rfl⟩⟩
  rw [new']
  exact placing

theorem Ready.of_update {tokens : List Token} {indices : List Nat} {length : Nat} {u : Unit}
    (lined : before.Lined columns) (supplied : before.Supplied fed moves)
    (counted : indices = [] ∨ indices.length = before.rows)
    (ran : Step.Returns (update tokens indices length) before u after) :
    after.Ready ∧ Positions.width after.inputIds = tokens.length / before.rows ∧
      after.Lined length ∧ after.Counts (tokens.length / before.rows) := by
  obtain ⟨some, feeds, total, placed, cached, placing, caching, rfl⟩ := update_returns ran
  obtain ⟨placedEq, -, counts⟩ := onPositions_returns placing
  obtain ⟨cachedEq, -, slots⟩ := onCache_returns LayerCache.advanceSlot_names caching
  have ids : cached.inputIds =
      Tensor.blocks (tokens.length / before.rows) before.rows tokens := by
    rw [cachedEq, placedEq]
  have rows : cached.rows = before.rows := by rw [cachedEq, placedEq]
  have width : Positions.width cached.inputIds = tokens.length / before.rows := by
    have rectangular := Tensor.rectangular_blocks total
    obtain ⟨row, member⟩ := List.exists_mem_of_length_pos (rectangular.count.symm ▸ some)
    rw [ids, rectangular.width_eq member]
  -- the cache leaves the positions as their own update made them
  have moved : ∀ positions, cached.positions = Option.some positions →
      positions.Lined length ∧ ∀ start ∈ positions.next, tokens.length / before.rows ≤ start := by
    intro positions given
    rw [cachedEq] at given
    obtain ⟨old, here, passed⟩ := counts positions given
    exact ((lined old here).update passed).2
  refine ⟨⟨?_, ?_, ?_⟩, width, fun positions given => (moved positions given).1,
    fun positions given => (moved positions given).2⟩
  · rw [show ({ cached with scores := none } : Buffers).inputIds = cached.inputIds from rfl, ids,
      Tensor.blocks_length]
    exact rows.symm
  · exact width ▸ feeds
  · intro slot member
    change slot.HasPast cached.rows
    rw [rows]
    cases kept : cached.cache with
    | none => simp [Buffers.slots, kept] at member
    | some cache =>
      obtain ⟨earlier, here, each⟩ := slots cache kept
      obtain ⟨old, there, passed⟩ := each slot (by simpa [Buffers.slots, kept] using member)
      have given : before.cache = Option.some earlier := by rw [placedEq] at here; exact here
      have present := supplied old (by simpa [Buffers.slots, given] using there)
      exact LayerCache.advanceSlot_past present counted passed

theorem rollback_total (fixed : ¬ moves) (lined : buffers.Lined columns)
    (counts : buffers.Counts fed) (supplied : buffers.Supplied fed moves) (fits : count ≤ fed)
    (within : count ≤ columns) :
    ∃ after, Step.Returns (rollback count) buffers () after ∧ after.frame = buffers.frame ∧
      after.Lined (columns - count) ∧ after.Supplied 0 moves := by
  have back : ∀ positions, buffers.positions = some positions → ∃ next,
      Step.Returns (Positions.rollback count) positions () next ∧
        next.Lined (columns - count) := fun positions given =>
    (lined positions given).rollback_total within fun start member =>
      Nat.le_trans fits (counts positions given start member)
  -- positions go back before the cache does, and leave the slots as they are
  obtain ⟨placed, placing⟩ := onPositions_total fun positions given =>
    (back positions given).imp fun _ both => both.1
  obtain ⟨placedEq, placedFrame, moved⟩ := onPositions_returns placing
  have slots : placed.slots = buffers.slots := by rw [placedEq]; rfl
  obtain ⟨cached, caching, all⟩ := @onCache_total placed (·.HasPresent buffers.rows 0 moves)
    (LayerCache.trimSlot count)
    fun slot member => LayerCache.trimSlot_total (supplied slot (slots ▸ member)) fits fixed
  obtain ⟨cachedEq, cachedFrame, -⟩ := onCache_returns LayerCache.trimSlot_names caching
  have framed := cachedFrame.trans placedFrame
  have rows : cached.rows = buffers.rows := congrArg Frame.rows framed
  refine ⟨cached, ?_, framed, ?_, fun slot member => rows.symm ▸ all slot member⟩
  · rw [rollback, Step.returns_bind]
    exact ⟨(), placed, placing, caching⟩
  · intro positions given
    rw [cachedEq] at given
    obtain ⟨old, here, passed⟩ := moved positions given
    obtain ⟨next, ran, after⟩ := back old here
    obtain ⟨-, rfl⟩ := Step.returns_unique ran passed
    exact after

end Buffers

end StagedDecoding
