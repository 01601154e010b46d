import StagedDecoding.Proofs.Growth
import StagedDecoding.Proofs.Omissions
import StagedDecoding.Proofs.Rounds
import StagedDecoding.Proofs.Writers

/-! Tokens that are taken back.

To roll back by the last tokens of a step is to have fed only the ones before. Masks, counts and
presents come out the same, for every token was written from what stood before it. From there
everything goes on as if no other token had been fed, except that rows cannot be picked from
presents that were cut.
-/

set_option autoImplicit false

namespace StagedDecoding

def beside {α : Type} (kept dropped : List (List α)) : List (List α) :=
  List.zipWith (· ++ ·) kept dropped

theorem Rectangular.beside {α : Type} {rows new more : Nat} {kept dropped : List (List α)}
    (keeps : Rectangular rows new kept) (drops : Rectangular rows more dropped) :
    Rectangular rows (new + more) (StagedDecoding.beside kept dropped) where
  count := by simp [StagedDecoding.beside, keeps.count, drops.count]
  width := by
    intro row member
    obtain ⟨i, bound, rfl⟩ := List.mem_iff_getElem.mp member
    simp [StagedDecoding.beside, keeps.width, drops.width]

theorem Rectangular.take_beside {α : Type} {rows new more count : Nat} {kept dropped : List (List α)}
    (keeps : Rectangular rows new kept) (drops : Rectangular rows more dropped)
    (short : count ≤ new) :
    (StagedDecoding.beside kept dropped).map (·.take count) = kept.map (·.take count) := by
  unfold StagedDecoding.beside
  refine List.ext_getElem (by simp [keeps.count, drops.count]) fun i here there => ?_
  have inside : i < kept.length := by simpa using there
  rw [List.getElem_map, List.getElem_map, List.getElem_zipWith,
    List.take_append_of_le_length (by rwa [keeps.width _ (List.getElem_mem inside)])]

theorem Rectangular.length_flatten {α : Type} {rows width : Nat} {own : List (List α)}
    (even : Rectangular rows width own) : own.flatten.length = rows * width := by
  rw [Tensor.length_flatten even.width, even.count]

namespace Positions

variable {rows new count length : Nat} {p next : Positions}

structure Level (rows : Nat) (p : Positions) : Prop where
  some : 0 < rows
  masks : Rectangular rows (width p.mask) p.mask
  counts : p.next.length = rows

theorem Level.lined (level : p.Level rows) : p.Lined (width p.mask) := by
  have some := level.some
  refine ⟨fun none => ?_, fun none => ?_, rfl⟩
  · have count := level.masks.count
    rw [none, List.length_nil] at count
    omega
  · have count := level.counts
    rw [none, List.length_nil] at count
    omega

theorem Level.of_map {change : List Nat → List Nat} (level : p.Level rows) (widen : Nat → Nat)
    (sized : ∀ row, (change row).length = widen row.length) (mask : next.mask = p.mask.map change)
    (counts : next.next.length = p.next.length) : next.Level rows := by
  have wide : width next.mask = widen (width p.mask) := by
    rw [mask, width_map level.lined.mask, sized]
    rfl
  refine ⟨level.some, ⟨?_, ?_⟩, counts.trans level.counts⟩
  · rw [mask, List.length_map, level.masks.count]
  · rw [wide, mask, List.forall_mem_map]
    intro row member
    rw [sized, level.masks.width row member]

theorem Level.update (level : p.Level rows)
    (ran : Step.Returns (Positions.update new length) p () next) : next.Level rows := by
  obtain ⟨-, rfl⟩ := update_returns ran
  exact level.of_map (· + new) (by simp) rfl (by simp)

theorem Level.rollback (level : p.Level rows)
    (ran : Step.Returns (Positions.rollback count) p () next) : next.Level rows := by
  obtain rfl := rollback_returns ran
  exact level.of_map (min (width p.mask - count)) (by simp) rfl (by simp)

theorem level_ofPrompt {tokens : List Token} {pad : Token}
    (created : ofPrompt tokens rows pad = .ok p) : p.Level rows := by
  obtain ⟨some, rectangular, grown⟩ := grown_ofPrompt created
  have lined := grown.lined rectangular some
  have counted : p.mask.length = rows := by rw [grown.mask, List.length_map, rectangular.count]
  refine ⟨some, ⟨counted, ?_⟩, by rw [grown.next, List.length_map, counted]⟩
  rw [lined.wide, grown.mask, List.forall_mem_map]
  intro row member
  simp [maskOf, rectangular.width row member]

theorem Level.retract {both : Positions} {more wide : Nat} (level : p.Level rows)
    (ranBoth : Step.Returns (Positions.update (new + more) wide) p () both)
    (ran : Step.Returns (Positions.update new length) p () next) :
    ∃ back, Step.Returns (Positions.rollback more) both () back ∧ back.Agree next := by
  have enough := (level.lined.update ranBoth).2.2
  obtain ⟨-, lined, -⟩ := level.lined.update ranBoth
  obtain ⟨fits, rfl⟩ := update_returns ranBoth
  obtain ⟨-, rfl⟩ := update_returns ran
  have short : more ≤ wide := by omega
  obtain ⟨back, ranBack, -⟩ := lined.rollback_total short
    fun start member => Nat.le_trans (Nat.le_add_left _ _) (enough start member)
  refine ⟨back, ranBack, ?_⟩
  obtain rfl := rollback_returns ranBack
  refine ⟨?_, ?_⟩
  · have wide' := lined.wide
    dsimp only at wide' ⊢
    rw [wide', List.map_map, ← fits]
    refine List.map_congr_left fun row member => ?_
    -- of the ones for the tokens, as many are left as one update would have written
    have kept : width p.mask + (new + more) - more = row.length + new := by
      rw [level.masks.width row member]
      omega
    rw [Function.comp_apply, kept, List.take_length_add_append, List.take_replicate,
      Nat.min_eq_left (Nat.le_add_right _ _)]
  · simp [Function.comp_def, Nat.add_sub_assoc]

end Positions

namespace Buffers

variable {before after ready both : Buffers} {operation : Step CacheSlot Unit}
  {tokens tokens' : List Token} {indices : List Nat} {length wide new more : Nat}
  {positions : Positions} {slots : List CacheSlot} {writer : Writer}

theorem onCache_slots (ran : Step.Returns (onCache (LayerCache.onSlots operation)) before () after) :
    List.Forall₂ (fun slot next => Step.Returns operation slot () next) before.slots
      after.slots := by
  unfold Buffers.slots
  obtain ⟨absent, rfl⟩ | ⟨cache, changed, kept, passed, rfl⟩ := Step.returns_withinOption.mp ran
  · rw [absent]
    exact .nil
  · rw [kept]
    exact LayerCache.onSlots_returns.mp passed

theorem onCache_of_slots
    (each : List.Forall₂ (fun slot next => Step.Returns operation slot () next) before.slots slots) :
    ∃ after, Step.Returns (onCache (LayerCache.onSlots operation)) before () after ∧
      after.slots = slots := by
  unfold Buffers.slots at each
  cases kept : before.cache with
  | none =>
    rw [kept] at each
    cases each
    exact ⟨before, Step.returns_withinOption.mpr (.inl ⟨kept, rfl⟩), by simp [Buffers.slots, kept]⟩
  | some cache =>
    rw [kept] at each
    exact ⟨_, Step.returns_withinOption.mpr (.inr ⟨cache, ⟨slots⟩, kept,
      LayerCache.onSlots_returns.mpr each, rfl⟩), rfl⟩

/-- What an update leaves: the new tokens in rows, their positions, and for pasts the presents. -/
structure Updated (new length : Nat) (tokens : List Token) (indices : List Nat)
    (before ready : Buffers) : Prop where
  framed : ready.frame = before.frame
  ids : ready.inputIds = Tensor.blocks new before.rows tokens
  placed : ∀ positions, before.positions = some positions → ∃ next, ready.positions = some next ∧
    Step.Returns (Positions.update new length) positions () next
  cached : List.Forall₂ (fun slot next => Step.Returns (LayerCache.advanceSlot indices) slot () next)
    before.slots ready.slots

theorem updated (ran : Step.Returns (update tokens indices length) before () ready) :
    0 < tokens.length / before.rows ∧
      tokens.length = before.rows * (tokens.length / before.rows) ∧
      Updated (tokens.length / before.rows) length tokens indices before ready := by
  have framed := Reading.frame_of_update ran
  obtain ⟨-, feeds, whole, placed, cached, placing, caching, rfl⟩ := update_returns ran
  obtain ⟨placedEq, -, -⟩ := onPositions_returns placing
  obtain ⟨cachedEq, -, -⟩ := onCache_returns LayerCache.advanceSlot_names caching
  refine ⟨feeds, whole, framed, ?_, fun positions given => ?_, ?_⟩
  · change cached.inputIds = _
    rw [cachedEq, placedEq]
  · change ∃ next, cached.positions = some next ∧ _
    rw [cachedEq]
    obtain ⟨absent, -⟩ | ⟨old, next, there, passed, rfl⟩ := Step.returns_withinOption.mp placing
    · cases absent.symm.trans given
    · obtain rfl := Option.some.inj (there.symm.trans given)
      exact ⟨next, rfl, passed⟩
  · have slots : placed.slots = before.slots := by
      rw [placedEq]
      rfl
    have advanced : List.Forall₂ _ placed.slots cached.slots := onCache_slots caching
    exact slots ▸ advanced

structure Pickable (indices : List Nat) (buffers : Buffers) : Prop where
  packed : indices = [] ∨ buffers.Packed
  within : ∀ slot ∈ buffers.slots, ∀ tensor, slot.present = some tensor →
    ∀ i ∈ indices, i < tensor.shape.headD 0

def Solid (buffers : Buffers) : Prop :=
  ∀ slot ∈ buffers.slots, ∀ tensor, slot.present = some tensor →
    ∃ rows heads length size, tensor.Laid rows heads length size

theorem update_possible (level : positions.Level before.rows)
    (placed : before.positions = some positions) (full : before.Full) (solid : before.Solid)
    (pickable : before.Pickable indices) (count : tokens.length = before.rows * new)
    (feeds : 0 < new) :
    ∃ ready, Step.Returns (update tokens indices (Positions.width positions.mask + new)) before ()
      ready := by
  have new' : tokens.length / before.rows = new := by
    rw [count, Nat.mul_div_cancel_left _ level.some]
  have advanced : ∀ slot ∈ before.slots,
      ∃ next, Step.Returns (LayerCache.advanceSlot indices) slot () next := by
    intro slot member
    obtain ⟨tensor, given⟩ := Option.isSome_iff_exists.mp (full slot member)
    obtain ⟨rows, _, _, _, laid⟩ := solid slot member tensor given
    have inside : ∀ i ∈ indices, i < rows := by
      have within := pickable.within slot member tensor given
      rwa [laid.shape] at within
    refine (LayerCache.advanceSlot_laid given laid inside).1.mpr ?_
    exact pickable.packed.imp_right fun packed => packed slot member tensor given
  obtain ⟨moved, placing⟩ := @onPositions_total { before with
      inputIds := Tensor.blocks new before.rows tokens }
    (Positions.update new (Positions.width positions.mask + new)) fun own given => by
      obtain rfl := Option.some.inj (placed.symm.trans given)
      exact level.lined.update_total new
  obtain ⟨movedEq, -, -⟩ := onPositions_returns placing
  -- positions are moved first, which leaves the slots alone
  have slots : moved.slots = before.slots := by
    rw [movedEq]
    rfl
  obtain ⟨cached, caching, -⟩ := @onCache_total moved (fun _ => True)
    (LayerCache.advanceSlot indices)
    fun slot member => (advanced slot (slots ▸ member)).imp fun _ passed => ⟨passed, trivial⟩
  refine ⟨_, update_returns_iff.mpr ⟨level.some, new' ▸ feeds, by rw [new', count], moved, cached,
    ?_, caching, rfl⟩⟩
  rw [new']
  exact placing

section

variable {kept dropped : List (List Token)} {narrow : Buffers} (level : positions.Level before.rows)
  (placed : before.positions = some positions)

include level placed

/-- Up to one of its tokens, what an update shows depends on nothing behind. -/
theorem Updated.glimpse {rows : List (List Token)} {count : Nat}
    (updated : Updated new length rows.flatten indices before ready)
    (even : Rectangular before.rows new rows) (short : count ≤ new) :
    Positions.width ready.inputIds = new ∧ ready.glimpse count = {
      ids := rows.map (·.take count)
      positionIds := positions.next.map fun start => (List.range count).map (start + ·)
      mask := positions.mask.map (· ++ List.replicate count 1)
      pasts := ready.slots.map (·.past.contents) } := by
  have ids : ready.inputIds = rows := by
    rw [updated.ids, ← even.count, Tensor.blocks_flatten even.width]
  have width : Positions.width ready.inputIds = new := by
    obtain ⟨row, member⟩ := List.exists_mem_of_length_pos (even.count.symm ▸ level.some)
    rw [ids, even.width_eq member]
  obtain ⟨next, moved, ran⟩ := updated.placed positions placed
  obtain ⟨-, rfl⟩ := Positions.update_returns ran
  refine ⟨width, ?_⟩
  unfold Buffers.glimpse
  rw [width, ids, moved]
  simp only [Option.map_some, Option.getD_some, List.map_map, Glimpse.mk.injEq, true_and, and_true]
  constructor
  · refine List.map_congr_left fun start _ => ?_
    rw [Function.comp_apply, ← List.map_take, List.take_range, Nat.min_eq_left short]
  · refine List.map_congr_left fun row _ => ?_
    have cut : row.length + new - (new - count) = row.length + count := by omega
    rw [Function.comp_apply, List.length_append, List.length_replicate, cut,
      List.take_length_add_append, List.take_replicate, Nat.min_eq_left short]

variable (keeps : Rectangular before.rows new kept) (drops : Rectangular before.rows more dropped)
  (updatedBoth : Updated (new + more) wide (beside kept dropped).flatten indices
    before both)
  (updated : Updated new length kept.flatten indices before ready)

include keeps drops updatedBoth updated

theorem Updated.front (writer : Writer) : both.slots = ready.slots ∧
    Positions.width both.inputIds = new + more ∧ Positions.width ready.inputIds = new ∧
    ∀ name row head,
      (both.cells writer name row head).take new = ready.cells writer name row head := by
  have slots : both.slots = ready.slots := by
    rw [← List.forall₂_eq_eq_eq]
    refine forall₂_across ?_ updatedBoth.cached updated.cached
    exact fun _ _ _ first second => (Step.returns_unique first second).2
  have evenBoth := keeps.beside drops
  obtain ⟨wideBoth, -⟩ := updatedBoth.glimpse level placed evenBoth (Nat.zero_le _)
  obtain ⟨wide, -⟩ := updated.glimpse level placed keeps (Nat.zero_le _)
  refine ⟨slots, wideBoth, wide, fun name row head => ?_⟩
  unfold Buffers.cells
  rw [wideBoth, wide, ← List.map_take, List.take_range, Nat.min_eq_left (Nat.le_add_right _ _)]
  refine List.map_congr_left fun i member => ?_
  have short : i + 1 ≤ new := List.mem_range.mp member
  rw [(updatedBoth.glimpse level placed evenBoth (by omega)).2,
    (updated.glimpse level placed keeps short).2, keeps.take_beside drops short, slots]

/-- What is left of a step when the last tokens are taken back, is what a step on the others
leaves. -/
theorem Updated.retract (steppedBoth : both.Stepped writer after)
    (stepped : ready.Stepped writer narrow) :
    ∃ back, Step.Returns (rollback more) after () back ∧ back.Alike narrow := by
  obtain ⟨slots, wideBoth, slim, front⟩ :=
    updatedBoth.front level placed keeps drops updated writer
  -- both presents continue one past, and only the longer of them has what is cut off
  have cut : List.Forall₂ (fun slot slot' => ∃ next,
      Step.Returns (LayerCache.trimSlot more) slot () next ∧ slot'.Agree next)
      after.slots narrow.slots := by
    have writtenBoth := steppedBoth.written
    rw [Buffers.Written, slots] at writtenBoth
    refine forall₂_across ?_ writtenBoth stepped.written
    rintro slot next next' ⟨present, given, continues⟩ ⟨present', given', continues'⟩
    rw [Continues, wideBoth] at continues
    rw [Continues, slim] at continues'
    obtain ⟨length, kept, extent, fits, narrowed, same⟩ :=
      continues.cut continues' (front slot.presentName)
    exact ⟨_, LayerCache.trimSlot_given given extent fits narrowed, by
      rw [CacheSlot.Agree, given', Option.map_some, Option.map_some, same]⟩
  obtain ⟨nexts, trimmed, presents⟩ := forall₂_between cut
  obtain ⟨movedBoth, placedBoth, ranBoth⟩ := updatedBoth.placed positions placed
  obtain ⟨moved, placed', ran⟩ := updated.placed positions placed
  obtain ⟨retracted, rolled, agree⟩ := level.retract ranBoth ran
  let backed : Buffers := { after with positions := some retracted }
  have placing : Step.Returns (onPositions (Positions.rollback more)) after () backed :=
    Step.returns_withinOption.mpr
      (.inr ⟨movedBoth, retracted, steppedBoth.placed.trans placedBoth, rolled, rfl⟩)
  have trimmed : List.Forall₂ _ backed.slots nexts := trimmed
  obtain ⟨back, caching, rfl⟩ := onCache_of_slots trimmed
  obtain ⟨backEq, backFrame, -⟩ := onCache_returns LayerCache.trimSlot_names caching
  obtain ⟨-, placedFrame, -⟩ := onPositions_returns placing
  have own : back.positions = some retracted := by rw [backEq]
  have other : narrow.positions = some moved := stepped.placed.trans placed'
  refine ⟨back, Step.returns_bind.mpr ⟨(), backed, placing, caching⟩, ?_, ?_, ?_,
    (map_eq_of_forall₂ presents).symm⟩
  · rw [backFrame, placedFrame, steppedBoth.framed, updatedBoth.framed, stepped.framed,
      updated.framed]
  · rw [own, other, Option.map_some, Option.map_some, agree.1]
  · rw [own, other, Option.map_some, Option.map_some, agree.2]

end

theorem updated_rows {rows : List (List Token)} (some : 0 < before.rows)
    (even : Rectangular before.rows new rows)
    (ran : Step.Returns (update rows.flatten indices length) before () ready) :
    Updated new length rows.flatten indices before ready := by
  have updated := (Buffers.updated ran).2.2
  rwa [even.length_flatten, Nat.mul_div_cancel_left _ some] at updated

theorem packed_of_update (ran : Step.Returns (update tokens indices length) before () after) :
    indices = [] ∨ before.Packed := by
  obtain ⟨-, -, updated⟩ := Buffers.updated ran
  refine or_iff_not_imp_left.mpr fun some => ?_
  refine forall_of_forall₂ updated.cached.flip fun next _ slot passed tensor given => ?_
  obtain ⟨tensor', given', taken, -⟩ := LayerCache.advanceSlot_returns passed
  obtain rfl := Option.some.inj (given'.symm.trans given)
  rw [if_neg (by simpa using some), Tensor.selectRows] at taken
  split at taken
  · cases taken
  · split at taken
    · assumption
    · cases taken

/-- Whatever one of two buffers can be updated with, so can the other, exactly if no rows are picked
or its storage has no gaps. Then all inputs are the same. -/
def Follows (one other : Buffers) : Prop :=
  ∀ tokens indices length after, Step.Returns (update tokens indices length) one () after →
    ((∃ after', Step.Returns (update tokens indices length) other () after') ↔
      indices = [] ∨ other.Packed) ∧
    ∀ after', Step.Returns (update tokens indices length) other () after' → ∀ name,
      (after.input name).map Tensor.contents = (after'.input name).map Tensor.contents

theorem Alike.follows (alike : before.Alike both) : before.Follows both := by
  intro tokens indices length after ran
  refine ⟨⟨fun ⟨_, ran'⟩ => packed_of_update ran', fun movable => ?_⟩, fun after' ran' => ?_⟩
  · obtain ⟨after', ran', -⟩ := alike.update movable ran
    exact ⟨after', ran'⟩
  · obtain ⟨_, ran'', shows⟩ := alike.update (packed_of_update ran') ran
    obtain ⟨-, rfl⟩ := Step.returns_unique ran'' ran'
    exact shows.input

theorem Alike.symm (alike : before.Alike both) : both.Alike before :=
  ⟨alike.framed.symm, alike.mask.symm, alike.next.symm, alike.presents.symm⟩

end Buffers

end StagedDecoding
