import Mathlib.Data.List.GetD
import StagedDecoding.Proofs.Blocks
import StagedDecoding.Proofs.Step
import StagedDecoding.Scores.Basic

/-! Cache tensors that record token histories.

A model writes one entry per head for every token that it is fed. What it writes is its own matter,
and may depend on the whole history up to the token; a ledger says which entries it may write. The
operations on caches only move whole entries, so that a tensor which records some histories still
does so after rows were chosen or the last positions cut off.
-/

set_option autoImplicit false

namespace StagedDecoding

namespace Tensor

variable {t kept chosen : Tensor} {rows heads length size count extent : Nat} {rest : List Nat}
  {indices : List Nat}

theorem selectRows_eq_ok (shape : t.shape = extent :: rest) :
    t.selectRows indices = .ok chosen ↔ t.isPacked = true ∧ (∀ i ∈ indices, i < extent) ∧
      chosen = packed t.type (indices.length :: rest)
        (indices.map fun i => (blocks (volume rest) extent t.values).getD i []).flatten := by
  let row (i : Nat) : List Scalar := (blocks (volume rest) extent t.values).getD i []
  simp only [selectRows, shape]
  split
  case isFalse gaps => simp [gaps]
  case isTrue gapless =>
    simp only [Outcome.bind_eq_ok, Outcome.mapM_eq_ok, Outcome.pure_eq_ok, gapless, true_and]
    constructor
    · rintro ⟨parts, found, rfl⟩
      -- a row is found exactly if its index is in range
      have each : List.Forall₂ (fun i part => i < extent ∧ row i = part) indices parts := by
        refine found.imp fun i part taken => ?_
        by_cases inside : i < extent
        · exact ⟨inside, by simpa [row, inside] using taken⟩
        · simp [inside] at taken
      rw [List.forall₂_and_left, ← List.forall₂_map_left_iff, List.forall₂_eq_eq_eq] at each
      obtain ⟨inside, rfl⟩ := each
      exact ⟨inside, rfl⟩
    · rintro ⟨inside, rfl⟩
      refine ⟨indices.map row, ?_, rfl⟩
      rw [List.forall₂_map_right_iff, List.forall₂_same]
      intro i member
      simp [row, inside i member]

theorem narrow_eq_ok (shape : t.shape = [rows, heads, length, size]) :
    t.narrow 2 0 count = .ok kept ↔ count ≤ length ∧
      kept = if length = count then t else { t with
        shape := [rows, heads, count, size]
        values := (blocks (length * size) (rows * heads) t.values).flatMap
          (·.take (count * size)) } := by
  have axis : t.extent 2 = .ok length := by simp [extent, shape]
  have inner : volume (t.shape.drop 3) = size := by simp [shape, volume]
  have outer : volume (t.shape.take 2) = rows * heads := by simp [shape, volume]
  simp only [narrow, axis, Outcome.bind_eq_ok, Except.ok.injEq, exists_eq_left',
    Outcome.throw_bind, Outcome.guard_eq_ok, inner, outer, Nat.zero_add, Nat.not_lt,
    decide_true, Bool.true_and, decide_eq_true_eq, Nat.zero_mul, List.drop_zero]
  refine and_congr_right fun _ => ?_
  split
  · rw [Outcome.pure_eq_ok, eq_comm]
  · rw [Outcome.pure_eq_ok, eq_comm, shape]
    rfl

end Tensor

/-- The entries that a model may write for the last token of a history: by the name of the cache,
the head, the history and the scalars written. -/
abbrev Ledger := String → Nat → List Token → List Scalar → Prop

inductive Lane (entry : List Token → List Scalar → Prop) (size : Nat) :
    List Token → List Scalar → Prop where
  | empty : Lane entry size [] []
  | extend {history : List Token} {token : Token} {scalars cell : List Scalar} :
      Lane entry size history scalars → cell.length = size → entry (history ++ [token]) cell →
      Lane entry size (history ++ [token]) (scalars ++ cell)

namespace Lane

variable {entry : List Token → List Scalar → Prop} {size : Nat} {history : List Token}
  {scalars : List Scalar}

theorem length_eq (lane : Lane entry size history scalars) :
    scalars.length = history.length * size := by
  induction lane with
  | empty => simp
  | extend _ sized _ ih => simp [ih, sized, Nat.add_mul]

theorem take (lane : Lane entry size history scalars) {count : Nat}
    (bound : count ≤ history.length) :
    Lane entry size (history.take count) (scalars.take (count * size)) := by
  induction lane with
  | empty => simpa using Lane.empty
  | @extend history token scalars cell lane sized written ih =>
    rw [List.length_append, List.length_singleton] at bound
    have filled := lane.length_eq
    rcases Nat.lt_or_ge history.length count with past | within
    · obtain rfl : count = history.length + 1 := by omega
      have whole : (scalars ++ cell).length ≤ (history.length + 1) * size := by
        simp [filled, sized, Nat.add_mul]
      rw [List.take_of_length_le (by simp), List.take_of_length_le whole]
      exact lane.extend sized written
    · rw [List.take_append_of_le_length within, List.take_append_of_le_length (by
        rw [filled]; exact Nat.mul_le_mul_right size within)]
      exact ih within

end Lane

def RowLanes (entry : Nat → List Token → List Scalar → Prop) (heads size : Nat)
    (history : List Token) (lanes : List (List Scalar)) : Prop :=
  List.Forall₂ (fun head lane => Lane (entry head) size history lane) (List.range heads) lanes

/-- A tensor of rows, heads, positions and features that records one history per row. -/
structure Records (entry : Nat → List Token → List Scalar → Prop) (heads size : Nat)
    (histories : List (List Token)) (tensor : Tensor) : Prop where
  shape : ∃ width, (∀ history ∈ histories, history.length = width) ∧
    tensor.shape = [histories.length, heads, width, size]
  values : ∃ lanes, List.Forall₂ (RowLanes entry heads size) histories lanes ∧
    tensor.values = lanes.flatten.flatten

section

variable {entry : Nat → List Token → List Scalar → Prop} {heads size : Nat}
  {histories : List (List Token)}

theorem RowLanes.length_eq {history : List Token} {lanes : List (List Scalar)}
    (recorded : RowLanes entry heads size history lanes) : lanes.length = heads := by
  rw [← List.Forall₂.length_eq recorded, List.length_range]

theorem RowLanes.length_of_mem {history : List Token} {lanes : List (List Scalar)}
    (recorded : RowLanes entry heads size history lanes) {lane : List Scalar}
    (member : lane ∈ lanes) : lane.length = history.length * size := by
  obtain ⟨i, bound, rfl⟩ := List.mem_iff_getElem.mp member
  exact (List.Forall₂.get recorded (by rw [recorded.length_eq] at bound; simpa using bound)
    bound).length_eq

theorem RowLanes.take {history : List Token} {lanes : List (List Scalar)}
    (recorded : RowLanes entry heads size history lanes) {count : Nat}
    (bound : count ≤ history.length) :
    RowLanes entry heads size (history.take count) (lanes.map (·.take (count * size))) := by
  unfold RowLanes
  rw [List.forall₂_map_right_iff]
  exact List.Forall₂.imp (fun _ _ lane => lane.take bound) recorded

theorem forall_of_forall₂ {α β : Type} {r : α → β → Prop} {p : β → Prop} {xs : List α}
    {ys : List β} (related : List.Forall₂ r xs ys) (each : ∀ x ∈ xs, ∀ y, r x y → p y) :
    ∀ y ∈ ys, p y := by
  induction related with
  | nil => simp
  | cons here _ ih =>
    rintro y (_ | ⟨_, member⟩)
    · exact each _ (by simp) _ here
    · exact ih (fun x inside => each x (by simp [inside])) y member

theorem records_empty (type : ElementType) (rows : Nat) (value : Scalar) :
    Records entry heads size (List.replicate rows [])
      (Tensor.filled type [rows, heads, 0, size] value) where
  shape := ⟨0, by simp [List.mem_replicate], by simp [Tensor.filled, Tensor.packed]⟩
  values := by
    refine ⟨List.replicate rows (List.replicate heads []), ?_,
      by simp [Tensor.filled, Tensor.packed, Tensor.volume]⟩
    have row : RowLanes entry heads size [] (List.replicate heads []) := by
      unfold RowLanes
      rw [List.forall₂_iff_get]
      exact ⟨by simp, fun i _ _ => by simpa using Lane.empty⟩
    rw [List.forall₂_iff_get]
    exact ⟨by simp, fun i _ _ => by simpa using row⟩

theorem blocks_lanes {lanes : List (List (List Scalar))} {width : Nat}
    (recorded : List.Forall₂ (RowLanes entry heads size) histories lanes)
    (wide : ∀ history ∈ histories, history.length = width) :
    Tensor.blocks (width * size) (histories.length * heads) lanes.flatten.flatten =
      lanes.flatten := by
  have sized : ∀ lane ∈ lanes.flatten, lane.length = width * size := by
    intro lane member
    obtain ⟨row, inside, member⟩ := List.mem_flatten.mp member
    exact forall_of_forall₂ recorded (p := fun row => ∀ lane ∈ row, lane.length = width * size)
      (fun history here row lanesOf lane member => wide history here ▸ lanesOf.length_of_mem member)
      row inside lane member
  have counted : lanes.flatten.length = histories.length * heads := by
    have each : ∀ row ∈ lanes, row.length = heads :=
      forall_of_forall₂ recorded fun _ _ _ lanesOf => lanesOf.length_eq
    rw [List.length_flatten, List.map_congr_left each, List.map_const', List.sum_replicate_nat,
      recorded.length_eq]
  rw [← counted, Tensor.blocks_flatten sized]

theorem blocks_rows {lanes : List (List (List Scalar))} {width : Nat}
    (recorded : List.Forall₂ (RowLanes entry heads size) histories lanes)
    (wide : ∀ history ∈ histories, history.length = width) :
    Tensor.blocks (heads * (width * size)) histories.length lanes.flatten.flatten =
      lanes.map List.flatten := by
  have sized : ∀ row ∈ lanes.map List.flatten, row.length = heads * (width * size) := by
    rw [List.forall_mem_map]
    refine forall_of_forall₂ recorded fun history member row lanesOf => ?_
    have each : ∀ lane ∈ row, lane.length = width * size := fun lane inside =>
      wide history member ▸ lanesOf.length_of_mem inside
    rw [List.length_flatten, List.map_congr_left each, List.map_const', List.sum_replicate_nat,
      lanesOf.length_eq]
  rw [List.flatten_flatten, recorded.length_eq, ← List.length_map (f := List.flatten),
    Tensor.blocks_flatten sized]

theorem Records.narrow {tensor kept : Tensor} {count : Nat}
    (recorded : Records entry heads size histories tensor)
    (narrowed : tensor.narrow 2 0 count = .ok kept) :
    Records entry heads size (histories.map (·.take count)) kept := by
  obtain ⟨⟨width, wide, shape⟩, lanes, filled, values⟩ := recorded
  obtain ⟨within, rfl⟩ := (Tensor.narrow_eq_ok shape).mp narrowed
  have short : ∀ history ∈ histories, (history.take count).length = count := by
    intro history member
    rw [List.length_take, wide history member]
    omega
  split
  case isTrue whole =>
    subst whole
    have same : histories.map (·.take width) = histories := by
      rw [List.map_congr_left fun history member =>
        List.take_of_length_le (Nat.le_of_eq (wide history member)), List.map_id']
    rw [same]
    exact ⟨⟨width, wide, shape⟩, lanes, filled, values⟩
  case isFalse =>
    refine ⟨⟨count, by simpa using short, by simp⟩,
      lanes.map (List.map (·.take (count * size))), ?_, ?_⟩
    · rw [List.forall₂_map_left_iff, List.forall₂_map_right_iff]
      have lower : ∀ history ∈ histories, count ≤ history.length := by
        intro history member
        rw [wide history member]
        omega
      exact ((List.forall₂_and_left _ _).mpr ⟨lower, filled⟩).imp
        fun history row both => both.2.take both.1
    · simp only [values, blocks_lanes filled wide, List.flatMap_def, List.map_flatten]

theorem Records.selectRows {tensor chosen : Tensor} {indices : List Nat}
    (recorded : Records entry heads size histories tensor)
    (selected : tensor.selectRows indices = .ok chosen) :
    Records entry heads size (indices.map fun i => histories.getD i []) chosen := by
  obtain ⟨⟨width, wide, shape⟩, lanes, filled, values⟩ := recorded
  obtain ⟨-, inside, rfl⟩ := (Tensor.selectRows_eq_ok shape).mp selected
  -- one block of storage holds the lanes of one history
  have cut : Tensor.blocks (Tensor.volume [heads, width, size]) histories.length tensor.values =
      lanes.map List.flatten := by
    have volume : Tensor.volume [heads, width, size] = heads * (width * size) := by
      simp [Tensor.volume]
    rw [volume, values, blocks_rows filled wide]
  have bound : ∀ i ∈ indices, i < lanes.length := fun i member =>
    filled.length_eq ▸ inside i member
  have picked : ∀ i, (lanes.map List.flatten).getD i [] = (lanes.getD i []).flatten :=
    fun _ => List.getD_map lanes [] List.flatten
  refine ⟨⟨width, ?_, by simp [Tensor.packed]⟩, indices.map fun i => lanes.getD i [], ?_, ?_⟩
  · rw [List.forall_mem_map]
    intro i member
    rw [List.getD_eq_getElem _ _ (inside i member)]
    exact wide _ (List.getElem_mem (inside i member))
  · rw [List.forall₂_map_left_iff, List.forall₂_map_right_iff, List.forall₂_same]
    intro i member
    rw [List.getD_eq_getElem _ _ (inside i member), List.getD_eq_getElem _ _ (bound i member)]
    exact filled.get (inside i member) (bound i member)
  · simp only [Tensor.packed, cut, picked, List.flatten_flatten, List.map_map, Function.comp_def]

end

end StagedDecoding
