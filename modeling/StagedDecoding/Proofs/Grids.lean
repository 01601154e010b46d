import StagedDecoding.Proofs.Blocks
import StagedDecoding.Proofs.Supply

/-! Cache tensors as nested lists.

The elements of a cache tensor are listed in one row, but every operation on caches is about rows,
heads, positions or features. As a list of rows, of heads, of positions, of features the tensor is
cut and its rows are picked by the operations on lists of these names.
-/

set_option autoImplicit false

namespace StagedDecoding

/-- Elements by row, head, position and feature. -/
abbrev Grid := List (List (List (List Scalar)))

structure Grid.Even (rows heads length size : Nat) (grid : Grid) : Prop where
  rows : grid.length = rows
  heads : ∀ row ∈ grid, row.length = heads
  length : ∀ row ∈ grid, ∀ lane ∈ row, lane.length = length
  size : ∀ row ∈ grid, ∀ lane ∈ row, ∀ cell ∈ lane, cell.length = size

def Grid.upTo (count : Nat) (grid : Grid) : Grid :=
  grid.map fun row => row.map fun lane => lane.take count

def Grid.pick (indices : List Nat) (grid : Grid) : Grid :=
  if indices.isEmpty then grid else indices.map fun i => grid.getD i []

namespace Grid.Even

variable {rows heads length size count : Nat} {grid : Grid} {indices : List Nat}

theorem upTo (even : grid.Even rows heads length size) (fits : count ≤ length) :
    (grid.upTo count).Even rows heads count size where
  rows := by simp [Grid.upTo, even.rows]
  heads := by
    unfold Grid.upTo
    rw [List.forall_mem_map]
    intro row member
    rw [List.length_map, even.heads row member]
  length := by
    unfold Grid.upTo
    rw [List.forall_mem_map]
    intro row member
    rw [List.forall_mem_map]
    intro lane inside
    rw [List.length_take, even.length row member lane inside, Nat.min_eq_left fits]
  size := by
    unfold Grid.upTo
    rw [List.forall_mem_map]
    intro row member
    rw [List.forall_mem_map]
    intro lane inside cell here
    exact even.size row member lane inside cell (List.mem_of_mem_take here)

theorem upTo_length (even : grid.Even rows heads length size) : grid.upTo length = grid := by
  unfold Grid.upTo
  conv_rhs => rw [← List.map_id grid]
  refine List.map_congr_left fun row member => ?_
  conv_rhs => rw [id, ← List.map_id row]
  exact List.map_congr_left fun lane inside =>
    List.take_of_length_le (Nat.le_of_eq (even.length row member lane inside))

theorem map_getD (even : grid.Even rows heads length size) (inside : ∀ i ∈ indices, i < rows) :
    Grid.Even indices.length heads length size (indices.map fun i => grid.getD i []) := by
  have member : ∀ i ∈ indices, grid.getD i [] ∈ grid := by
    intro i named
    have bound : i < grid.length := even.rows ▸ inside i named
    rw [List.getD_eq_getElem _ _ bound]
    exact List.getElem_mem bound
  refine ⟨List.length_map _, ?_, ?_, ?_⟩
  · rw [List.forall_mem_map]
    exact fun i named => even.heads _ (member i named)
  · rw [List.forall_mem_map]
    exact fun i named => even.length _ (member i named)
  · rw [List.forall_mem_map]
    exact fun i named => even.size _ (member i named)

end Grid.Even

namespace Tensor

def grid (t : Tensor) : Grid :=
  match t.shape with
  | [rows, heads, length, size] =>
    blocks heads rows (blocks length (rows * heads) (blocks size (rows * heads * length) t.values))
  | _ => []

/-- A cache tensor with an element in every place. -/
structure Laid (rows heads length size : Nat) (t : Tensor) : Prop where
  shape : t.shape = [rows, heads, length, size]
  filled : t.values.length = rows * heads * length * size

variable {t kept chosen other : Tensor} {rows heads length size count : Nat} {indices : List Nat}
  {grid : Grid}

theorem flatten_rows (grid : Grid) :
    grid.flatten.flatten.flatten = (grid.map (·.flatten.flatten)).flatten := by
  have lanes : grid.flatten.flatten = (grid.map List.flatten).flatten := List.flatten_flatten
  rw [lanes, List.flatten_flatten, List.map_map]
  rfl

theorem length_flatten {α : Type} {parts : List (List α)} (sized : ∀ part ∈ parts, part.length = size) :
    parts.flatten.length = parts.length * size := by
  rw [List.length_flatten, List.map_congr_left sized, List.map_const', List.sum_replicate_nat]

theorem take_flatten {α : Type} {lane : List (List α)} (sized : ∀ cell ∈ lane, cell.length = size) :
    lane.flatten.take (count * size) = (lane.take count).flatten := by
  induction lane generalizing count with
  | nil => simp
  | cons cell rest ih =>
    cases count with
    | zero => simp
    | succ count =>
      have here : cell.length = size := sized cell (by simp)
      have all : cell.take ((count + 1) * size) = cell := List.take_of_length_le (by
        rw [here]
        exact Nat.le_mul_of_pos_left size (Nat.succ_pos count))
      rw [List.flatten_cons, List.take_append, all, here, List.take_succ_cons, List.flatten_cons,
        Nat.succ_mul, Nat.add_sub_cancel, ih fun other member => sized other (by simp [member])]

namespace Laid

/-- The grid lists all elements. -/
theorem values_eq (laid : t.Laid rows heads length size) :
    t.grid.Even rows heads length size ∧ t.values = t.grid.flatten.flatten.flatten := by
  have cells : (blocks size (rows * heads * length) t.values).length = rows * heads * length :=
    blocks_length _ _ _
  have lanes : (blocks length (rows * heads)
      (blocks size (rows * heads * length) t.values)).length = rows * heads := blocks_length _ _ _
  have grid : t.grid = blocks heads rows (blocks length (rows * heads)
      (blocks size (rows * heads * length) t.values)) := by
    simp only [Tensor.grid, laid.shape]
  have lanesOf : t.grid.flatten = blocks length (rows * heads)
      (blocks size (rows * heads * length) t.values) := by
    rw [grid, flatten_blocks lanes]
  have cellsOf : t.grid.flatten.flatten = blocks size (rows * heads * length) t.values := by
    rw [lanesOf, flatten_blocks cells]
  -- every layer has blocks of one size, down to the elements
  refine ⟨⟨?_, ?_, ?_, ?_⟩, ?_⟩
  · rw [grid, blocks_length]
  · rw [grid]
    exact fun row member => length_of_mem_blocks lanes member
  · intro row member lane inside
    have found : lane ∈ t.grid.flatten := List.mem_flatten.mpr ⟨row, member, inside⟩
    exact length_of_mem_blocks cells (lanesOf ▸ found)
  · intro row member lane inside cell here
    have found : cell ∈ t.grid.flatten.flatten :=
      List.mem_flatten.mpr ⟨lane, List.mem_flatten.mpr ⟨row, member, inside⟩, here⟩
    exact length_of_mem_blocks laid.filled (cellsOf ▸ found)
  · rw [cellsOf, flatten_blocks laid.filled]

end Laid

theorem laid_of_even (even : grid.Even rows heads length size)
    (shape : t.shape = [rows, heads, length, size]) (listed : t.values = grid.flatten.flatten.flatten) :
    t.Laid rows heads length size ∧ t.grid = grid := by
  have lanes : grid.flatten.length = rows * heads := by
    rw [length_flatten even.heads, even.rows]
  have long : ∀ lane ∈ grid.flatten, lane.length = length := by
    intro lane inside
    obtain ⟨row, member, inside⟩ := List.mem_flatten.mp inside
    exact even.length row member lane inside
  have cells : grid.flatten.flatten.length = rows * heads * length := by
    rw [length_flatten long, lanes]
  have sized : ∀ cell ∈ grid.flatten.flatten, cell.length = size := by
    intro cell inside
    obtain ⟨lane, member, inside⟩ := List.mem_flatten.mp inside
    obtain ⟨row, here, member⟩ := List.mem_flatten.mp member
    exact even.size row here lane member cell inside
  refine ⟨⟨shape, by rw [listed, length_flatten sized, cells]⟩, ?_⟩
  simp only [Tensor.grid, shape, listed]
  rw [← cells, blocks_flatten sized, ← lanes, blocks_flatten long, ← even.rows,
    blocks_flatten even.heads]

namespace Laid

theorem values_ext (laid : t.Laid rows heads length size)
    (laid' : other.Laid rows heads length size) (same : t.grid = other.grid) :
    t.values = other.values := by
  rw [laid.values_eq.2, laid'.values_eq.2, same]

end Laid

end Tensor

namespace Tensor.Laid

variable {t kept chosen : Tensor} {rows heads length size count : Nat} {indices : List Nat}

theorem narrow (laid : t.Laid rows heads length size) (narrowed : t.narrow 2 0 count = .ok kept) :
    count ≤ length ∧ kept.type = t.type ∧ kept.Laid rows heads count size ∧
      kept.grid = t.grid.upTo count := by
  obtain ⟨even, listed⟩ := laid.values_eq
  obtain ⟨fits, rfl⟩ := (narrow_eq_ok laid.shape).mp narrowed
  split
  case isTrue whole =>
    subst whole
    exact ⟨fits, rfl, laid, even.upTo_length.symm⟩
  case isFalse =>
    -- the lanes are the blocks that the operation cuts
    have sized : ∀ lane ∈ t.grid.flatten, ∀ cell ∈ lane, cell.length = size := by
      intro lane inside
      obtain ⟨row, member, inside⟩ := List.mem_flatten.mp inside
      exact even.size row member lane inside
    have cut : blocks (length * size) (rows * heads) t.values =
        t.grid.flatten.map List.flatten := by
      have wide : ∀ part ∈ t.grid.flatten.map List.flatten, part.length = length * size := by
        rw [List.forall_mem_map]
        intro lane inside
        rw [length_flatten (sized lane inside)]
        obtain ⟨row, member, inside⟩ := List.mem_flatten.mp inside
        rw [even.length row member lane inside]
      have counted : (t.grid.flatten.map List.flatten).length = rows * heads := by
        rw [List.length_map, length_flatten even.heads, even.rows]
      rw [listed, List.flatten_flatten, ← counted, blocks_flatten wide]
    refine ⟨fits, rfl, laid_of_even (even.upTo fits) rfl ?_⟩
    simp only [cut, List.flatMap_def, List.map_map]
    have lanes : t.grid.flatten.map ((fun block => block.take (count * size)) ∘ List.flatten) =
        (t.grid.upTo count).flatten.map List.flatten := by
      rw [Grid.upTo, ← List.map_flatten, List.map_map]
      exact List.map_congr_left fun lane inside => take_flatten (sized lane inside)
    rw [lanes, List.flatten_flatten]

/-- What is left when rows are picked. Nothing is picked from storage with gaps. -/
theorem selectRows (laid : t.Laid rows heads length size)
    (selected : t.selectRows indices = .ok chosen) :
    t.isPacked = true ∧ chosen.type = t.type ∧ chosen.Laid indices.length heads length size ∧
      chosen.grid = indices.map fun i => t.grid.getD i [] := by
  obtain ⟨even, listed⟩ := laid.values_eq
  obtain ⟨gapless, inside, rfl⟩ := (selectRows_eq_ok laid.shape).mp selected
  have wide : ∀ part ∈ t.grid.map (·.flatten.flatten), part.length = heads * length * size := by
    rw [List.forall_mem_map]
    intro row member
    have sized : ∀ cell ∈ row.flatten, cell.length = size := by
      intro cell here
      obtain ⟨lane, inside, here⟩ := List.mem_flatten.mp here
      exact even.size row member lane inside cell here
    rw [length_flatten sized, length_flatten (even.length row member), even.heads row member]
  -- one block of storage holds one row of the grid
  have cut : blocks (volume [heads, length, size]) rows t.values =
      t.grid.map (·.flatten.flatten) := by
    have volume : volume [heads, length, size] = heads * length * size := by
      simp [Tensor.volume, Nat.mul_assoc]
    rw [volume, listed, flatten_rows, ← even.rows,
      ← List.length_map (f := fun row : List _ => row.flatten.flatten), blocks_flatten wide]
  have picked : ∀ i, (t.grid.map (·.flatten.flatten)).getD i [] =
      (t.grid.getD i []).flatten.flatten :=
    fun _ => List.getD_map t.grid [] (·.flatten.flatten)
  refine ⟨gapless, rfl, laid_of_even (even.map_getD inside) rfl ?_⟩
  simp only [packed, flatten_rows, cut, picked, List.map_map, Function.comp_def]

theorem narrow_strides {axis start : Nat} (narrowed : t.narrow axis start count = .ok kept) :
    kept.strides = t.strides := by
  simp only [Tensor.narrow, Outcome.bind_eq_ok, Outcome.throw_bind, Outcome.guard_eq_ok] at narrowed
  obtain ⟨_, -, -, narrowed⟩ := narrowed
  split at narrowed <;> rw [← Outcome.pure_eq_ok.mp narrowed]

theorem narrow_length (laid : t.Laid rows heads length size) : t.narrow 2 0 length = .ok t :=
  (narrow_eq_ok laid.shape).mpr ⟨Nat.le_refl length, (if_pos rfl).symm⟩

theorem selectRows_error (laid : t.Laid rows heads length size) (inside : ∀ i ∈ indices, i < rows)
    {fault : TensorFault} :
    t.selectRows indices = .error fault ↔ t.isPacked = false ∧ fault = .gaps := by
  cases gapless : t.isPacked with
  | true =>
    obtain ⟨chosen, selected, -⟩ := selectRows_total laid.shape gapless inside
    simp [selected]
  | false => simp [Tensor.selectRows, laid.shape, gapless, eq_comm]

/-- A cut leaves gaps in fresh storage, unless there are no elements or only one lane. -/
theorem isPacked_narrow (laid : t.Laid rows heads length size)
    (fresh : t.strides = packedStrides t.shape) (fits : count ≤ length)
    (narrowed : t.narrow 2 0 (length - count) = .ok kept) :
    kept.isPacked = true ↔ count = 0 ∨ size = 0 ∨ heads = 0 ∨ heads = 1 ∧ rows ≤ 1 := by
  have strides : kept.strides = [heads * (length * size), length * size, size, 1] := by
    rw [narrow_strides narrowed, fresh, laid.shape]
    simp [packedStrides, volume]
  have lanes : length * size = (length - count) * size ↔ count = 0 ∨ size = 0 := by
    rw [mul_eq_mul_right_iff]
    omega
  have rowsOf : heads * (length * size) = heads * ((length - count) * size) ↔
      heads = 0 ∨ count = 0 ∨ size = 0 := by
    rw [mul_eq_mul_left_iff, lanes, or_comm]
  have packed : kept.isPacked = true ↔
      (heads ≤ 1 ∨ length * size = (length - count) * size) ∧
        (rows ≤ 1 ∨ heads * (length * size) = heads * ((length - count) * size)) := by
    simp [isPacked, (laid.narrow narrowed).2.2.1.shape, strides, Nat.mul_comm]
  rw [packed, lanes, rowsOf]
  omega

end Tensor.Laid

namespace Tensor

variable {t other kept chosen : Tensor} {rows heads length size axis start count : Nat}
  {indices : List Nat}

def contents (t : Tensor) : ElementType × List Nat × List Scalar := (t.type, t.shape, t.values)

theorem contents_eq : t.contents = other.contents ↔
    t.type = other.type ∧ t.shape = other.shape ∧ t.values = other.values := by
  simp [contents]

theorem grid_of_contents (same : t.contents = other.contents) : t.grid = other.grid := by
  obtain ⟨-, shape, values⟩ := contents_eq.mp same
  unfold grid
  rw [shape, values]

theorem Laid.of_contents (laid : t.Laid rows heads length size)
    (same : t.contents = other.contents) : other.Laid rows heads length size := by
  obtain ⟨-, shape, values⟩ := contents_eq.mp same
  exact ⟨shape ▸ laid.shape, values ▸ laid.filled⟩

theorem Laid.contents_ext (laid : t.Laid rows heads length size)
    (laid' : other.Laid rows heads length size) (type : t.type = other.type)
    (same : t.grid = other.grid) : t.contents = other.contents :=
  contents_eq.mpr ⟨type, laid.shape.trans laid'.shape.symm, laid.values_ext laid' same⟩

theorem narrow_contents (same : t.contents = other.contents)
    (narrowed : t.narrow axis start count = .ok kept) :
    ∃ kept', other.narrow axis start count = .ok kept' ∧ kept.contents = kept'.contents := by
  obtain ⟨type, shape, values⟩ := contents_eq.mp same
  obtain ⟨_, _, strides, _⟩ := other
  obtain ⟨_, _, _, _⟩ := t
  dsimp only at type shape values
  subst type shape values
  simp only [narrow, Outcome.bind_eq_ok, Outcome.throw_bind, Outcome.guard_eq_ok] at narrowed ⊢
  obtain ⟨extent, found, within, narrowed⟩ := narrowed
  split at narrowed
  case isTrue whole =>
    obtain rfl := Outcome.pure_eq_ok.mp narrowed
    exact ⟨⟨_, _, strides, _⟩, ⟨extent, found, within, if_pos whole⟩, rfl⟩
  case isFalse part =>
    obtain rfl := Outcome.pure_eq_ok.mp narrowed
    exact ⟨⟨_, _, strides, _⟩, ⟨extent, found, within, if_neg part⟩, rfl⟩

theorem selectRows_contents (same : t.contents = other.contents) (gapless : other.isPacked = true)
    (selected : t.selectRows indices = .ok chosen) : other.selectRows indices = .ok chosen := by
  obtain ⟨type, shape, values⟩ := contents_eq.mp same
  unfold selectRows at selected ⊢
  rw [← shape]
  split at selected
  case h_1 => cases selected
  case h_2 extent rest shaped =>
    split at selected
    case isFalse => cases selected
    case isTrue =>
      rw [if_pos gapless, ← type, ← values]
      exact selected

end Tensor

end StagedDecoding
