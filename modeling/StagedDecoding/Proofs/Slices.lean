import StagedDecoding.Proofs.Preparing

/-! Consecutive rows by themselves.

The rows of a batch entry are consecutive in tensors, scores and histories. Loading, constraining
and appending treat every row by itself, so it does not matter whether some rows are cut out before
or afterwards.
-/

set_option autoImplicit false

namespace StagedDecoding

def slice {α : Type} (start count : Nat) (values : List α) : List α :=
  (values.drop start).take count

section

variable {α β γ : Type} {start count : Nat}

theorem getElem?_slice (values : List α) (i : Nat) :
    (slice start count values)[i]? = if i < count then values[start + i]? else none := by
  rw [slice, List.getElem?_take, List.getElem?_drop]

theorem length_slice {values : List α} (inside : start + count ≤ values.length) :
    (slice start count values).length = count := by
  rw [slice, List.length_take, List.length_drop]
  omega

theorem slice_map (f : α → β) (values : List α) :
    slice start count (values.map f) = (slice start count values).map f := by
  rw [slice, slice, List.map_take, List.map_drop]

theorem slice_zipWith (f : α → β → γ) (xs : List α) (ys : List β) :
    slice start count (List.zipWith f xs ys) =
      List.zipWith f (slice start count xs) (slice start count ys) := by
  rw [slice, List.drop_zipWith, List.take_zipWith]
  rfl

theorem slice_mapIdx (f : Nat → α → β) (values : List α) :
    slice start count (values.mapIdx f) =
      (slice start count values).mapIdx fun i => f (start + i) := by
  refine List.ext_getElem? fun i => ?_
  rw [getElem?_slice, List.getElem?_mapIdx, List.getElem?_mapIdx, getElem?_slice]
  split <;> rfl

theorem slice_range {n : Nat} (inside : start + count ≤ n) :
    slice start count (List.range n) = (List.range count).map (start + ·) := by
  refine List.ext_getElem? fun i => ?_
  rw [getElem?_slice, List.getElem?_map]
  by_cases bound : i < count
  · have within : start + i < n := by omega
    simp [bound, within]
  · simp [bound]

theorem slice_replicate {n : Nat} {value : α} (inside : start + count ≤ n) :
    slice start count (List.replicate n value) = List.replicate count value := by
  have fits : count ≤ n - start := by omega
  rw [slice, List.drop_replicate, List.take_replicate, Nat.min_eq_left fits]

theorem slice_flatten {size entry : Nat} {parts : List (List α)} {part : List α}
    (sized : ∀ part ∈ parts, part.length = size) (found : parts[entry]? = some part) :
    slice (entry * size) size parts.flatten = part := by
  have inside : entry < parts.length := (List.getElem?_eq_some_iff.mp found).1
  have block := Tensor.getElem?_blocks size parts.length parts.flatten entry
  rw [Tensor.blocks_flatten sized, found, if_pos inside] at block
  exact (Option.some.inj block).symm

theorem slice_one {values : List α} {i : Nat} {value : α} (found : values[i]? = some value) :
    slice i 1 values = [value] := by
  obtain ⟨inside, rfl⟩ := List.getElem?_eq_some_iff.mp found
  rw [slice, List.drop_eq_getElem_cons inside]
  rfl

theorem fetch_slice {values : List α} {i : Nat} (bound : i < count) :
    fetch (slice start count values) i = fetch values (start + i) := by
  rw [fetch, fetch, getElem?_slice, if_pos bound]

theorem getD_slice {values : List α} {i : Nat} (bound : i < count) (other : α) :
    (slice start count values).getD i other = values.getD (start + i) other := by
  rw [List.getD_eq_getElem?_getD, List.getD_eq_getElem?_getD, getElem?_slice, if_pos bound]

theorem Tensor.blocks_slice {size total : Nat} (inside : start + count ≤ total)
    (values : List α) :
    blocks size count (slice (start * size) (count * size) values) =
      slice start count (blocks size total values) := by
  refine List.ext_getElem? fun i => ?_
  rw [getElem?_blocks, getElem?_slice, getElem?_blocks]
  by_cases bound : i < count
  · have within : start + i < total := by omega
    have room : size ≤ count * size - i * size := by
      rw [← Nat.sub_mul]
      exact Nat.le_mul_of_pos_left _ (by omega)
    rw [if_pos bound, if_pos bound, if_pos within, slice, List.drop_take, List.take_take,
      Nat.min_eq_left room, List.drop_drop, ← Nat.add_mul]
  · rw [if_neg bound, if_neg bound]

end

def Tensor.sliceRows (start count : Nat) (t : Tensor) : Tensor :=
  let inner := volume (t.shape.drop 1)
  { t with
    shape := t.shape.set 0 count
    values := slice (start * inner) (count * inner) t.values }

namespace Histories

def slice (start count : Nat) (h : Histories) : Histories :=
  { h with rows := StagedDecoding.slice start count h.rows }

theorem start_slice {inputIds : List Token} {batch beams capacity entry : Nat} {h : Histories}
    (started : Histories.start inputIds batch beams capacity = .ok h) (inside : entry < batch) :
    Histories.start (promptOf inputIds batch entry) 1 beams capacity =
      .ok (h.slice (entry * beams) beams) := by
  have whole := Histories.length_eq started
  obtain ⟨fits, rfl⟩ := Histories.start_eq_ok started
  have long : (promptOf inputIds batch entry).length = inputIds.length / batch := by
    refine length_slice ?_
    rw [whole, Nat.mul_div_cancel_left _ (by omega), ← Nat.succ_mul]
    exact Nat.mul_le_mul_right _ inside
  have own : (Tensor.blocks (inputIds.length / batch) batch inputIds)[entry]? =
      some (promptOf inputIds batch entry) := by
    rw [Tensor.getElem?_blocks, if_pos inside]
    rfl
  -- the rows of an entry are the copies of its prompt
  have copies : slice (entry * beams) beams
      ⟨(Tensor.blocks (inputIds.length / batch) batch inputIds).flatMap (List.replicate beams),
        inputIds.length / batch, inputIds.length / batch, capacity⟩ =
      ⟨List.replicate beams (promptOf inputIds batch entry), inputIds.length / batch,
        inputIds.length / batch, capacity⟩ := by
    have sized : ∀ part ∈ (Tensor.blocks (inputIds.length / batch) batch inputIds).map
        (List.replicate beams), part.length = beams := by
      rw [List.forall_mem_map]
      exact fun _ _ => List.length_replicate
    rw [slice, List.flatMap_def, slice_flatten sized (by rw [List.getElem?_map, own]; rfl)]
  rw [copies]
  unfold Histories.start
  rw [if_neg (by simp [Nat.mod_one])]
  simp only [Nat.div_one, long]
  rw [if_neg (Nat.not_lt.mpr fits), Tensor.blocks, Tensor.blocks,
    List.take_of_length_le (Nat.le_of_eq long), List.flatMap_singleton]

theorem descend_slice {h next : Histories} {start count : Nat} {parents : List Nat}
    {tokens : List Token} (descended : h.descend parents tokens = .ok next)
    (inside : start + count ≤ h.rows.length)
    (own : ∀ parent ∈ StagedDecoding.slice start count parents,
      start ≤ parent ∧ parent < start + count) :
    (h.slice start count).descend ((StagedDecoding.slice start count parents).map (· - start))
      (StagedDecoding.slice start count tokens) = .ok (next.slice start count) := by
  obtain ⟨counted, filled, room, bounds, rfl⟩ := descend_eq_ok.mp descended
  have rows : (h.slice start count).rows.length = count := length_slice inside
  have origin : ∀ parent ∈ StagedDecoding.slice start count parents,
      h.rows.getD parent [] = (h.slice start count).rows.getD (parent - start) [] := by
    intro parent member
    obtain ⟨above, below⟩ := own parent member
    have bound : parent - start < count := by omega
    rw [slice, getD_slice bound, Nat.add_sub_cancel' above]
  refine descend_eq_ok.mpr ⟨?_, ?_, room, ?_, ?_⟩
  · rw [List.length_map, length_slice (counted.symm ▸ inside), rows]
  · rw [length_slice (filled.symm ▸ inside), rows]
  · rw [List.forall_mem_map]
    intro parent member
    have := own parent member
    omega
  · rw [slice, slice_zipWith, slice_map, List.map_congr_left origin, List.map_map]
    rfl

end Histories

namespace LoadedScores

variable {start count rows vocabulary : Nat} {scores after : LoadedScores}

def slice (start count : Nat) (scores : LoadedScores) : LoadedScores :=
  { scores with rows := StagedDecoding.slice start count scores.rows }

theorem layOut_slice {positions total : Nat} (inside : start + count ≤ total)
    (values : List Float32) :
    layOut count positions vocabulary (StagedDecoding.slice (start * (positions * vocabulary))
      (count * (positions * vocabulary)) values) =
        StagedDecoding.slice start count (layOut total positions vocabulary values) := by
  rw [layOut, layOut, Tensor.blocks_slice inside, slice_map]

theorem load_slice {everyPosition : Bool} {tensor : Tensor} (inside : start + count ≤ rows)
    (loaded : load rows vocabulary everyPosition tensor = .ok scores) :
    load count vocabulary everyPosition (tensor.sliceRows start count) =
      .ok (scores.slice start count) := by
  have floats : (tensor.sliceRows start count).floats = StagedDecoding.slice
      (start * Tensor.volume (tensor.shape.drop 1)) (count * Tensor.volume (tensor.shape.drop 1))
      tensor.floats := (slice_map Scalar.toFloat tensor.values).symm
  have shape : (tensor.sliceRows start count).shape = tensor.shape.set 0 count := rfl
  obtain ⟨n, v, laid, fits, some, filled, rfl⟩ := load_eq_ok.mp loaded
  have long : tensor.values.length = rows * (n * v) := by
    rcases laid with laid | ⟨rfl, laid⟩ <;> simpa [Tensor.volume, laid] using filled
  have part : (tensor.sliceRows start count).floats = StagedDecoding.slice
      (start * (n * v)) (count * (n * v)) tensor.floats := by
    rw [floats]
    rcases laid with laid | ⟨rfl, laid⟩ <;> simp [laid, Tensor.volume]
  have cut : (tensor.sliceRows start count).values.length = count * (n * v) := by
    have room : start * (n * v) + count * (n * v) ≤ tensor.values.length := by
      rw [long, ← Nat.add_mul]
      exact Nat.mul_le_mul_right _ inside
    rw [← length_slice room, ← List.length_map Scalar.toFloat, ← List.length_map Scalar.toFloat,
      ← slice_map]
    exact congrArg List.length part
  refine load_eq_ok.mpr ⟨n, v, ?_, fits, some, ?_, ?_⟩
  · rw [shape]
    exact laid.imp (fun laid => by rw [laid]; rfl) (And.imp_right fun laid => by rw [laid]; rfl)
  · rw [cut, shape]
    rcases laid with laid | ⟨rfl, laid⟩ <;> simp [Tensor.volume, laid]
  · rw [part, layOut_slice inside]
    split
    · rfl
    · rw [← slice_map]
      rfl

theorem last_slice {row : Nat} (bound : row < count) :
    (scores.slice start count).last row = scores.last (start + row) := by
  unfold last scoresAt slice
  rw [fetch_slice bound]

theorem forall_lt_slice {p : Nat → Prop} (each : ∀ row < scores.rows.length, p row)
    {row : Nat} (bound : row < (scores.slice start count).rows.length) :
    row < count ∧ p (start + row) := by
  dsimp only [slice, StagedDecoding.slice] at bound
  rw [List.length_take, List.length_drop] at bound
  exact ⟨by omega, each _ (by omega)⟩

theorem changeLast_slice {change : Nat → Scores → Scores} :
    (scores.changeLast change).slice start count =
      (scores.slice start count).changeLast fun i => change (start + i) := by
  simp only [changeLast, slice, slice_mapIdx]

theorem constrainLength_slice {minLength : Nat} {endTokens : List Token} {histories : Histories}
    (constrained : scores.constrainLength minLength endTokens histories = .ok after) :
    (scores.slice start count).constrainLength minLength endTokens
      (histories.slice start count) = .ok (after.slice start count) := by
  obtain ⟨fresh, constrained⟩ := constrainLength_eq_ok.mp constrained
  refine constrainLength_eq_ok.mpr ⟨fresh, ?_⟩
  change if minLength ≤ histories.length then _ else _
  split at constrained
  · next long =>
    rw [if_pos long, constrained]
  · next short =>
    obtain ⟨each, rfl⟩ := constrained
    rw [if_neg short]
    refine ⟨fun row bound => ?_, changeLast_slice⟩
    obtain ⟨below, found⟩ := forall_lt_slice each bound
    rwa [last_slice below]

theorem penalize_slice {penalty : Float32} {histories : Histories}
    (penalized : scores.penalize penalty histories = .ok after) :
    (scores.slice start count).penalize penalty (histories.slice start count) =
      .ok (after.slice start count) := by
  obtain ⟨fresh, penalized⟩ := penalize_eq_ok.mp penalized
  refine penalize_eq_ok.mpr ⟨fresh, ?_⟩
  split at penalized
  · next neutral =>
    rw [if_pos neutral, penalized]
  · next counts =>
    obtain ⟨each, rfl⟩ := penalized
    rw [if_neg counts]
    constructor
    · intro row bound
      obtain ⟨below, there, found⟩ := forall_lt_slice each bound
      refine ⟨?_, by rwa [last_slice below]⟩
      dsimp only [Histories.slice, StagedDecoding.slice]
      rw [List.length_take, List.length_drop]
      omega
    · rw [changeLast_slice]
      unfold changeLast
      congr 1
      refine List.ext_getElem? fun i => ?_
      rw [List.getElem?_mapIdx, List.getElem?_mapIdx]
      -- a row of the slice has its own history there
      by_cases bound : i < count
      · dsimp only [Histories.slice]
        rw [getD_slice bound]
      · rw [slice, getElem?_slice, if_neg bound]
        rfl

end LoadedScores

end StagedDecoding
