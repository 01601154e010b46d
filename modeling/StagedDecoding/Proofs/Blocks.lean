import Mathlib.Data.List.Forall2
import StagedDecoding.Tensor.Basic

/-! Lists cut into blocks of one size.

Row-major values are the concatenation of their blocks. The laws below go back and forth between
the two forms, which is how every claim about tensors becomes one about rows.
-/

set_option autoImplicit false

namespace StagedDecoding.Tensor

variable {α : Type}

@[simp] theorem blocks_length (size count : Nat) (values : List α) :
    (blocks size count values).length = count := by
  induction count generalizing values with
  | zero => rfl
  | succ count ih => simp [blocks, ih]

theorem flatten_blocks {size count : Nat} {values : List α}
    (filled : values.length = count * size) : (blocks size count values).flatten = values := by
  induction count generalizing values with
  | zero => simpa [blocks, eq_comm] using filled
  | succ count ih =>
    have rest : (values.drop size).length = count * size := by
      rw [List.length_drop, filled, Nat.succ_mul, Nat.add_sub_cancel]
    simp only [blocks, List.flatten_cons, ih rest, List.take_append_drop]

theorem length_of_mem_blocks {size count : Nat} {values block : List α}
    (filled : values.length = count * size) (member : block ∈ blocks size count values) :
    block.length = size := by
  induction count generalizing values with
  | zero => simp [blocks] at member
  | succ count ih =>
    rw [Nat.succ_mul] at filled
    rcases List.mem_cons.mp member with rfl | member
    · rw [List.length_take]
      omega
    · exact ih (by rw [List.length_drop]; omega) member

theorem blocks_flatten {size : Nat} {parts : List (List α)}
    (sized : ∀ part ∈ parts, part.length = size) :
    blocks size parts.length parts.flatten = parts := by
  induction parts with
  | nil => rfl
  | cons part rest ih =>
    have here : part.length = size := sized part (by simp)
    have there := ih fun other member => sized other (by simp [member])
    subst here
    simp only [List.flatten_cons, List.length_cons, blocks, List.take_left', List.drop_left', there]

theorem getElem?_blocks (size count : Nat) (values : List α) (i : Nat) :
    (blocks size count values)[i]? =
      if i < count then some ((values.drop (i * size)).take size) else none := by
  induction count generalizing values i with
  | zero => rfl
  | succ count ih =>
    cases i with
    | zero => simp [blocks]
    | succ i =>
      rw [blocks, List.getElem?_cons_succ, ih, List.drop_drop, Nat.succ_mul, Nat.add_comm size]
      simp only [Nat.succ_lt_succ_iff]

theorem getElem?_flatten {size : Nat} {parts : List (List α)}
    (sized : ∀ part ∈ parts, part.length = size) {j : Nat} (inside : j < size) (i : Nat) :
    parts.flatten[i * size + j]? = parts[i]?.bind (·[j]?) := by
  induction parts generalizing i with
  | nil => simp
  | cons part rest ih =>
    have here : part.length = size := sized part (by simp)
    have there := ih fun other member => sized other (by simp [member])
    rw [List.flatten_cons]
    cases i with
    | zero =>
      rw [List.getElem?_append_left (by omega), Nat.zero_mul, Nat.zero_add]
      rfl
    | succ i =>
      have next : (i + 1) * size + j - size = i * size + j := by
        rw [Nat.succ_mul]
        omega
      have beyond : size ≤ (i + 1) * size + j := by
        rw [Nat.succ_mul]
        omega
      rw [List.getElem?_append_right (by omega), here, next, there]
      rfl

end StagedDecoding.Tensor
