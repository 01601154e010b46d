import StagedDecoding.Proofs.Sessions
import StagedDecoding.Proofs.Supply

/-! Positions while their rows grow and shrink.

However updates and rollbacks follow each other, all that is left of them is one number: the
positions that updates have added and no rollback has removed. Mask, counts and ids are functions
of the prompt and that number, although each is kept on its own.
-/

set_option autoImplicit false

namespace StagedDecoding.Positions

/-- Successful updates and rollbacks from the positions of a prompt, with the number of positions
that were added and not removed again. The prompt itself is never cut. -/
inductive Course (first : Positions) : Nat → Positions → Prop
  | start : Course first 0 first
  | update {added new length : Nat} {p next : Positions} : Course first added p → 1 ≤ new →
      Step.Returns (Positions.update new length) p () next → Course first (added + new) next
  | rollback {added count : Nat} {p next : Positions} : Course first added p → count ≤ added →
      Step.Returns (Positions.rollback count) p () next → Course first (added - count) next

/-- The positions of a prompt with so many more: real tokens behind every row. The ids tell only
of the last update, and are free. -/
structure Grown (prompt : List (List Token)) (pad : Token) (added : Nat) (p : Positions) :
    Prop where
  mask : p.mask = prompt.map fun row => maskOf pad row ++ List.replicate added 1
  next : p.next = p.mask.map (List.count 1)

variable {prompt : List (List Token)} {pad : Token} {rows columns added new count length : Nat}
  {first p next : Positions} {tokens : List Token} {u : Unit}

theorem sum_maskOf (pad : Token) (row : List Token) :
    (maskOf pad row).sum = (maskOf pad row).count 1 := by
  induction row with
  | nil => rfl
  | cons token rest ih =>
    have tail : (List.map (fun token => if token = pad then 0 else 1) rest).sum =
        (List.map (fun token => if token = pad then 0 else 1) rest).count 1 := ih
    by_cases same : token = pad <;> simp [maskOf, same, tail, Nat.add_comm]

theorem grown_ofPrompt (created : ofPrompt tokens rows pad = .ok first) :
    0 < rows ∧ Rectangular rows (tokens.length / rows)
        (Tensor.blocks (tokens.length / rows) rows tokens) ∧
      Grown (Tensor.blocks (tokens.length / rows) rows tokens) pad 0 first := by
  have divides : rows ≠ 0 ∧ tokens.length % rows = 0 := by
    unfold ofPrompt at created
    split at created
    · cases created
    · next accepted => simp_all
  obtain ⟨some, whole⟩ := divides
  refine ⟨Nat.pos_of_ne_zero some, Tensor.rectangular_blocks
    (Nat.mul_div_cancel' (Nat.dvd_of_mod_eq_zero whole)).symm, ?_⟩
  rw [ofPrompt_eq_ok created]
  exact ⟨by simp, by simp [sum_maskOf]⟩

namespace Grown

theorem lined (grown : Grown prompt pad added p) (rectangular : Rectangular rows columns prompt)
    (some : 0 < rows) : p.Lined (columns + added) := by
  obtain ⟨row, rest, rfl⟩ := List.exists_cons_of_length_pos (rectangular.count.symm ▸ some)
  refine ⟨by simp [grown.mask], by simp [grown.next, grown.mask], ?_⟩
  simp [grown.mask, width, maskOf, rectangular.width row (by simp)]

theorem added_le (grown : Grown prompt pad added p) : ∀ start ∈ p.next, added ≤ start := by
  rw [grown.next, grown.mask]
  simp

theorem update (grown : Grown prompt pad added p)
    (ran : Step.Returns (Positions.update new length) p u next) :
    Grown prompt pad (added + new) next := by
  obtain ⟨-, rfl⟩ := update_returns ran
  refine ⟨?_, ?_⟩
  · simp [grown.mask]
  · simp [grown.next]

theorem rollback (grown : Grown prompt pad added p) (rectangular : Rectangular rows columns prompt)
    (some : 0 < rows) (fits : count ≤ added)
    (ran : Step.Returns (Positions.rollback count) p u next) :
    Grown prompt pad (added - count) next := by
  obtain rfl := rollback_returns ran
  have mask : p.mask.map (·.take (width p.mask - count)) =
      prompt.map fun row => maskOf pad row ++ List.replicate (added - count) 1 := by
    rw [(grown.lined rectangular some).wide, grown.mask, List.map_map]
    refine List.map_congr_left fun row member => ?_
    have long : (maskOf pad row).length = columns := by
      rw [maskOf, List.length_map, rectangular.width row member]
    have kept : columns + added - count = columns + (added - count) := by omega
    rw [Function.comp_apply, kept, ← long, List.take_length_add_append, List.take_replicate,
      Nat.min_eq_left (Nat.sub_le _ _)]
  refine ⟨mask, ?_⟩
  dsimp only
  rw [mask, grown.next, grown.mask]
  simp only [List.map_map]
  refine List.map_congr_left fun row _ => ?_
  simp only [Function.comp_apply, List.count_append, List.count_replicate_self]
  omega

end Grown

/-- All that is left of a course is how much was added. -/
theorem Course.grown (course : Course first added p)
    (created : ofPrompt tokens rows pad = .ok first) :
    Grown (Tensor.blocks (tokens.length / rows) rows tokens) pad added p := by
  obtain ⟨some, rectangular, start⟩ := grown_ofPrompt created
  induction course with
  | start => exact start
  | update _ _ ran ih => exact ih.update ran
  | rollback _ fits ran ih => exact ih.rollback rectangular some fits ran

theorem Lined.update_iff (lined : p.Lined columns) :
    (∃ next, Step.Returns (Positions.update new length) p () next) ↔ length = columns + new := by
  constructor
  · rintro ⟨next, ran⟩
    exact (lined.update ran).1.symm
  · rintro rfl
    exact lined.update_total new

/-- In every course of updates and rollbacks the mask of a row is that of its prompt followed by
a one for every added position, its count is the number of ones, and the next ids go on from there.
What was added can be removed, and one width fits the next update. -/
theorem course_aligned (created : ofPrompt tokens rows pad = .ok first)
    (course : Course first added p) :
    p.mask = (Tensor.blocks (tokens.length / rows) rows tokens).map (fun row =>
        row.map (fun token => if token = pad then 0 else 1) ++ List.replicate added 1) ∧
    p.next = p.mask.map (List.count 1) ∧
    (∀ count, count ≤ added → ∃ back, Step.Returns (Positions.rollback count) p () back) ∧
    ∀ new, 1 ≤ new → ∀ length,
      ((∃ next, Step.Returns (Positions.update new length) p () next) ↔
        length = tokens.length / rows + added + new) ∧
      ∀ next, Step.Returns (Positions.update new length) p () next →
        next.ids = p.mask.map fun mask => (List.range new).map (mask.count 1 + ·) := by
  obtain ⟨some, rectangular, -⟩ := grown_ofPrompt created
  have grown := course.grown created
  have lined := grown.lined rectangular some
  refine ⟨grown.mask, grown.next, fun count fits => ?_,
    fun new _ length => ⟨lined.update_iff, fun next ran => ?_⟩⟩
  · have within : count ≤ tokens.length / rows + added := Nat.le_add_left_of_le fits
    have counted : ∀ start ∈ p.next, count ≤ start := fun start member =>
      Nat.le_trans fits (grown.added_le start member)
    obtain ⟨back, ran, -⟩ := lined.rollback_total within counted
    exact ⟨back, ran⟩
  · obtain ⟨-, rfl⟩ := update_returns ran
    simp [grown.next]

theorem padded_rows_aligned : ∃ first p, ofPrompt [0, 0, 5, 6, 7, 0, 9, 10] 2 0 = .ok first ∧
    Course first 1 p ∧ p.mask = [[0, 0, 1, 1, 1], [1, 0, 1, 1, 1]] ∧ p.next = [3, 4] := by
  let start : Positions := ⟨[[0, 0, 0, 1], [0, 0, 1, 2]], [[0, 0, 1, 1], [1, 0, 1, 1]], [2, 3]⟩
  have created : ofPrompt [0, 0, 5, 6, 7, 0, 9, 10] 2 0 = .ok start := by decide +kernel
  have grew : Step.Returns (Positions.update 3 7) start () (Positions.update 3 7 start).2 :=
    Step.returns_of_result (by decide +kernel)
  have shrank : Step.Returns (Positions.rollback 2) (Positions.update 3 7 start).2 ()
      (Positions.rollback 2 (Positions.update 3 7 start).2).2 :=
    Step.returns_of_result (by decide +kernel)
  have course := ((Course.start.update (by decide) grew).rollback (by decide) shrank)
  obtain ⟨mask, next, -⟩ := course_aligned created course
  refine ⟨start, _, created, course, mask.trans (by decide +kernel), ?_⟩
  rw [next, mask]
  decide +kernel

end StagedDecoding.Positions
