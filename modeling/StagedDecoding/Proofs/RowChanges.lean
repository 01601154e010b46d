import StagedDecoding.Proofs.Rooting
import StagedDecoding.Proofs.Storage

/-! Any course of changes to flat storage, next to plain rows.

Plain rows are lists that grow and are cut, without capacity for more and without leftovers. They
take the same changes as a buffer. After any course of changes, taken or refused, the buffer reads
as the plain rows, and it takes the next change exactly when the plain rows admit it. What a refused
change has already copied is never read.
-/

set_option autoImplicit false

namespace StagedDecoding

inductive RowChange where
  | append (tokens : List Token)
  | descend (parents : List Nat) (tokens : List Token)
  | appendRun (tokens : List Token)
  | dropLast (count : Nat)
  deriving DecidableEq, Repr

structure PlainRows where
  rows : List (List Token)
  length : Nat
  deriving DecidableEq, Repr

def PlainRows.ofPrompts (inputIds : List Token) (batch beams : Nat) : PlainRows where
  rows := (List.range (batch * beams)).map fun row => promptOf inputIds batch (row / beams)
  length := inputIds.length / batch

namespace RowChange

def perform : RowChange → Step HistoryBuffer Unit
  | .append tokens => HistoryBuffer.append tokens
  | .descend parents tokens => HistoryBuffer.descend parents tokens
  | .appendRun tokens => HistoryBuffer.appendRun tokens
  | .dropLast count => HistoryBuffer.dropLast count

def revise : RowChange → Histories → Except Failure Histories
  | .append tokens => Histories.append tokens
  | .descend parents tokens => Histories.descend parents tokens
  | .appendRun tokens => Histories.appendRun tokens
  | .dropLast count => Histories.dropLast count

def rows : RowChange → List (List Token) → List (List Token)
  | .append tokens, old => List.zipWith (fun row token => row ++ [token]) old tokens
  | .descend parents tokens, old =>
    List.zipWith (fun parent token => old.getD parent [] ++ [token]) parents tokens
  | .appendRun tokens, old => old.map fun row => row ++ tokens
  | .dropLast count, old => old.map fun row => row.take (row.length - count)

def extent : RowChange → Nat → Nat
  | .append _, length => length + 1
  | .descend _ _, length => length + 1
  | .appendRun tokens, length => length + tokens.length
  | .dropLast count, length => length - count

def Admitted (capacity rowCount length : Nat) : RowChange → Prop
  | .append tokens => tokens.length = rowCount ∧ length + 1 ≤ capacity
  | .descend parents tokens => parents.length = rowCount ∧ tokens.length = rowCount ∧
      length + 1 ≤ capacity ∧ ∀ parent ∈ parents, parent < rowCount
  | .appendRun tokens => rowCount = 1 ∧ length + tokens.length ≤ capacity
  | .dropLast count => count ≤ length

instance (capacity rowCount length : Nat) (change : RowChange) :
    Decidable (change.Admitted capacity rowCount length) :=
  match change with
  | .append _ => inferInstanceAs (Decidable (_ ∧ _))
  | .descend _ _ => inferInstanceAs (Decidable (_ ∧ _ ∧ _ ∧ _))
  | .appendRun _ => inferInstanceAs (Decidable (_ ∧ _))
  | .dropLast _ => inferInstanceAs (Decidable (_ ≤ _))

/-- The change to plain rows, which stay as they are if they do not admit it. -/
def apply (capacity : Nat) (plain : PlainRows) (change : RowChange) : PlainRows :=
  if change.Admitted capacity plain.rows.length plain.length then
    ⟨change.rows plain.rows, change.extent plain.length⟩
  else plain

variable {change : RowChange} {h next : Histories} {b first : HistoryBuffer}

theorem revise_eq_ok (level : ∀ row ∈ h.rows, row.length = h.length) :
    change.revise h = .ok next ↔
      change.Admitted h.capacity h.rows.length h.length ∧
        next = { h with rows := change.rows h.rows, length := change.extent h.length } := by
  cases change with
  | append tokens => exact Histories.append_eq_ok.trans and_assoc.symm
  | descend parents tokens =>
    rw [revise, Histories.descend_eq_ok, Admitted, rows, List.zipWith_map_left]
    simp only [and_assoc, extent]
  | appendRun tokens => exact Histories.appendRun_eq_ok.trans and_assoc.symm
  | dropLast count =>
    have cut : h.rows.map (·.take (h.length - count)) =
        h.rows.map fun row => row.take (row.length - count) :=
      List.map_congr_left fun row member => by rw [level row member]
    simp only [revise, Histories.dropLast, Admitted, rows, extent, ← cut]
    by_cases beyond : h.length < count
    · simp [beyond, Nat.not_le.mpr beyond]
    · simp [beyond, Nat.le_of_not_lt beyond, eq_comm]

theorem length_apply (capacity : Nat) (plain : PlainRows) (change : RowChange) :
    (change.apply capacity plain).rows.length = plain.rows.length := by
  unfold apply
  split
  · next admitted =>
    cases change with
    | append tokens => simp [rows, admitted.1]
    | descend parents tokens => simp [rows, admitted.1, admitted.2.1]
    | appendRun tokens => exact List.length_map _
    | dropLast count => exact List.length_map _
  · rfl

theorem length_run (capacity : Nat) (changes : List RowChange) (plain : PlainRows) :
    (changes.foldl (apply capacity) plain).rows.length = plain.rows.length := by
  induction changes generalizing plain with
  | nil => rfl
  | cons change rest ih => exact (ih _).trans (length_apply capacity plain change)

theorem tracks (sound : b.Sound) (change : RowChange) : b.Tracks change.perform change.revise := by
  cases change with
  | append tokens => exact sound.append tokens
  | descend parents tokens => exact sound.descend parents tokens
  | appendRun tokens => exact sound.appendRun tokens
  | dropLast count => exact sound.dropLast count

end RowChange

namespace HistoryBuffer

open RowChange

variable {change : RowChange} {b first after : HistoryBuffer} {plain : PlainRows}
  {promptLength capacity : Nat}

structure Reads (promptLength capacity : Nat) (plain : PlainRows) (b : HistoryBuffer) : Prop where
  sound : b.Sound
  shows : b.histories = ⟨plain.rows, plain.length, promptLength, capacity⟩

theorem Reads.length_eq (reads : b.Reads promptLength capacity plain) : b.length = plain.length :=
  congrArg Histories.length reads.shows

theorem Reads.capacity_eq (reads : b.Reads promptLength capacity plain) : b.capacity = capacity :=
  congrArg Histories.capacity reads.shows

theorem Reads.count (reads : b.Reads promptLength capacity plain) :
    plain.rows.length = b.rowCount := by
  rw [← rowCount_histories, reads.shows]
  rfl

theorem Reads.sequence (reads : b.Reads promptLength capacity plain) {i : Nat}
    (inside : i < plain.rows.length) : b.sequence i = .ok plain.rows[i] := by
  rw [reads.sound.sequence (reads.count ▸ inside), reads.shows]
  exact Outcome.fetch_eq_ok.mpr (List.getElem?_eq_getElem inside)

theorem Reads.level (reads : b.Reads promptLength capacity plain) :
    ∀ row ∈ plain.rows, row.length = plain.length := by
  have level := reads.sound.level
  rwa [reads.length_eq, reads.shows] at level

theorem Reads.returns (reads : b.Reads promptLength capacity plain)
    (admitted : change.Admitted capacity plain.rows.length plain.length) :
    ∃ after, Step.Returns change.perform b () after ∧ after.Reads promptLength capacity
      ⟨change.rows plain.rows, change.extent plain.length⟩ := by
  obtain ⟨sound, outcome⟩ := tracks reads.sound change
  rw [Step.attempt, reads.shows, (revise_eq_ok reads.level).mpr ⟨admitted, rfl⟩] at outcome
  obtain ⟨returned, shown⟩ := Prod.mk.inj outcome
  exact ⟨_, Prod.ext returned rfl, sound, shown⟩

/-- A change that they do not admit fails, and the buffer still reads as they do. -/
theorem Reads.fails (reads : b.Reads promptLength capacity plain)
    (refused : ¬ change.Admitted capacity plain.rows.length plain.length) :
    ∃ failure after, Step.Fails change.perform b failure after ∧
      after.Reads promptLength capacity plain := by
  obtain ⟨sound, outcome⟩ := tracks reads.sound change
  rw [Step.attempt, reads.shows] at outcome
  cases revised : change.revise ⟨plain.rows, plain.length, promptLength, capacity⟩ with
  | ok next => exact absurd ((revise_eq_ok reads.level).mp revised).1 refused
  | error failure =>
    rw [revised] at outcome
    obtain ⟨failed, shown⟩ := Prod.mk.inj outcome
    exact ⟨failure, _, Prod.ext failed rfl, sound, shown⟩

theorem Reads.apply (reads : b.Reads promptLength capacity plain) (change : RowChange) :
    (change.perform b).2.Reads promptLength capacity (change.apply capacity plain) := by
  unfold RowChange.apply
  split
  · next admitted =>
    obtain ⟨after, returned, shown⟩ := reads.returns admitted
    rw [returned]
    exact shown
  · next refused =>
    obtain ⟨failure, after, failed, shown⟩ := reads.fails refused
    rw [failed]
    exact shown

theorem Reads.run (reads : b.Reads promptLength capacity plain) (changes : List RowChange) :
    (changes.foldl (fun b change => (change.perform b).2) b).Reads promptLength capacity
      (changes.foldl (RowChange.apply capacity) plain) := by
  induction changes generalizing b plain with
  | nil => exact reads
  | cons change rest ih => exact ih (reads.apply change)

variable {inputIds : List Token} {batch beams : Nat}

theorem copies_eq_ofPrompts :
    (Tensor.blocks (inputIds.length / batch) batch inputIds).flatMap (List.replicate beams) =
      (PlainRows.ofPrompts inputIds batch beams).rows := by
  rcases Nat.eq_zero_or_pos beams with rfl | some
  · simp [PlainRows.ofPrompts]
  refine List.ext_getElem? fun row => ?_
  rw [getElem?_flatMap_replicate some, Tensor.getElem?_blocks, PlainRows.ofPrompts,
    List.getElem?_map]
  by_cases inside : row < batch * beams
  · rw [if_pos ((Nat.div_lt_iff_lt_mul some).mpr inside), List.getElem?_range inside]
    rfl
  · rw [if_neg (mt (Nat.div_lt_iff_lt_mul some).mp inside),
      List.getElem?_eq_none (by rw [List.length_range]; exact Nat.le_of_not_lt inside)]
    rfl

theorem reads_of_start (started : start inputIds batch beams capacity = .ok first) :
    first.Reads (inputIds.length / batch) capacity (.ofPrompts inputIds batch beams) := by
  rcases start_tracks inputIds batch beams capacity with
    ⟨failure, refused, -⟩ | ⟨b, opened, sound, shown⟩
  · cases refused.symm.trans started
  · obtain rfl := Except.ok.inj (opened.symm.trans started)
    obtain ⟨-, seen⟩ := Histories.start_eq_ok shown
    exact ⟨sound, by rw [seen, copies_eq_ofPrompts]; rfl⟩

/-- After any course of changes a buffer reads as plain rows that took the same changes. The next
change succeeds exactly when they admit it, and one that fails leaves every row as it was. -/
theorem reads_as_plain_rows (started : start inputIds batch beams capacity = .ok first)
    (changes : List RowChange) :
    let b := changes.foldl (fun b change => (change.perform b).2) first
    let plain := changes.foldl (RowChange.apply capacity) (.ofPrompts inputIds batch beams)
    b.rowCount = batch * beams ∧ plain.rows.length = batch * beams ∧
      b.length = plain.length ∧ b.length ≤ capacity ∧
      (∀ row ∈ plain.rows, row.length = b.length) ∧
      (∀ (i : Nat) (inside : i < plain.rows.length), b.sequence i = .ok plain.rows[i]) ∧
      ∀ change : RowChange,
        (change.Admitted capacity plain.rows.length plain.length →
          ∃ after, Step.Returns change.perform b () after) ∧
        (¬ change.Admitted capacity plain.rows.length plain.length →
          ∃ failure after, Step.Fails change.perform b failure after ∧ after.length = b.length ∧
            ∀ i < b.rowCount, after.sequence i = b.sequence i) := by
  have reads := (reads_of_start started).run changes
  have count : (changes.foldl (RowChange.apply capacity)
      (.ofPrompts inputIds batch beams)).rows.length = batch * beams := by
    rw [length_run, PlainRows.ofPrompts, List.length_map, List.length_range]
  refine ⟨reads.count.symm.trans count, count, reads.length_eq,
    reads.capacity_eq ▸ reads.sound.within, reads.length_eq ▸ reads.level,
    fun i inside => reads.sequence inside, fun change => ⟨fun admitted => ?_, fun refused => ?_⟩⟩
  · obtain ⟨after, returned, -⟩ := reads.returns admitted
    exact ⟨after, returned⟩
  · obtain ⟨failure, after, failed, still⟩ := reads.fails refused
    refine ⟨failure, after, failed, still.length_eq.trans reads.length_eq.symm, fun i inside => ?_⟩
    rw [← reads.count] at inside
    rw [still.sequence inside, reads.sequence inside]

/-- Two beams of each of two entries change places, and a descent breaks off at its last row after
it copied the others. -/
theorem rows_after_broken_descent : ∃ first : HistoryBuffer,
    start [1, 2, 3, 4] 2 2 4 = .ok first ∧
      let changes := [.append [5, 6, 7, 8], .descend [1, 0, 3, 2] [9, 9, 9, 9], .dropLast 1,
        .descend [0, 0, 2, 4] [1, 1, 1, 1]]
      let b := changes.foldl (fun b (change : RowChange) => (change.perform b).2) first
      (∀ i < 4, b.sequence i =
        fetch [[1, 2, 6], [1, 2, 5], [3, 4, 8], [3, 4, 7]] i) ∧
      b.scratch.take 4 = [1, 2, 6, 1] := by
  have started : start [1, 2, 3, 4] 2 2 4 = .ok
      ⟨[1, 2, 0, 0, 1, 2, 0, 0, 3, 4, 0, 0, 3, 4, 0, 0], List.replicate 16 0, 4, 4, 2, 2⟩ := by
    decide
  refine ⟨_, started, fun i inside => ?_, by decide⟩
  obtain ⟨-, count, -, -, -, reads, -⟩ := reads_as_plain_rows started [.append [5, 6, 7, 8],
    .descend [1, 0, 3, 2] [9, 9, 9, 9], .dropLast 1, .descend [0, 0, 2, 4] [1, 1, 1, 1]]
  refine (reads i (count.symm ▸ inside)).trans (Outcome.fetch_eq_ok.mpr ?_).symm
  rw [← List.getElem?_eq_getElem]
  exact congrArg (fun rows : List (List Token) => rows[i]?) (by decide)

end HistoryBuffer

end StagedDecoding
