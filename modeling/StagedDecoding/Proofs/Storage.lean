import StagedDecoding.Histories.Buffer
import StagedDecoding.Proofs.Blocks
import StagedDecoding.Proofs.Lineage

/-! Flat storage shows rows.

A buffer is cut into the cells of each row, and a row is the front of its cells. A write stays within
one row, so it changes that row alone, and what lies behind the current length never shows. So each
operation does to the rows what the operation of the same name does to `Histories`: it succeeds and
fails with it, and leaves the rows alone when it fails.
-/

set_option autoImplicit false

namespace StagedDecoding

namespace Cells

def overwrite (offset : Nat) (run part : List Token) : List Token :=
  part.take offset ++ run ++ part.drop (offset + run.length)

variable {before part after run : Cells} {offset count capacity size : Nat}

theorem length_overwrite (fits : offset + run.length ≤ part.length) :
    (overwrite offset run part).length = part.length := by
  simp only [overwrite, List.length_append, List.length_take, List.length_drop]
  omega

theorem take_overwrite (inside : offset ≤ part.length) :
    (overwrite offset run part).take (offset + run.length) = part.take offset ++ run := by
  rw [overwrite]
  exact List.take_left' (by rw [List.length_append, List.length_take, Nat.min_eq_left inside])

theorem read_middle (fits : count ≤ part.length) :
    Cells.read before.length count (before ++ part ++ after) = .ok (part.take count) := by
  have inside : before.length + count ≤ (before ++ part ++ after).length := by
    simp only [List.length_append]
    omega
  rw [Cells.read, if_pos inside, List.append_assoc, List.drop_left, List.take_append_of_le_length fits]

theorem write_middle (fits : offset + run.length ≤ part.length) :
    Cells.write (before.length + offset) run (before ++ part ++ after) =
      .ok (before ++ overwrite offset run part ++ after) := by
  have inside : before.length + offset + run.length ≤ (before ++ part ++ after).length := by
    simp only [List.length_append]
    omega
  have front : (before ++ part ++ after).take (before.length + offset) =
      before ++ part.take offset := by
    rw [List.append_assoc, List.take_length_add_append,
      List.take_append_of_le_length (Nat.le_trans (Nat.le_add_right _ _) fits)]
  have back : (before ++ part ++ after).drop (before.length + offset + run.length) =
      part.drop (offset + run.length) ++ after := by
    rw [List.append_assoc, Nat.add_assoc, List.drop_length_add_append,
      List.drop_append_of_le_length fits]
  rw [Cells.write, if_pos inside, front, back]
  simp only [overwrite, List.append_assoc]

def Wide (capacity : Nat) (parts : List (List Token)) : Prop :=
  ∀ part ∈ parts, part.length = capacity

variable {earlier parts runs more : List (List Token)} {cells : Cells}

theorem wide_blocks {rows : Nat} (filled : cells.length = rows * capacity) :
    Wide capacity (Tensor.blocks capacity rows cells) :=
  fun _ member => Tensor.length_of_mem_blocks filled member

theorem Wide.length_flatten (wide : Wide capacity parts) :
    parts.flatten.length = parts.length * capacity := by
  rw [List.length_flatten, List.map_congr_left wide, List.map_const', List.sum_replicate_nat]

theorem Wide.concat (ahead : Wide capacity earlier) (here : part.length = capacity) :
    Wide capacity (earlier ++ [part]) :=
  List.forall_mem_append.mpr ⟨ahead, List.forall_mem_singleton.mpr here⟩

theorem Wide.write (ahead : Wide capacity earlier) (fits : offset + run.length ≤ part.length) :
    Cells.write (earlier.length * capacity + offset) run (earlier ++ part :: parts).flatten =
      .ok (earlier ++ [overwrite offset run part] ++ parts).flatten := by
  rw [List.flatten_append, List.flatten_cons, ← List.append_assoc, ← ahead.length_flatten,
    write_middle fits]
  simp

theorem writeRows_flatten (ahead : Wide capacity earlier) (wide : Wide capacity parts)
    (fits : ∀ run ∈ runs, offset + run.length ≤ capacity) (count : runs.length = parts.length) :
    Cells.writeRows capacity offset earlier.length runs (earlier ++ parts).flatten =
      .ok (earlier ++ List.zipWith (overwrite offset) runs parts).flatten := by
  induction runs generalizing earlier parts with
  | nil =>
    obtain rfl := List.length_eq_zero_iff.mp count.symm
    rfl
  | cons run rest ih =>
    cases parts with
    | nil => cases count
    | cons part parts =>
      obtain ⟨here, others⟩ := List.forall_mem_cons.mp wide
      obtain ⟨room, later⟩ := List.forall_mem_cons.mp fits
      rw [← here] at room
      have done := ih (ahead.concat ((length_overwrite room).trans here)) others later
        (Nat.succ.inj count)
      rw [List.length_append, List.length_singleton] at done
      rw [Cells.writeRows, ahead.write room]
      simpa [bind, Except.bind] using done

theorem writeRows_append (row : Nat) :
    Cells.writeRows capacity offset row (runs ++ more) cells =
      Cells.writeRows capacity offset row runs cells >>=
        Cells.writeRows capacity offset (row + runs.length) more := by
  induction runs generalizing row cells with
  | nil => rfl
  | cons run rest ih =>
    have shift : row + (run :: rest).length = row + 1 + rest.length := by
      rw [List.length_cons]
      omega
    rw [shift, List.cons_append, Cells.writeRows, Cells.writeRows, bind_assoc]
    exact bind_congr fun written => ih (row + 1)

theorem wide_overwritten (wide : Wide capacity parts)
    (fits : ∀ run ∈ runs, offset + run.length ≤ capacity) :
    Wide capacity (List.zipWith (overwrite offset) runs parts) := by
  intro part member
  obtain ⟨i, inside, rfl⟩ := List.getElem_of_mem member
  rw [List.length_zipWith] at inside
  have here : parts[i].length = capacity := wide _ (List.getElem_mem _)
  have room : offset + runs[i].length ≤ capacity := fits _ (List.getElem_mem _)
  rw [List.getElem_zipWith, length_overwrite (here.symm ▸ room), here]

theorem take_overwritten (wide : Wide capacity parts) (same : ∀ run ∈ runs, run.length = size)
    (fits : offset + size ≤ capacity) :
    (List.zipWith (overwrite offset) runs parts).map (·.take (offset + size)) =
      List.zipWith (fun run part => part.take offset ++ run) runs parts := by
  rw [List.map_zipWith]
  refine List.ext_getElem (by simp) fun i here _ => ?_
  rw [List.length_zipWith] at here
  have long : runs[i].length = size := same _ (List.getElem_mem _)
  have own : parts[i].length = capacity := wide _ (List.getElem_mem _)
  rw [List.getElem_zipWith, List.getElem_zipWith]
  have front := @take_overwrite parts[i] runs[i] offset (by omega)
  rwa [long] at front

end Cells

namespace HistoryBuffer

open Cells

def parts (b : HistoryBuffer) : List (List Token) :=
  Tensor.blocks b.capacity b.rowCount b.tokens

def histories (b : HistoryBuffer) : Histories where
  rows := b.parts.map (·.take b.length)
  length := b.length
  promptLength := b.promptLength
  capacity := b.capacity

structure Sound (b : HistoryBuffer) : Prop where
  tokens : b.tokens.length = b.rowCount * b.capacity
  scratch : b.scratch.length = b.rowCount * b.capacity
  within : b.length ≤ b.capacity

/-- The operation does to the rows what `revise` does, with the same outcome. -/
def Tracks (step : Step HistoryBuffer Unit) (revise : Histories → Except Failure Histories)
    (b : HistoryBuffer) : Prop :=
  (step b).2.Sound ∧ ((step b).1, (step b).2.histories) = Step.attempt revise b.histories

variable {b after : HistoryBuffer} {step : Step HistoryBuffer Unit}
  {revise : Histories → Except Failure Histories} {failure : Failure}

@[simp] theorem length_parts (b : HistoryBuffer) : b.parts.length = b.rowCount :=
  Tensor.blocks_length ..

@[simp] theorem rowCount_histories (b : HistoryBuffer) : b.histories.rowCount = b.rowCount := by
  simp [Histories.rowCount, histories]

@[simp] theorem checkRowCount_histories (b : HistoryBuffer) (count : Nat) :
    b.histories.checkRowCount count = b.checkRowCount count := by
  simp only [Histories.checkRowCount, checkRowCount, rowCount_histories]

@[simp] theorem checkCapacity_histories (b : HistoryBuffer) (extra : Nat) :
    b.histories.checkCapacity extra = b.checkCapacity extra := rfl

theorem checkRowCount_eq_ok {count : Nat} :
    b.checkRowCount count = .ok () ↔ count = b.rowCount := by
  simp [checkRowCount]

theorem checkCapacity_eq_ok {extra : Nat} :
    b.checkCapacity extra = .ok () ↔ b.length + extra ≤ b.capacity := by
  simp [checkCapacity]

theorem Sound.flatten_parts (sound : b.Sound) : b.parts.flatten = b.tokens :=
  Tensor.flatten_blocks sound.tokens

theorem Sound.wide (sound : b.Sound) : Wide b.capacity b.parts :=
  wide_blocks sound.tokens

theorem Sound.level (sound : b.Sound) : ∀ row ∈ b.histories.rows, row.length = b.length := by
  intro row member
  obtain ⟨part, there, rfl⟩ := List.mem_map.mp member
  rw [List.length_take, sound.wide part there, Nat.min_eq_left sound.within]

theorem Sound.sequence (sound : b.Sound) {row : Nat} (inside : row < b.rowCount) :
    b.sequence row = b.histories.row row := by
  have bound : row < b.parts.length := b.length_parts.symm ▸ inside
  -- the cells are those of the rows before, the row, and the rows behind
  have split : b.tokens = (b.parts.take row).flatten ++ b.parts[row] ++
      (b.parts.drop (row + 1)).flatten := by
    rw [← sound.flatten_parts, List.append_assoc, ← List.flatten_cons, ← List.flatten_append,
      List.getElem_cons_drop, List.take_append_drop]
  have ahead : Wide b.capacity (b.parts.take row) := fun part member =>
    sound.wide part (List.mem_of_mem_take member)
  have place : row * b.capacity = (b.parts.take row).flatten.length := by
    rw [ahead.length_flatten, List.length_take, Nat.min_eq_left (Nat.le_of_lt bound)]
  have short : b.length ≤ b.parts[row].length := by
    rw [sound.wide _ (List.getElem_mem bound)]
    exact sound.within
  have read : b.sequence row = .ok (b.parts[row].take b.length) := by
    rw [HistoryBuffer.sequence, place]
    rw [split]
    exact read_middle short
  refine read.trans (Outcome.fetch_eq_ok.mpr ?_).symm
  rw [histories, List.getElem?_map, List.getElem?_eq_getElem bound]
  rfl

theorem Sound.row_total (sound : b.Sound) {row : Nat} (inside : row < b.rowCount) :
    ∃ tokens, b.histories.row row = .ok tokens ∧ tokens.length = b.length := by
  have bound : row < b.histories.rows.length := by
    rwa [← rowCount_histories b] at inside
  exact ⟨b.histories.rows[row], Outcome.fetch_eq_ok.mpr (List.getElem?_eq_getElem bound),
    sound.level _ (List.getElem_mem bound)⟩

theorem histories_overwritten (next : HistoryBuffer) {parts runs : List (List Token)} {offset size : Nat}
    (laid : next.tokens = (List.zipWith (overwrite offset) runs parts).flatten)
    (count : runs.length = next.rowCount) (whole : parts.length = next.rowCount)
    (wide : Wide next.capacity parts) (same : ∀ run ∈ runs, run.length = size)
    (room : offset + size ≤ next.capacity) (ends : next.length = offset + size) :
    next.tokens.length = next.rowCount * next.capacity ∧
      next.histories.rows = List.zipWith (fun run part => part.take offset ++ run) runs parts := by
  have wide' := wide_overwritten wide fun run member => (same run member).symm ▸ room
  have number : (List.zipWith (overwrite offset) runs parts).length = next.rowCount := by
    rw [List.length_zipWith, count, whole, Nat.min_self]
  constructor
  · rw [laid, wide'.length_flatten, number]
  · rw [histories, HistoryBuffer.parts, laid, ← number, Tensor.blocks_flatten wide', ends,
      take_overwritten wide same room]

theorem tracks_of_returns (returned : Step.Returns step b () after) (sound : after.Sound)
    (revised : revise b.histories = .ok after.histories) : b.Tracks step revise := by
  unfold Tracks Step.attempt
  rw [returned, revised]
  exact ⟨sound, rfl⟩

theorem tracks_of_fails (failed : Step.Fails step b failure after) (sound : after.Sound)
    (kept : after.histories = b.histories) (refused : revise b.histories = .error failure) :
    b.Tracks step revise := by
  unfold Tracks Step.attempt
  rw [failed, refused]
  exact ⟨sound, congrArg _ kept⟩

theorem tracks_attempt {change : HistoryBuffer → Except Failure HistoryBuffer} (sound : b.Sound)
    (ends : (∃ failure, change b = .error failure ∧ revise b.histories = .error failure) ∨
      ∃ after, change b = .ok after ∧ after.Sound ∧ revise b.histories = .ok after.histories) :
    b.Tracks (.attempt change) revise := by
  rcases ends with ⟨failure, failed, refused⟩ | ⟨after, changed, kept, revised⟩
  · exact tracks_of_fails (Step.fails_attempt.mpr ⟨failed, rfl⟩) sound rfl refused
  · exact tracks_of_returns (Step.returns_attempt.mpr changed) kept revised

theorem Tracks.checked {check : Except Failure Unit} (sound : b.Sound)
    (rest : check = .ok () → b.Tracks step revise) :
    b.Tracks (liftM check >>= fun _ => step) fun h => check >>= fun _ => revise h := by
  cases check with
  | error failure => exact @tracks_of_fails b b _ _ failure rfl sound rfl rfl
  | ok => exact rest rfl

theorem fronts {runs parts : List (List Token)} (count : runs.length = parts.length) :
    List.zipWith (fun run part => part.take 0 ++ run) runs parts = runs :=
  List.ext_getElem (by simp [count]) fun i _ _ => by simp

theorem Sound.extended (sound : b.Sound) (runs : List (List Token)) {size : Nat}
    (count : runs.length = b.rowCount) (same : ∀ run ∈ runs, run.length = size)
    (room : b.length + size ≤ b.capacity) :
    ∃ cells, b.tokens.writeRows b.capacity b.length 0 runs = .ok cells ∧
      ({ b with tokens := cells, length := b.length + size } : HistoryBuffer).Sound ∧
      ({ b with tokens := cells, length := b.length + size } : HistoryBuffer).histories.rows =
        List.zipWith (fun run row => row ++ run) runs b.histories.rows := by
  have written := @writeRows_flatten b.length b.capacity [] b.parts runs (by simp [Wide]) sound.wide
    (fun run member => (same run member).symm ▸ room) (by rw [count, length_parts])
  rw [List.nil_append, List.nil_append, sound.flatten_parts] at written
  obtain ⟨filled, shown⟩ := histories_overwritten { b with
      tokens := (List.zipWith (overwrite b.length) runs b.parts).flatten
      length := b.length + size } rfl count b.length_parts sound.wide same room rfl
  refine ⟨_, written, ⟨filled, sound.scratch, room⟩, shown.trans ?_⟩
  rw [histories, List.zipWith_map_right]

theorem Sound.append (sound : b.Sound) (tokens : List Token) :
    b.Tracks (append tokens) (Histories.append tokens) := by
  apply tracks_attempt sound
  simp only [Histories.append, checkRowCount_histories, checkCapacity_histories]
  cases counted : b.checkRowCount tokens.length with
  | error failure => exact .inl ⟨failure, rfl, rfl⟩
  | ok =>
    cases room : b.checkCapacity 1 with
    | error failure => exact .inl ⟨failure, rfl, rfl⟩
    | ok =>
      obtain ⟨cells, written, kept, shown⟩ := sound.extended (tokens.map fun t => [t])
        (by rw [List.length_map, checkRowCount_eq_ok.mp counted]) (by simp)
        (checkCapacity_eq_ok.mp room)
      rw [List.zipWith_map_left, List.zipWith_comm] at shown
      refine .inr ⟨_, Outcome.bind_eq_ok.mpr ⟨(), rfl, Outcome.bind_eq_ok.mpr ⟨(), rfl,
        Outcome.bind_eq_ok.mpr ⟨cells, written, rfl⟩⟩⟩, kept, ?_⟩
      exact congrArg (fun rows => Except.ok
        { b.histories with rows := rows, length := b.length + 1 }) shown.symm

theorem Sound.appendRun (sound : b.Sound) (tokens : List Token) :
    b.Tracks (appendRun tokens) (Histories.appendRun tokens) := by
  apply tracks_attempt sound
  simp only [Histories.appendRun, rowCount_histories, checkCapacity_histories]
  by_cases single : b.rowCount = 1
  · simp only [if_neg (not_not.mpr single)]
    cases room : b.checkCapacity tokens.length with
    | error failure => exact .inl ⟨failure, rfl, rfl⟩
    | ok =>
      obtain ⟨cells, written, kept, shown⟩ := sound.extended [tokens]
        (by rw [single, List.length_singleton]) (by simp) (checkCapacity_eq_ok.mp room)
      obtain ⟨row, only⟩ := List.length_eq_one_iff.mp ((rowCount_histories b).trans single)
      -- the only row begins with the first cell
      rw [Cells.writeRows, Nat.zero_mul, Nat.zero_add] at written
      obtain ⟨_, put, last⟩ := Outcome.bind_eq_ok.mp written
      obtain rfl := Except.ok.inj last
      refine .inr ⟨_, Outcome.bind_eq_ok.mpr ⟨(), rfl, Outcome.bind_eq_ok.mpr ⟨_, put, rfl⟩⟩,
        kept, ?_⟩
      rw [only] at shown ⊢
      exact congrArg (fun rows => Except.ok
        { b.histories with rows := rows, length := b.length + tokens.length }) shown.symm
  · exact .inl ⟨.shape .singleRow (.count b.rowCount), by simp [single]; rfl, by simp [single]; rfl⟩

theorem Sound.dropLast (sound : b.Sound) (count : Nat) :
    b.Tracks (dropLast count) (Histories.dropLast count) := by
  apply tracks_attempt sound
  by_cases beyond : b.length < count
  · exact .inl ⟨.rollback count b.length, if_pos beyond, if_pos beyond⟩
  · have cut : b.length - count ≤ b.length := Nat.sub_le _ _
    refine .inr ⟨_, if_neg beyond,
      ⟨sound.tokens, sound.scratch, Nat.le_trans cut sound.within⟩, (if_neg beyond).trans ?_⟩
    simp only [histories, parts, List.map_map, Function.comp_def, List.take_take,
      Nat.min_eq_left cut]

/-- A parent is a row, and what is behind the last row has no descendants. -/
theorem parent_histories (b : HistoryBuffer) (parent : Nat) :
    b.histories.parent parent = if b.rowCount ≤ parent then
      .error (.shape (.parentBelow b.rowCount) (.count parent)) else b.histories.row parent := by
  have count : b.histories.rows.length = b.rowCount := rowCount_histories b
  unfold Histories.parent Histories.row fetch
  rw [rowCount_histories]
  by_cases missing : b.rowCount ≤ parent
  · rw [if_pos missing, List.getElem?_eq_none (count.symm ▸ missing)]
  · rw [if_neg missing, List.getElem?_eq_getElem (by omega)]

theorem Sound.copyParents_cons (sound : b.Sound) {parent : Nat} {token : Token} {row part : List Token}
    {earlier : List (List Token)} (inside : parent < b.rowCount)
    (found : b.histories.row parent = .ok row) (ahead : Wide b.capacity earlier)
    (fits : 0 + (row ++ [token]).length ≤ part.length) (parts : List (List Token))
    (rest : List (Nat × Token)) :
    @Eq (Except Failure Unit × Cells)
      (copyParents b earlier.length ((parent, token) :: rest) (earlier ++ part :: parts).flatten)
      (copyParents b (earlier.length + 1) rest
        (earlier ++ [overwrite 0 (row ++ [token]) part] ++ parts).flatten) := by
  rw [HistoryBuffer.copyParents, if_neg (Nat.not_le.mpr inside), sound.sequence inside, found]
  change ((liftM (Cells.write (earlier.length * b.capacity + 0) (row ++ [token])
    (earlier ++ part :: parts).flatten) >>= fun written =>
      set written >>= fun _ => HistoryBuffer.copyParents b (earlier.length + 1) rest :
    Step Cells Unit) (earlier ++ part :: parts).flatten) = _
  rw [ahead.write fits]
  rfl

/-- The rows of some parents are copied into scratch rows, each with its token behind it, unless a
parent does not exist. -/
theorem Sound.copyParents (sound : b.Sound) (room : b.length + 1 ≤ b.capacity)
    {pairs : List (Nat × Token)} {earlier parts : List (List Token)}
    (ahead : Wide b.capacity earlier) (wide : Wide b.capacity parts)
    (count : pairs.length = parts.length) :
    (∃ failure cells, (pairs.map Prod.fst).mapM b.histories.parent = .error failure ∧
        Step.Fails (copyParents b earlier.length pairs) (earlier ++ parts).flatten failure cells ∧
        cells.length = (earlier ++ parts).flatten.length) ∨
      ∃ ancestors, (pairs.map Prod.fst).mapM b.histories.parent = .ok ancestors ∧
        Step.Returns (copyParents b earlier.length pairs) (earlier ++ parts).flatten ()
          (earlier ++ List.zipWith (overwrite 0)
            (List.zipWith (fun row token => row ++ [token]) ancestors (pairs.map Prod.snd))
            parts).flatten := by
  induction pairs generalizing earlier parts with
  | nil =>
    obtain rfl := List.length_eq_zero_iff.mp count.symm
    exact .inr ⟨[], rfl, rfl⟩
  | cons pair rest ih =>
    obtain ⟨parent, token⟩ := pair
    cases parts with
    | nil => cases count
    | cons part parts =>
      by_cases missing : b.rowCount ≤ parent
      · refine .inl ⟨.shape (.parentBelow b.rowCount) (.count parent), _, ?_, ?_, rfl⟩
        · rw [List.map_cons, List.mapM_cons, parent_histories, if_pos missing]
          rfl
        · rw [HistoryBuffer.copyParents, if_pos missing]
          exact Step.fails_throw.mpr ⟨rfl, rfl⟩
      · obtain ⟨row, found, long⟩ := sound.row_total (Nat.not_le.mp missing)
        obtain ⟨here, others⟩ := List.forall_mem_cons.mp wide
        have fits : 0 + (row ++ [token]).length ≤ part.length := by
          rw [List.length_append, long, List.length_singleton]
          omega
        have first : b.histories.parent parent = .ok row := by
          rw [parent_histories, if_neg missing, found]
        have copied := sound.copyParents_cons (Nat.not_le.mp missing) found ahead fits parts rest
        -- the copy is one more part that the others are copied behind
        have later := ih (ahead.concat ((length_overwrite fits).trans here)) others
          (Nat.succ.inj count)
        rw [List.length_append, List.length_singleton] at later
        unfold Step.Fails Step.Returns at later ⊢
        rw [copied, List.map_cons, List.mapM_cons, first]
        rcases later with ⟨failure, cells, refused, failed, size⟩ | ⟨ancestors, all, returned⟩
        · refine .inl ⟨failure, cells, ?_, failed, ?_⟩
          · rw [refused]
            rfl
          · simp [size, length_overwrite fits]
        · refine .inr ⟨row :: ancestors, ?_, ?_⟩
          · rw [all]
            rfl
          · rw [returned]
            simp

theorem Sound.moveRows (sound : b.Sound) {parents : List Nat} {tokens : List Token}
    (counted : parents.length = b.rowCount) (given : tokens.length = b.rowCount)
    (room : b.length + 1 ≤ b.capacity) :
    b.Tracks (moveRows (parents.zip tokens)) fun h => do
      let ancestors ← parents.mapM h.parent
      return { h with
        rows := List.zipWith (fun row token => row ++ [token]) ancestors tokens
        length := h.length + 1 } := by
  have spare : (Tensor.blocks b.capacity b.rowCount b.scratch).flatten = b.scratch :=
    Tensor.flatten_blocks sound.scratch
  have copied := @Sound.copyParents b sound room (parents.zip tokens) []
    (Tensor.blocks b.capacity b.rowCount b.scratch) (by simp [Wide]) (wide_blocks sound.scratch)
    (by rw [List.length_zip, counted, given, Nat.min_self, Tensor.blocks_length])
  rw [List.map_fst_zip (Nat.le_of_eq (counted.trans given.symm)),
    List.map_snd_zip (Nat.le_of_eq (given.trans counted.symm)), List.nil_append, spare,
    List.length_nil] at copied
  rcases copied with ⟨failure, cells, refused, failed, size⟩ | ⟨ancestors, all, returned⟩
  · refine @tracks_of_fails b { b with scratch := cells } _ _ failure ?_
      ⟨sound.tokens, size.trans sound.scratch, sound.within⟩ rfl ?_
    · exact Step.fails_bind.mpr (.inr ⟨b, b, rfl, Step.fails_bind.mpr
        (.inl (Step.fails_within.mpr ⟨cells, failed, rfl⟩))⟩)
    · rw [refused]
      rfl
  · obtain ⟨inside, named⟩ := Histories.parents_eq_ok.mp all
    have long : ∀ row ∈ ancestors, row.length = b.length := by
      rw [named, List.forall_mem_map]
      intro parent member
      rw [List.getD_eq_getElem _ _ (inside parent member)]
      exact sound.level _ (List.getElem_mem _)
    have count : ancestors.length = b.rowCount := by rw [named, List.length_map, counted]
    let runs := List.zipWith (fun row token => row ++ [token]) ancestors tokens
    have number : runs.length = b.rowCount := by
      rw [List.length_zipWith, count, given, Nat.min_self]
    have same : ∀ run ∈ runs, run.length = b.length + 1 := by
      intro run member
      obtain ⟨i, bound, rfl⟩ := List.getElem_of_mem member
      rw [List.getElem_zipWith, List.length_append, long _ (List.getElem_mem _),
        List.length_singleton]
    -- the scratch rows become the tokens, so no row is overwritten before all are read
    obtain ⟨filled, shown⟩ := histories_overwritten { b with
        tokens := (List.zipWith (overwrite 0) runs
          (Tensor.blocks b.capacity b.rowCount b.scratch)).flatten
        scratch := b.tokens
        length := b.length + 1 } rfl number (Tensor.blocks_length ..) (wide_blocks sound.scratch)
      same (by rwa [Nat.zero_add]) (Nat.zero_add _).symm
    refine tracks_of_returns (Step.returns_bind.mpr ⟨b, b, rfl, Step.returns_bind.mpr ⟨(), _,
      Step.returns_within.mpr ⟨_, returned, rfl⟩, Step.returns_modify.mpr rfl⟩⟩)
      ⟨filled, sound.tokens, room⟩ ?_
    rw [all]
    exact congrArg (fun rows => Except.ok { b.histories with rows := rows, length := b.length + 1 })
      (shown.trans (fronts (by rw [number, Tensor.blocks_length]))).symm

theorem Sound.descend (sound : b.Sound) (parents : List Nat) (tokens : List Token) :
    b.Tracks (descend parents tokens) (Histories.descend parents tokens) := by
  have moved := fun counted given room => @Sound.moveRows b sound parents tokens
    (checkRowCount_eq_ok.mp counted) (checkRowCount_eq_ok.mp given) (checkCapacity_eq_ok.mp room)
  have checked := Tracks.checked sound fun counted => Tracks.checked sound fun given =>
    Tracks.checked sound fun room => moved counted given room
  unfold Tracks Step.attempt at checked ⊢
  simp only [Histories.descend, checkRowCount_histories, checkCapacity_histories]
  exact checked

theorem copyPrompts_eq (capacity beams row : Nat) (prompts : List (List Token)) (cells : Cells) :
    copyPrompts capacity beams row prompts cells =
      cells.writeRows capacity 0 row (prompts.flatMap (List.replicate beams)) := by
  induction prompts generalizing row cells with
  | nil => rfl
  | cons prompt rest ih =>
    rw [List.flatMap_cons, writeRows_append, List.length_replicate, copyPrompts]
    exact bind_congr fun written => ih (row + beams) written

theorem prompts_eq_blocks (size batch : Nat) (inputIds : List Token) :
    (List.range batch).map (fun entry => (inputIds.drop (entry * size)).take size) =
      Tensor.blocks size batch inputIds := by
  refine List.ext_getElem? fun entry => ?_
  rw [Tensor.getElem?_blocks, List.getElem?_map]
  split
  · next inside => rw [List.getElem?_range inside, Option.map_some]
  · next beyond =>
    rw [List.getElem?_eq_none (by rw [List.length_range]; exact Nat.le_of_not_lt beyond),
      Option.map_none]

theorem copyPrompts_blank {prompts : List (List Token)} {beams capacity size rows : Nat}
    (count : prompts.length * beams = rows) (same : ∀ prompt ∈ prompts, prompt.length = size)
    (room : size ≤ capacity) :
    let blank : Cells := List.replicate (rows * capacity) 0
    ∃ cells, copyPrompts capacity beams 0 prompts blank = .ok cells ∧
      let b : HistoryBuffer := ⟨cells, blank, rows, capacity, size, size⟩
      b.Sound ∧ b.histories = ⟨prompts.flatMap (List.replicate beams), size, size, capacity⟩ := by
  intro blank
  let runs := prompts.flatMap (List.replicate beams)
  have filled : blank.length = rows * capacity := List.length_replicate
  have number : runs.length = rows := by
    simp [runs, List.length_flatMap, count]
  have long : ∀ run ∈ runs, run.length = size := by
    intro run member
    obtain ⟨prompt, inside, copied⟩ := List.mem_flatMap.mp member
    rw [List.eq_of_mem_replicate copied]
    exact same prompt inside
  have wide := wide_blocks filled
  have written := @writeRows_flatten 0 capacity [] (Tensor.blocks capacity rows blank) runs
    (by simp [Wide]) wide (fun run member => by rwa [long run member, Nat.zero_add])
    (by rw [number, Tensor.blocks_length])
  rw [List.nil_append, List.nil_append, Tensor.flatten_blocks filled] at written
  -- writing the copies into blank rows leaves them with nothing behind
  obtain ⟨laid, shown⟩ := histories_overwritten
    ⟨(List.zipWith (overwrite 0) runs (Tensor.blocks capacity rows blank)).flatten, blank, rows,
      capacity, size, size⟩ rfl number (Tensor.blocks_length ..) wide long
    (by rwa [Nat.zero_add]) (Nat.zero_add _).symm
  refine ⟨_, (copyPrompts_eq ..).trans written, ⟨laid, filled, room⟩, ?_⟩
  exact congrArg (fun rows => Histories.mk rows size size capacity)
    (shown.trans (fronts (by rw [number, Tensor.blocks_length])))

theorem start_tracks (inputIds : List Token) (batch beams capacity : Nat) :
    (∃ failure, start inputIds batch beams capacity = .error failure ∧
      Histories.start inputIds batch beams capacity = .error failure) ∨
    ∃ b, start inputIds batch beams capacity = .ok b ∧ b.Sound ∧
      Histories.start inputIds batch beams capacity = .ok b.histories := by
  unfold start Histories.start
  by_cases uneven : (batch = 0 || inputIds.length % batch ≠ 0) = true
  · exact .inl ⟨_, by rw [if_pos uneven]; rfl, if_pos uneven⟩
  rw [if_neg uneven, if_neg uneven]
  by_cases long : capacity < inputIds.length / batch
  · exact .inl ⟨_, by simp only [if_pos long]; rfl, by simp only [if_pos long]⟩
  simp only [if_neg long]
  simp only [Bool.or_eq_true, decide_eq_true_eq, not_or, Decidable.not_not] at uneven
  have whole : inputIds.length = batch * (inputIds.length / batch) :=
    (Nat.mul_div_cancel' (Nat.dvd_of_mod_eq_zero uneven.2)).symm
  obtain ⟨cells, written, sound, shows⟩ := @copyPrompts_blank
    (Tensor.blocks (inputIds.length / batch) batch inputIds) beams capacity _ (batch * beams)
    (by rw [Tensor.blocks_length]) (fun _ member => Tensor.length_of_mem_blocks whole member)
    (Nat.le_of_not_lt long)
  refine .inr ⟨_, Outcome.bind_eq_ok.mpr ⟨cells, ?_, rfl⟩, sound, congrArg Except.ok shows.symm⟩
  rw [prompts_eq_blocks]
  exact written

end HistoryBuffer

end StagedDecoding
