import StagedDecoding.Proofs.RowChanges

/-! Where the prompt of a row ends.

A row is what is left of its prompt, and then what was added and not dropped since. The buffer tells
the two apart by the length that prompts had at the start. That is right until a drop reaches into
the prompt: tokens added after it fill the gap first and pass for prompt tokens, so `generated`
leaves them out, and padding among them is not counted.
-/

set_option autoImplicit false

namespace StagedDecoding

/-- A row in two parts: the rest of its prompt, and what was added and not dropped since. -/
structure SplitRow where
  prompt : List Token
  added : List Token
  deriving DecidableEq, Repr

namespace SplitRow

variable {row : SplitRow}

def tokens (row : SplitRow) : List Token :=
  row.prompt ++ row.added

def extend (row : SplitRow) (run : List Token) : SplitRow :=
  { row with added := row.added ++ run }

def cut (count : Nat) (row : SplitRow) : SplitRow where
  prompt := row.prompt.take (row.prompt.length - (count - row.added.length))
  added := row.added.take (row.added.length - count)

def gap (promptLength : Nat) (row : SplitRow) : Nat :=
  promptLength - row.prompt.length

def beyondGap (promptLength : Nat) (row : SplitRow) : List Token :=
  row.added.drop (row.gap promptLength)

def realLength (promptLength : Nat) (pad : Token) (row : SplitRow) : Nat :=
  row.prompt.countP (· != pad) + (row.added.take (row.gap promptLength)).countP (· != pad) +
    (row.beyondGap promptLength).length

@[simp] theorem tokens_extend (run : List Token) : (row.extend run).tokens = row.tokens ++ run :=
  (List.append_assoc ..).symm

theorem tokens_cut (count : Nat) :
    (row.cut count).tokens = row.tokens.take (row.tokens.length - count) := by
  rw [tokens, tokens, List.take_append, List.length_append]
  simp only [cut]
  congr 1
  · rcases Nat.le_total count row.added.length with small | large
    · rw [List.take_of_length_le (by omega), List.take_of_length_le (by omega)]
    · exact congrArg row.prompt.take (by omega)
  · rcases Nat.le_total count row.added.length with small | large
    · exact congrArg row.added.take (by omega)
    · rw [show row.added.length - count = 0 by omega,
        show row.prompt.length + row.added.length - count - row.prompt.length = 0 by omega]

theorem drop_tokens {promptLength : Nat} (short : row.prompt.length ≤ promptLength) :
    row.tokens.drop (min promptLength row.tokens.length) = row.beyondGap promptLength := by
  rw [tokens, beyondGap, gap, List.length_append, List.drop_append,
    List.drop_eq_nil_of_le (by omega), List.nil_append]
  rcases Nat.le_total promptLength (row.prompt.length + row.added.length) with long | all
  · rw [Nat.min_eq_left long]
  · rw [List.drop_eq_nil_of_le (by omega), List.drop_eq_nil_of_le (by omega)]

theorem take_tokens {promptLength : Nat} (short : row.prompt.length ≤ promptLength) :
    row.tokens.take (min promptLength row.tokens.length) =
      row.prompt ++ row.added.take (row.gap promptLength) := by
  rw [tokens, gap, List.length_append, List.take_append, List.take_of_length_le (by omega)]
  rcases Nat.le_total promptLength (row.prompt.length + row.added.length) with long | all
  · rw [Nat.min_eq_left long]
  · rw [List.take_of_length_le (by omega), List.take_of_length_le (by omega)]

/-- Nothing added is left out exactly when the whole prompt is there, or nothing was added. -/
theorem beyondGap_eq_added {promptLength : Nat} :
    row.beyondGap promptLength = row.added ↔ row.gap promptLength = 0 ∨ row.added = [] := by
  rw [beyondGap]
  constructor
  · intro whole
    have same := congrArg List.length whole
    rw [List.length_drop] at same
    rcases Nat.eq_zero_or_pos row.added.length with none | some
    · exact .inr (List.length_eq_zero_iff.mp none)
    · exact .inl (by omega)
  · rintro (none | none)
    · rw [none, List.drop_zero]
    · rw [none, List.drop_nil]

/-- Every added token counts exactly when no padding fills the gap. -/
theorem realLength_eq_all {promptLength : Nat} {pad : Token} :
    row.realLength promptLength pad = row.prompt.countP (· != pad) + row.added.length ↔
      pad ∉ row.added.take (row.gap promptLength) := by
  have parts : row.added.length =
      (row.added.take (row.gap promptLength)).length + (row.beyondGap promptLength).length := by
    rw [beyondGap, ← List.length_append, List.take_append_drop]
  rw [realLength, parts, Nat.add_assoc, Nat.add_left_cancel_iff, Nat.add_right_cancel_iff,
    List.countP_eq_length]
  simp only [bne_iff_ne, ne_eq]
  exact ⟨fun others inside => others pad inside rfl,
    fun missing token inside same => missing (same ▸ inside)⟩

def ofPrompts (inputIds : List Token) (batch beams : Nat) : List SplitRow :=
  (PlainRows.ofPrompts inputIds batch beams).rows.map fun prompt => ⟨prompt, []⟩

end SplitRow

namespace RowChange

def splits : RowChange → List SplitRow → List SplitRow
  | .append tokens, old => List.zipWith (fun row token => row.extend [token]) old tokens
  | .descend parents tokens, old =>
    List.zipWith (fun parent token => (old.getD parent ⟨[], []⟩).extend [token]) parents tokens
  | .appendRun tokens, old => old.map fun row => row.extend tokens
  | .dropLast count, old => old.map fun row => row.cut count

theorem tokens_splits (change : RowChange) (old : List SplitRow) :
    (change.splits old).map SplitRow.tokens = change.rows (old.map SplitRow.tokens) := by
  cases change with
  | append tokens => simp [splits, rows, List.map_zipWith, List.zipWith_map_left]
  | descend parents tokens =>
    simp only [splits, rows, List.map_zipWith, SplitRow.tokens_extend]
    refine congrArg (List.zipWith · parents tokens) (funext fun parent => funext fun token => ?_)
    exact congrArg (· ++ [token]) (List.getD_map old ⟨[], []⟩ SplitRow.tokens).symm
  | appendRun tokens => simp [splits, rows]
  | dropLast count => simp [splits, rows, SplitRow.tokens_cut]

theorem prompt_splits {promptLength : Nat} {old : List SplitRow} (change : RowChange)
    (short : ∀ row ∈ old, row.prompt.length ≤ promptLength) :
    ∀ row ∈ change.splits old, row.prompt.length ≤ promptLength := by
  intro row member
  cases change with
  | append tokens =>
    obtain ⟨i, inside, rfl⟩ := List.getElem_of_mem member
    rw [splits, List.length_zipWith] at inside
    simp only [splits, List.getElem_zipWith]
    exact short old[i] (List.getElem_mem _)
  | descend parents tokens =>
    obtain ⟨i, inside, rfl⟩ := List.getElem_of_mem member
    rw [splits, List.length_zipWith] at inside
    simp only [splits, List.getElem_zipWith, SplitRow.extend]
    -- a row that is not there counts as one without a prompt
    rcases Nat.lt_or_ge parents[i] old.length with there | beyond
    · rw [List.getD_eq_getElem _ _ there]
      exact short _ (List.getElem_mem there)
    · rw [List.getD_eq_default _ _ beyond]
      exact Nat.zero_le _
  | appendRun tokens =>
    obtain ⟨before, there, rfl⟩ := List.mem_map.mp member
    exact short before there
  | dropLast count =>
    obtain ⟨before, there, rfl⟩ := List.mem_map.mp member
    exact Nat.le_trans (List.length_take_le' ..) (short before there)

end RowChange

namespace HistoryBuffer

open RowChange

variable {b first after : HistoryBuffer} {plain : PlainRows} {promptLength capacity : Nat}
  {inputIds : List Token} {batch beams : Nat}

theorem Reads.taken {change : RowChange} (reads : b.Reads promptLength capacity plain)
    (returned : Step.Returns change.perform b () after) :
    change.Admitted capacity plain.rows.length plain.length ∧
      after.Reads promptLength capacity
        ⟨change.rows plain.rows, change.extent plain.length⟩ := by
  by_cases admitted : change.Admitted capacity plain.rows.length plain.length
  · obtain ⟨other, same, shown⟩ := reads.returns admitted
    obtain ⟨-, rfl⟩ := Step.returns_unique returned same
    exact ⟨admitted, shown⟩
  · obtain ⟨failure, other, failed, -⟩ := reads.fails admitted
    cases (Prod.mk.inj (failed.symm.trans returned)).1

structure Parted (promptLength capacity : Nat) (splits : List SplitRow) (b : HistoryBuffer) :
    Prop where
  reads : ∃ length, b.Reads promptLength capacity ⟨splits.map SplitRow.tokens, length⟩
  short : ∀ row ∈ splits, row.prompt.length ≤ promptLength

theorem Parted.run {splits : List SplitRow} (parted : b.Parted promptLength capacity splits)
    {changes : List RowChange} (ran : Step.Returns (changes.forM perform) b () after) :
    after.Parted promptLength capacity
      (changes.foldl (fun rows change => change.splits rows) splits) := by
  induction changes generalizing b splits with
  | nil =>
    obtain ⟨-, rfl⟩ := Step.returns_pure.mp ran
    exact parted
  | cons change rest ih =>
    obtain ⟨_, middle, returned, later⟩ := Step.returns_bind.mp ran
    obtain ⟨length, reads⟩ := parted.reads
    have next := (reads.taken returned).2
    rw [← tokens_splits] at next
    exact ih ⟨⟨_, next⟩, prompt_splits change parted.short⟩ later

theorem Parted.sequence {splits : List SplitRow} (parted : b.Parted promptLength capacity splits)
    {i : Nat} (inside : i < splits.length) :
    b.sequence i = .ok splits[i].tokens ∧ b.promptKept = min promptLength splits[i].tokens.length := by
  obtain ⟨length, reads⟩ := parted.reads
  have there : i < (splits.map SplitRow.tokens).length := by rwa [List.length_map]
  have read := reads.sequence there
  have long := reads.level _ (List.getElem_mem there)
  simp only [List.getElem_map] at read long
  refine ⟨read, ?_⟩
  rw [promptKept, reads.length_eq, ← long]
  exact congrArg (fun known => min known _) (congrArg Histories.promptLength reads.shows)

theorem Parted.generated {splits : List SplitRow} (parted : b.Parted promptLength capacity splits)
    {i : Nat} (inside : i < splits.length) :
    b.generated i = .ok (splits[i].beyondGap promptLength) := by
  obtain ⟨read, kept⟩ := parted.sequence inside
  rw [HistoryBuffer.generated, read, ← SplitRow.drop_tokens (parted.short _ (List.getElem_mem inside)),
    ← kept]
  rfl

theorem Parted.count {splits : List SplitRow} (parted : b.Parted promptLength capacity splits) :
    b.rowCount = splits.length := by
  obtain ⟨length, reads⟩ := parted.reads
  rw [← reads.count, List.length_map]

theorem Parted.realLengths {splits : List SplitRow}
    (parted : b.Parted promptLength capacity splits) (pad : Token) :
    b.realLengths pad = .ok (splits.map (SplitRow.realLength promptLength pad)) := by
  rw [HistoryBuffer.realLengths, parted.count, Outcome.mapM_eq_ok]
  refine List.forall₂_iff_get.mpr ⟨by simp, fun i first second => ?_⟩
  rw [List.length_range] at first
  obtain ⟨read, kept⟩ := parted.sequence first
  have short := parted.short _ (List.getElem_mem first)
  simp only [List.get_eq_getElem, List.getElem_range, List.getElem_map, read, kept,
    SplitRow.realLength, ← List.countP_append]
  rw [← SplitRow.take_tokens short, ← SplitRow.drop_tokens short, List.length_drop]
  rfl

theorem parted_of_start (started : start inputIds batch beams capacity = .ok first) :
    first.Parted (inputIds.length / batch) capacity
      (SplitRow.ofPrompts inputIds batch beams) := by
  have whole : SplitRow.tokens ∘ (fun prompt => ⟨prompt, []⟩) = id :=
    funext fun prompt => List.append_nil prompt
  refine ⟨⟨inputIds.length / batch, ?_⟩, fun row member => ?_⟩
  · rw [SplitRow.ofPrompts, List.map_map, whole, List.map_id]
    exact reads_of_start started
  · obtain ⟨prompt, there, rfl⟩ := List.mem_map.mp member
    exact Nat.le_of_eq ((reads_of_start started).level prompt there)

/-- After any course of successful changes, a row is what is left of its prompt and then what was
added and not dropped. Reading the added part leaves out as many of its tokens as the prompt lacks,
and among these padding is not counted. -/
theorem generated_beyond_gap (started : start inputIds batch beams capacity = .ok first)
    {changes : List RowChange} (ran : Step.Returns (changes.forM perform) first () b) :
    let promptLength := inputIds.length / batch
    let splits := changes.foldl (fun rows change => change.splits rows)
      (SplitRow.ofPrompts inputIds batch beams)
    b.rowCount = splits.length ∧
      (∀ (i : Nat) (inside : i < splits.length),
        b.sequence i = .ok (splits[i].prompt ++ splits[i].added) ∧
        b.generated i = .ok (splits[i].added.drop (promptLength - splits[i].prompt.length)) ∧
        (b.generated i = .ok splits[i].added ↔
          splits[i].prompt.length = promptLength ∨ splits[i].added = [])) ∧
      ∀ pad, ∃ lengths, b.realLengths pad = .ok lengths ∧ lengths.length = splits.length ∧
        ∀ (i : Nat) (inside : i < splits.length),
          lengths[i]? = some (splits[i].realLength promptLength pad) ∧
          (lengths[i]? = some (splits[i].prompt.countP (· != pad) + splits[i].added.length) ↔
            pad ∉ splits[i].added.take (promptLength - splits[i].prompt.length)) := by
  intro promptLength splits
  have parted : b.Parted promptLength capacity splits := (parted_of_start started).run ran
  refine ⟨parted.count, fun i inside => ⟨(parted.sequence inside).1, parted.generated inside, ?_⟩,
    fun pad => ⟨_, parted.realLengths pad, List.length_map _, fun i inside => ?_⟩⟩
  · have short := parted.short _ (List.getElem_mem inside)
    have missing : splits[i].gap promptLength = 0 ↔ splits[i].prompt.length = promptLength := by
      rw [SplitRow.gap]
      omega
    rw [parted.generated inside, Except.ok.injEq, SplitRow.beyondGap_eq_added, missing]
  · rw [List.getElem?_map, List.getElem?_eq_getElem inside, Option.map_some]
    refine ⟨rfl, ?_⟩
    rw [Option.some.injEq, SplitRow.realLength_eq_all]
    rfl

theorem generated_beyond_gap_refilled : ∃ first b : HistoryBuffer,
    start [1, 2] 1 1 4 = .ok first ∧
      Step.Returns ([.dropLast 1, .append [0], .append [0]].forM perform) first () b ∧
      b.sequence 0 = .ok [1, 0, 0] ∧ b.generated 0 = .ok [0] ∧
      ∃ lengths, b.realLengths 0 = .ok lengths ∧ lengths[0]? = some 2 := by
  have started : start [1, 2] 1 1 4 = .ok ⟨[1, 2, 0, 0], [0, 0, 0, 0], 1, 4, 2, 2⟩ := by decide
  have ran : Step.Returns ([.dropLast 1, .append [0], .append [0]].forM perform)
      ⟨[1, 2, 0, 0], [0, 0, 0, 0], 1, 4, 2, 2⟩ () ⟨[1, 0, 0, 0], [0, 0, 0, 0], 1, 4, 2, 3⟩ :=
    rfl
  obtain ⟨-, rows, counts⟩ := generated_beyond_gap started ran
  obtain ⟨read, generated, -⟩ := rows 0 (by decide)
  obtain ⟨lengths, counted, -, each⟩ := counts 0
  exact ⟨_, _, started, ran, read, generated, lengths, counted, (each 0 (by decide)).1⟩

/-- A token that was appended in the place of a dropped prompt token is not among those after the
prompt, and as padding it does not count. -/
theorem refilled_prompt_hides_token : ∃ first b : HistoryBuffer,
    start [1, 2] 1 1 4 = .ok first ∧
      Step.Returns ([.dropLast 1, .append [0]].forM perform) first () b ∧
      [RowChange.dropLast 1, .append [0]].foldl (fun rows change => change.splits rows)
        (SplitRow.ofPrompts [1, 2] 1 1) = [⟨[1], [0]⟩] ∧
      b.generated 0 = .ok [] ∧ b.realLengths 0 = .ok [1] :=
  ⟨⟨[1, 2, 0, 0], [0, 0, 0, 0], 1, 4, 2, 2⟩, ⟨[1, 0, 0, 0], [0, 0, 0, 0], 1, 4, 2, 2⟩,
    by decide, rfl, by decide, by decide, by decide⟩

end HistoryBuffer

end StagedDecoding
