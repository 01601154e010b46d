import StagedDecoding.Proofs.EndMarks

/-! Committing tokens never fails while there is room.

The number of running rows is the number of rows without an end mark, so that settling never counts
below zero. What a commitment leaves is a function of the search and of the chosen tokens.
-/

set_option autoImplicit false

namespace StagedDecoding.Greedy

variable {settings : Settings} {g g' : Greedy} {tokens : List Token}

theorem settle_total (marked : List (Bool × Token)) (others : Nat) :
    settle settings marked ((marked.map Prod.fst).count false + others) =
      .ok (marked.map (settleOne settings),
        ((marked.map (settleOne settings)).map Prod.snd).count false + others) := by
  induction marked generalizing others with
  | nil => rfl
  | cons row rest ih =>
    obtain ⟨ended, token⟩ := row
    cases ended with
    | true =>
      rw [List.map_cons, List.count_cons_of_ne (by simp), settle, ih]
      simp [settleOne, bind, Except.bind, pure, Except.pure]
    | false =>
      rw [List.map_cons, List.count_cons_self, Nat.add_right_comm]
      unfold settle
      cases ends : settings.isEnd token with
      | true =>
        rw [if_pos rfl]
        simp [ih, settleOne, ends, bind, Except.bind, pure, Except.pure]
      | false =>
        -- the row goes on running, so it stays in the count of the others
        rw [if_neg Bool.false_ne_true, Nat.add_assoc, ih]
        simp [settleOne, ends, bind, Except.bind, pure, Except.pure, Nat.add_comm 1,
          Nat.add_assoc]

theorem fillSlots_total {settings : Settings} (enough : settings.batchSize ≤ tokens.length) :
    fillSlots settings tokens = .ok (tokens.take settings.batchSize) :=
  fillSlots_eq_ok.mpr ⟨enough, rfl⟩

theorem markedSlots_total {settings : Settings} {ended : List Bool}
    (marks : ended.length = settings.batchSize) (enough : settings.batchSize ≤ tokens.length) :
    markedSlots settings ended (tokens.take settings.batchSize) = .ok (ended.zip tokens) := by
  refine markedSlots_eq_ok.mpr
    ⟨Nat.le_of_eq marks.symm, Nat.le_of_eq (List.length_take_of_le enough).symm, ?_⟩
  have all : ended.take settings.batchSize = ended := List.take_of_length_le (Nat.le_of_eq marks)
  have one : ∀ other : List Token, (ended.zip other).take settings.batchSize =
      ended.zip (other.take settings.batchSize) := by
    intro other
    rw [List.zip, List.take_zipWith, all]
  have rest : ended.zip tokens = (ended.zip tokens).take settings.batchSize := by
    rw [List.take_of_length_le]
    rw [List.length_zip, marks]
    exact Nat.min_le_left _ _
  rw [one, List.take_take, Nat.min_self, rest, one]

theorem markAnew_total {settings : Settings} {histories : Histories} {ended : List Bool}
    (rows : histories.rows.length = settings.batchSize)
    (marks : ended.length = settings.batchSize) :
    markAnew settings histories ended =
      .ok (histories.rows.map fun row => (histories.generatedPart row).any settings.isEnd) := by
  refine markAnew_eq_ok.mpr ⟨Nat.le_of_eq rows.symm, Nat.le_of_eq marks.symm, ?_⟩
  rw [List.take_of_length_le (Nat.le_of_eq ((List.length_map _).trans rows)),
    List.drop_eq_nil_of_le (Nat.le_of_eq marks), List.append_nil]

def committed (tokens : List Token) (g : Greedy) : Greedy :=
  let settled := (g.ended.zip tokens).map (settleOne g.settings)
  refreshDone { g with
    nextTokens := settled.map Prod.fst
    ended := settled.map Prod.snd
    running := (settled.map Prod.snd).count false
    histories := { g.histories with
      rows := List.zipWith (fun row token => row ++ [token]) g.histories.rows
        (settled.map Prod.fst)
      length := g.histories.length + 1 }
    scores := g.scores.consume }

theorem commit_iff (rows : g.histories.rows.length = g.settings.batchSize)
    (marks : g.ended.length = g.settings.batchSize)
    (running : g.running = g.ended.count false) (enough : g.settings.batchSize ≤ tokens.length) :
    Step.Returns (commit tokens) g () g' ↔
      g.histories.length + 1 ≤ g.histories.capacity ∧ g' = committed tokens g := by
  have whole : (g.ended.zip tokens).map Prod.fst = g.ended := List.map_fst_zip (marks ▸ enough)
  have passed := @settle_total g.settings (g.ended.zip tokens) 0
  rw [whole, Nat.add_zero, ← running] at passed
  have long : (((g.ended.zip tokens).map (settleOne g.settings)).map Prod.fst).length =
      g.histories.rows.length := by
    rw [List.length_map, List.length_map, List.length_zip, marks, Nat.min_eq_left enough, rows]
  have slots := fillSlots_total enough
  have marked := markedSlots_total marks enough
  simp only [commit, Step.returns_bind, Step.returns_get, Step.returns_lift, Step.returns_set,
    Histories.append_eq_ok]
  constructor
  · rintro ⟨_, _, ⟨rfl, rfl⟩, _, _, ⟨filled, rfl⟩, _, _, ⟨paired, rfl⟩, settled, _, ⟨found, rfl⟩,
      _, _, rfl, _, _, ⟨⟨-, room, rfl⟩, rfl⟩, rfl⟩
    obtain rfl := Except.ok.inj (slots.symm.trans filled)
    obtain rfl := Except.ok.inj (marked.symm.trans paired)
    obtain rfl := Except.ok.inj (passed.symm.trans found)
    exact ⟨room, rfl⟩
  · rintro ⟨room, rfl⟩
    exact ⟨_, _, ⟨rfl, rfl⟩, _, _, ⟨slots, rfl⟩, _, _, ⟨marked, rfl⟩, _, _, ⟨passed, rfl⟩, (), _,
      rfl, _, _, ⟨⟨long, room, rfl⟩, rfl⟩, rfl⟩

theorem bestTokens_eq_ok {scores : LoadedScores} {rows : List Nat} :
    bestTokens scores rows = .ok tokens ↔
      List.Forall₂ (fun row token => ∃ own, scores.last row = .ok own ∧ token = own.argmax)
        rows tokens := by
  induction rows generalizing tokens with
  | nil => rw [bestTokens, List.forall₂_nil_left_iff, Except.ok.injEq, eq_comm]
  | cons row rest ih =>
    simp only [bestTokens, Outcome.bind_eq_ok, Outcome.pure_eq_ok, ih,
      List.forall₂_cons_left_iff]
    constructor
    · rintro ⟨own, found, others, later, rfl⟩
      exact ⟨_, others, ⟨own, found, rfl⟩, later, rfl⟩
    · rintro ⟨_, others, ⟨own, found, rfl⟩, later, rfl⟩
      exact ⟨own, found, others, later, rfl⟩

theorem selectTop_iff {u : Unit} :
    Step.Returns selectTop g u g' ↔ g.scores.fresh = true ∧ ∃ tokens,
      bestTokens g.scores (List.range g.settings.batchSize) = .ok tokens ∧
      Step.Returns (commit tokens) g () g' := by
  simp only [selectTop, Step.returns_bind, Step.returns_get, Step.returns_lift]
  constructor
  · rintro ⟨_, _, ⟨rfl, rfl⟩, _, _, ⟨fresh, rfl⟩, tokens, _, ⟨best, rfl⟩, committed⟩
    exact ⟨LoadedScores.requireFresh_eq_ok.mp fresh, tokens, best, committed⟩
  · rintro ⟨fresh, tokens, best, committed⟩
    exact ⟨_, _, ⟨rfl, rfl⟩, (), _, ⟨LoadedScores.requireFresh_eq_ok.mpr fresh, rfl⟩, tokens, _,
      ⟨best, rfl⟩, committed⟩

end StagedDecoding.Greedy
