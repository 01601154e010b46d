import StagedDecoding.Proofs.Actions

/-! How far a draft agrees with the scores.

Each token of a draft has a position of its own, which predicts it after the history up to there.
What is accepted is the longest prefix of the draft that consists of predicted tokens, up to its
first end token. Verification leaves its constraints in the scores, so a second one reads other
scores than the first, and still comes to the same verdict.
-/

set_option autoImplicit false

namespace StagedDecoding

theorem Greedy.cutAtEnd_cons {settings : Settings} {token : Token} {rest : List Token} :
    cutAtEnd settings (token :: rest) = if settings.isEnd token then ([token], true)
      else (token :: (cutAtEnd settings rest).1, (cutAtEnd settings rest).2) := by
  unfold cutAtEnd
  rw [List.findIdx?_cons]
  cases settings.isEnd token with
  | true => rfl
  | false => cases List.findIdx? settings.isEnd rest <;> rfl

/-- The longest prefix of a draft that consists of predicted tokens. -/
structure Agrees (predicted : Nat → Token) (draft agreed : List Token) : Prop where
  begins : agreed <+: draft
  told : ∀ i token, agreed[i]? = some token → token = predicted i
  longest : ∀ other, other <+: draft →
    (∀ i token, other[i]? = some token → token = predicted i) → other <+: agreed

namespace Agrees

variable {predicted : Nat → Token} {token : Token} {rest draft agreed other : List Token}

theorem nil : Agrees predicted [] [] :=
  ⟨List.prefix_rfl, by simp, fun _ begins _ => begins⟩

theorem refused (differs : token ≠ predicted 0) : Agrees predicted (token :: rest) [] := by
  refine ⟨List.nil_prefix, by simp, fun other begins told => ?_⟩
  cases other with
  | nil => exact List.prefix_rfl
  | cons first more =>
    obtain ⟨rfl, -⟩ := List.cons_prefix_cons.mp begins
    exact absurd (told 0 first rfl) differs

theorem cons (agrees : Agrees (fun i => predicted (i + 1)) rest agreed)
    (same : token = predicted 0) : Agrees predicted (token :: rest) (token :: agreed) := by
  refine ⟨(List.prefix_cons_inj _).mpr agrees.begins, fun i found there => ?_,
    fun other begins told => ?_⟩
  · cases i with
    | zero => exact (Option.some.inj there) ▸ same
    | succ i => exact agrees.told i found there
  · cases other with
    | nil => exact List.nil_prefix
    | cons first more =>
      obtain ⟨rfl, within⟩ := List.cons_prefix_cons.mp begins
      exact (List.prefix_cons_inj _).mpr
        (agrees.longest more within fun i found there => told (i + 1) found there)

theorem total (predicted : Nat → Token) (draft : List Token) :
    ∃ agreed, Agrees predicted draft agreed := by
  induction draft generalizing predicted with
  | nil => exact ⟨[], nil⟩
  | cons token rest ih =>
    by_cases same : token = predicted 0
    · obtain ⟨agreed, agrees⟩ := ih fun i => predicted (i + 1)
      exact ⟨token :: agreed, agrees.cons same⟩
    · exact ⟨[], refused same⟩

theorem unique (left : Agrees predicted draft agreed) (right : Agrees predicted draft other) :
    agreed = other :=
  (right.longest agreed left.begins left.told).eq_of_length_le
    (left.longest other right.begins right.told).length_le

end Agrees

namespace Speculative

variable {s s' : Speculative}

/-- A verdict, from the longest prefix that agrees: what is behind its first end token is not looked
at. Without an end token the next position corrects, be it the first that disagrees or one after the
whole draft. -/
structure Follows (settings : Settings) (positions : Nat) (predicted : Nat → Token)
    (agreed : List Token) (verdict : Verdict) : Prop where
  accepted : verdict.accepted = (Greedy.cutAtEnd settings agreed).1
  correction : verdict.correction = if agreed.any settings.isEnd then none
    else if agreed.length < positions then some (predicted agreed.length) else none

theorem Follows.unique {settings : Settings} {positions : Nat} {predicted : Nat → Token}
    {agreed : List Token} {verdict other : Verdict}
    (left : Follows settings positions predicted agreed verdict)
    (right : Follows settings positions predicted agreed other) : verdict = other := by
  obtain ⟨accepted, correction⟩ := verdict
  obtain ⟨accepted', correction'⟩ := other
  rw [Verdict.mk.injEq]
  exact ⟨left.accepted.trans right.accepted.symm, left.correction.trans right.correction.symm⟩

theorem Judged.follows {settings : Settings} {positions position : Nat}
    {predicts : Nat → List Token → Token → Prop} {history draft : List Token} {verdict : Verdict}
    (judged : Judged settings.isEnd positions predicts position history draft verdict)
    (inside : ∀ {i history target}, predicts i history target → i < positions)
    {predicted : Nat → Token} (told : ∀ i ≤ draft.length, ∀ target,
      predicts (position + i) (history ++ draft.take i) target → target = predicted i) :
    ∃ agreed, Agrees predicted draft agreed ∧
      Follows settings (positions - position) predicted agreed verdict := by
  have here : ∀ {position : Nat} {history draft : List Token} {predicted : Nat → Token},
      (∀ i ≤ draft.length, ∀ target,
        predicts (position + i) (history ++ draft.take i) target → target = predicted i) →
      ∀ target, predicts position history target → target = predicted 0 := by
    intro position history draft predicted told target predicts
    exact told 0 (Nat.zero_le _) target (by simpa using predicts)
  induction judged generalizing predicted with
  | spent beyond => exact ⟨[], .nil, rfl, by simp [Verdict.empty, beyond]⟩
  | further belongs =>
    refine ⟨[], .nil, rfl, ?_⟩
    rw [List.any_nil, if_neg Bool.false_ne_true, List.length_nil,
      if_pos (Nat.sub_pos_of_lt (inside belongs)), here told _ belongs]
  | rejected belongs differs =>
    have known := here told _ belongs
    refine ⟨[], .refused fun same => differs (known.trans same.symm), rfl, ?_⟩
    rw [List.any_nil, if_neg Bool.false_ne_true, List.length_nil,
      if_pos (Nat.sub_pos_of_lt (inside belongs)), known]
  | @ended position history rest token belongs ends =>
    obtain ⟨agreed, agrees⟩ := Agrees.total (fun i => predicted (i + 1)) rest
    refine ⟨token :: agreed, agrees.cons (here told _ belongs), ?_, ?_⟩
    · rw [Greedy.cutAtEnd_cons, if_pos ends]
    · rw [List.any_cons, ends, Bool.true_or, if_pos rfl]
  | @accepted position history rest token verdict belongs goes _ ih =>
    -- the rest is judged one position further, and by predictions that are counted from there
    have later : ∀ i ≤ rest.length, ∀ target,
        predicts (position + 1 + i) (history ++ [token] ++ rest.take i) target →
          target = predicted (i + 1) := by
      intro i bound target found
      refine told (i + 1) (Nat.succ_le_succ bound) target ?_
      rwa [List.take_succ_cons, List.append_cons, Nat.add_comm i 1, ← Nat.add_assoc]
    obtain ⟨agreed, agrees, follows⟩ := ih later
    refine ⟨token :: agreed, agrees.cons (here told _ belongs), ?_, ?_⟩
    · rw [Greedy.cutAtEnd_cons, if_neg (by simp [goes]), follows.accepted]
    · dsimp only
      have shift : agreed.length < positions - (position + 1) ↔
          agreed.length + 1 < positions - position := by omega
      simp only [follows.correction, List.any_cons, goes, Bool.false_or, List.length_cons, shift]

section

variable {loaded : LoadedScores} {row : List Scores} {history draft : List Token}

theorem ReadTo.follows {reached : Nat} {verdict : Verdict}
    (read : ReadTo loaded (fun i => history ++ draft.take i) reached s)
    (rows : loaded.rows = [row]) (width : row.length = loaded.positions)
    (ran : Step.Returns (Speculative.checkCandidates (history ++ draft) draft.length) s verdict
      s') :
    SameBut s s' ∧ (∃ reached', ReadTo loaded (fun i => history ++ draft.take i) reached' s') ∧
      ∃ agreed, Agrees (fun i => s.inner.settings.best (history ++ draft.take i) (row.getD i []))
          draft agreed ∧
        Follows s.inner.settings loaded.positions
          (fun i => s.inner.settings.best (history ++ draft.take i) (row.getD i []))
          agreed verdict := by
  obtain ⟨same, kept, judged⟩ := read.checkCandidates ran
  have scored : ∀ {i : Nat} {own : Scores},
      loaded.scoresAt 0 i = .ok own → row[i]? = some own := by
    intro i own there
    obtain ⟨_, here, found, -⟩ := LoadedScores.scoresAt_eq_ok.mp there
    rw [rows] at here
    exact Option.some.inj here ▸ found
  refine ⟨same, kept, judged.follows (fun found => ?_) fun i _ target found => ?_⟩
  · obtain ⟨own, there, -⟩ := found
    exact width ▸ (List.getElem?_eq_some_iff.mp (scored there)).1
  · obtain ⟨own, there, rfl⟩ := found
    rw [Nat.zero_add] at there
    rw [List.getD_eq_getElem?_getD, scored there, Option.getD_some]

/-- The second verdict follows from the same scores as the first. -/
theorem Readable.checkCandidates_twice {vocab : Nat} (readable : s.Readable 1 vocab)
    (unread : Unread loaded s) (rows : loaded.rows = [row]) (width : row.length = loaded.positions)
    (history : List Token) {draft : List Token} (enough : draft.length ≤ s.positions) :
    ∃ agreed verdict s' s'', Agrees (fun i => s.inner.settings.best (history ++ draft.take i) (row.getD i []))
        draft agreed ∧
      Follows s.inner.settings loaded.positions
        (fun i => s.inner.settings.best (history ++ draft.take i) (row.getD i []))
        agreed verdict ∧
      Step.Returns (checkCandidates (history ++ draft) draft.length) s verdict s' ∧
      Step.Returns (checkCandidates (history ++ draft) draft.length) s' verdict s'' := by
  obtain ⟨verdict, s', decided, kept⟩ :=
    @Readable.checkCandidates_total s 1 vocab history readable Nat.one_pos draft enough
  obtain ⟨other, s'', repeated, -⟩ :=
    @Readable.checkCandidates_total s' 1 vocab history kept.readable Nat.one_pos draft
      (kept.positions.symm ▸ enough)
  obtain ⟨same, ⟨_, read⟩, agreed, agrees, follows⟩ := (unread.readTo _).follows rows width decided
  obtain ⟨-, -, agreed', agrees', follows'⟩ := read.follows rows width repeated
  have settings : s'.inner.settings = s.inner.settings := by rw [same]
  rw [settings] at agrees' follows'
  obtain rfl := agrees.unique agrees'
  obtain rfl := follows.unique follows'
  exact ⟨agreed, verdict, s', s'', agrees, follows, decided, repeated⟩

end

/-- Of a search that is called in any way, newly loaded scores that no position has been constrained
in yet are those of one row. Verification accepts the longest prefix of the draft that agrees with
them, and does so again. -/
theorem checkCandidates_longest {settings : Settings} {inputIds tokens : List Token}
    {first : Strategy} {actions : List Strategy.Action} {count : Nat}
    (started : Strategy.Started settings inputIds first)
    (reached : (Strategy.conduct actions first).2 = .speculative s)
    (fresh : s.inner.scores.fresh = true)
    (unconstrained : ∀ mark ∈ s.marks, mark = ⟨false, false⟩)
    (long : count ≤ tokens.length) (covered : count ≤ s.positions) :
    ∃ row, s.inner.scores.rows = [row] ∧ row.length = s.positions ∧
      let history := fun i => tokens.take (tokens.length - count + i)
      let predicted := fun i => s.inner.settings.best (history i) (row.getD i [])
      (∀ i own, row[i]? = some own →
        let kept := Scores.constrained s.inner.settings.minLength
          s.inner.settings.repetitionPenalty s.inner.settings.endTokens (history i) own
        kept ≠ [] → (∀ score ∈ kept, score.isNaN = false) → kept.IsFirstMax (predicted i)) ∧
      ∃ agreed verdict s' s'',
        Agrees predicted (tokens.drop (tokens.length - count)) agreed ∧
        Follows s.inner.settings s.positions predicted agreed verdict ∧
        Step.Returns (checkCandidates tokens count) s verdict s' ∧
        Step.Returns (checkCandidates tokens count) s' verdict s'' := by
  have sized : (Strategy.speculative s).Sized first.settings :=
    reached ▸ (started.sized.conduct actions).2
  cases sized with
  | speculative sized =>
  obtain ⟨vocab, readable⟩ := sized.readable fresh
  rw [sized.single] at readable
  obtain ⟨row, rows⟩ := List.length_eq_one_iff.mp readable.filled.count
  have width := congrArg List.length (readable.filled.wide row (by simp [rows]))
  rw [List.length_map, List.length_replicate] at width
  refine ⟨row, rows, width, fun i own there => ?_, ?_⟩
  · have same : row.getD i [] = own := by rw [List.getD_eq_getElem?_getD, there, Option.getD_some]
    intro kept some clean
    dsimp only
    rw [same]
    exact Scores.argmax_isFirstMax some clean
  · have unread : Unread s.inner.scores s := by
      refine ⟨fun i bound => ?_, rfl⟩
      have listed : i < s.marks.length := readable.marks.symm ▸ bound
      rw [List.getElem?_eq_getElem listed, unconstrained _ (List.getElem_mem listed)]
    have drafted : (tokens.drop (tokens.length - count)).length = count := by
      rw [List.length_drop]
      omega
    have upto : ∀ i, tokens.take (tokens.length - count) ++
        (tokens.drop (tokens.length - count)).take i =
          tokens.take (tokens.length - count + i) := fun i => List.take_add.symm
    have twice := readable.checkCandidates_twice unread rows width
      (tokens.take (tokens.length - count)) (drafted.symm ▸ covered)
    simp only [upto, drafted, List.take_append_drop] at twice
    exact twice

def drafting : Speculative where
  inner := {
    settings := {
      batchSize := 1, beams := 1, returnCount := 1, maxLength := 8, vocabulary := 4, pad := 0
      endTokens := [3], lengthPenalty := 1, earlyStopping := true, seed := none
      minLength := 2, repetitionPenalty := 2 }
    histories := ⟨[[1]], 1, 1, 8⟩
    scores := .empty
    everyPosition := true
    nextTokens := [0]
    ended := [false]
    running := 1
    reachedCapacity := false
    done := false
    words := .ofSeed? none }
  marks := []

theorem drafting_started :
    Strategy.Started drafting.inner.settings [1] (.speculative drafting) :=
  .speculative rfl

def draftScores : Tensor :=
  .packed .f32 [1, 3, 4] ([0, 8, 5, 9, 4, 6, 6, 3, 2, 2, 2, 2].map .real)

/-- The end token is ruled out at first, and every token of the draft is penalized after it. The
draft is accepted whole. -/
theorem checkCandidates_longest_whole :
    let loaded := (Strategy.conduct [.setScores draftScores] (.speculative drafting)).2
    ∃ s s' s'', loaded = .speculative s ∧ s.inner.scores.fresh = true ∧
      (∀ mark ∈ s.marks, mark = ⟨false, false⟩) ∧ s.positions = 3 ∧
      Step.Returns (checkCandidates [1, 2, 0] 2) s ⟨[2, 0], some 3⟩ s' ∧
      Step.Returns (checkCandidates [1, 2, 0] 2) s' ⟨[2, 0], some 3⟩ s'' := by
  let s := (setScores draftScores drafting).2
  have marks : ∀ mark ∈ s.marks, mark = ⟨false, false⟩ := by decide +kernel
  obtain ⟨-, -, -, -, -, verdict, s', s'', -, -, decided, repeated⟩ :=
    @checkCandidates_longest s _ _ [1, 2, 0] _ [.setScores draftScores] 2 drafting_started rfl
      rfl marks (by decide) (by decide +kernel)
  have same : verdict = ⟨[2, 0], some 3⟩ := by
    have known : (checkCandidates [1, 2, 0] 2 s).1.toOption = some ⟨[2, 0], some 3⟩ := by
      decide +kernel
    rw [decided] at known
    exact Option.some.inj known
  rw [same] at decided repeated
  exact ⟨s, s', s'', rfl, rfl, marks, rfl, decided, repeated⟩

end Speculative

end StagedDecoding
