import Mathlib.Data.List.Induction
import StagedDecoding.Proofs.Agreement

/-! Penalties on the positions of a load.

A position is marked when it is penalized by itself or along a draft, and neither penalizes a marked
one again. A penalty on the whole search knows nothing of the marks: it penalizes the last position
each time, and leaves it without a mark. So the scores of a position carry at most one penalty of the
calls that mind the marks, and every penalty on the whole search besides.
-/

set_option autoImplicit false

namespace StagedDecoding

namespace Speculative

/-- A call that constrains scores: those of the search as a whole, those of a position, or those that
a draft is verified by. -/
inductive Constraint where
  | length (minLength : Nat)
  | penalty (penalty : Float32)
  | lengthAt (minLength position : Nat)
  | penaltyAt (penalty : Float32) (position : Nat)
  | check (tokens : List Token) (count : Nat)

def constrain : Constraint → Step Speculative Unit
  | .length minLength => inside (Greedy.constrainLength minLength)
  | .penalty penalty => inside (Greedy.penalize penalty)
  | .lengthAt minLength position => constrainLengthAt minLength position
  | .penaltyAt penalty position => penalizeAt penalty position
  | .check tokens count => do
    let _ ← checkCandidates tokens count
    return

def constrainAll (calls : List Constraint) (s : Speculative) : Speculative :=
  calls.foldl (fun s call => (constrain call s).2) s

namespace Constraint

/-- The calls that may rule out end tokens. -/
def suppresses : Constraint → Bool
  | .length _ | .lengthAt _ _ | .check _ _ => true
  | .penalty _ | .penaltyAt _ _ => false

/-- The calls that penalize no marked position, and mark those that they penalize. -/
def marking : Constraint → Bool
  | .penaltyAt _ _ | .check _ _ => true
  | .length _ | .penalty _ | .lengthAt _ _ => false

/-- The penalty that a call has for a position, and the history whose tokens it is for. -/
def penaltyFor (s : Speculative) (i : Nat) : Constraint → Option (Float32 × List Token)
  | .penalty factor =>
    if i + 1 = s.positions then some (factor, s.inner.histories.rows.getD 0 []) else none
  | .penaltyAt factor position =>
    if i = position then some (factor, s.inner.histories.rows.getD 0 []) else none
  | .check tokens count =>
    if i ≤ count then
      some (s.inner.settings.repetitionPenalty, tokens.take (tokens.length - count + i))
    else none
  | .length _ | .lengthAt _ _ => none

/-- A call by which a position is penalized, now at the latest, and that minds its mark. -/
def PenalizesAt (i : Nat) (s : Speculative) : Constraint → Prop
  | .penaltyAt factor position =>
    i = position ∧ ∃ s', Step.Returns (penalizeAt factor position) s () s'
  | .check tokens count => ∃ verdict s',
    Step.Returns (checkCandidates tokens count) s verdict s' ∧ i < verdict.committed.length
  | .length _ | .penalty _ | .lengthAt _ _ => False

end Constraint

/-- Scores that carry the penalties of some calls for a position, with end tokens ruled out in
between. -/
inductive Carries (s : Speculative) (i : Nat) (own : Scores) : List Constraint → Scores → Prop where
  | loaded : Carries s i own [] own
  | suppressed {calls : List Constraint} {scores : Scores} : Carries s i own calls scores →
      Carries s i own calls (Scores.suppress s.inner.settings.endTokens scores)
  | penalized {calls : List Constraint} {call : Constraint} {scores : Scores} {penalty : Float32}
      {history : List Token} : Carries s i own calls scores →
      call.penaltyFor s i = some (penalty, history) →
      Carries s i own (calls ++ [call]) (Scores.penalize penalty history scores)

def Loaded (s : Speculative) : Prop :=
  ∃ (settings : Settings) (inputIds : List Token) (first : Strategy)
    (actions : List Strategy.Action) (before : Speculative) (tensor : Tensor),
    Strategy.Started settings inputIds first ∧
      (Strategy.conduct actions first).2 = .speculative before ∧
      Step.Returns (setScores tensor) before () s

structure Here (i : Nat) (mark : Marks) (own : Scores) (s : Speculative) : Prop where
  marked : s.marks[i]? = some mark
  scored : s.inner.scores.scoresAt 0 i = .ok own

variable {s s' : Speculative} {i position vocab : Nat} {mark : Marks} {own : Scores}
  {history : List Token} {call : Constraint}

theorem Visits.here {change : Scores → Scores} {mark' : Marks}
    (visits : Visits position change mark' s s') (here : Here position mark own s) :
    Here position mark' (change own) s' :=
  ⟨visits.marked, by rw [visits.scored, here.scored]; rfl⟩

theorem Visits.elsewhere {change : Scores → Scores} {mark' : Marks}
    (visits : Visits position change mark' s s') (here : Here i mark own s) (apart : i ≠ position) :
    Here i mark own s' := by
  obtain ⟨marks, scores⟩ := visits.others i apart
  exact ⟨marks.trans here.marked, scores.trans here.scored⟩

theorem predict_here {draft : List Token} {target : Token} (here : Here i mark own s)
    (ran : Step.Returns (predict history position) s target s') :
    if position ≤ i ∧ i < position + 1 then i ≤ position + draft.length ∧
      Here i ⟨true, true⟩
        (s.inner.settings.settled (history ++ draft.take (i - position)) mark own) s'
    else Here i mark own s' := by
  obtain ⟨mark', marked, visits, -⟩ := predict_visits ran
  by_cases same : i = position
  · subst same
    obtain rfl := Option.some.inj (here.marked.symm.trans marked)
    rw [if_pos (by omega), Nat.sub_self, List.take_zero, List.append_nil]
    exact ⟨Nat.le_add_right _ _, visits.here here⟩
  · rw [if_neg (by omega)]
    exact visits.elsewhere here same

theorem Verifies.here {draft : List Token} {verdict : Verdict}
    (verifies : Verifies history position draft s verdict s') (here : Here i mark own s) :
    if position ≤ i ∧ i < position + verdict.committed.length then
      i ≤ position + draft.length ∧ Here i ⟨true, true⟩
        (s.inner.settings.settled (history ++ draft.take (i - position)) mark own) s'
    else Here i mark own s' := by
  induction verifies generalizing mark own with
  | spent _ =>
    rw [if_neg (by simp [Verdict.empty, Verdict.committed])]
    exact here
  | further _ passed => exact predict_here here passed
  | rejected passed _ => exact predict_here here passed
  | ended passed _ => exact predict_here here passed
  | @accepted history rest position s middle s' token verdict passed _ _ ih =>
    have longer : ({ verdict with accepted := token :: verdict.accepted } :
        Verdict).committed.length = verdict.committed.length + 1 := rfl
    rw [longer, List.length_cons]
    obtain ⟨mark', marked, visits, -⟩ := predict_visits passed
    have settings : middle.inner.settings = s.inner.settings := by rw [visits.same]
    by_cases same : i = position
    · subst same
      obtain rfl := Option.some.inj (here.marked.symm.trans marked)
      -- the rest of the draft is read behind this position
      have kept := ih (visits.here here)
      rw [if_neg (by omega)] at kept
      rw [if_pos (by omega), Nat.sub_self, List.take_zero, List.append_nil]
      exact ⟨Nat.le_add_right _ _, kept⟩
    · have read := ih (visits.elsewhere here same)
      split at read
      case isTrue within =>
        obtain ⟨bound, read⟩ := read
        rw [if_pos (by omega)]
        refine ⟨by omega, ?_⟩
        rwa [settings, List.append_assoc, List.singleton_append, ← List.take_succ_cons,
          show i - (position + 1) + 1 = i - position by omega] at read
      case isFalse outside =>
        rw [if_neg (by omega)]
        exact read

structure Moves (s : Speculative) (call : Constraint) (i : Nat) (mark : Marks) (own : Scores)
    (mark' : Marks) (own' : Scores) : Prop where
  stays : mark.penalty = true → mark'.penalty = true
  scored : ∃ kept, (kept = own ∨
      call.suppresses = true ∧ kept = Scores.suppress s.inner.settings.endTokens own) ∧
    (own' = kept ∨ ∃ penalty history, call.penaltyFor s i = some (penalty, history) ∧
      own' = Scores.penalize penalty history kept ∧
      (call.marking = true → mark.penalty = false ∧ mark'.penalty = true))

def Moved (call : Constraint) (i : Nat) (s s' : Speculative) : Prop :=
  ∀ mark own, Here i mark own s → ∃ mark' own', Here i mark' own' s' ∧
    Moves s call i mark own mark' own'

theorem Moves.refl : Moves s call i mark own mark own :=
  ⟨id, own, .inl rfl, .inl rfl⟩

theorem moved_refl : Moved call i s s := fun mark own here => ⟨mark, own, here, .refl⟩

theorem attempt_holds {change : Speculative → Except Failure Speculative}
    {holds : Speculative → Prop} (refused : holds s)
    (changed : ∀ s', change s = .ok s' → holds s') : holds (Step.attempt change s).2 := by
  unfold Step.attempt
  cases result : change s with
  | error failure => exact refused
  | ok s' => exact changed s' result

theorem constrainLengthAt_moved {minLength : Nat} :
    Moved (.lengthAt minLength position) i s (constrainLengthAt minLength position s).2 := by
  refine attempt_holds moved_refl fun s' passed mark own here => ?_
  obtain ⟨_, -, constrained⟩ := Outcome.bind_eq_ok.mp passed
  obtain ⟨mark', marked, visits⟩ := constrainLength_visits constrained
  by_cases same : i = position
  · subst same
    obtain rfl := Option.some.inj (here.marked.symm.trans marked)
    refine ⟨_, _, visits.here here, id, _, ?_, .inl rfl⟩
    split
    · exact .inl rfl
    · exact .inr ⟨rfl, rfl⟩
  · exact ⟨mark, own, visits.elsewhere here same, .refl⟩

theorem penalizeAt_moved {penalty : Float32} :
    Moved (.penaltyAt penalty position) i s (penalizeAt penalty position s).2 := by
  refine attempt_holds moved_refl fun s' passed mark own here => ?_
  simp only [Outcome.bind_eq_ok] at passed
  obtain ⟨_, -, row, found, constrained⟩ := passed
  have first : s.inner.histories.rows.getD 0 [] = row := by
    rw [List.getD_eq_getElem?_getD, Outcome.fetch_eq_ok.mp found, Option.getD_some]
  obtain ⟨mark', marked, visits⟩ := penalize_visits constrained
  by_cases same : i = position
  · subst same
    obtain rfl := Option.some.inj (here.marked.symm.trans marked)
    refine ⟨_, _, visits.here here, fun _ => rfl, own, .inl rfl, ?_⟩
    split
    · exact .inl rfl
    · next counts =>
      refine .inr ⟨penalty, row, ?_, rfl, fun _ => ⟨by simpa using (not_or.mp counts).1, rfl⟩⟩
      rw [← first]
      exact if_pos rfl
  · exact ⟨mark, own, visits.elsewhere here same, .refl⟩

theorem settled_moves {tokens : List Token} {count : Nat} (within : i ≤ count) :
    Moves s (.check tokens count) i mark own ⟨true, true⟩
      (s.inner.settings.settled (tokens.take (tokens.length - count + i)) mark own) := by
  let kept := if mark.length = true ∨
      s.inner.settings.minLength ≤ (tokens.take (tokens.length - count + i)).length then own
    else Scores.suppress s.inner.settings.endTokens own
  refine ⟨fun _ => rfl, kept, ?_, ?_⟩
  · unfold kept
    split
    · exact .inl rfl
    · exact .inr ⟨rfl, rfl⟩
  · unfold Settings.settled
    by_cases neutral : mark.penalty = true ∨ (s.inner.settings.repetitionPenalty == 1) = true
    · rw [if_pos neutral]
      exact .inl rfl
    · rw [if_neg neutral]
      refine .inr ⟨_, _, if_pos within, rfl, fun _ => ?_⟩
      exact ⟨by simpa using (not_or.mp neutral).1, rfl⟩

theorem checkCandidates_here {tokens : List Token} {count : Nat} {verdict : Verdict}
    (ran : Step.Returns (checkCandidates tokens count) s verdict s') (here : Here i mark own s) :
    if i < verdict.committed.length then i ≤ count ∧ Here i ⟨true, true⟩
      (s.inner.settings.settled (tokens.take (tokens.length - count + i)) mark own) s'
    else Here i mark own s' := by
  simp only [checkCandidates, Step.returns_bind, Step.returns_get, Step.returns_lift,
    Step.throw_bind, Step.returns_guard] at ran
  obtain ⟨_, _, ⟨rfl, rfl⟩, _, _, ⟨-, rfl⟩, enough, ran⟩ := ran
  simp only [Bool.or_eq_true, decide_eq_true_eq, not_or, Nat.not_lt] at enough
  have read := (verify_verifies ran).here here
  have drafted : (tokens.drop (tokens.length - count)).length = count := by
    rw [List.length_drop]
    omega
  simpa only [Nat.zero_le, true_and, Nat.zero_add, drafted, Nat.sub_zero, ← List.take_add]
    using read

theorem checkCandidates_moved {tokens : List Token} {count : Nat} {verdict : Verdict}
    (ran : Step.Returns (checkCandidates tokens count) s verdict s') :
    Moved (.check tokens count) i s s' := by
  intro mark own here
  have read := checkCandidates_here ran here
  split at read
  · exact ⟨_, _, read.2, settled_moves read.1⟩
  · exact ⟨mark, own, read, .refl⟩

theorem checkPosition_eq_ok {u : Unit} (passed : s.checkPosition position = .ok u) :
    position < s.positions := by
  simp only [checkPosition, Outcome.bind_eq_ok] at passed
  obtain ⟨_, -, passed⟩ := passed
  split at passed
  · cases passed
  · next below => exact Nat.lt_of_not_le below

theorem checkCandidates_refused {tokens : List Token} {count : Nat}
    (fresh : s.inner.scores.fresh = true) (few : tokens.length < count ∨ s.positions < count) :
    Step.Fails (checkCandidates tokens count) s
      (.shape (.candidatesUpTo (min s.positions tokens.length)) (.count count)) s := by
  have loaded : s.inner.scores.requireFresh = .ok () := if_pos fresh
  have short : (decide (tokens.length < count) || decide (s.positions < count)) = true := by
    rwa [Bool.or_eq_true, decide_eq_true_iff, decide_eq_true_iff]
  refine Step.fails_bind.mpr (.inr ⟨s, s, Step.returns_get.mpr ⟨rfl, rfl⟩, ?_⟩)
  refine Step.fails_bind.mpr (.inr ⟨(), s, Step.returns_lift.mpr ⟨loaded, rfl⟩, ?_⟩)
  dsimp only
  rw [if_pos short]
  exact Step.fails_throw.mpr ⟨rfl, rfl⟩

theorem moved_inside {changed : LoadedScores} (plain : call.marking = false)
    (scored : ∀ own, s.inner.scores.scoresAt 0 i = .ok own → ∃ own',
      changed.scoresAt 0 i = .ok own' ∧ (own' = own ∨
        call.suppresses = true ∧ own' = Scores.suppress s.inner.settings.endTokens own ∨
        ∃ penalty history, call.penaltyFor s i = some (penalty, history) ∧
          own' = Scores.penalize penalty history own)) :
    Moved call i s { s with inner := { s.inner with scores := changed } } := by
  intro mark own here
  obtain ⟨own', found, same | ⟨rules, same⟩ | ⟨penalty, history, due, same⟩⟩ :=
    scored own here.scored
  · exact ⟨mark, own', ⟨here.marked, found⟩, id, own, .inl rfl, .inl same⟩
  · exact ⟨mark, own', ⟨here.marked, found⟩, id, own', .inr ⟨rules, same⟩, .inl rfl⟩
  · refine ⟨mark, own', ⟨here.marked, found⟩, id, own, .inl rfl, .inr ⟨penalty, history, due,
      same, fun marking => ?_⟩⟩
    rw [plain] at marking
    cases marking

theorem Readable.length_moved (readable : s.Readable 1 vocab) (minLength : Nat) :
    Reread 1 vocab s (constrain (.length minLength) s).2 ∧
      ∀ i, Moved (.length minLength) i s (constrain (.length minLength) s).2 := by
  obtain ⟨changed, passed, filled, same⟩ := readable.filled.constrainLength_total minLength
    s.inner.settings.endTokens s.inner.histories
  have after : (constrain (.length minLength) s).2 =
      { s with inner := { s.inner with scores := changed } } := by
    simp [constrain, inside, Step.within, Greedy.constrainLength, Step.attempt, passed, bind,
      Except.bind, pure, Except.pure]
  rw [after]
  refine ⟨⟨⟨filled, readable.marks.trans same.symm⟩, same, rfl⟩, fun i =>
    moved_inside rfl fun own found => ?_⟩
  obtain ⟨-, constrained⟩ := LoadedScores.constrainLength_eq_ok.mp passed
  split at constrained
  · exact ⟨own, constrained ▸ found, .inl rfl⟩
  · rw [constrained.2, LoadedScores.scoresAt_changeLast (Scores.length_suppress _), found]
    split
    · exact ⟨_, rfl, .inr (.inl ⟨rfl, rfl⟩)⟩
    · exact ⟨own, rfl, .inl rfl⟩

theorem Readable.penalty_moved (readable : s.Readable 1 vocab)
    (single : s.inner.histories.rows.length = 1) (penalty : Float32) :
    Reread 1 vocab s (constrain (.penalty penalty) s).2 ∧
      ∀ i, Moved (.penalty penalty) i s (constrain (.penalty penalty) s).2 := by
  obtain ⟨changed, passed, filled, same⟩ := readable.filled.penalize_total penalty
    (Nat.le_of_eq single.symm)
  have after : (constrain (.penalty penalty) s).2 =
      { s with inner := { s.inner with scores := changed } } := by
    simp [constrain, inside, Step.within, Greedy.penalize, Step.attempt, passed, bind,
      Except.bind, pure, Except.pure]
  rw [after]
  refine ⟨⟨⟨filled, readable.marks.trans same.symm⟩, same, rfl⟩, fun i =>
    moved_inside rfl fun own found => ?_⟩
  obtain ⟨-, penalized⟩ := LoadedScores.penalize_eq_ok.mp passed
  split at penalized
  · exact ⟨own, penalized ▸ found, .inl rfl⟩
  · rw [penalized.2, LoadedScores.scoresAt_changeLast (Scores.length_penalize _ _), found]
    split
    · next last =>
      -- the last position is the one that the whole search penalizes
      have due : i + 1 = s.positions := by
        have some := readable.filled.some
        rw [positions]
        omega
      exact ⟨_, rfl, .inr (.inr ⟨_, _, if_pos due, rfl⟩)⟩
    · exact ⟨own, rfl, .inl rfl⟩

theorem Readable.check_moved (readable : s.Readable 1 vocab) (tokens : List Token) (count : Nat) :
    Reread 1 vocab s (constrain (.check tokens count) s).2 ∧
      ∀ i, Moved (.check tokens count) i s (constrain (.check tokens count) s).2 := by
  by_cases enough : count ≤ tokens.length ∧ count ≤ s.positions
  · have drafted : (tokens.drop (tokens.length - count)).length = count := by
      rw [List.length_drop]
      omega
    obtain ⟨verdict, s', ran, kept⟩ := @Readable.checkCandidates_total s 1 vocab
      (tokens.take (tokens.length - count)) readable Nat.one_pos
      (tokens.drop (tokens.length - count)) (drafted.symm ▸ enough.2)
    rw [List.take_append_drop, drafted] at ran
    have discarded : Step.Returns (constrain (.check tokens count)) s () s' :=
      Step.returns_bind.mpr ⟨verdict, s', ran, Step.returns_pure.mpr ⟨rfl, rfl⟩⟩
    rw [congrArg Prod.snd discarded]
    exact ⟨kept, fun i => checkCandidates_moved ran⟩
  · have refused : Step.Fails (constrain (.check tokens count)) s
        (.shape (.candidatesUpTo (min s.positions tokens.length)) (.count count)) s :=
      Step.fails_bind.mpr (.inl (checkCandidates_refused readable.filled.fresh (by omega)))
    rw [congrArg Prod.snd refused]
    exact ⟨readable.reread, fun i => moved_refl⟩

theorem Readable.constrain_moved (readable : s.Readable 1 vocab)
    (single : s.inner.histories.rows.length = 1) (call : Constraint) :
    Reread 1 vocab s (constrain call s).2 ∧ ∀ i, Moved call i s (constrain call s).2 := by
  cases call with
  | length minLength => exact readable.length_moved minLength
  | penalty penalty => exact readable.penalty_moved single penalty
  | lengthAt minLength position =>
    refine ⟨attempt_holds readable.reread fun s' passed => ?_, fun i => constrainLengthAt_moved⟩
    obtain ⟨_, checked, constrained⟩ := Outcome.bind_eq_ok.mp passed
    obtain ⟨s'', again, kept⟩ := readable.constrainLength_total Nat.one_pos
      (checkPosition_eq_ok checked) (s.inner.histories.length + position) minLength
    exact Except.ok.inj (again.symm.trans constrained) ▸ kept
  | penaltyAt penalty position =>
    refine ⟨attempt_holds readable.reread fun s' passed => ?_, fun i => penalizeAt_moved⟩
    simp only [Outcome.bind_eq_ok] at passed
    obtain ⟨_, checked, row, -, constrained⟩ := passed
    obtain ⟨s'', again, kept⟩ := readable.penalize_total Nat.one_pos
      (checkPosition_eq_ok checked) row penalty
    exact Except.ok.inj (again.symm.trans constrained) ▸ kept
  | check tokens count => exact readable.check_moved tokens count

theorem constrainAll_concat (calls : List Constraint) (call : Constraint) :
    constrainAll (calls ++ [call]) s = (constrain call (constrainAll calls s)).2 := by
  rw [constrainAll, List.foldl_append]
  rfl

theorem Readable.constrainAll (readable : s.Readable 1 vocab)
    (single : s.inner.histories.rows.length = 1) (calls : List Constraint) :
    Reread 1 vocab s (constrainAll calls s) := by
  induction calls using List.reverseRecOn with
  | nil => exact readable.reread
  | append_singleton calls call ih =>
    rw [constrainAll_concat]
    have rows : (Speculative.constrainAll calls s).inner.histories.rows.length = 1 := by
      rw [ih.same]
      exact single
    exact ih.trans (ih.readable.constrain_moved rows call).1

theorem Readable.next_moved (readable : s.Readable 1 vocab)
    (single : s.inner.histories.rows.length = 1) (calls : List Constraint) (call : Constraint) :
    Moved call i (Speculative.constrainAll calls s) (Speculative.constrainAll (calls ++ [call]) s) := by
  have kept := readable.constrainAll single calls
  rw [constrainAll_concat]
  exact (kept.readable.constrain_moved (by rw [kept.same]; exact single) call).2 i

theorem Reread.penaltyFor_eq (kept : Reread 1 vocab s s') :
    call.penaltyFor s' i = call.penaltyFor s i := by
  have histories : s'.inner.histories = s.inner.histories := by rw [kept.same]
  have settings : s'.inner.settings = s.inner.settings := by rw [kept.same]
  cases call <;> simp only [Constraint.penaltyFor, kept.positions, histories, settings]

/-- The scores of a position carry the penalties of some of the calls. At most one of these minds
the marks, and none as long as there is no mark. -/
theorem Readable.carries (readable : s.Readable 1 vocab)
    (single : s.inner.histories.rows.length = 1) (calls : List Constraint)
    (here : Here i mark own s) : ∃ mark' own' counted,
      Here i mark' own' (Speculative.constrainAll calls s) ∧ counted.Sublist calls ∧
        counted.countP Constraint.marking ≤ (if mark'.penalty then 1 else 0) ∧
        Carries s i own counted own' := by
  -- the last call comes on top of what the others have left
  induction calls using List.reverseRecOn with
  | nil => exact ⟨mark, own, [], here, List.Sublist.refl _, Nat.zero_le _, .loaded⟩
  | append_singleton calls call ih =>
    obtain ⟨mark', own', counted, there, among, few, carries⟩ := ih
    have kept := readable.constrainAll single calls
    have settings : (Speculative.constrainAll calls s).inner.settings = s.inner.settings := by
      rw [kept.same]
    obtain ⟨mark'', own'', next, stays, suppressed, ruled, penalized⟩ :=
      readable.next_moved single calls call mark' own' there
    have suppressed_carries : Carries s i own counted suppressed := by
      rcases ruled with rfl | ⟨-, rfl⟩
      · exact carries
      · exact settings ▸ carries.suppressed
    -- a mark is never taken away, so the bound does not shrink
    have marked : (if mark'.penalty then 1 else 0) ≤ (if mark''.penalty then 1 else 0) := by
      cases before : mark'.penalty with
      | false => exact Nat.zero_le _
      | true => rw [stays before]
    rcases penalized with rfl | ⟨penalty, history, due, rfl, unmarked⟩
    · exact ⟨mark'', _, counted, next, among.trans (List.sublist_append_left _ _),
        few.trans marked, suppressed_carries⟩
    · rw [kept.penaltyFor_eq] at due
      refine ⟨mark'', _, counted ++ [call], next, among.append_right _, ?_,
        suppressed_carries.penalized due⟩
      rw [List.countP_append, List.countP_singleton]
      cases minds : call.marking with
      | false => simpa using few.trans marked
      | true =>
        obtain ⟨before, after⟩ := unmarked minds
        rw [before] at few
        rw [after]
        simpa using few

theorem Readable.stays_marked (readable : s.Readable 1 vocab)
    (single : s.inner.histories.rows.length = 1) (calls : List Constraint)
    (here : Here i mark own s) (penalized : mark.penalty = true) : ∃ mark' own',
      Here i mark' own' (Speculative.constrainAll calls s) ∧ mark'.penalty = true := by
  induction calls using List.reverseRecOn with
  | nil => exact ⟨mark, own, here, penalized⟩
  | append_singleton calls call ih =>
    obtain ⟨mark', own', there, marked⟩ := ih
    obtain ⟨mark'', own'', next, moves⟩ := readable.next_moved single calls call mark' own' there
    exact ⟨mark'', own'', next, moves.stays marked⟩

theorem Constraint.PenalizesAt.marks (penalizes : call.PenalizesAt i s) (here : Here i mark own s) :
    ∃ mark' own', Here i mark' own' (constrain call s).2 ∧ mark'.penalty = true := by
  cases call with
  | length _ => cases penalizes
  | penalty _ => cases penalizes
  | lengthAt _ _ => cases penalizes
  | penaltyAt penalty position =>
    obtain ⟨rfl, s', ran⟩ := penalizes
    have after : (constrain (.penaltyAt penalty i) s).2 = s' := congrArg Prod.snd ran
    simp only [penalizeAt, Step.returns_attempt, Outcome.bind_eq_ok] at ran
    obtain ⟨_, -, _, -, constrained⟩ := ran
    obtain ⟨_, -, visits⟩ := penalize_visits constrained
    exact ⟨_, _, after ▸ visits.here here, rfl⟩
  -- a draft marks the positions that its verdict reads
  | check tokens count =>
    obtain ⟨verdict, s', ran, read⟩ := penalizes
    have discarded : Step.Returns (constrain (.check tokens count)) s () s' :=
      Step.returns_bind.mpr ⟨verdict, s', ran, Step.returns_pure.mpr ⟨rfl, rfl⟩⟩
    have after : (constrain (.check tokens count) s).2 = s' := congrArg Prod.snd discarded
    have there := checkCandidates_here ran here
    rw [if_pos read] at there
    exact ⟨_, _, after ▸ there.2, rfl⟩

theorem Loaded.readable (loaded : s.Loaded) :
    s.inner.histories.rows.length = 1 ∧ ∃ vocab, s.Readable 1 vocab := by
  obtain ⟨settings, inputIds, first, actions, before, tensor, started, reached, ran⟩ := loaded
  have sized : (Strategy.speculative before).Sized first.settings :=
    reached ▸ (started.sized.conduct actions).2
  cases sized with
  | speculative sized =>
  have sized := (Step.ends_iff.mp sized.setScores).1 () s ran
  obtain ⟨scores, passed, inner, -⟩ := setScores_returns ran
  have fresh : s.inner.scores.fresh = true := by
    rw [inner]
    exact (LoadedScores.load_fresh passed).1
  exact ⟨sized.inner.level.rectangular.count.trans sized.single,
    sized.single ▸ sized.readable fresh⟩

theorem Readable.here (readable : s.Readable 1 vocab)
    (found : s.inner.scores.scoresAt 0 i = .ok own) : ∃ mark, Here i mark own s := by
  obtain ⟨row, first, there, -⟩ := LoadedScores.scoresAt_eq_ok.mp found
  have width := congrArg List.length (readable.filled.wide row (List.mem_of_getElem? first))
  rw [List.length_map, List.length_replicate] at width
  have listed : i < s.marks.length := by
    rw [readable.marks, positions, ← width]
    exact (List.getElem?_eq_some_iff.mp there).1
  exact ⟨s.marks[i], List.getElem?_eq_getElem listed, found⟩

/-- Whatever constraints a load is given, the scores of a position carry at most one penalty of the
calls that mind the marks. Once one of these has penalized a position, the others leave it alone, up
to end tokens that are ruled out. -/
theorem penalized_once (loaded : s.Loaded) (calls : List Constraint)
    (found : s.inner.scores.scoresAt 0 i = .ok own) :
    (∃ counted own', counted.Sublist calls ∧ counted.countP Constraint.marking ≤ 1 ∧
      (constrainAll calls s).inner.scores.scoresAt 0 i = .ok own' ∧ Carries s i own counted own') ∧
    ∀ before call later, calls = before ++ call :: later →
      call.PenalizesAt i (constrainAll before s) →
      ∀ again : Constraint, again.marking = true →
        let now := (constrainAll calls s).inner.scores.scoresAt 0 i
        let next := (constrainAll (calls ++ [again]) s).inner.scores.scoresAt 0 i
        next = now ∨ again.suppresses = true ∧
          next = Scores.suppress s.inner.settings.endTokens <$> now := by
  obtain ⟨single, vocab, readable⟩ := loaded.readable
  obtain ⟨mark, here⟩ := readable.here found
  constructor
  · obtain ⟨mark', own', counted, there, among, few, carries⟩ :=
      readable.carries single calls here
    refine ⟨counted, own', among, few.trans ?_, there.scored, carries⟩
    split <;> omega
  · rintro before call later rfl penalizes again minds
    obtain ⟨mark₁, own₁, -, there, -⟩ := readable.carries single before here
    obtain ⟨mark₂, own₂, marked, penalized⟩ := penalizes.marks there
    rw [← constrainAll_concat] at marked
    have kept := readable.constrainAll single (before ++ [call])
    have rows : (constrainAll (before ++ [call]) s).inner.histories.rows.length = 1 := by
      rw [kept.same]
      exact single
    obtain ⟨mark₃, own₃, now, penalized⟩ :=
      kept.readable.stays_marked rows later marked penalized
    rw [constrainAll, constrainAll, ← List.foldl_append, ← constrainAll, List.append_assoc,
      List.singleton_append] at now
    obtain ⟨mark₄, own₄, next, -, suppressed, ruled, repeated⟩ :=
      readable.next_moved single _ again mark₃ own₃ now
    have settings : (constrainAll (before ++ call :: later) s).inner.settings =
        s.inner.settings := by rw [(readable.constrainAll single _).same]
    intro scores scores'
    rw [show scores = .ok own₃ from now.scored, show scores' = .ok own₄ from next.scored]
    have same : own₄ = suppressed := by
      rcases repeated with same | ⟨_, _, -, -, unmarked⟩
      · exact same
      · rw [penalized] at unmarked
        exact absurd (unmarked minds).1 (by simp)
    subst same
    rcases ruled with rfl | ⟨rules, rfl⟩
    · exact .inl rfl
    · exact .inr ⟨rules, settings ▸ rfl⟩

theorem drafting_loaded (tensor : Tensor)
    (ran : Step.Returns (setScores tensor) drafting () s) : s.Loaded :=
  ⟨_, [1], _, [], drafting, tensor, drafting_started, rfl, ran⟩

theorem penalized_once_drafting :
    let s := (setScores draftScores drafting).2
    let calls : List Constraint := [.penalty 2, .penaltyAt 2 0, .length 3]
    s.Loaded ∧ (∃ own, s.inner.scores.scoresAt 0 0 = .ok own) ∧
      (Constraint.penaltyAt 2 0).PenalizesAt 0 (constrainAll [.penalty 2] s) ∧
      (let now := (constrainAll calls s).inner.scores.scoresAt 0 0
      let next := (constrainAll (calls ++ [.check [1, 2, 0] 2]) s).inner.scores.scoresAt 0 0
      next = now ∨ (Constraint.check [1, 2, 0] 2).suppresses = true ∧
        next = Scores.suppress s.inner.settings.endTokens <$> now) := by
  intro s calls
  have loaded : s.Loaded := drafting_loaded draftScores rfl
  have penalizes : (Constraint.penaltyAt 2 0).PenalizesAt 0 (constrainAll [.penalty 2] s) :=
    ⟨rfl, _, rfl⟩
  exact ⟨loaded, ⟨_, rfl⟩, penalizes, (penalized_once loaded calls rfl).2 [.penalty 2] _
    [.length 3] rfl penalizes (.check [1, 2, 0] 2) rfl⟩

def promptScores : Tensor := .packed .f32 [1, 1, 4] ([0, 8, 3, 0].map .real)

/-- A penalty on the whole search leaves no mark. A verification that follows penalizes the same
token again, and predicts another one than the scores before it. -/
theorem whole_penalty_repeats :
    let s := (setScores promptScores drafting).2
    let once := constrainAll [.penalty 2] s
    let twice := constrainAll [.penalty 2, .check [1] 0] s
    s.Loaded ∧ (once.inner.scores.scoresAt 0 0).toOption.map Scores.argmax = some 1 ∧
      (checkCandidates [1] 0 once).1.toOption = some ⟨[], some 2⟩ ∧
      (twice.inner.scores.scoresAt 0 0).toOption.map (·.map Float32.toBits) =
        some ((Scores.penalize 2 [1] (Scores.suppress [3] (Scores.penalize 2 [1] [0, 8, 3, 0]))).map
          Float32.toBits) :=
  ⟨drafting_loaded promptScores rfl, by decide +kernel, by decide +kernel, by decide +kernel⟩

end Speculative

end StagedDecoding
