import StagedDecoding.Proofs.Constraints
import StagedDecoding.Proofs.Loading
import StagedDecoding.Strategy.Speculative

/-! Verdicts on drafts.

The prediction at a position depends on the history up to it and on the scores loaded there. Another
position is not touched, and a position that is read again predicts the same token. A verdict accepts
draft tokens as long as they are the predicted ones, up to an end token, and corrects the first that
is not.
-/

set_option autoImplicit false

namespace StagedDecoding

namespace Speculative

variable {s s' : Speculative} {history : List Token} {position : Nat} {mark : Marks}

def SameBut (s s' : Speculative) : Prop :=
  s'.inner = { s.inner with scores := s'.inner.scores }

theorem SameBut.refl (s : Speculative) : SameBut s s := rfl

theorem SameBut.trans {middle : Speculative} (first : SameBut s middle)
    (second : SameBut middle s') : SameBut s s' := by
  rw [SameBut, second, first]

structure Visits (position : Nat) (change : Scores → Scores) (mark : Marks)
    (s s' : Speculative) : Prop where
  same : SameBut s s'
  positions : s'.positions = s.positions
  marked : s'.marks[position]? = some mark
  scored : s'.inner.scores.scoresAt 0 position = change <$> s.inner.scores.scoresAt 0 position
  others : ∀ i ≠ position, s'.marks[i]? = s.marks[i]? ∧
    s'.inner.scores.scoresAt 0 i = s.inner.scores.scoresAt 0 i

theorem Visits.trans {middle : Speculative} {first second : Scores → Scores} {mark' : Marks}
    (before : Visits position first mark s middle)
    (after : Visits position second mark' middle s') :
    Visits position (second ∘ first) mark' s s' := by
  refine ⟨before.same.trans after.same, after.positions.trans before.positions, after.marked, ?_,
    fun i apart => ?_⟩
  · rw [after.scored, before.scored]
    cases s.inner.scores.scoresAt 0 position <;> rfl
  · obtain ⟨marks, scores⟩ := before.others i apart
    obtain ⟨marks', scores'⟩ := after.others i apart
    exact ⟨marks'.trans marks, scores'.trans scores⟩

theorem visits_unless {condition : Prop} [Decidable condition] {change : Scores → Scores}
    (keeps : ∀ own, (change own).length = own.length) (listed : position < s.marks.length) :
    Visits position (fun own => if condition then own else change own) mark s {
      inner := { s.inner with
        scores := if condition then s.inner.scores else s.inner.scores.changeAt 0 position change }
      marks := s.marks.set position mark } := by
  refine ⟨rfl, ?_, List.getElem?_set_self listed, ?_, fun i apart => ?_⟩
  · simp only [positions]
    split <;> rfl
  · dsimp only
    split
    · cases s.inner.scores.scoresAt 0 position <;> rfl
    · exact LoadedScores.scoresAt_changeAt keeps
  · refine ⟨List.getElem?_set_ne apart.symm, ?_⟩
    dsimp only
    split
    · rfl
    · exact LoadedScores.scoresAt_changeAt_other keeps apart.symm

theorem constrainLength_visits {length minLength : Nat}
    (constrained : s.constrainLength length minLength position = .ok s') :
    ∃ mark, s.marks[position]? = some mark ∧
      Visits position (fun own => if mark.length = true ∨ minLength ≤ length then own
        else Scores.suppress s.inner.settings.endTokens own) { mark with length := true } s s' := by
  simp only [constrainLength, Outcome.bind_eq_ok, Outcome.fetch_eq_ok] at constrained
  obtain ⟨mark, marked, constrained⟩ := constrained
  obtain ⟨listed, here⟩ := List.getElem?_eq_some_iff.mp marked
  refine ⟨mark, marked, ?_⟩
  convert @visits_unless s position { mark with length := true } _ _ _
    (Scores.length_suppress _) listed using 1
  split at constrained
  · next known =>
    have kept : s.marks.set position { mark with length := true } = s.marks := by
      rw [← known, ← here, List.set_getElem_self]
    rw [← Outcome.pure_eq_ok.mp constrained, if_pos (.inl known), kept]
  · next unknown =>
    simp only [Outcome.bind_eq_ok, Outcome.store_eq_ok] at constrained
    obtain ⟨_, ⟨-, rfl⟩, constrained⟩ := constrained
    split at constrained
    · next long => rw [← Outcome.pure_eq_ok.mp constrained, if_pos (.inr long)]
    · next short =>
      simp only [Outcome.bind_eq_ok, LoadedScores.adjust_eq_ok] at constrained
      obtain ⟨_, ⟨-, rfl⟩, passed⟩ := constrained
      rw [← Outcome.pure_eq_ok.mp passed, if_neg (not_or.mpr ⟨unknown, short⟩)]

theorem penalize_visits {penalty : Float32}
    (constrained : s.penalize history penalty position = .ok s') :
    ∃ mark, s.marks[position]? = some mark ∧
      Visits position (fun own => if mark.penalty = true ∨ penalty == 1 then own
        else Scores.penalize penalty history own) { mark with penalty := true } s s' := by
  simp only [penalize, Outcome.bind_eq_ok, Outcome.fetch_eq_ok] at constrained
  obtain ⟨mark, marked, constrained⟩ := constrained
  obtain ⟨listed, here⟩ := List.getElem?_eq_some_iff.mp marked
  refine ⟨mark, marked, ?_⟩
  convert @visits_unless s position { mark with penalty := true } _ _ _
    (Scores.length_penalize _ _) listed using 1
  split at constrained
  · next known =>
    have kept : s.marks.set position { mark with penalty := true } = s.marks := by
      rw [← known, ← here, List.set_getElem_self]
    rw [← Outcome.pure_eq_ok.mp constrained, if_pos (.inl known), kept]
  · next unknown =>
    simp only [Outcome.bind_eq_ok, Outcome.store_eq_ok] at constrained
    obtain ⟨_, ⟨-, rfl⟩, constrained⟩ := constrained
    split at constrained
    · next neutral => rw [← Outcome.pure_eq_ok.mp constrained, if_pos (.inr neutral)]
    · next counts =>
      simp only [Outcome.bind_eq_ok, LoadedScores.adjust_eq_ok] at constrained
      obtain ⟨_, ⟨-, rfl⟩, passed⟩ := constrained
      rw [← Outcome.pure_eq_ok.mp passed, if_neg (not_or.mpr ⟨unknown, counts⟩)]

end Speculative

/-- The scores that a prediction after a history leaves at a position: those constraints are added
that the mark does not have yet. -/
def Settings.settled (settings : Settings) (history : List Token) (mark : Marks) (own : Scores) :
    Scores :=
  let kept := if mark.length = true ∨ settings.minLength ≤ history.length then own
    else Scores.suppress settings.endTokens own
  if mark.penalty = true ∨ settings.repetitionPenalty == 1 then kept
  else Scores.penalize settings.repetitionPenalty history kept

theorem Settings.settled_marked {settings : Settings} {history : List Token} :
    settings.settled history ⟨true, true⟩ = id := by
  funext own
  simp [settled]

theorem Settings.argmax_settled {settings : Settings} {history : List Token} {own : Scores} :
    (settings.settled history ⟨false, false⟩ own).argmax = settings.best history own := by
  rw [best, ← Scores.constrained_eq]
  simp [settled]

namespace Speculative

variable {s s' : Speculative} {history : List Token} {position : Nat} {mark : Marks}

theorem predict_visits {token : Token}
    (ran : Step.Returns (predict history position) s token s') :
    ∃ mark, s.marks[position]? = some mark ∧
      Visits position (s.inner.settings.settled history mark) ⟨true, true⟩ s s' ∧
      ∃ own, s.inner.scores.scoresAt 0 position = .ok own ∧
        token = (s.inner.settings.settled history mark own).argmax := by
  simp only [predict, Step.returns_bind, Step.returns_get, Step.returns_attempt,
    Step.returns_lift, Step.returns_pure] at ran
  obtain ⟨_, _, ⟨rfl, rfl⟩, _, middle, lengthened, _, _, penalized, _, _, ⟨rfl, rfl⟩, found, _,
    ⟨read, rfl⟩, rfl, rfl⟩ := ran
  obtain ⟨mark, marked, first⟩ := constrainLength_visits lengthened
  obtain ⟨mark', marked', second⟩ := penalize_visits penalized
  obtain rfl := Option.some.inj (first.marked.symm.trans marked')
  have both : Visits position (s.inner.settings.settled history mark) ⟨true, true⟩ s _ :=
    first.trans second
  refine ⟨mark, marked, both, ?_⟩
  rw [both.scored] at read
  obtain ⟨own, there, rfl⟩ := Outcome.map_eq_ok.mp read
  exact ⟨own, there, rfl⟩

/-- Every position carries the constraints of its history up to some position, and none from there
on. -/
structure ReadTo (loaded : LoadedScores) (histories : Nat → List Token) (reached : Nat)
    (s : Speculative) : Prop where
  read : ∀ i < reached, i < s.positions → s.marks[i]? = some ⟨true, true⟩ ∧
    s.inner.scores.scoresAt 0 i =
      s.inner.settings.settled (histories i) ⟨false, false⟩ <$> loaded.scoresAt 0 i
  unread : ∀ i, reached ≤ i → i < s.positions → s.marks[i]? = some ⟨false, false⟩ ∧
    s.inner.scores.scoresAt 0 i = loaded.scoresAt 0 i
  positions : s.positions = loaded.positions

variable {loaded : LoadedScores} {histories : Nat → List Token} {reached : Nat}

/-- A position predicts the same token however often it is read. -/
theorem ReadTo.predict {token : Token} (read : ReadTo loaded histories reached s)
    (within : position ≤ reached) (below : position < s.positions)
    (ran : Step.Returns (predict (histories position) position) s token s') :
    (∃ own, loaded.scoresAt 0 position = .ok own ∧
      token = s.inner.settings.best (histories position) own) ∧
      SameBut s s' ∧ ReadTo loaded histories (max reached (position + 1)) s' := by
  rcases Nat.lt_or_eq_of_le within with before | rfl
  · -- it has both constraints already
    obtain ⟨marked, scored⟩ := read.read position before below
    obtain ⟨mark, marked', visits, own, there, rfl⟩ := predict_visits ran
    obtain rfl := Option.some.inj (marked.symm.trans marked')
    rw [scored] at there
    obtain ⟨raw, loaded, rfl⟩ := Outcome.map_eq_ok.mp there
    have settings : s'.inner.settings = s.inner.settings := by rw [visits.same]
    have unchanged : ∀ i, s'.marks[i]? = s.marks[i]? ∧
        s'.inner.scores.scoresAt 0 i = s.inner.scores.scoresAt 0 i := by
      intro i
      by_cases apart : i = position
      · refine apart ▸ ⟨visits.marked.trans marked.symm, ?_⟩
        rw [visits.scored, Settings.settled_marked, id_map]
      · exact visits.others i apart
    rw [Settings.settled_marked, id, Settings.argmax_settled, Nat.max_eq_left before]
    refine ⟨⟨raw, loaded, rfl⟩, visits.same, fun i early bound => ?_, fun i late bound => ?_,
      visits.positions.trans read.positions⟩
    · rw [(unchanged i).1, (unchanged i).2, settings]
      exact read.read i early (visits.positions ▸ bound)
    · rw [(unchanged i).1, (unchanged i).2]
      exact read.unread i late (visits.positions ▸ bound)
  · obtain ⟨marked, scored⟩ := read.unread position (Nat.le_refl _) below
    obtain ⟨mark, marked', visits, own, there, rfl⟩ := predict_visits ran
    obtain rfl := Option.some.inj (marked.symm.trans marked')
    rw [scored] at there
    have settings : s'.inner.settings = s.inner.settings := by rw [visits.same]
    rw [Settings.argmax_settled, Nat.max_eq_right (Nat.le_succ position)]
    refine ⟨⟨own, there, rfl⟩, visits.same, fun i early bound => ?_, fun i late bound => ?_,
      visits.positions.trans read.positions⟩
    · by_cases apart : i = position
      · rw [apart, visits.marked, visits.scored, scored, settings]
        exact ⟨rfl, rfl⟩
      · rw [(visits.others i apart).1, (visits.others i apart).2, settings]
        exact read.read i (by omega) (visits.positions ▸ bound)
    · rw [(visits.others i (by omega)).1, (visits.others i (by omega)).2]
      exact read.unread i (by omega) (visits.positions ▸ bound)

/-- What a verdict on a draft is, from some position on and after some history, when `predict`
tells the token that belongs there. -/
inductive Judged (isEnd : Token → Bool) (positions : Nat)
    (predicts : Nat → List Token → Token → Prop) :
    Nat → List Token → List Token → Verdict → Prop where
  | spent {position : Nat} {history : List Token} :
      positions ≤ position → Judged isEnd positions predicts position history [] .empty
  | further {position : Nat} {history : List Token} {target : Token} :
      predicts position history target →
      Judged isEnd positions predicts position history [] ⟨[], some target⟩
  | rejected {position : Nat} {history rest : List Token} {target token : Token} :
      predicts position history target → target ≠ token →
      Judged isEnd positions predicts position history (token :: rest) ⟨[], some target⟩
  | ended {position : Nat} {history rest : List Token} {token : Token} :
      predicts position history token → isEnd token = true →
      Judged isEnd positions predicts position history (token :: rest) ⟨[token], none⟩
  | accepted {position : Nat} {history rest : List Token} {token : Token} {verdict : Verdict} :
      predicts position history token → isEnd token = false →
      Judged isEnd positions predicts (position + 1) (history ++ [token]) rest verdict →
      Judged isEnd positions predicts position history (token :: rest)
        { verdict with accepted := token :: verdict.accepted }

/-- A verification by its predictions: it goes from one to the next as long as they are those of the
draft, and past no end token. -/
inductive Verifies : List Token → Nat → List Token → Speculative → Verdict → Speculative → Prop where
  | spent {history : List Token} {position : Nat} {s : Speculative} : s.positions ≤ position →
      Verifies history position [] s .empty s
  | further {history : List Token} {position : Nat} {s s' : Speculative} {target : Token} :
      position < s.positions → Step.Returns (predict history position) s target s' →
      Verifies history position [] s ⟨[], some target⟩ s'
  | rejected {history rest : List Token} {position : Nat} {s s' : Speculative}
      {target token : Token} : Step.Returns (predict history position) s target s' →
      target ≠ token → Verifies history position (token :: rest) s ⟨[], some target⟩ s'
  | ended {history rest : List Token} {position : Nat} {s s' : Speculative} {token : Token} :
      Step.Returns (predict history position) s token s' →
      s'.inner.settings.isEnd token = true →
      Verifies history position (token :: rest) s ⟨[token], none⟩ s'
  | accepted {history rest : List Token} {position : Nat} {s middle s' : Speculative}
      {token : Token} {verdict : Verdict} : Step.Returns (predict history position) s token middle →
      middle.inner.settings.isEnd token = false →
      Verifies (history ++ [token]) (position + 1) rest middle verdict s' →
      Verifies history position (token :: rest) s
        { verdict with accepted := token :: verdict.accepted } s'

theorem verify_verifies {draft : List Token} {verdict : Verdict}
    (ran : Step.Returns (verify history position draft) s verdict s') :
    Verifies history position draft s verdict s' := by
  -- a verdict ends behind the draft, at a token that was not predicted, or at an end token
  induction draft generalizing s history position verdict with
  | nil =>
    simp only [verify, Step.returns_bind, Step.returns_get] at ran
    obtain ⟨_, _, ⟨rfl, rfl⟩, ran⟩ := ran
    split at ran
    case isTrue below =>
      simp only [Step.returns_bind, Step.returns_pure] at ran
      obtain ⟨target, _, passed, rfl, rfl⟩ := ran
      exact .further below passed
    case isFalse beyond =>
      obtain ⟨rfl, rfl⟩ := Step.returns_pure.mp ran
      exact .spent (Nat.le_of_not_lt beyond)
  | cons token rest ih =>
    simp only [verify, Step.returns_bind] at ran
    obtain ⟨target, middle, passed, ran⟩ := ran
    split at ran
    case isTrue differs =>
      obtain ⟨rfl, rfl⟩ := Step.returns_pure.mp ran
      exact .rejected passed differs
    case isFalse agrees =>
      obtain rfl := Decidable.not_not.mp agrees
      simp only [Step.returns_bind, Step.returns_get] at ran
      obtain ⟨_, _, ⟨rfl, rfl⟩, ran⟩ := ran
      split at ran
      case isTrue ends =>
        obtain ⟨rfl, rfl⟩ := Step.returns_pure.mp ran
        exact .ended passed ends
      case isFalse goes =>
        simp only [Step.returns_bind, Step.returns_pure] at ran
        obtain ⟨later, _, verified, rfl, rfl⟩ := ran
        exact .accepted passed (Bool.eq_false_iff.mpr goes) (ih verified)

/-- A draft is judged by the scores as they were loaded, also where they have been read before. -/
theorem Verifies.judged {draft : List Token} {verdict : Verdict}
    (verifies : Verifies history position draft s verdict s')
    (read : ReadTo loaded histories reached s) (within : position ≤ reached)
    (follows : ∀ i ≤ draft.length, histories (position + i) = history ++ draft.take i)
    (enough : position + draft.length ≤ loaded.positions) :
    SameBut s s' ∧ (∃ reached', ReadTo loaded histories reached' s') ∧
      Judged s.inner.settings.isEnd loaded.positions
        (fun i history token => ∃ own, loaded.scoresAt 0 i = .ok own ∧
          token = s.inner.settings.best history own) position history draft verdict := by
  have here : histories position = history := by simpa using follows 0 (Nat.zero_le _)
  induction verifies generalizing reached with
  | spent beyond => exact ⟨rfl, ⟨_, read⟩, .spent (read.positions ▸ beyond)⟩
  | further below passed =>
    obtain ⟨predicted, same, read'⟩ := read.predict within below (here ▸ passed)
    exact ⟨same, ⟨_, read'⟩, .further (here ▸ predicted)⟩
  | rejected passed differs =>
    rw [List.length_cons] at enough
    obtain ⟨found, same, read'⟩ :=
      read.predict within (by rw [read.positions]; omega) (here ▸ passed)
    exact ⟨same, ⟨_, read'⟩, .rejected (here ▸ found) differs⟩
  | ended passed ends =>
    rw [List.length_cons] at enough
    obtain ⟨found, same, read'⟩ :=
      read.predict within (by rw [read.positions]; omega) (here ▸ passed)
    rw [same] at ends
    exact ⟨same, ⟨_, read'⟩, .ended (here ▸ found) ends⟩
  | @accepted history rest position s middle s' token verdict passed goes _ ih =>
    rw [List.length_cons] at enough follows
    obtain ⟨found, same, read'⟩ :=
      read.predict within (by rw [read.positions]; omega) (here ▸ passed)
    -- what a position leaves behind is judged by the same settings
    have settings : middle.inner.settings = s.inner.settings := by rw [same]
    have follows' : ∀ i ≤ rest.length,
        histories (position + 1 + i) = history ++ [token] ++ rest.take i := by
      intro i bound
      rw [Nat.add_right_comm, Nat.add_assoc, follows (i + 1) (by omega), List.take_succ_cons,
        List.append_cons]
    obtain ⟨same', kept, judged⟩ := ih read' (Nat.le_max_right _ _) follows' (by omega)
      (by simpa using follows' 0 (Nat.zero_le _))
    rw [settings] at judged goes
    exact ⟨same.trans same', kept, .accepted (here ▸ found) goes judged⟩

structure Unread (loaded : LoadedScores) (s : Speculative) : Prop where
  marks : ∀ i < s.positions, s.marks[i]? = some ⟨false, false⟩
  scores : s.inner.scores = loaded

theorem Unread.readTo (unread : Unread loaded s) (histories : Nat → List Token) :
    ReadTo loaded histories 0 s := by
  refine ⟨fun i early => absurd early (Nat.not_lt_zero i), fun i _ bound => ?_, ?_⟩
  · exact ⟨unread.marks i bound, by rw [unread.scores]⟩
  · rw [positions, unread.scores]

theorem setScores_returns {tensor : Tensor} {u : Unit}
    (ran : Step.Returns (setScores tensor) s u s') :
    ∃ scores, LoadedScores.load s.inner.settings.batchSize s.inner.settings.vocabulary
        s.inner.everyPosition tensor = .ok scores ∧
      s'.inner = { s.inner with scores := scores } ∧ Unread scores s' := by
  simp only [setScores, inside, Greedy.setScores, Step.returns_bind, Step.returns_within,
    Step.returns_attempt, Step.returns_modify, Outcome.bind_eq_ok, Outcome.pure_eq_ok] at ran
  obtain ⟨_, _, ⟨_, ⟨scores, loaded, rfl⟩, rfl⟩, rfl⟩ := ran
  refine ⟨scores, loaded, rfl, fun i below => ?_, rfl⟩
  exact List.getElem?_replicate.trans (if_pos below)

theorem ReadTo.checkCandidates {draft : List Token} {verdict : Verdict}
    (read : ReadTo loaded (fun i => history ++ draft.take i) reached s)
    (ran : Step.Returns (checkCandidates (history ++ draft) draft.length) s verdict s') :
    SameBut s s' ∧ (∃ reached', ReadTo loaded (fun i => history ++ draft.take i) reached' s') ∧
      Judged s.inner.settings.isEnd loaded.positions
        (fun i history token => ∃ own, loaded.scoresAt 0 i = .ok own ∧
          token = s.inner.settings.best history own) 0 history draft verdict := by
  simp only [Speculative.checkCandidates, Step.returns_bind, Step.returns_get, Step.returns_lift,
    Step.throw_bind, Step.returns_guard, List.length_append, Nat.add_sub_cancel,
    List.take_left', List.drop_left'] at ran
  obtain ⟨_, _, ⟨rfl, rfl⟩, _, _, ⟨-, rfl⟩, enough, ran⟩ := ran
  simp only [Bool.or_eq_true, decide_eq_true_eq, not_or] at enough
  refine (verify_verifies ran).judged read (Nat.zero_le _) (fun i _ => ?_)
    (by rw [← read.positions]; omega)
  rw [Nat.zero_add]

theorem checkCandidates_returns {draft : List Token} {verdict : Verdict}
    (unread : Unread loaded s)
    (ran : Step.Returns (checkCandidates (history ++ draft) draft.length) s verdict s') :
    SameBut s s' ∧ Judged s.inner.settings.isEnd loaded.positions
      (fun i history token => ∃ scores, loaded.scoresAt 0 i = .ok scores ∧
        token = s.inner.settings.best history scores) 0 history draft verdict := by
  obtain ⟨same, -, judged⟩ := (unread.readTo _).checkCandidates ran
  exact ⟨same, judged⟩

namespace Judged

variable {isEnd : Token → Bool} {positions : Nat} {predicts : Nat → List Token → Token → Prop}
  {draft : List Token} {verdict : Verdict}

theorem accepted_prefix
    (judged : Judged isEnd positions predicts position history draft verdict) :
    verdict.accepted <+: draft := by
  induction judged with
  | spent _ => exact List.prefix_rfl
  | further _ => exact List.prefix_rfl
  | rejected _ _ => exact List.nil_prefix
  | ended _ _ => exact ⟨_, rfl⟩
  | accepted _ _ _ ih => exact (List.prefix_cons_inj _).mpr ih

theorem committed_ne_nil
    (judged : Judged isEnd positions predicts position history draft verdict)
    (below : position < positions) : verdict.committed ≠ [] := by
  cases judged with
  | spent beyond => omega
  | further _ => simp [Verdict.committed]
  | rejected _ _ => simp [Verdict.committed]
  | ended _ _ => simp [Verdict.committed]
  | accepted _ _ _ => simp [Verdict.committed]

/-- End tokens stand at most at the end of what is committed, and before a correction not at
all. -/
theorem no_early_end
    (judged : Judged isEnd positions predicts position history draft verdict) :
    (∀ token ∈ verdict.committed.dropLast, isEnd token = false) ∧
      (verdict.correction.isSome → ∀ token ∈ verdict.accepted, isEnd token = false) := by
  induction judged with
  | spent _ => simp [Verdict.committed, Verdict.empty]
  | further _ => simp [Verdict.committed]
  | rejected _ _ => simp [Verdict.committed]
  | ended _ _ => simp [Verdict.committed]
  | @accepted position history rest token verdict _ goes _ ih =>
    obtain ⟨committed, accepted⟩ := ih
    constructor
    · intro other member
      -- with nothing behind it, the accepted token is itself the last one
      cases rest : verdict.committed with
      | nil => simp [Verdict.committed] at rest member; simp [rest] at member
      | cons first more =>
        have whole : ({ verdict with accepted := token :: verdict.accepted } : Verdict).committed =
            token :: verdict.committed := rfl
        rw [whole, rest, List.dropLast_cons_cons, ← rest] at member
        rcases List.mem_cons.mp member with rfl | member
        · exact goes
        · exact committed other member
    · intro corrected other member
      rcases List.mem_cons.mp member with rfl | member
      · exact goes
      · exact accepted corrected other member

end Judged

end Speculative

theorem Greedy.cutAtEnd_eq {settings : Settings} {tokens : List Token}
    (late : ∀ token ∈ tokens.dropLast, settings.isEnd token = false) :
    cutAtEnd settings tokens = (tokens, tokens.any settings.isEnd) := by
  unfold cutAtEnd
  split
  case h_1 i found =>
    obtain ⟨bound, ends, -⟩ := List.findIdx?_eq_some_iff_getElem.mp found
    have last : tokens.length ≤ i + 1 := by
      by_contra early
      have inside : i < tokens.dropLast.length := by rw [List.length_dropLast]; omega
      have member : tokens.dropLast[i] ∈ tokens.dropLast := List.getElem_mem inside
      rw [List.getElem_dropLast] at member
      exact absurd ends (by simp [late _ member])
    have any : tokens.any settings.isEnd = true :=
      List.any_eq_true.mpr ⟨_, List.getElem_mem bound, ends⟩
    rw [List.take_of_length_le last, any]
  case h_2 found =>
    have none : tokens.any settings.isEnd = false := by
      simpa [List.any_eq_false] using List.findIdx?_eq_none_iff.mp found
    rw [none]

end StagedDecoding
