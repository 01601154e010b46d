import StagedDecoding.Proofs.Bookkeeping

/-! What the calls on a row-based search do not notice.

Two runs are alike if they come to the same and leave states that are related. Every way to build an
operation has a law that makes two runs of the whole alike if those of its parts are. No operation
of a row-based search looks at the tokens of the latest selection, only samples look at the words
that are left, and nothing comes of scores that are used up. So searches that differ in nothing else
answer every sequence of calls alike, and after a load it does not matter what scores there were.
-/

set_option autoImplicit false

namespace StagedDecoding

namespace Step

variable {σ τ α β : Type} {related : σ → σ → Prop} {before before' : σ}

/-- Two runs come to the same, and the states that they leave are related. -/
def Alike (related : σ → σ → Prop) (step step' : Step σ α) (before before' : σ) : Prop :=
  (step before).1 = (step' before').1 ∧ related (step before).2 (step' before').2

/-- Two runs return and leave states that are related, or fail alike and change nothing. -/
def Meet (related : σ → σ → Prop) (step step' : Step σ Unit) (before before' : σ) : Prop :=
  (∃ after after', Returns step before () after ∧ Returns step' before' () after' ∧
    related after after') ∨
  ∃ failure, Fails step before failure before ∧ Fails step' before' failure before'

theorem Alike.bind {step step' : Step σ α} {next next' : α → Step σ β}
    (first : Alike related step step' before before')
    (later : ∀ a after after', related after after' →
      Alike related (next a) (next' a) after after') :
    Alike related (step >>= next) (step' >>= next') before before' := by
  unfold Alike at first ⊢
  rw [bind_eq, bind_eq]
  generalize step before = ran at first ⊢
  generalize step' before' = ran' at first ⊢
  obtain ⟨outcome, after⟩ := ran
  obtain ⟨_, after'⟩ := ran'
  obtain ⟨rfl, same⟩ := first
  cases outcome with
  | ok a => exact later a after after' same
  | error failure => exact ⟨rfl, same⟩

theorem alike_get {next next' : σ → Step σ β} :
    Alike related (get >>= next) (get >>= next') before before' ↔
      Alike related (next before) (next' before') before before' := Iff.rfl

theorem alike_set {after after' : σ} {next next' : PUnit → Step σ β} :
    Alike related (set after >>= next) (set after' >>= next') before before' ↔
      Alike related (next ⟨⟩) (next' ⟨⟩) after after' := Iff.rfl

theorem alike_modify {f f' : σ → σ} (same : related (f before) (f' before')) :
    Alike related (modify f) (modify f') before before' := ⟨rfl, same⟩

theorem alike_pure {a : α} (same : related before before') :
    Alike related (pure a) (pure a) before before' := ⟨rfl, same⟩

theorem alike_throw {failure : Failure} (same : related before before') :
    Alike related (throw failure : Step σ α) (throw failure) before before' := ⟨rfl, same⟩

theorem alike_lift (x : Except Failure α) (same : related before before') :
    Alike related (liftM x) (liftM x) before before' := ⟨rfl, same⟩

theorem alike_attempt {change : σ → Except Failure σ} (dress : σ → σ)
    (same : change before' = dress <$> change before) (start : related before before')
    (dressed : ∀ after, related after (dress after)) :
    Alike related (attempt change) (attempt change) before before' := by
  unfold Alike attempt
  rw [same]
  cases change before with
  | ok after => exact ⟨rfl, dressed after⟩
  | error failure => exact ⟨rfl, start⟩

theorem Meet.alike {step step' : Step σ Unit} (meet : Meet related step step' before before')
    (start : related before before') : Alike related step step' before before' := by
  unfold Alike
  obtain ⟨after, after', ran, ran', same⟩ | ⟨failure, failed, failed'⟩ := meet
  · rw [Returns] at ran ran'
    rw [ran, ran']
    exact ⟨rfl, same⟩
  · rw [Fails] at failed failed'
    rw [failed, failed']
    exact ⟨rfl, start⟩

theorem meet_attempt {view : σ → Except Failure α} {change : α → σ → σ}
    (seen : view before' = view before)
    (keeps : ∀ a, view before = .ok a → related (change a before) (change a before')) :
    Meet related (attempt fun state => do let a ← view state; return change a state)
      (attempt fun state => do let a ← view state; return change a state) before before' := by
  cases found : view before with
  | ok a =>
    refine .inl ⟨_, _, returns_attempt.mpr ?_, returns_attempt.mpr ?_, keeps a found⟩
    · rw [found]
      rfl
    · rw [seen, found]
      rfl
  | error failure =>
    refine .inr ⟨failure, fails_attempt.mpr ⟨?_, rfl⟩, fails_attempt.mpr ⟨?_, rfl⟩⟩
    · rw [found]
      rfl
    · rw [seen, found]
      rfl

theorem alike_inspect {view view' : σ → Except Failure α} (seen : view before = view' before')
    (same : related before before') :
    Alike related (inspect view) (inspect view') before before' := ⟨seen, same⟩

theorem alike_within {part : σ → τ} {replace : τ → σ → σ} {step step' : Step τ α}
    {inner : τ → τ → Prop} (alike : Alike inner step step' (part before) (part before'))
    (outer : ∀ t t', inner t t' → related (replace t before) (replace t' before')) :
    Alike related (within part replace step) (within part replace step') before before' :=
  ⟨alike.1, outer _ _ alike.2⟩

end Step

/-- What two searches have in common about their scores. -/
inductive Tie where
  /-- The scores are the same. -/
  | same
  /-- Both are used up. -/
  | spent
  /-- Nothing is known of them. -/
  | loose

namespace Tie

def Holds : Tie → LoadedScores → LoadedScores → Prop
  | .same, scores, scores' => scores' = scores
  | .spent, scores, scores' => scores.fresh = false ∧ scores'.fresh = false
  | .loose, _, _ => True

variable {tie : Tie} {scores scores' : LoadedScores}

theorem same_ne_loose : Tie.same ≠ .loose := nofun

theorem spent_ne_loose : Tie.spent ≠ .loose := nofun

theorem Holds.consume (tied : tie.Holds scores scores') :
    tie.Holds scores.consume scores'.consume := by
  cases tie with
  | same => exact congrArg LoadedScores.consume tied
  | spent => exact ⟨rfl, rfl⟩
  | loose => trivial

theorem alike_fresh {σ α : Type} {related : σ → σ → Prop} {before before' : σ}
    {next next' : Unit → Step σ α} (close : tie ≠ .loose) (tied : tie.Holds scores scores')
    (start : related before before')
    (on : tie = .same → Step.Alike related (next ()) (next' ()) before before') :
    Step.Alike related (liftM scores.requireFresh >>= next) (liftM scores'.requireFresh >>= next')
      before before' := by
  cases tie with
  | same =>
    obtain rfl := tied
    unfold LoadedScores.requireFresh
    split
    · exact on rfl
    · exact Step.alike_throw start
  | spent =>
    obtain ⟨spent, spent'⟩ := tied
    unfold LoadedScores.requireFresh
    rw [spent, spent']
    exact Step.alike_throw start
  | loose => exact absurd rfl close

end Tie

namespace LoadedScores

variable {scores : LoadedScores}

theorem requireFresh_spent (spent : scores.fresh = false) :
    scores.requireFresh = .error .scoresMissing :=
  requireFresh_eq_error.mpr ⟨spent, rfl⟩

theorem constrainLength_spent (spent : scores.fresh = false) (minLength : Nat)
    (endTokens : List Token) (histories : Histories) :
    scores.constrainLength minLength endTokens histories = .error .scoresMissing := by
  rw [constrainLength, requireFresh_spent spent]
  rfl

theorem penalize_spent (spent : scores.fresh = false) (penalty : Float32)
    (histories : Histories) : scores.penalize penalty histories = .error .scoresMissing := by
  rw [penalize, requireFresh_spent spent]
  rfl

end LoadedScores

namespace Greedy

def recast (tokens : List Token) (reword : WordStream → WordStream) (g : Greedy) : Greedy :=
  { g with nextTokens := tokens, words := reword g.words }

/-- Nothing is different but the latest tokens, the scores as far as they are not tied, and the
words unless these count. -/
def Like (worded : Prop) (tie : Tie) (g g' : Greedy) : Prop :=
  ∃ tokens reword scores, g' = { g.recast tokens reword with scores := scores } ∧
    tie.Holds g.scores scores ∧ (worded → reword = id)

variable {worded : Prop} {tie : Tie} {g g' : Greedy}

theorem like_recast (tokens : List Token) (reword : WordStream → WordStream)
    (kept : worded → reword = id) : g.Like worded .same (g.recast tokens reword) :=
  ⟨tokens, reword, g.scores, rfl, rfl, kept⟩

theorem Like.tied (like : g.Like worded tie g') : tie.Holds g.scores g'.scores := by
  obtain ⟨_, _, _, rfl, tied, -⟩ := like
  exact tied

theorem Like.retie {other : Tie} (like : g.Like worded tie g')
    (tied : other.Holds g.scores g'.scores) : g.Like worded other g' := by
  obtain ⟨tokens, reword, scores, rfl, -, kept⟩ := like
  exact ⟨tokens, reword, scores, rfl, tied, kept⟩

theorem Like.commit (like : g.Like worded tie g') (tokens : List Token) :
    Step.Alike (Like worded tie) (Greedy.commit tokens) (Greedy.commit tokens) g g' := by
  obtain ⟨latest, reword, scores, rfl, tied, kept⟩ := like
  unfold Greedy.commit
  refine Step.alike_get.mpr
    ((Step.alike_lift _ ⟨latest, reword, scores, rfl, tied, kept⟩).bind fun slots _ _ like => ?_)
  refine (Step.alike_lift _ like).bind fun marked _ _ like => ?_
  refine (Step.alike_lift _ like).bind fun settled _ _ _ => ?_
  refine Step.alike_set.mpr
    ((Step.alike_lift _ ⟨_, reword, scores, rfl, tied, kept⟩).bind fun histories _ _ _ => ?_)
  exact Step.alike_modify ⟨_, reword, scores.consume, rfl, tied.consume, kept⟩

theorem Like.selectTop (like : g.Like worded tie g') (close : tie ≠ .loose) :
    Step.Alike (Like worded tie) Greedy.selectTop Greedy.selectTop g g' := by
  obtain ⟨latest, reword, scores, rfl, tied, kept⟩ := like
  unfold Greedy.selectTop
  refine Step.alike_get.mpr
    (Tie.alike_fresh close tied ⟨latest, reword, scores, rfl, tied, kept⟩ ?_)
  rintro rfl
  obtain rfl := tied
  exact (Step.alike_lift _ (like_recast _ _ kept)).bind fun tokens _ _ like => like.commit tokens

theorem Like.sample (like : g.Like True tie g') (close : tie ≠ .loose)
    (sampling : Scores.Sampling) :
    Step.Alike (Like True tie) (Greedy.sample sampling) (Greedy.sample sampling) g g' := by
  obtain ⟨latest, reword, scores, rfl, tied, kept⟩ := like
  obtain rfl := kept trivial
  unfold Greedy.sample
  refine Step.alike_get.mpr
    (Tie.alike_fresh close tied ⟨latest, id, scores, rfl, tied, fun _ => rfl⟩ ?_)
  rintro rfl
  obtain rfl := tied
  refine (Step.alike_lift _ (like_recast latest id fun _ => rfl)).bind fun drawn _ _ _ => ?_
  exact Step.alike_set.mpr (Like.commit (like_recast latest id fun _ => rfl) drawn.1)

theorem Like.dropLast (like : g.Like worded tie g') (count : Nat) :
    Step.Alike (Like worded tie) (Greedy.dropLast count) (Greedy.dropLast count) g g' := by
  obtain ⟨latest, reword, scores, rfl, tied, kept⟩ := like
  -- what is found of a state, and what is made of it
  let found (g : Greedy) : Except Failure (Histories × List Bool) := do
    let histories ← g.histories.dropLast count
    return (histories, ← markAnew g.settings histories g.ended)
  let dropped (found : Histories × List Bool) (g : Greedy) : Greedy := refreshDone { g with
    histories := found.1
    ended := found.2
    running := found.2.count false }
  have split : Greedy.dropLast count =
      .attempt fun g => do let parts ← found g; return dropped parts g := by
    simp only [Greedy.dropLast, found, dropped, bind_assoc, pure_bind]
  have meet : Step.Meet (Like worded tie) (Greedy.dropLast count) (Greedy.dropLast count) g
      { g.recast latest reword with scores := scores } := by
    rw [split]
    exact Step.meet_attempt rfl fun _ _ => ⟨latest, reword, scores, rfl, tied, kept⟩
  exact meet.alike ⟨latest, reword, scores, rfl, tied, kept⟩

theorem Like.marking (like : g.Like worded tie g') (run : List Token) :
    (g.marking run).Like worded tie (g'.marking run) := by
  obtain ⟨latest, reword, scores, rfl, tied, kept⟩ := like
  unfold Greedy.marking
  change Like worded tie (if run.any g.settings.isEnd then _ else _)
    (if run.any g.settings.isEnd then _ else _)
  split
  · exact ⟨latest, reword, scores, rfl, tied, kept⟩
  · exact ⟨latest, reword, scores, rfl, tied, kept⟩

theorem Like.commitRun {marked marked' : Greedy} (like : marked.Like worded tie marked')
    (run : List Token) :
    Step.Alike (Like worded tie) (commitRun run marked) (commitRun run marked') g g' := by
  obtain ⟨latest, reword, scores, rfl, tied, kept⟩ := like
  refine Step.alike_set.mpr
    ((Step.alike_lift _ ⟨latest, reword, scores, rfl, tied, kept⟩).bind fun histories _ _ _ => ?_)
  exact Step.alike_modify ⟨run, reword, scores.consume, rfl, tied.consume, kept⟩

theorem Like.setNextTokens (like : g.Like worded tie g') (tokens : List Token) :
    Step.Alike (Like worded tie) (Greedy.setNextTokens tokens) (Greedy.setNextTokens tokens)
      g g' := by
  obtain ⟨settings, ended⟩ : g'.settings = g.settings ∧ g'.ended = g.ended := by
    obtain ⟨_, _, _, rfl, -⟩ := like
    exact ⟨rfl, rfl⟩
  rw [setNextTokens_eq]
  refine Step.alike_get.mpr ?_
  simp only [settings, ended, Step.throw_bind]
  split
  · exact Step.alike_throw like
  · refine (Step.alike_lift _ like).bind fun ended _ _ like' => ?_
    cases ended with
    | true => exact Step.alike_pure like'
    | false => exact (like.marking _).commitRun _

theorem Like.sequence (like : g.Like worded tie g') (index : Nat) :
    Step.Alike (Like worded tie) (Greedy.sequence index) (Greedy.sequence index) g g' := by
  obtain ⟨latest, reword, scores, rfl, tied, kept⟩ := like
  exact Step.alike_inspect rfl ⟨latest, reword, scores, rfl, tied, kept⟩

theorem Like.rescore {rescore : Greedy → Except Failure LoadedScores}
    (like : g.Like worded tie g') (close : tie ≠ .loose)
    (blind : ∀ tokens reword, rescore (g.recast tokens reword) = rescore g)
    (spent : ∀ g : Greedy, g.scores.fresh = false → rescore g = .error .scoresMissing) :
    Step.Alike (Like worded tie)
      (.attempt fun g => do let scores ← rescore g; return { g with scores := scores })
      (.attempt fun g => do let scores ← rescore g; return { g with scores := scores }) g g' := by
  refine Step.Meet.alike (Step.meet_attempt ?_ fun changed found => ?_) like
  · obtain ⟨latest, reword, scores, rfl, tied, -⟩ := like
    cases tie with
    | same =>
      obtain rfl := tied
      exact blind latest reword
    | spent => exact (spent _ tied.2).trans (spent g tied.1).symm
    | loose => exact absurd rfl close
  · obtain ⟨latest, reword, scores, rfl, tied, kept⟩ := like
    cases tie with
    | same => exact ⟨latest, reword, changed, rfl, rfl, kept⟩
    | spent => exact absurd (found.symm.trans (spent g tied.1)) nofun
    | loose => exact absurd rfl close

theorem Like.constrainLength (like : g.Like worded tie g') (close : tie ≠ .loose)
    (minLength : Nat) :
    Step.Alike (Like worded tie) (Greedy.constrainLength minLength)
      (Greedy.constrainLength minLength) g g' :=
  like.rescore close (fun _ _ => rfl) fun _ spent => LoadedScores.constrainLength_spent spent _ _ _

theorem Like.penalize (like : g.Like worded tie g') (close : tie ≠ .loose) (penalty : Float32) :
    Step.Alike (Like worded tie) (Greedy.penalize penalty) (Greedy.penalize penalty) g g' :=
  like.rescore close (fun _ _ => rfl) fun _ spent => LoadedScores.penalize_spent spent _ _

theorem Like.setScores (like : g.Like worded tie g') (tensor : Tensor) :
    Step.Meet (Like worded .same) (Greedy.setScores tensor) (Greedy.setScores tensor) g g' := by
  obtain ⟨latest, reword, scores, rfl, -, kept⟩ := like
  exact Step.meet_attempt rfl fun loaded _ => ⟨latest, reword, loaded, rfl, rfl, kept⟩

end Greedy

namespace Speculative

def recast (tokens : List Token) (reword : WordStream → WordStream) (s : Speculative) :
    Speculative :=
  { s with inner := s.inner.recast tokens reword }

def Like (worded : Prop) (tie : Tie) (s s' : Speculative) : Prop :=
  s.inner.Like worded tie s'.inner ∧ (tie = .same → s'.marks = s.marks)

variable {worded : Prop} {tie : Tie} {s s' : Speculative}

theorem like_recast (tokens : List Token) (reword : WordStream → WordStream)
    (kept : worded → reword = id) : s.Like worded .same (s.recast tokens reword) :=
  ⟨Greedy.like_recast _ _ kept, fun _ => rfl⟩

theorem Like.recast (like : s.Like worded .same s') :
    ∃ tokens reword, s' = s.recast tokens reword ∧ (worded → reword = id) := by
  obtain ⟨⟨tokens, reword, scores, inner, rfl, kept⟩, marks⟩ := like
  exact ⟨tokens, reword, congrArg₂ Speculative.mk inner (marks rfl), kept⟩

theorem Like.positions (like : s.Like worded .same s') : s'.positions = s.positions :=
  congrArg LoadedScores.positions like.1.tied

theorem Like.inside {α : Type} {step : Step Greedy α} (like : s.Like worded tie s')
    (alike : Step.Alike (Greedy.Like worded tie) step step s.inner s'.inner) :
    Step.Alike (Like worded tie) (Speculative.inside step) (Speculative.inside step) s s' :=
  Step.alike_within alike fun _ _ inner => ⟨inner, like.2⟩

theorem Like.setScores (like : s.Like worded tie s') (tensor : Tensor) :
    Step.Meet (Like worded .same) (Speculative.setScores tensor) (Speculative.setScores tensor)
      s s' := by
  unfold Speculative.setScores
  obtain ⟨inner, inner', ran, ran', same⟩ | ⟨failure, failed, failed'⟩ := like.1.setScores tensor
  · refine .inl ⟨_, _, Step.returns_bind.mpr ⟨(), _, Step.returns_within.mpr ⟨inner, ran, rfl⟩, rfl⟩,
      Step.returns_bind.mpr ⟨(), _, Step.returns_within.mpr ⟨inner', ran', rfl⟩, rfl⟩, same, ?_⟩
    obtain ⟨_, _, _, rfl, rfl, -⟩ := same
    exact fun _ => rfl
  · exact .inr ⟨failure,
      Step.fails_bind.mpr (.inl (Step.fails_within.mpr ⟨s.inner, failed, rfl⟩)),
      Step.fails_bind.mpr (.inl (Step.fails_within.mpr ⟨s'.inner, failed', rfl⟩))⟩

section

variable (latest : List Token) (reword : WordStream → WordStream)

theorem constrainLength_recast (length minLength position : Nat) :
    (s.recast latest reword).constrainLength length minLength position =
      recast latest reword <$> s.constrainLength length minLength position := by
  simp only [constrainLength, map_bind, apply_ite (recast latest reword <$> ·), map_pure]
  rfl

theorem penalize_recast (history : List Token) (penalty : Float32) (position : Nat) :
    (s.recast latest reword).penalize history penalty position =
      recast latest reword <$> s.penalize history penalty position := by
  simp only [penalize, map_bind, apply_ite (recast latest reword <$> ·), map_pure]
  rfl

end

theorem Like.predict (like : s.Like worded .same s') (history : List Token) (position : Nat) :
    Step.Alike (Like worded .same) (Speculative.predict history position)
      (Speculative.predict history position) s s' := by
  obtain ⟨latest, reword, rfl, kept⟩ := like.recast
  have dressed (s : Speculative) : s.Like worded .same (s.recast latest reword) := like_recast _ _ kept
  refine Step.alike_get.mpr ((Step.alike_attempt (Speculative.recast latest reword)
    (constrainLength_recast latest reword _ _ _) like dressed).bind ?_)
  intro _ middle _ like
  obtain ⟨latest, reword, rfl, kept⟩ := like.recast
  refine (Step.alike_attempt (Speculative.recast latest reword)
    (penalize_recast latest reword _ _ _) like fun _ => like_recast _ _ kept).bind ?_
  intro _ last _ like
  obtain ⟨latest, reword, rfl, kept⟩ := like.recast
  exact Step.alike_get.mpr
    ((Step.alike_lift _ like).bind fun _ _ _ like => Step.alike_pure like)

theorem Like.verify (like : s.Like worded .same s') (history : List Token) (position : Nat)
    (draft : List Token) :
    Step.Alike (Like worded .same) (Speculative.verify history position draft)
      (Speculative.verify history position draft) s s' := by
  -- along the draft; predictions are alike, and settings and positions are the same
  induction draft generalizing s s' history position with
  | nil =>
    unfold Speculative.verify
    refine Step.alike_get.mpr ?_
    rw [like.positions]
    split
    · exact (like.predict history position).bind fun _ _ _ like => Step.alike_pure like
    · exact Step.alike_pure like
  | cons token rest ih =>
    unfold Speculative.verify
    refine (like.predict history position).bind fun target after after' like => ?_
    split
    · exact Step.alike_pure like
    · refine Step.alike_get.mpr ?_
      have settings : after'.inner.settings = after.inner.settings := by
        obtain ⟨_, _, rfl, -⟩ := like.recast
        rfl
      rw [settings]
      split
      · exact Step.alike_pure like
      · exact (ih like _ _).bind fun _ _ _ like => Step.alike_pure like

theorem Like.checkCandidates (like : s.Like worded tie s') (close : tie ≠ .loose)
    (tokens : List Token) (count : Nat) :
    Step.Alike (Like worded tie) (Speculative.checkCandidates tokens count)
      (Speculative.checkCandidates tokens count) s s' := by
  unfold Speculative.checkCandidates
  refine Step.alike_get.mpr (Tie.alike_fresh close like.1.tied like ?_)
  rintro rfl
  rw [like.positions]
  split
  · exact Step.alike_throw like
  · exact like.verify _ _ _

theorem checkPosition_spent (spent : s.inner.scores.fresh = false) (position : Nat) :
    s.checkPosition position = .error .scoresMissing := by
  rw [checkPosition, LoadedScores.requireFresh_spent spent]
  rfl

theorem Like.constrainAt {position : Nat} {change : Speculative → Except Failure Speculative}
    (like : s.Like worded tie s') (close : tie ≠ .loose)
    (blind : ∀ latest reword,
      change (s.recast latest reword) = Speculative.recast latest reword <$> change s) :
    Step.Alike (Like worded tie)
      (.attempt fun s => do s.checkPosition position; change s)
      (.attempt fun s => do s.checkPosition position; change s) s s' := by
  cases tie with
  | same =>
    obtain ⟨latest, reword, rfl, kept⟩ := like.recast
    refine Step.alike_attempt (Speculative.recast latest reword) ?_ like fun _ => like_recast _ _ kept
    change (s.checkPosition position >>= _) = _ <$> (s.checkPosition position >>= _)
    cases s.checkPosition position with
    | error failure => rfl
    | ok _ => exact blind latest reword
  | spent =>
    obtain ⟨spent, spent'⟩ : s.inner.scores.fresh = false ∧ s'.inner.scores.fresh = false :=
      like.1.tied
    refine Step.Meet.alike (.inr ⟨.scoresMissing, ?_, ?_⟩) like
    · exact Step.fails_attempt.mpr ⟨by rw [checkPosition_spent spent]; rfl, rfl⟩
    · exact Step.fails_attempt.mpr ⟨by rw [checkPosition_spent spent']; rfl, rfl⟩
  | loose => exact absurd rfl close

theorem Like.constrainLengthAt (like : s.Like worded tie s') (close : tie ≠ .loose)
    (minLength position : Nat) :
    Step.Alike (Like worded tie) (Speculative.constrainLengthAt minLength position)
      (Speculative.constrainLengthAt minLength position) s s' :=
  like.constrainAt close fun latest reword => constrainLength_recast latest reword _ _ _

theorem Like.penalizeAt (like : s.Like worded tie s') (close : tie ≠ .loose) (penalty : Float32)
    (position : Nat) :
    Step.Alike (Like worded tie) (Speculative.penalizeAt penalty position)
      (Speculative.penalizeAt penalty position) s s' := by
  refine like.constrainAt close fun latest reword => ?_
  change (s.inner.histories.row 0 >>= _) = _ <$> (s.inner.histories.row 0 >>= _)
  cases s.inner.histories.row 0 with
  | error failure => rfl
  | ok row => exact penalize_recast latest reword row penalty position

end Speculative

namespace Strategy

def Action.sampling? : Action → Option Scores.Sampling
  | .sampleTop k temperature => some ⟨some k, none, temperature⟩
  | .sampleShare p temperature => some ⟨none, some p, temperature⟩
  | .sampleTopShare k p temperature => some ⟨some k, some p, temperature⟩
  | _ => none

def Action.asks : Action → Bool
  | .setScores _ | .dropLast _ | .setNextTokens _ | .finalize _ | .sequence _ => false
  | _ => true

inductive Like (worded : Prop) (tie : Tie) : Strategy → Strategy → Prop where
  | greedy {g g' : Greedy} : g.Like worded tie g' → Like worded tie (.greedy g) (.greedy g')
  | speculative {s s' : Speculative} : s.Like worded tie s' →
      Like worded tie (.speculative s) (.speculative s')

/-- Two searches have the same scores, or none that can still be used. -/
def ScoresAgree : Strategy → Strategy → Prop
  | .greedy g, .greedy g' =>
    g'.scores = g.scores ∨ g.scores.fresh = false ∧ g'.scores.fresh = false
  | .speculative s, .speculative s' =>
    s'.inner.scores = s.inner.scores ∧ s'.marks = s.marks ∨
      s.inner.scores.fresh = false ∧ s'.inner.scores.fresh = false
  | _, _ => False

/-- Nothing asks for scores before a load has succeeded. -/
inductive LoadsFirst : List Action → Strategy → Prop where
  | none (strategy : Strategy) : LoadsFirst [] strategy
  | load {tensor : Tensor} {rest : List Action} {before after : Strategy} :
      Step.Returns (perform (.setScores tensor)) before () after →
      LoadsFirst (.setScores tensor :: rest) before
  | skip {action : Action} {rest : List Action} {before : Strategy} : action.asks = false →
      LoadsFirst rest (perform action before).2 → LoadsFirst (action :: rest) before

variable {α : Type} {worded : Prop} {tie : Tie} {strategy strategy' : Strategy} {action : Action}

theorem Like.observed (like : strategy.Like worded tie strategy') :
    strategy.histories = strategy'.histories ∧ strategy.ended = strategy'.ended ∧
      strategy.isDone = strategy'.isDone := by
  cases like with
  | greedy like =>
    obtain ⟨_, _, _, rfl, -⟩ := like
    exact ⟨rfl, rfl, rfl⟩
  | speculative like =>
    obtain ⟨⟨_, _, _, inner, -⟩, -⟩ := like
    simp only [histories, ended, isDone, inner]
    exact ⟨rfl, rfl, rfl⟩

/-- What the scores have in common may be found out later. -/
theorem Like.tighten (like : strategy.Like worded tie strategy')
    (agree : strategy.ScoresAgree strategy') :
    ∃ close : Tie, close ≠ .loose ∧ strategy.Like worded close strategy' := by
  cases like with
  | greedy like =>
    obtain same | spent := agree
    · exact ⟨.same, Tie.same_ne_loose, .greedy (like.retie same)⟩
    · exact ⟨.spent, Tie.spent_ne_loose, .greedy (like.retie spent)⟩
  | speculative like =>
    obtain ⟨same, marks⟩ | spent := agree
    · exact ⟨.same, Tie.same_ne_loose, .speculative ⟨like.1.retie same, fun _ => marks⟩⟩
    · exact ⟨.spent, Tie.spent_ne_loose, .speculative ⟨like.1.retie spent, nofun⟩⟩

theorem Like.byCases {greedy : Step Greedy α} {beam : Step Beam α}
    {speculative : Step Speculative α} (like : strategy.Like worded tie strategy')
    (onGreedy : ∀ {g g'}, g.Like worded tie g' →
      Step.Alike (Greedy.Like worded tie) greedy greedy g g')
    (onSpeculative : ∀ {s s'}, s.Like worded tie s' →
      Step.Alike (Speculative.Like worded tie) speculative speculative s s') :
    Step.Alike (Like worded tie) (Strategy.byCases greedy beam speculative)
      (Strategy.byCases greedy beam speculative) strategy strategy' := by
  cases like with
  | greedy like =>
    obtain ⟨outcome, left⟩ := onGreedy like
    exact ⟨outcome, .greedy left⟩
  | speculative like =>
    obtain ⟨outcome, left⟩ := onSpeculative like
    exact ⟨outcome, .speculative left⟩

theorem Like.rowSearch {step : Step Greedy α} {beam : Step Beam α}
    (like : strategy.Like worded tie strategy')
    (alike : ∀ {g g'}, g.Like worded tie g' → Step.Alike (Greedy.Like worded tie) step step g g') :
    Step.Alike (Like worded tie) (Strategy.byCases step beam (Speculative.inside step))
      (Strategy.byCases step beam (Speculative.inside step)) strategy strategy' :=
  like.byCases alike fun like => like.inside (alike like.1)

theorem Like.draftOnly {operation : Operation} {step : Step Speculative α}
    (like : strategy.Like worded tie strategy')
    (alike : ∀ {s s'}, s.Like worded tie s' →
      Step.Alike (Speculative.Like worded tie) step step s s') :
    Step.Alike (Like worded tie) (Strategy.draftOnly operation step)
      (Strategy.draftOnly operation step) strategy strategy' :=
  like.byCases Step.alike_throw alike

section

variable {greedy : Step Greedy α} {beam : Step Beam α} {speculative : Step Speculative α}
  {failure : Failure}

theorem fails_greedy {g g' : Greedy} (failed : Step.Fails greedy g failure g') :
    Step.Fails (Strategy.byCases greedy beam speculative) (.greedy g) failure (.greedy g') := by
  unfold Step.Fails at failed ⊢
  simp only [Strategy.byCases, failed]

theorem fails_speculative {s s' : Speculative} (failed : Step.Fails speculative s failure s') :
    Step.Fails (Strategy.byCases greedy beam speculative) (.speculative s) failure
      (.speculative s') := by
  unfold Step.Fails at failed ⊢
  simp only [Strategy.byCases, failed]

end

theorem Like.load (like : strategy.Like worded tie strategy') (tensor : Tensor) :
    Step.Meet (Like worded .same) (Strategy.setScores tensor) (Strategy.setScores tensor)
      strategy strategy' := by
  cases like with
  | greedy like =>
    obtain ⟨g, g', ran, ran', same⟩ | ⟨failure, failed, failed'⟩ := like.setScores tensor
    · exact .inl ⟨_, _, returns_greedy ran, returns_greedy ran', .greedy same⟩
    · exact .inr ⟨failure, fails_greedy failed, fails_greedy failed'⟩
  | speculative like =>
    obtain ⟨s, s', ran, ran', same⟩ | ⟨failure, failed, failed'⟩ := like.setScores tensor
    · exact .inl ⟨_, _, returns_speculative ran, returns_speculative ran', .speculative same⟩
    · exact .inr ⟨failure, fails_speculative failed, fails_speculative failed'⟩

theorem Like.perform (like : strategy.Like worded tie strategy')
    (other : ∀ tensor, action ≠ .setScores tensor)
    (close : action.asks = true → tie ≠ .loose) (spoken : action.sampling? = none ∨ worded) :
    Step.Alike (Like worded tie) (Strategy.perform action) (Strategy.perform action)
      strategy strategy' := by
  -- a result that is thrown away does not tell the two apart
  have ignored : ∀ {α : Type} {step : Step Strategy α},
      Step.Alike (Like worded tie) step step strategy strategy' →
        Step.Alike (Like worded tie) (do let _ ← step; return) (do let _ ← step; return)
          strategy strategy' :=
    fun alike => alike.bind fun _ _ _ like => Step.alike_pure like
  cases action with
  | setScores tensor => exact absurd rfl (other tensor)
  | constrainLength minLength => exact like.rowSearch (·.constrainLength (close rfl) minLength)
  | penalize penalty => exact like.rowSearch (·.penalize (close rfl) penalty)
  | selectTop => exact like.rowSearch (·.selectTop (close rfl))
  | sampleTop | sampleShare | sampleTopShare =>
    obtain rfl : worded = True := eq_true (spoken.resolve_left nofun)
    exact like.rowSearch (·.sample (close rfl) _)
  | dropLast count => exact like.rowSearch (·.dropLast count)
  | setNextTokens tokens => exact like.rowSearch (·.setNextTokens tokens)
  | checkCandidates tokens count =>
    exact ignored (like.draftOnly (·.checkCandidates (close rfl) tokens count))
  | constrainLengthAt minLength position =>
    exact like.draftOnly (·.constrainLengthAt (close rfl) minLength position)
  | penalizeAt penalty position =>
    exact like.draftOnly (·.penalizeAt (close rfl) penalty position)
  | finalize count => exact ignored (like.byCases Step.alike_throw Step.alike_throw)
  | sequence index => exact ignored (like.rowSearch (·.sequence index))

theorem Like.turn {rest : List Action} (like : strategy.Like worded tie strategy')
    (spoken : action.sampling? = none ∨ worded)
    (ready : tie ≠ .loose ∨ LoadsFirst (action :: rest) strategy) :
    (Strategy.perform action strategy).1 = (Strategy.perform action strategy').1 ∧
      ∃ next : Tie, (Strategy.perform action strategy).2.Like worded next
          (Strategy.perform action strategy').2 ∧
        (next ≠ .loose ∨ LoadsFirst rest (Strategy.perform action strategy).2) := by
  -- a load makes the scores known, and any other call needs them known or does not ask for them
  by_cases loads : ∃ tensor, action = .setScores tensor
  · obtain ⟨tensor, rfl⟩ := loads
    obtain ⟨after, after', ran, ran', same⟩ | ⟨failure, failed, failed'⟩ := like.load tensor
    · rw [Step.Returns] at ran ran'
      simp only [Strategy.perform, ran, ran', true_and]
      exact ⟨.same, same, .inl Tie.same_ne_loose⟩
    · have kept : tie ≠ .loose ∨ LoadsFirst rest strategy := by
        refine ready.imp_right fun ready => ?_
        cases ready with
        | load ran => cases ran.symm.trans failed
        | skip _ later =>
          rw [Strategy.perform, failed] at later
          exact later
      rw [Step.Fails] at failed failed'
      simp only [Strategy.perform, failed, failed', true_and]
      exact ⟨tie, like, kept⟩
  · have other : ∀ tensor, action ≠ .setScores tensor :=
      fun tensor same => loads ⟨tensor, same⟩
    have kept : (action.asks = true → tie ≠ .loose) ∧
        (tie ≠ .loose ∨ LoadsFirst rest (Strategy.perform action strategy).2) := by
      obtain close | ready := ready
      · exact ⟨fun _ => close, .inl close⟩
      · cases ready with
        | load _ => exact absurd rfl (other _)
        | skip silent later =>
          exact ⟨fun asks => absurd (silent.symm.trans asks) Bool.false_ne_true, .inr later⟩
    obtain ⟨outcome, left⟩ := like.perform other kept.1 spoken
    exact ⟨outcome, tie, left, kept.2⟩

/-- Any calls, by induction over them. Where nothing is known of the scores, they must be loaded
first. -/
theorem Like.conduct {actions : List Action} (like : strategy.Like worded tie strategy')
    (spoken : ∀ action ∈ actions, action.sampling? = none ∨ worded)
    (ready : tie ≠ .loose ∨ LoadsFirst actions strategy) :
    (Strategy.conduct actions strategy).1 = (Strategy.conduct actions strategy').1 ∧
      ∃ last : Tie, (Strategy.conduct actions strategy).2.Like worded last
        (Strategy.conduct actions strategy').2 := by
  induction actions generalizing tie strategy strategy' with
  | nil => exact ⟨rfl, tie, like⟩
  | cons action rest ih =>
    obtain ⟨spoken, later⟩ := List.forall_mem_cons.mp spoken
    rcases like.turn spoken ready with ⟨outcome, next, left, ready⟩
    obtain ⟨outcomes, last⟩ := ih left later ready
    exact ⟨congrArg₂ List.cons outcome outcomes, last⟩

end Strategy

end StagedDecoding
