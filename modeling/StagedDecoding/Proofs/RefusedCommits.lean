import StagedDecoding.Proofs.Unnoticed

/-! Commits that are refused.

A commit marks the rows that end with it before the histories are asked for room. If they have none,
the rows keep their tokens and the search is over or not as before, but the new marks stay. So a
refused commit leaves no trace exactly if it chose no end token for a row that still ran. If it did,
the trace is gone once tokens are dropped, since the marks are then taken from the rows.
-/

set_option autoImplicit false

namespace StagedDecoding

namespace Histories

variable {h : Histories} {tokens : List Token} {failure : Failure}

theorem append_refused (count : tokens.length = h.rows.length)
    (refused : h.append tokens = .error failure) : failure = .overflow h.capacity := by
  by_cases room : h.length + 1 ≤ h.capacity
  · rw [append_eq_ok.mpr ⟨count, room, rfl⟩] at refused
    cases refused
  · have full : h.capacity < h.length + 1 := Nat.lt_of_not_le room
    simp only [append, checkRowCount, rowCount, count, checkCapacity, full, if_true, bind,
      Except.bind, Except.error.injEq] at refused
    exact refused.symm

theorem appendRun_refused (single : h.rows.length = 1)
    (refused : h.appendRun tokens = .error failure) : failure = .overflow h.capacity := by
  by_cases room : h.length + tokens.length ≤ h.capacity
  · rw [appendRun_eq_ok.mpr ⟨single, room, rfl⟩] at refused
    cases refused
  · have full : h.capacity < h.length + tokens.length := Nat.lt_of_not_le room
    simp only [appendRun, rowCount, single, ne_eq, not_true, if_false, checkCapacity, full,
      if_true, bind, Except.bind, Except.error.injEq] at refused
    exact refused.symm

end Histories

namespace Greedy

def retell (tokens : List Token) (g : Greedy) : Greedy := { g with nextTokens := tokens }

def Retold (g g' : Greedy) : Prop := ∃ tokens, g' = g.retell tokens

inductive Chooses (g : Greedy) : Strategy.Action → Nat → Token → Prop where
  | best {tokens : List Token} {row : Nat} {token : Token} :
      bestTokens g.scores (List.range g.settings.batchSize) = .ok tokens →
      tokens[row]? = some token → Chooses g .selectTop row token
  | drawn {action : Strategy.Action} {sampling : Scores.Sampling} {drawn : List Token × WordStream}
      {row : Nat} {token : Token} : action.sampling? = some sampling →
      drawRows sampling g.scores (List.range g.settings.batchSize) g.words = .ok drawn →
      drawn.1[row]? = some token → Chooses g action row token
  | run {tokens : List Token} {token : Token} : token ∈ tokens →
      Chooses g (.setNextTokens tokens) 0 token

/-- A call that is refused for lack of room chose an end token for a row. -/
def LosesEnd (g : Greedy) (action : Strategy.Action) (failure : Failure) (row : Nat) : Prop :=
  failure = .overflow g.histories.capacity ∧
    ∃ token, g.Chooses action row token ∧ g.settings.isEnd token = true

/-- What a refused call leaves: new marks of the rows that lost an end token, other latest tokens,
and after a sample other words. -/
structure Refusal (g : Greedy) (action : Strategy.Action) (failure : Failure) (g' : Greedy) :
    Prop where
  same : g' = { g with
    nextTokens := g'.nextTokens
    ended := g'.ended
    running := g'.running
    words := g'.words }
  words : action.sampling? = none → g'.words = g.words
  count : g'.ended.length = g.ended.length
  running : g'.running = g'.ended.count false
  marks : ∀ row, g'.ended[row]? = some true ↔
    g.ended[row]? = some true ∨ g.LosesEnd action failure row

variable {settings : Settings} {known : Nat → Prop} {g g' : Greedy} {tokens : List Token}
  {failure : Failure} {action : Strategy.Action}

theorem Refusal.refl (running : g.running = g.ended.count false)
    (keeps : ∀ row, ¬ g.LosesEnd action failure row) : g.Refusal action failure g :=
  ⟨rfl, fun _ => rfl, rfl, running, fun row => (or_iff_left (keeps row)).symm⟩

theorem not_losesEnd (other : failure ≠ .overflow g.histories.capacity) (row : Nat) :
    ¬ g.LosesEnd action failure row := fun lost => other lost.1

theorem marks_settled (count : tokens.length = g.ended.length) (row : Nat) :
    (((g.ended.zip tokens).map (settleOne settings)).map Prod.snd)[row]? = some true ↔
      g.ended[row]? = some true ∨
        ∃ token : Token, tokens[row]? = some token ∧ settings.isEnd token = true := by
  simp only [List.map_map, List.getElem?_map, Option.map_eq_some_iff, List.getElem?_zip_eq_some,
    Function.comp_apply]
  constructor
  · rintro ⟨⟨mark, token⟩, ⟨here, chosen⟩, marked⟩
    cases mark with
    | true => exact .inl here
    | false => exact .inr ⟨token, chosen, marked⟩
  · rintro (marked | ⟨token, chosen, ends⟩)
    · have bound : row < tokens.length := count ▸ (List.getElem?_eq_some_iff.mp marked).1
      exact ⟨(true, tokens[row]), ⟨marked, List.getElem?_eq_getElem bound⟩, rfl⟩
    · have bound : row < g.ended.length := count ▸ (List.getElem?_eq_some_iff.mp chosen).1
      refine ⟨(g.ended[row], token), ⟨List.getElem?_eq_getElem bound, chosen⟩, ?_⟩
      cases g.ended[row] with
      | true => rfl
      | false => exact ends

/-- A commit is refused for lack of room, and leaves the rows settled. -/
theorem commit_refused (sized : g.Sized settings known)
    (count : tokens.length = settings.batchSize)
    (failed : Step.Fails (Greedy.commit tokens) g failure g') :
    failure = .overflow g.histories.capacity ∧
      g' = { g with nextTokens := g'.nextTokens, ended := g'.ended, running := g'.running } ∧
      g'.ended.length = g.ended.length ∧ g'.running = g'.ended.count false ∧
      ∀ row : Nat, g'.ended[row]? = some true ↔ g.ended[row]? = some true ∨
        ∃ token : Token, tokens[row]? = some token ∧ g.settings.isEnd token = true := by
  have matched : tokens.length = g.ended.length := count.trans sized.ended.symm
  have settled := @settle_total g.settings (g.ended.zip tokens) 0
  rw [List.map_fst_zip (Nat.le_of_eq matched.symm), Nat.add_zero, ← sized.running,
    Nat.add_zero] at settled
  have marks : (((g.ended.zip tokens).map (settleOne g.settings)).map Prod.snd).length =
      g.ended.length := by
    rw [List.length_map, List.length_map, List.length_zip, matched, Nat.min_self]
  have next : (((g.ended.zip tokens).map (settleOne g.settings)).map Prod.fst).length =
      g.histories.rows.length := by
    rw [List.length_map, List.length_map, List.length_zip, matched, Nat.min_self, sized.ended,
      sized.level.rectangular.count]
  simp only [Greedy.commit, Step.fails_bind, Step.fails_get, Step.fails_lift, Step.fails_set,
    Step.returns_get, Step.returns_lift, Step.returns_set, false_or, and_false, exists_false,
    or_false] at failed
  obtain ⟨_, _, ⟨rfl, rfl⟩, failed⟩ := failed
  -- slots, marks and counts are in order, so that only the append can be refused
  have batch : settings.batchSize = g.settings.batchSize := congrArg _ sized.fixed.symm
  have enough : g.settings.batchSize ≤ tokens.length := Nat.le_of_eq (count.trans batch).symm
  simp only [fillSlots_total enough, reduceCtorEq, false_and, false_or, Except.ok.injEq] at failed
  obtain ⟨_, _, ⟨rfl, rfl⟩, failed⟩ := failed
  simp only [markedSlots_total (sized.ended.trans batch) enough, reduceCtorEq, false_and, false_or,
    Except.ok.injEq] at failed
  obtain ⟨_, _, ⟨rfl, rfl⟩, failed⟩ := failed
  simp only [settled, reduceCtorEq, false_and, false_or, Except.ok.injEq] at failed
  obtain ⟨_, _, ⟨rfl, rfl⟩, _, _, rfl, refused, rfl⟩ := failed
  exact ⟨Histories.append_refused next refused, rfl, marks, rfl, marks_settled matched⟩

theorem Refusal.of_commit {words : WordStream} (sized : g.Sized settings known)
    (count : tokens.length = settings.batchSize)
    (kept : action.sampling? = none → words = g.words)
    (chosen : ∀ row token, g.Chooses action row token ↔ tokens[row]? = some token)
    (failed : Step.Fails (Greedy.commit tokens) { g with words := words } failure g') :
    g.Refusal action failure g' := by
  obtain ⟨rfl, same, long, running, marks⟩ :=
    commit_refused (sized.rescore sized.scores words) count failed
  refine ⟨?_, fun still => ?_, long, running, fun row => (marks row).trans (or_congr_right ?_)⟩
  · rw [same]
  · rw [same]
    exact kept still
  · exact ⟨fun ⟨token, listed, ends⟩ => ⟨rfl, token, (chosen row token).mpr listed, ends⟩,
      fun ⟨_, token, chose, ends⟩ => ⟨token, (chosen row token).mp chose, ends⟩⟩

theorem selectTop_refused (sized : g.Sized settings known)
    (failed : Step.Fails Greedy.selectTop g failure g') : g.Refusal .selectTop failure g' := by
  simp only [Greedy.selectTop, Step.fails_bind, Step.fails_get, Step.fails_lift, Step.returns_get,
    Step.returns_lift, false_or] at failed
  obtain ⟨_, _, ⟨rfl, rfl⟩, ⟨stale, rfl⟩ | ⟨_, _, ⟨ready, rfl⟩, failed⟩⟩ := failed
  · obtain ⟨-, rfl⟩ := LoadedScores.requireFresh_eq_error.mp stale
    exact .refl sized.running (not_losesEnd (by simp))
  · obtain ⟨tokens, best, count⟩ :=
      bestTokens_total (sized.last_total (LoadedScores.requireFresh_eq_ok.mp ready))
    rw [List.length_range, sized.fixed] at count
    simp only [best, reduceCtorEq, false_and, false_or, Except.ok.injEq] at failed
    obtain ⟨_, _, ⟨rfl, rfl⟩, failed⟩ := failed
    refine .of_commit sized count (fun _ => rfl) (fun row token => ⟨fun chose => ?_, .best best⟩)
      failed
    cases chose with
    | best again listed => exact Except.ok.inj (best.symm.trans again) ▸ listed
    | drawn sampled => cases sampled

theorem sample_refused {sampling : Scores.Sampling} (sized : g.Sized settings known)
    (samples : action.sampling? = some sampling)
    (failed : Step.Fails (Greedy.sample sampling) g failure g') :
    g.Refusal action failure g' := by
  simp only [Greedy.sample, Step.fails_bind, Step.fails_get, Step.fails_lift, Step.fails_set,
    Step.returns_get, Step.returns_lift, Step.returns_set, false_or] at failed
  obtain ⟨_, _, ⟨rfl, rfl⟩, ⟨stale, rfl⟩ | ⟨_, _, ⟨ready, rfl⟩, failed⟩⟩ := failed
  · obtain ⟨-, rfl⟩ := LoadedScores.requireFresh_eq_error.mp stale
    exact .refl sized.running (not_losesEnd (by simp))
  · obtain ⟨drawn, found, count⟩ :=
      drawRows_total sampling (sized.last_total (LoadedScores.requireFresh_eq_ok.mp ready)) g.words
    rw [List.length_range, sized.fixed] at count
    simp only [found, reduceCtorEq, false_and, false_or, Except.ok.injEq] at failed
    obtain ⟨_, _, ⟨rfl, rfl⟩, _, _, rfl, failed⟩ := failed
    refine .of_commit sized count (fun still => ?_)
      (fun row token => ⟨fun chose => ?_, .drawn samples found⟩) failed
    · rw [samples] at still
      cases still
    · -- the words are drawn once, so the tokens are those that were found
      cases chose with
      | drawn again found' listed =>
        obtain rfl := Option.some.inj (samples.symm.trans again)
        exact Except.ok.inj (found.symm.trans found') ▸ listed
      | best | run => cases samples

theorem dropLast_refused {count : Nat} (sized : g.Sized settings known)
    (failed : Step.Fails (Greedy.dropLast count) g failure g') :
    g.Refusal (.dropLast count) failure g' := by
  obtain ⟨-, rfl⟩ := Step.fails_attempt.mp failed
  refine .refl sized.running ?_
  rintro row ⟨-, token, chosen, -⟩
  cases chosen with
  | drawn sampled => cases sampled

theorem cutAtEnd_any (settings : Settings) (tokens : List Token) :
    (cutAtEnd settings tokens).1.any settings.isEnd = tokens.any settings.isEnd := by
  rw [← cutAtEnd_snd, ← List.findIdx?_isSome]
  unfold cutAtEnd
  split
  · next found => rw [found]; rfl
  · next found => rw [found]; rfl

theorem setNextTokens_refused (sized : g.Sized settings known)
    (failed : Step.Fails (Greedy.setNextTokens tokens) g failure g') :
    g.Refusal (.setNextTokens tokens) failure g' := by
  rw [setNextTokens_eq] at failed
  simp only [Step.throw_bind, Step.fails_bind, Step.fails_get, Step.returns_get, false_or] at failed
  obtain ⟨_, _, ⟨rfl, rfl⟩, failed⟩ := failed
  split at failed
  · obtain ⟨rfl, rfl⟩ := Step.fails_throw.mp failed
    exact .refl sized.running (not_losesEnd (by simp))
  next single =>
  rw [Decidable.not_not, sized.fixed] at single
  obtain ⟨mark, marks⟩ := List.length_eq_one_iff.mp (sized.ended.trans single)
  have first : fetch g.ended 0 = .ok mark := Outcome.fetch_eq_ok.mpr (by rw [marks]; rfl)
  simp only [first, Step.fails_bind, Step.fails_lift, Step.returns_lift, reduceCtorEq, false_and,
    false_or, Except.ok.injEq] at failed
  obtain ⟨_, _, ⟨rfl, rfl⟩, failed⟩ := failed
  cases mark with
  | true => exact (Step.fails_pure.mp failed).elim
  | false =>
    rw [if_neg Bool.false_ne_true] at failed
    simp only [commitRun, Step.fails_bind, Step.fails_set, Step.fails_lift, Step.returns_set,
      false_or, and_false, exists_false, or_false] at failed
    obtain ⟨_, _, rfl, refused, rfl⟩ := failed
    rw [marking_histories] at refused
    obtain rfl := Histories.appendRun_refused (sized.level.rectangular.count.trans single) refused
    -- the row was marked before its history refused the run
    obtain ⟨ended, running⟩ :=
      g.marking_ended (cutAtEnd g.settings tokens).1 marks sized.running
    refine ⟨?_, fun _ => ?_, by rw [ended, marks]; rfl, running, fun row => ?_⟩
    · unfold marking
      split <;> rfl
    · unfold marking
      split <;> rfl
    · rw [ended, marks, cutAtEnd_any]
      -- there is no other row, and this one is marked if a token of the run ends it
      cases row with
      | zero =>
        constructor
        · intro ends
          obtain ⟨token, member, ends⟩ := List.any_eq_true.mp (Option.some.inj ends)
          exact .inr ⟨rfl, token, .run member, ends⟩
        · rintro (marked | ⟨-, token, chosen, ends⟩)
          · cases marked
          · cases chosen with
            | run member => exact congrArg some (List.any_eq_true.mpr ⟨token, member, ends⟩)
            | drawn sampled => cases sampled
      | succ row =>
        refine ⟨by simp, ?_⟩
        rintro (marked | ⟨-, token, chosen, -⟩)
        · cases marked
        · cases chosen with
          | drawn sampled => cases sampled

theorem Retold.like (retold : g.Retold g') : g.Like True .same g' := by
  obtain ⟨latest, rfl⟩ := retold
  exact like_recast latest id fun _ => rfl

theorem Refusal.retold (refusal : g.Refusal action failure g') (sized : g.Sized settings known)
    (nothing : ∀ row, g.LosesEnd action failure row → g.ended[row]? = some true) :
    { g with words := g'.words }.Retold g' := by
  have ended : g'.ended = g.ended := by
    refine List.ext_getElem refusal.count fun row here there => ?_
    have marks := (refusal.marks row).trans (or_iff_left_of_imp (nothing row))
    rw [List.getElem?_eq_getElem here, List.getElem?_eq_getElem there, Option.some_inj,
      Option.some_inj] at marks
    exact Bool.eq_iff_iff.mpr marks
  have running : g'.running = g.running := by rw [refusal.running, sized.running, ended]
  refine ⟨g'.nextTokens, ?_⟩
  rw [refusal.same]
  simp only [retell, ended, running]

theorem Refusal.dropLast {count : Nat} {u : Unit} {back : Greedy}
    (refusal : g.Refusal action failure g') (sized : g.Sized settings known)
    (ran : Step.Returns (Greedy.dropLast count) g' u back) :
    ∃ back', Step.Returns (Greedy.dropLast count) { g with words := g'.words } u back' ∧
      back'.Retold back := by
  simp only [Greedy.dropLast, Step.returns_attempt, Outcome.bind_eq_ok, Outcome.pure_eq_ok] at ran ⊢
  obtain ⟨histories, dropped, ended, marked, rfl⟩ := ran
  have settings : g'.settings = g.settings := by rw [refusal.same]
  rw [refusal.same] at dropped
  rw [settings] at marked
  -- every mark is found anew, whatever was there
  have again : markAnew g.settings histories g.ended = .ok ended := by
    obtain ⟨rows, marks, rfl⟩ := markAnew_eq_ok.mp marked
    have all : g.ended.length ≤ g.settings.batchSize := by rw [sized.ended, sized.fixed]
    refine markAnew_eq_ok.mpr ⟨rows, refusal.count ▸ marks, ?_⟩
    rw [List.drop_eq_nil_of_le all, List.drop_eq_nil_of_le (refusal.count.symm ▸ all)]
  refine ⟨_, ⟨histories, dropped, ended, again, rfl⟩, g'.nextTokens, ?_⟩
  rw [refusal.same]
  rfl

end Greedy

namespace Speculative

def retell (tokens : List Token) (s : Speculative) : Speculative :=
  { s with inner := s.inner.retell tokens }

def Retold (s s' : Speculative) : Prop := ∃ tokens, s' = s.retell tokens

theorem Retold.like {s s' : Speculative} (retold : s.Retold s') : s.Like True .same s' := by
  obtain ⟨latest, rfl⟩ := retold
  exact like_recast latest id fun _ => rfl

end Speculative

namespace Strategy

inductive Retold : Strategy → Strategy → Prop where
  | greedy {g g' : Greedy} : g.Retold g' → Retold (.greedy g) (.greedy g')
  | beam (b : Beam) : Retold (.beam b) (.beam b)
  | speculative {s s' : Speculative} : s.Retold s' → Retold (.speculative s) (.speculative s')

def withSearch (g : Greedy) : Strategy → Strategy
  | .greedy _ => .greedy g
  | .beam b => .beam b
  | .speculative s => .speculative { s with inner := g }

def resumed (before after : Strategy) : Strategy :=
  match before.greedy?, after.greedy? with
  | some g, some g' => before.withSearch { g with words := g'.words }
  | _, _ => before

/-- Whatever is called, the calls come to the same from either state, and leave the same tokens and
end marks of the rows and the same end of the search. -/
def GoOnAlike (strategy strategy' : Strategy) : Prop :=
  ∀ actions : List Action,
    (conduct actions strategy).1 = (conduct actions strategy').1 ∧
    (conduct actions strategy).2.histories = (conduct actions strategy').2.histories ∧
    (conduct actions strategy).2.ended = (conduct actions strategy').2.ended ∧
    (conduct actions strategy).2.isDone = (conduct actions strategy').2.isDone

def LosesEnd (before : Strategy) (action : Action) (failure : Failure) (row : Nat) : Prop :=
  ∃ g, before.greedy? = some g ∧ g.LosesEnd action failure row

structure Contained (before : Strategy) (action : Action) (failure : Failure) (after : Strategy) :
    Prop where
  histories : after.histories = before.histories
  done : after.isDone = before.isDone
  marks : ∀ row : Nat, after.ended[row]? = some true ↔
    before.ended[row]? = some true ∨ before.LosesEnd action failure row
  /-- Only samples use words up. -/
  words : action.sampling? = none → before.resumed after = before
  unnoticed : GoOnAlike (before.resumed after) after ↔
    ∀ row, before.LosesEnd action failure row → before.ended[row]? = some true
  dropped : ∀ count back, Step.Returns (perform (.dropLast count)) after () back →
    ∃ back', Step.Returns (perform (.dropLast count)) (before.resumed after) () back' ∧
      GoOnAlike back' back

variable {strategy strategy' before after start : Strategy} {settings : Settings}
  {g g' : Greedy} {action : Action} {failure : Failure} {inputIds : List Token}

theorem Like.goOn (like : strategy.Like True .same strategy') : GoOnAlike strategy strategy' := by
  intro actions
  obtain ⟨outcomes, _, last⟩ := like.conduct (fun _ _ => .inr trivial) (.inl Tie.same_ne_loose)
  exact ⟨outcomes, last.observed⟩

theorem Retold.goOn (retold : strategy.Retold strategy') : GoOnAlike strategy strategy' := by
  cases retold with
  | greedy retold => exact (Like.greedy retold.like).goOn
  | beam b => exact fun _ => ⟨rfl, rfl, rfl, rfl⟩
  | speculative retold => exact (Like.speculative retold.like).goOn

theorem withSearch_self (searches : before.greedy? = some g) : before.withSearch g = before := by
  cases before with
  | greedy own => exact congrArg Strategy.greedy (Option.some.inj searches).symm
  | beam _ => rfl
  | speculative s =>
    obtain rfl := Option.some.inj searches
    rfl

theorem greedy?_withSearch (searches : before.greedy? = some g) (g' : Greedy) :
    (before.withSearch g').greedy? = some g' := by
  cases before with
  | greedy _ => rfl
  | beam _ => cases searches
  | speculative _ => rfl

theorem resumed_withSearch (searches : before.greedy? = some g) (g' : Greedy) :
    before.resumed (before.withSearch g') = before.withSearch { g with words := g'.words } := by
  rw [resumed, searches, greedy?_withSearch searches]

theorem Retold.withSearch (retold : g.Retold g') (strategy : Strategy) :
    (strategy.withSearch g).Retold (strategy.withSearch g') := by
  obtain ⟨latest, rfl⟩ := retold
  cases strategy with
  | greedy _ => exact .greedy ⟨latest, rfl⟩
  | beam b => exact .beam b
  | speculative _ => exact .speculative ⟨latest, rfl⟩

theorem rowSearch_eq {α : Type} (step : Step Greedy α) (beam : Step Beam α)
    (searches : before.greedy? = some g) (g' : Greedy) :
    byCases step beam (Speculative.inside step) (before.withSearch g') =
      ((step g').1, before.withSearch (step g').2) := by
  cases before with
  | greedy _ => rfl
  | beam _ => cases searches
  | speculative _ => rfl

theorem rowSearch_fails {α : Type} {step : Step Greedy α} {beam : Step Beam α}
    (searches : before.greedy? = some g)
    (failed : Step.Fails (byCases step beam (Speculative.inside step)) before failure after) :
    ∃ g', Step.Fails step g failure g' ∧ after = before.withSearch g' := by
  rw [Step.Fails, ← withSearch_self searches, rowSearch_eq step beam searches] at failed
  obtain ⟨outcome, left⟩ := Prod.mk.inj failed
  exact ⟨(step g).2, Prod.ext outcome rfl, left.symm⟩

theorem rowBased_returns_iff {operation : Operation} {step : Step Greedy Unit} {u : Unit}
    (searches : before.greedy? = some g) :
    Step.Returns (rowBased operation step) (before.withSearch g') u after ↔
      ∃ last, Step.Returns step g' u last ∧ after = before.withSearch last := by
  rw [Step.Returns, rowBased, rowSearch_eq step _ searches]
  constructor
  · intro ran
    obtain ⟨outcome, left⟩ := Prod.mk.inj ran
    exact ⟨(step g').2, Prod.ext outcome rfl, left.symm⟩
  · rintro ⟨last, ran, rfl⟩
    rw [Step.Returns] at ran
    rw [ran]

theorem rowBased_fails {operation : Operation} {step : Step Greedy Unit}
    (searches : before.greedy? = some g)
    (failed : Step.Fails (rowBased operation step) before failure after) :
    ∃ g', Step.Fails step g failure g' ∧ after = before.withSearch g' :=
  rowSearch_fails searches failed

theorem Sized.search (sized : before.Sized settings) (searches : before.greedy? = some g) :
    ∃ known, g.Sized settings known := by
  cases sized with
  | greedy sized => exact ⟨_, Option.some.inj searches ▸ sized⟩
  | beam _ => cases searches
  | speculative sized => exact ⟨_, Option.some.inj searches ▸ sized.inner⟩

theorem refusal_of_fails {known : Nat → Prop} (sized : g.Sized settings known)
    (searches : before.greedy? = some g) (commits : action.commits = true)
    (failed : Step.Fails (perform action) before failure after) :
    ∃ g', g.Refusal action failure g' ∧ after = before.withSearch g' := by
  cases action with
  | selectTop =>
    obtain ⟨g', failed, left⟩ := rowSearch_fails searches failed
    exact ⟨g', Greedy.selectTop_refused sized failed, left⟩
  | sampleTop | sampleShare | sampleTopShare =>
    obtain ⟨g', failed, left⟩ := rowBased_fails searches failed
    exact ⟨g', Greedy.sample_refused sized rfl failed, left⟩
  | dropLast count =>
    obtain ⟨g', failed, left⟩ := rowBased_fails searches failed
    exact ⟨g', Greedy.dropLast_refused sized failed, left⟩
  | setNextTokens tokens =>
    obtain ⟨g', failed, left⟩ := rowBased_fails searches failed
    exact ⟨g', Greedy.setNextTokens_refused sized failed, left⟩
  | setScores | constrainLength | penalize | checkCandidates | constrainLengthAt | penalizeAt
  | finalize | sequence => cases commits

/-- However a row-based strategy got to a state, a commit that is refused there leaves the tokens of
the rows and the end of the search alone. The rows that lose an end token are marked all the same.
If they were marked before, no later call tells the refused one from none; if not, none does after a
drop. -/
theorem refused_commit_contained {actions : List Action} (started : Started settings inputIds start)
    (reached : (conduct actions start).2 = before) (rows : before.kind ≠ .beam)
    (commits : action.commits = true) (failed : Step.Fails (perform action) before failure after) :
    Contained before action failure after := by
  have sized := reached ▸ (started.sized.conduct actions).2
  obtain ⟨g, searches⟩ := exists_greedy? rows
  obtain ⟨known, sized⟩ := sized.search searches
  obtain ⟨g', refusal, rfl⟩ := refusal_of_fails sized searches commits failed
  have left := greedy?_withSearch searches g'
  obtain ⟨histories, -, done, -⟩ := of_greedy? searches
  obtain ⟨histories', -, done', -⟩ := of_greedy? left
  have marks : ∀ row : Nat, (before.withSearch g').ended[row]? = some true ↔
      before.ended[row]? = some true ∨ before.LosesEnd action failure row := by
    intro row
    rw [ended_of_greedy? left, ended_of_greedy? searches, refusal.marks row]
    refine or_congr_right ⟨fun lost => ⟨g, searches, lost⟩, fun ⟨own, found, lost⟩ => ?_⟩
    exact Option.some.inj (found.symm.trans searches) ▸ lost
  -- but for its marks, the state that is left is the one before with the same words
  have resumes := resumed_withSearch searches g'
  refine ⟨?_, ?_, marks, fun still => ?_, ⟨fun alike row lost => ?_, fun nothing => ?_⟩,
    fun count back ran => ?_⟩
  · rw [histories, histories', refusal.same]
  · rw [done, done', refusal.same]
  · rw [resumes, refusal.words still]
    exact withSearch_self searches
  · obtain ⟨-, -, ended, -⟩ := alike []
    have kept : (before.resumed (before.withSearch g')).ended = before.ended := by
      rw [resumes, ended_of_greedy? (greedy?_withSearch searches _), ended_of_greedy? searches]
    rw [← kept]
    exact (congrArg (·[row]?) ended).trans ((marks row).mpr (.inr lost))
  · rw [resumes]
    refine (Retold.withSearch (refusal.retold sized fun row lost => ?_) before).goOn
    rw [← ended_of_greedy? searches]
    exact nothing row ⟨g, searches, lost⟩
  · obtain ⟨last, dropped, rfl⟩ := (rowBased_returns_iff searches).mp ran
    obtain ⟨last', again, retold⟩ := refusal.dropLast sized dropped
    rw [resumes]
    exact ⟨_, (rowBased_returns_iff searches).mpr ⟨last', again, rfl⟩,
      (Retold.withSearch retold before).goOn⟩

def tooLong : Action := .setNextTokens [2, 5, 6, 3]

/-- A refused run marks the only row, and the next run, which would fit, is passed over. -/
theorem refused_run_ends_row :
    let refused := (perform tooLong single).2
    Started single.settings [1] single ∧ tooLong.commits = true ∧
    Step.Fails (perform tooLong) single (.overflow 4) refused ∧
    single.ended = [false] ∧ refused.ended = [true] ∧
    (conduct [.setNextTokens [4]] single).1 = [.ok ()] ∧
    (conduct [.setNextTokens [4]] single).2.histories.rows = [[1, 4]] ∧
    (conduct [.setNextTokens [4]] refused).1 = [.ok ()] ∧
    (conduct [.setNextTokens [4]] refused).2.histories.rows = [[1]] :=
  ⟨.greedy rfl, rfl, rfl, rfl, rfl, rfl, rfl, rfl, rfl⟩

theorem too_long_contained :
    let refused := (perform tooLong single).2
    Step.Fails (perform tooLong) single (.overflow 4) refused ∧
    Contained single tooLong (.overflow 4) refused ∧
    (perform (.dropLast 0) refused).2.ended = [false] := by
  intro refused
  have failed : Step.Fails (perform tooLong) single (.overflow 4) refused := rfl
  have started : Started single.settings [1] single := .greedy rfl
  exact ⟨failed, refused_commit_contained started (show (conduct [] single).2 = single from rfl)
    nofun rfl failed, rfl⟩

end Strategy

end StagedDecoding
