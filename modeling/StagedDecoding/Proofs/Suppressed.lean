import StagedDecoding.Proofs.Bookkeeping
import StagedDecoding.Proofs.Drawing
import StagedDecoding.Proofs.Normalized

/-! Tokens that are ruled out and the sampling of a row.

As long as the largest scaled score is finite, only a token whose score is above negative infinity is
drawn. When it overflows, no chance is positive, and the draw falls back to the first token, whether
that one is ruled out or not.
-/

set_option autoImplicit false

namespace StagedDecoding

namespace Scores

variable {elementary : Elementary} {scores probabilities : Scores} {temperature value : Float32}
  {k : Nat}

theorem bestAfter_neither (own : ¬ value < 0 ∧ ¬ 0 < value)
    (none : ∀ x ∈ probabilities, ¬ x < 0 ∧ ¬ 0 < x) (best i : Nat) :
    bestAfter best value i probabilities = best := by
  induction probabilities generalizing i with
  | nil => rfl
  | cons x rest ih =>
    obtain ⟨first, others⟩ := List.forall_mem_cons.mp none
    have within : ¬ value < x := by
      rw [not_lt_iff]
      rcases unpack_of_neither own.1 own.2 with ⟨sign, zero⟩ | undefined <;>
        rcases unpack_of_neither first.1 first.2 with ⟨sign', zero'⟩ | undefined'
      · rw [zero, zero']
        cases sign <;> cases sign' <;> rfl
      · rw [zero, undefined']
        cases sign <;> rfl
      · rw [undefined, zero']
        cases sign' <;> rfl
      · rw [undefined, undefined']
        rfl
    rw [bestAfter, if_neg within]
    exact ih others (i + 1)

theorem draw_neither (none : ∀ x ∈ probabilities, ¬ x < 0 ∧ ¬ 0 < x) (stream : WordStream) :
    (draw probabilities stream).1 = 0 := by
  unfold draw
  dsimp only
  -- without mass the best index is asked for, else a walk that passes over everything
  split
  · cases probabilities with
    | nil => rfl
    | cons x rest =>
      obtain ⟨first, others⟩ := List.forall_mem_cons.mp none
      exact bestAfter_neither first others 0 1
  · rcases locate_unit (fun x member => (none x member).1) stream.next.1 with
      ⟨x, found, positive⟩ | ⟨-, fallen⟩
    · exact absurd positive (none x (List.mem_of_getElem? found)).2
    · exact fallen

theorem Backed.draw {chances : Scores} (backed : Backed scores chances) (stream : WordStream) :
    ∃ score, scores[(Scores.draw chances stream).1]? = some score ∧ negativeInfinity < score := by
  obtain ⟨chance, found, positive⟩ := draw_positive backed.above backed.nonzero stream
  exact backed.allowed _ chance found positive

theorem length_tempered (temperature : Float32) (scores : Scores) (elementary : Elementary) :
    (tempered temperature scores elementary).length = scores.length := by
  have kept : ∀ scores : Scores, (softmax scores elementary).length = scores.length := by
    intro scores
    unfold softmax
    dsimp only
    split
    · rw [List.length_map]
    · split <;> simp only [List.length_map]
  rw [tempered_eq, kept, scaled]
  split
  · rfl
  · rw [List.length_map]

theorem sample_all (all : k = 0 ∨ scores.length ≤ k) (stream : WordStream) :
    sample ⟨some k, none, temperature⟩ scores stream elementary =
      draw (softmax (scaled temperature scores) elementary) stream := by
  have kept : keepTop k (tempered temperature scores elementary) =
      tempered temperature scores elementary :=
    if_pos (by rw [length_tempered]; simpa using all)
  simp only [sample, kept]
  rw [tempered_eq]

/-- A sampled token is one that is not ruled out, unless the scaled scores overflow, and the first
one if they do. -/
theorem sample_ruled_out (exponential : elementary.Exponential) (all : k = 0 ∨ scores.length ≤ k)
    (stream : WordStream) :
    let token := (sample ⟨some k, none, temperature⟩ scores stream elementary).1
    ((scaled temperature scores).maximum.isFinite = true →
      ∃ score, scores[token]? = some score ∧ negativeInfinity < score) ∧
    ((scaled temperature scores).maximum.isFinite = false → token = 0) := by
  rw [sample_all all]
  refine ⟨fun finite => ?_, fun infinite => draw_neither (softmax_neither exponential infinite) _⟩
  obtain ⟨x, found, above⟩ := (softmax_backed exponential finite).draw stream
  exact scaled_above found above

theorem sample_undivided (exponential : elementary.Exponential) (all : k = 0 ∨ scores.length ≤ k)
    (clear : Clear [] scores) (undivided : ¬ 0 < temperature ∨ temperature = 1)
    (stream : WordStream) :
    ∃ score, scores[(sample ⟨some k, none, temperature⟩ scores stream elementary).1]? = some score ∧
      negativeInfinity < score := by
  have same : scaled temperature scores = scores := by
    refine if_pos ?_
    rcases undivided with low | rfl
    · rw [divisor, if_neg low]
      decide
    · decide
  refine (sample_ruled_out exponential all stream).1 ?_
  rw [same]
  exact clear.maximum.2.1

end Scores

namespace Greedy

variable {g : Greedy} {settings : Settings} {known : Nat → Prop} {sampling : Scores.Sampling}
  {elementary : Elementary} {tokens history : List Token} {token : Token} {row : Nat}

theorem drawRows_spec {scores : LoadedScores} {rows : List Nat} {words : WordStream}
    {drawn : List Token × WordStream} {i : Nat}
    (ran : drawRows sampling scores rows words elementary = .ok drawn) (listed : rows[i]? = some row) :
    ∃ own words, scores.last row = .ok own ∧
      drawn.1[i]? = some (Scores.sample sampling own words elementary).1 := by
  induction rows generalizing words drawn i with
  | nil => cases listed
  | cons first rest ih =>
    simp only [drawRows, Outcome.bind_eq_ok, Outcome.pure_eq_ok] at ran
    obtain ⟨own, found, others, later, rfl⟩ := ran
    cases i with
    | zero =>
      obtain rfl := Option.some.inj listed
      exact ⟨own, words, found, rfl⟩
    | succ i =>
      rw [List.getElem?_cons_succ] at listed ⊢
      exact ih later listed

theorem committed_running (running : g.ended[row]? = some false)
    (chosen : tokens[row]? = some token) (there : g.histories.rows[row]? = some history) :
    (committed tokens g).nextTokens[row]? = some token ∧
      (committed tokens g).histories.rows[row]? = some (history ++ [token]) := by
  have paired : (g.ended.zip tokens)[row]? = some (false, token) :=
    List.getElem?_zip_eq_some.mpr ⟨running, chosen⟩
  have next : (((g.ended.zip tokens).map (settleOne g.settings)).map Prod.fst)[row]? =
      some token := by
    rw [List.getElem?_map, List.getElem?_map, paired]
    rfl
  refine ⟨next, ?_⟩
  change (List.zipWith (fun row token => row ++ [token]) g.histories.rows
    (((g.ended.zip tokens).map (settleOne g.settings)).map Prod.fst))[row]? = _
  rw [List.getElem?_zipWith, there, next]

theorem Sized.sample_committed (sized : g.Sized settings known) (fresh : g.scores.fresh = true)
    (room : g.histories.isFull = false) :
    ∃ drawn, drawRows sampling g.scores (List.range g.settings.batchSize) g.words elementary =
        .ok drawn ∧
      Step.Returns (Greedy.sample sampling elementary) g ()
        (committed drawn.1 { g with words := drawn.2 }) := by
  obtain ⟨drawn, found, count⟩ :=
    drawRows_total sampling (sized.last_total fresh) g.words elementary
  rw [List.length_range, sized.fixed] at count
  refine ⟨drawn, found, ?_⟩
  rw [Histories.isFull, decide_eq_false_iff_not, Nat.not_le] at room
  have committing : Step.Returns (Greedy.commit drawn.1) { g with words := drawn.2 } ()
      (committed drawn.1 { g with words := drawn.2 }) :=
    ((sized.rescore sized.scores drawn.2).commit_iff count).mpr ⟨room, rfl⟩
  simp only [Greedy.sample, Step.returns_bind, Step.returns_get, Step.returns_lift,
    Step.returns_set]
  exact ⟨_, _, ⟨rfl, rfl⟩, (), _, ⟨LoadedScores.requireFresh_eq_ok.mpr fresh, rfl⟩, drawn, _,
    ⟨found, rfl⟩, (), _, rfl, committing⟩

end Greedy

namespace Strategy

variable {settings : Settings} {strategy : Strategy} {g : Greedy}

theorem Sized.greedy? (sized : strategy.Sized settings) (searches : strategy.greedy? = some g) :
    ∃ known, g.Sized settings known := by
  cases sized with
  | greedy sized =>
    obtain rfl := Option.some.inj searches
    exact ⟨_, sized⟩
  | beam _ => cases searches
  | speculative sized =>
    obtain rfl := Option.some.inj searches
    exact ⟨_, sized.inner⟩

/-- However a row-based search was called before, sampling from fresh scores commits a token to every
row that has not ended. If all tokens are kept, it is one that is not ruled out, unless the scores
overflow when they are divided by the temperature. Then it is the first token of the vocabulary,
ruled out or not. -/
theorem ruled_out_only_on_overflow {inputIds : List Token} {first : Strategy}
    (started : Started settings inputIds first) {actions : List Action}
    (searches : (conduct actions first).2.greedy? = some g) (fresh : g.scores.fresh = true)
    (room : g.histories.isFull = false) {elementary : Elementary}
    (exponential : elementary.Exponential) (k : Nat) (temperature : Float32) :
    ∃ g', Step.Returns (Greedy.sample ⟨some k, none, temperature⟩ elementary) g () g' ∧
      ∀ (row : Nat) (scores : Scores), g.ended[row]? = some false →
        g.scores.last row = .ok scores → k = 0 ∨ scores.length ≤ k →
        ∃ token history, g.histories.rows[row]? = some history ∧
          g'.histories.rows[row]? = some (history ++ [token]) ∧ g'.nextTokens[row]? = some token ∧
          ((scores.scaled temperature).maximum.isFinite = true →
            ∃ score, scores[token]? = some score ∧ Scores.negativeInfinity < score) ∧
          ((scores.scaled temperature).maximum.isFinite = false → token = 0) := by
  obtain ⟨known, sized⟩ := (started.sized.conduct actions).2.greedy? searches
  obtain ⟨drawn, found, ran⟩ := sized.sample_committed fresh room
  refine ⟨_, ran, fun row scores running here all => ?_⟩
  have inside : row < first.settings.batchSize :=
    sized.ended ▸ (List.getElem?_eq_some_iff.mp running).1
  obtain ⟨history, there⟩ : ∃ history, g.histories.rows[row]? = some history :=
    ⟨_, List.getElem?_eq_getElem (sized.level.rectangular.count.symm ▸ inside)⟩
  obtain ⟨own, words, own_eq, chosen⟩ :=
    Greedy.drawRows_spec found (List.getElem?_range (sized.fixed.symm ▸ inside))
  obtain rfl := Except.ok.inj (own_eq.symm.trans here)
  obtain ⟨next, appended⟩ := Greedy.committed_running running chosen there
  exact ⟨_, history, there, appended, next, Scores.sample_ruled_out exponential all words⟩

def endOrGo : Settings := { single.settings with vocabulary := 2, endTokens := [0] }

def abruptElementary : Elementary :=
  ⟨fun x => if x.isNaN then x else if x < 0 then 0 else 1, fun _ => 0⟩

theorem abruptElementary_exponential : abruptElementary.Exponential := by
  have least : (0 : Float32) ≤ 0 ∧ (0 : Float32) ≤ 1 := by decide +kernel
  have most : (0 : Float32) ≤ 1 ∧ (1 : Float32) ≤ 1 := by decide +kernel
  refine ⟨by decide +kernel, fun x within => ?_, by decide +kernel, fun x undefined => ?_⟩
  · simp only [abruptElementary, (Scores.isNaN_of_le within).1, Bool.false_eq_true, if_false]
    split
    · exact least
    · exact most
  · simp only [abruptElementary, undefined, if_true]

/-- Before its minimum length a row does not end at a temperature of one. -/
theorem end_ruled_out_at_one : ∃ first g g', ∃ (token : Token) (score : Float32),
    Started endOrGo [1] first ∧
    (conduct [.setScores (.packed .f32 [1, 2] [.real 5, .real (-1000)]), .constrainLength 2]
      first).2.greedy? = some g ∧
    g.scores.last 0 = .ok [Scores.negativeInfinity, -1000] ∧
    Step.Returns (Greedy.sample ⟨some 0, none, 1⟩ abruptElementary) g () g' ∧
    g'.histories.rows[0]? = some [1, token] ∧
    [Scores.negativeInfinity, -1000][token]? = some score ∧ Scores.negativeInfinity < score := by
  obtain ⟨first, g, started, searches, here, fresh, room, running, prompt⟩ : ∃ first g,
      Started endOrGo [1] first ∧
      (conduct [.setScores (.packed .f32 [1, 2] [.real 5, .real (-1000)]), .constrainLength 2]
        first).2.greedy? = some g ∧
      g.scores.last 0 = .ok [Scores.negativeInfinity, -1000] ∧ g.scores.fresh = true ∧
      g.histories.isFull = false ∧ g.ended[0]? = some false ∧ g.histories.rows[0]? = some [1] :=
    ⟨_, _, .greedy rfl, rfl, rfl, rfl, rfl, rfl, rfl⟩
  obtain ⟨g', ran, each⟩ :=
    ruled_out_only_on_overflow started searches fresh room abruptElementary_exponential 0 1
  obtain ⟨token, history, there, appended, -, allowed, -⟩ := each 0 _ running here (.inl rfl)
  obtain rfl := Option.some.inj (there.symm.trans prompt)
  obtain ⟨score, found, above⟩ := allowed (by decide +kernel)
  exact ⟨first, g, g', token, score, started, searches, here, ran, appended, found, above⟩

/-- At a tiny temperature it ends all the same: the scores overflow, and the end token is drawn. -/
theorem end_drawn_on_overflow : ∃ first before after,
    Started endOrGo [1] first ∧
    (conduct [.setScores (.packed .f32 [1, 2] [.real 5, .real (-1000)]), .constrainLength 2]
      first).2 = .greedy before ∧
    before.ended = [false] ∧ before.scores.last 0 = .ok [Scores.negativeInfinity, -1000] ∧
    Step.Returns (sampleTop 0 1e-36) (.greedy before) () (.greedy after) ∧
    after.histories.rows = [[1, 0]] ∧ after.ended = [true] :=
  ⟨_, _, _, .greedy rfl, rfl, rfl, rfl, rfl, rfl, rfl⟩

end Strategy

end StagedDecoding
