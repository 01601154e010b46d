import StagedDecoding.Proofs.LogSoftmax
import StagedDecoding.Proofs.OpenSearch

/-! End tokens come late.

While a history is short its end tokens are ruled out, also after they have been penalized. As long as
some other token has a better score, no end token is the best one. So row-based search, with drafts
or without them, writes none into a short history, and what it writes after one comes later still.
-/

set_option autoImplicit false

namespace StagedDecoding

namespace Scores

variable {scores : Scores} {endTokens history : List Token} {minLength : Nat} {penalty : Float32}

theorem penalized_negativeInfinity (pos : 0 < penalty) (finite : penalty.isFinite = true) :
    penalized penalty negativeInfinity = negativeInfinity := by
  rw [lt_iff_unpack] at pos
  change penalty.toModel.unpack.isFinite = true at finite
  have kept : negativeInfinity * penalty = negativeInfinity := by
    change Float32.ofModel (Float32.Model.pack (Float.Model.UnpackedFloat.mul
      Float.Model.Format.binary32 (.infinity .negative) penalty.toModel.unpack)) = _
    generalize penalty.toModel.unpack = penalty at pos finite
    rcases penalty with (_ | _) | _ | _ | ⟨_ | _, _, _, _⟩ <;>
      first | rfl | cases finite; done | cases pos
  rw [penalized, if_neg (by decide), kept]

theorem constrained_out (pos : 0 < penalty) (finite : penalty.isFinite = true)
    (short : history.length < minLength) :
    ∀ token ∈ endTokens, ∀ score,
      (constrained minLength penalty endTokens history scores)[token]? = some score →
        score = negativeInfinity := by
  intro token ends score found
  simp only [constrained, List.getElem?_mapIdx, Option.map_eq_some_iff] at found
  obtain ⟨own, -, rfl⟩ := found
  have out : history.length < minLength ∧ token ∈ endTokens := ⟨short, ends⟩
  rw [if_pos out, penalized_negativeInfinity pos finite, ite_self]

theorem Clear.argmax_going (clear : Clear endTokens scores)
    (out : ∀ token ∈ endTokens, ∀ score, scores[token]? = some score → score = negativeInfinity) :
    argmax scores ∉ endTokens := by
  intro ends
  obtain ⟨token, own, found, -, exceeds⟩ := clear.going
  have member := List.mem_of_getElem? found
  obtain ⟨best, there, largest, -⟩ := argmax_isFirstMax (List.ne_nil_of_mem member) clear.proper
  obtain rfl := out _ ends best there
  exact largest own member exceeds

end Scores

/-- Every end token from some place on stands where the minimum length has been reached. -/
def Settings.Late (settings : Settings) (promptLength : Nat) (tokens : List Token) : Prop :=
  ∀ i token, promptLength ≤ i → tokens[i]? = some token → settings.isEnd token = true →
    settings.minLength ≤ i

variable {settings : Settings} {promptLength : Nat} {row : List Token} {token : Token}

theorem Settings.late_of_length (short : row.length ≤ promptLength) :
    settings.Late promptLength row := by
  intro i token behind found
  have bound := (List.getElem?_eq_some_iff.mp found).1
  omega

theorem Settings.Late.append (late : settings.Late promptLength row)
    (own : settings.isEnd token = true → settings.minLength ≤ row.length) :
    settings.Late promptLength (row ++ [token]) := by
  intro i other behind found ends
  rcases Nat.lt_trichotomy i row.length with before | rfl | after
  · rw [List.getElem?_append_left before] at found
    exact late i other behind found ends
  · rw [List.getElem?_concat_length] at found
    obtain rfl := Option.some.inj found
    exact own ends
  · have bound := (List.getElem?_eq_some_iff.mp found).1
    rw [List.length_append, List.length_singleton] at bound
    omega

theorem Settings.Late.length_of_hasEnded (late : settings.Late promptLength row)
    (ended : Greedy.hasEnded settings promptLength row = true) :
    settings.minLength < row.length := by
  rw [Greedy.hasEnded, List.any_eq_true] at ended
  obtain ⟨token, member, ends⟩ := ended
  obtain ⟨i, found⟩ := List.getElem?_of_mem member
  rw [List.getElem?_drop] at found
  have reached := late _ token (Nat.le_add_right _ _) found ends
  have bound := (List.getElem?_eq_some_iff.mp found).1
  omega

namespace Greedy

variable {g g' : Greedy} {u : Unit}

theorem Marked.selectTop_late (marked : g.Marked)
    (late : ∀ row ∈ g.histories.rows, g.settings.Late g.histories.promptLength row)
    (going : ∀ (i : Nat) row own, g.histories.rows[i]? = some row → g.scores.last i = .ok own →
      row.length < g.settings.minLength → g.settings.isEnd own.argmax = false)
    (ran : Step.Returns selectTop g u g') :
    g'.settings = g.settings ∧ g'.histories.promptLength = g.histories.promptLength ∧
      ∀ row ∈ g'.histories.rows, g.settings.Late g.histories.promptLength row := by
  obtain ⟨tokens, best, committed⟩ := selectTop_returns ran
  have marks : g.ended.length = g.histories.rows.length := by rw [marked.ended, List.length_map]
  obtain ⟨-, -, running, -, rfl⟩ := commit_returns marks committed
  refine ⟨rfl, rfl, fun row member => ?_⟩
  obtain ⟨i, found⟩ := List.getElem?_of_mem member
  simp only [refreshDone, List.getElem?_zipWith, List.getElem?_map, List.zip, marked.ended] at found
  cases there : g.histories.rows[i]? with
  | none => simp [there] at found
  | some history =>
    cases chosen : tokens[i]? with
    | none => simp [there, chosen] at found
    | some token =>
      simp only [there, chosen, Option.map_some, Option.some.injEq] at found
      subst found
      have before := late history (List.mem_of_getElem? there)
      refine before.append fun ends => ?_
      -- a row that has ended is long enough already
      cases ended : hasEnded g.settings g.histories.promptLength history with
      | true => exact Nat.le_of_lt (before.length_of_hasEnded ended)
      | false =>
        obtain ⟨bound, here⟩ := List.getElem?_eq_some_iff.mp chosen
        have each := bestTokens_eq_ok.mp best
        obtain ⟨own, last, same⟩ := each.get (by rwa [each.length_eq]) bound
        simp only [List.get_eq_getElem, List.getElem_range] at last same
        -- the chosen token is the best one, and in a short row that one does not end
        by_contra short
        have goes := going i history own there last (Nat.lt_of_not_le short)
        rw [← same, here] at goes
        simp [ended, settleOne, goes] at ends

end Greedy

theorem Speculative.Judged.late {positions position : Nat}
    {predicts : Nat → List Token → Token → Prop} {history draft : List Token} {verdict : Verdict}
    (going : ∀ i token, i ≤ verdict.accepted.length →
      predicts (position + i) (history ++ draft.take i) token →
        history.length + i < settings.minLength → settings.isEnd token = false)
    (judged : Judged settings.isEnd positions predicts position history draft verdict)
    (late : settings.Late promptLength history) :
    settings.Late promptLength (history ++ verdict.committed) := by
  have last : ∀ {history : List Token} {token : Token}, settings.Late promptLength history →
      (history.length < settings.minLength → settings.isEnd token = false) →
      settings.Late promptLength (history ++ [token]) := by
    intro history token late goes
    refine late.append fun ends => ?_
    by_contra short
    simp [goes (Nat.lt_of_not_le short)] at ends
  induction judged with
  | spent _ => simpa [Verdict.committed, Verdict.empty] using late
  | further predicted =>
    exact last late (going 0 _ (Nat.zero_le _) (by simpa using predicted))
  | rejected predicted _ =>
    exact last late (going 0 _ (Nat.zero_le _) (by simpa using predicted))
  | ended predicted _ =>
    exact last late (going 0 _ (Nat.zero_le _) (by simpa using predicted))
  | @accepted position history rest token verdict predicted goes _ ih =>
    -- the rest is judged with the accepted token behind the history
    have whole : history ++ ({ verdict with accepted := token :: verdict.accepted } :
        Verdict).committed = history ++ [token] ++ verdict.committed := by
      simp [Verdict.committed]
    rw [whole]
    refine ih (fun i other inside there short => ?_) (late.append fun ends => by simp [goes] at ends)
    refine going (i + 1) other (Nat.succ_le_succ inside) ?_ ?_
    · rw [List.take_succ_cons, List.append_cons, Nat.add_comm i, ← Nat.add_assoc]
      exact there
    · rw [List.length_append, List.length_singleton] at short
      omega

end StagedDecoding
