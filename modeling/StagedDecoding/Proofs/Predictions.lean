import StagedDecoding.Proofs.Drafts
import StagedDecoding.Proofs.Reading

/-! Scores that are a function of the history.

A causal model scores the token after a position from the history up to that position, for some of
the last positions that it is fed. Loading, and the constraints on the last position, leave every
row with the scores of its own history.
-/

set_option autoImplicit false

namespace StagedDecoding

variable {next : List Token → Scores} {kept : Nat} {view : View}

def rowScores (next : List Token → Scores) (kept : Nat) (past fed : List Token) : List Scores :=
  (List.range kept).map fun i => next (past ++ fed.take (fed.length - kept + i + 1))

def View.scores (next : List Token → Scores) (kept : Nat) (view : View) : List (List Scores) :=
  List.zipWith (rowScores next kept) view.past view.fed

/-- Shape and values of scores that predict, at the last positions of a view, what comes after
them. The axis of positions may be left out where there is only one. -/
structure Predicts (next : List Token → Scores) (kept : Nat) (view : View) (shape : List Nat)
    (floats : List Float32) : Prop where
  some : 0 < kept
  fits : ∀ fed ∈ view.fed, kept ≤ fed.length
  laid : ∃ vocabulary, (∀ row ∈ view.scores next kept, ∀ own ∈ row, own.length = vocabulary) ∧
    (shape = [(view.scores next kept).length, kept, vocabulary] ∨
      kept = 1 ∧ shape = [(view.scores next kept).length, vocabulary]) ∧
    floats = ((view.scores next kept).map List.flatten).flatten

theorem rowScores_length {past fed : List Token} : (rowScores next kept past fed).length = kept := by
  simp [rowScores]

theorem View.length_of_mem_scores {row : List Scores} (member : row ∈ view.scores next kept) :
    row.length = kept := by
  obtain ⟨i, bound, rfl⟩ := List.mem_iff_getElem.mp member
  simp [View.scores, rowScores_length]

def Reading.ScoresBy (reading : Reading) (next : List Token → Scores) (everyPosition : Bool) :
    Prop :=
  ∀ view shape floats, reading.scored view shape floats →
    ∃ kept, (everyPosition → ∀ fed ∈ view.fed, fed.length = kept) ∧
      Predicts next kept view shape floats

/-- A causal model: whatever it keeps in its cache and hands from stage to stage, its scores at a
position are a function of the history up to there. -/
def Model.Causal {β : Type} (model : Model β) (decoder : DecoderConfig) (request : Request)
    (next : List Token → Scores) (everyPosition : Bool) : Prop :=
  ∃ reading : Reading, reading.decoder = decoder ∧ reading.request = request ∧
    reading.ScoresBy next everyPosition ∧ reading.Honours model

namespace LoadedScores

theorem layOut_flatten {rows : List (List Scores)} {positions vocabulary : Nat}
    (long : ∀ row ∈ rows, row.length = positions)
    (wide : ∀ row ∈ rows, ∀ own ∈ row, own.length = vocabulary) :
    layOut rows.length positions vocabulary (rows.map List.flatten).flatten = rows := by
  have each : ∀ flat ∈ rows.map List.flatten, flat.length = positions * vocabulary := by
    rw [List.forall_mem_map]
    intro row member
    rw [List.length_flatten, List.map_congr_left (wide row member), List.map_const',
      List.sum_replicate_nat, long row member]
  unfold layOut
  have counted : rows.length = (rows.map List.flatten).length := (List.length_map _).symm
  rw [counted, Tensor.blocks_flatten each, List.map_map]
  refine (List.map_congr_left fun row member => ?_).trans (List.map_id' rows)
  rw [Function.comp_apply, ← long row member, Tensor.blocks_flatten (wide row member)]

variable {rows vocabulary : Nat} {everyPosition : Bool} {tensor : Tensor} {scores : LoadedScores}

theorem load_predicts (predicts : Predicts next kept view tensor.shape tensor.floats)
    (loaded : load rows vocabulary everyPosition tensor = .ok scores) :
    (view.scores next kept).length = rows ∧
      (∀ row ∈ view.scores next kept, ∀ own ∈ row, own.length = scores.vocabulary) ∧
      if everyPosition then scores.rows = view.scores next kept ∧ scores.positions = kept
      else scores.rows = (view.scores next kept).map (·.drop (kept - 1)) ∧
        scores.positions = 1 := by
  obtain ⟨v, wide, laid, floats⟩ := predicts.laid
  have long : ∀ row ∈ view.scores next kept, row.length = kept :=
    fun row member => View.length_of_mem_scores member
  obtain ⟨n, w, shape, -, -, -, rfl⟩ := load_eq_ok.mp loaded
  -- the axes are those of the prediction
  obtain ⟨rfl, rfl, rfl⟩ : rows = (view.scores next kept).length ∧ n = kept ∧ w = v := by
    rcases laid with laid | ⟨rfl, laid⟩ <;> rcases shape with shape | ⟨rfl, shape⟩ <;>
      simp_all
  rw [floats, layOut_flatten long wide]
  refine ⟨rfl, ?_⟩
  split
  · exact ⟨wide, rfl, rfl⟩
  · exact ⟨wide, rfl, rfl⟩

theorem last_predicts (predicts : Predicts next kept view tensor.shape tensor.floats)
    (loaded : load rows vocabulary everyPosition tensor = .ok scores) {i : Nat}
    {row : List Token} (found : view.seen[i]? = some row) : scores.last i = .ok (next row) := by
  obtain ⟨-, wide, rows⟩ := load_predicts predicts loaded
  obtain ⟨bound, rfl⟩ := List.getElem?_eq_some_iff.mp found
  simp only [View.seen, List.length_zipWith, Nat.lt_min] at bound
  have some := predicts.some
  have fits := predicts.fits _ (List.getElem_mem bound.2)
  have here : (view.scores next kept)[i]? = .some (rowScores next kept view.past[i] view.fed[i]) := by
    have inside : i < (view.scores next kept).length := by
      simpa [View.scores, Nat.lt_min] using bound
    rw [List.getElem?_eq_getElem inside]
    simp [View.scores]
  -- the last position that is kept sees the whole row
  have whole : (rowScores next kept view.past[i] view.fed[i])[kept - 1]? =
      .some (next (view.past[i] ++ view.fed[i])) := by
    have last : view.fed[i].length - kept + (kept - 1) + 1 = view.fed[i].length := by omega
    have inside : kept - 1 < kept := by omega
    simp [rowScores, List.getElem?_range inside, last]
  have width := wide _ (List.mem_of_getElem? here) _ (List.mem_of_getElem? whole)
  simp only [View.seen, List.getElem_zipWith]
  rw [LoadedScores.last, scoresAt_eq_ok]
  split at rows
  · obtain ⟨rows, positions⟩ := rows
    exact ⟨_, by rw [rows, here], by rw [positions, whole], width⟩
  · obtain ⟨rows, positions⟩ := rows
    refine ⟨(rowScores next kept view.past[i] view.fed[i]).drop (kept - 1), ?_, ?_, width⟩
    · rw [rows, List.getElem?_map, here]
      rfl
    · rw [positions, List.getElem?_drop, Nat.sub_self, Nat.add_zero, whole]

theorem scoresAt_predicts {row draft : List Token} {own : Scores} {old i : Nat}
    (predicts : Predicts next kept view tensor.shape tensor.floats)
    (every : ∀ fed ∈ view.fed, fed.length = kept) (sized : view.Sized 1 old (draft.length + 1))
    (whole : view.seen = [row ++ draft])
    (loaded : load rows vocabulary true tensor = .ok scores)
    (found : scores.scoresAt 0 i = .ok own) :
    own = next (row ++ draft.take i) := by
  obtain ⟨-, -, laid, -⟩ := load_predicts predicts loaded
  obtain ⟨past, pasts⟩ := List.length_eq_one_iff.mp sized.past.count
  obtain ⟨fed, feds⟩ := List.length_eq_one_iff.mp sized.fed.count
  have long : fed.length = draft.length + 1 := sized.fed.width fed (by simp [feds])
  have count : fed.length = kept := every fed (by simp [feds])
  have same : past ++ fed = row ++ draft := by simpa [View.seen, pasts, feds] using whole
  obtain ⟨positions, first, there, -⟩ := scoresAt_eq_ok.mp found
  rw [laid, View.scores, pasts, feds, List.zipWith_cons_cons, List.getElem?_cons_zero] at first
  obtain rfl := Option.some.inj first
  -- the row ends where the draft begins, whatever part of it was fed with the draft
  have parts : past ++ fed.take (i + 1) = row ++ draft.take i := by
    have lengths := congrArg List.length same
    simp only [List.length_append] at lengths
    have left : (past ++ fed).take (past.length + (i + 1)) = past ++ fed.take (i + 1) :=
      List.take_length_add_append (i + 1)
    have right : (row ++ draft).take (row.length + i) = row ++ draft.take i :=
      List.take_length_add_append i
    rw [← left, ← right, same]
    congr 1
    omega
  obtain ⟨bound, here⟩ := List.getElem?_eq_some_iff.mp there
  rw [← here, ← parts]
  simp [rowScores, count]

variable {histories : Histories} {i : Nat}

theorem constrainLength_last {minLength : Nat} {endTokens : List Token} {after : LoadedScores}
    (constrained : scores.constrainLength minLength endTokens histories = .ok after) :
    after.last i = (fun own => if minLength ≤ histories.length then own
      else Scores.suppress endTokens own) <$> scores.last i := by
  obtain ⟨-, constrained⟩ := constrainLength_eq_ok.mp constrained
  split at constrained
  · next long =>
    subst constrained
    simp [long]
  · next short =>
    obtain ⟨-, rfl⟩ := constrained
    rw [last_changeLast (Scores.length_suppress _)]
    simp [short]

theorem penalize_last {penalty : Float32} {row : List Token} {after : LoadedScores}
    (found : histories.rows[i]? = some row)
    (penalized : scores.penalize penalty histories = .ok after) :
    after.last i = (fun own => if penalty == 1 then own
      else Scores.penalize penalty row own) <$> scores.last i := by
  obtain ⟨-, penalized⟩ := penalize_eq_ok.mp penalized
  split at penalized
  · next neutral =>
    subst penalized
    simp [neutral]
  · next counts =>
    obtain ⟨-, rfl⟩ := penalized
    have own : histories.rows.getD i [] = row := by rw [List.getD_eq_getElem?_getD, found]; rfl
    rw [last_changeLast (Scores.length_penalize _ _), own]
    simp [counts]

end LoadedScores

end StagedDecoding
