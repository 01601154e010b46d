import StagedDecoding.Proofs.Blocks
import StagedDecoding.Proofs.Step
import StagedDecoding.Strategy.LoadedScores

/-! What becomes of loaded scores.

Loading checks the shape of a tensor and cuts it into rows and positions. A constraint needs fresh
scores and changes the last position of every row, or none. Each operation is described by when it
succeeds together with what it returns then, so that whatever relies on loaded scores follows from
the description.
-/

set_option autoImplicit false

namespace StagedDecoding

namespace LoadedScores

variable {scores after : LoadedScores} {row position other : Nat}

theorem requireFresh_eq_ok {u : Unit} : scores.requireFresh = .ok u ↔ scores.fresh = true := by
  unfold requireFresh
  cases scores.fresh <;> simp

theorem requireFresh_eq_error {failure : Failure} :
    scores.requireFresh = .error failure ↔ scores.fresh = false ∧ failure = .scoresMissing := by
  unfold requireFresh
  cases scores.fresh <;> simp [eq_comm]

theorem scoresAt_eq_ok {found : Scores} :
    scores.scoresAt row position = .ok found ↔
      ∃ positions, scores.rows[row]? = some positions ∧ positions[position]? = some found ∧
        found.length = scores.vocabulary := by
  simp only [scoresAt, Outcome.bind_eq_ok, Outcome.fetch_eq_ok]
  constructor
  · rintro ⟨positions, there, own, here, passed⟩
    split at passed
    · next wide => exact ⟨positions, there, Outcome.pure_eq_ok.mp passed ▸ ⟨here, wide⟩⟩
    · exact (Outcome.throw_eq_ok.mp passed).elim
  · rintro ⟨positions, there, here, wide⟩
    exact ⟨positions, there, found, here, if_pos wide⟩

def changeAt (row position : Nat) (change : Scores → Scores) (scores : LoadedScores) :
    LoadedScores :=
  { scores with rows := scores.rows.modify row (·.modify position change) }

def changeFirst (count : Nat) (change : Nat → Scores → Scores) (scores : LoadedScores) :
    LoadedScores :=
  { scores with rows := scores.rows.mapIdx fun i positions =>
      if i < count then positions.modify (scores.positions - 1) (change i) else positions }

def changeLast (change : Nat → Scores → Scores) (scores : LoadedScores) : LoadedScores :=
  { scores with rows := scores.rows.mapIdx fun i positions =>
      positions.modify (scores.positions - 1) (change i) }

theorem adjust_eq_ok {change : Scores → Scores} :
    scores.adjust row position change = .ok after ↔
      (∃ own, scores.scoresAt row position = .ok own) ∧
        scores.changeAt row position change = after := by
  simp only [adjust, Outcome.bind_eq_ok, Outcome.fetch_eq_ok, Outcome.store_eq_ok,
    Outcome.pure_eq_ok]
  have replaced : ∀ {positions : List Scores} {own : Scores},
      scores.rows[row]? = some positions → positions[position]? = some own →
      scores.rows.set row (positions.set position (change own)) =
        scores.rows.modify row (·.modify position change) := by
    intro positions own there here
    rw [List.modify_eq_set, there, Option.getD_some, List.modify_eq_set, here, Option.getD_some]
  constructor
  · rintro ⟨own, found, positions, there, _, ⟨-, rfl⟩, _, ⟨-, rfl⟩, rfl⟩
    obtain ⟨_, there', here, -⟩ := scoresAt_eq_ok.mp found
    obtain rfl := Option.some.inj (there.symm.trans there')
    exact ⟨⟨own, found⟩, by rw [changeAt, replaced there here]⟩
  · rintro ⟨⟨own, found⟩, rfl⟩
    obtain ⟨positions, there, here, -⟩ := scoresAt_eq_ok.mp found
    exact ⟨own, found, positions, there, _, ⟨(List.getElem?_eq_some_iff.mp here).1, rfl⟩, _,
      ⟨(List.getElem?_eq_some_iff.mp there).1, rfl⟩, by rw [changeAt, replaced there here]⟩

theorem changeFirst_zero {change : Nat → Scores → Scores} :
    scores.changeFirst 0 change = scores := by
  have same : scores.rows.mapIdx (fun _ positions => positions) = scores.rows :=
    List.ext_getElem (by simp) fun i _ _ => by simp
  simp only [changeFirst, Nat.not_lt_zero, if_false, same]

theorem changeAt_changeFirst {change : Nat → Scores → Scores} {count : Nat} :
    (scores.changeFirst count change).changeAt count (scores.positions - 1) (change count) =
      scores.changeFirst (count + 1) change := by
  unfold changeAt changeFirst
  congr 1
  refine List.ext_getElem? fun i => ?_
  rw [List.getElem?_modify, List.getElem?_mapIdx, List.getElem?_mapIdx]
  cases scores.rows[i]? with
  | none => rfl
  | some positions =>
    rcases Nat.lt_trichotomy i count with before | rfl | behind
    · have apart : count ≠ i := Nat.ne_of_gt before
      have counted : i < count + 1 := Nat.lt_succ_of_lt before
      simp [before, apart, counted]
    · simp
    · have apart : count ≠ i := Nat.ne_of_lt behind
      have passed : ¬ i < count := Nat.lt_asymm behind
      have passed' : ¬ i < count + 1 := Nat.not_lt.mpr behind
      simp [apart, passed, passed']

theorem changeFirst_all {change : Nat → Scores → Scores} :
    scores.changeFirst scores.rows.length change = scores.changeLast change := by
  unfold changeFirst changeLast
  congr 1
  exact List.ext_getElem (by simp) fun i here _ => by
    have inside : i < scores.rows.length := by simpa using here
    simp [inside]

theorem adjustLast_eq_ok {change : Nat → Except Failure (Scores → Scores)} {fits : Nat → Prop}
    {own : Nat → Scores → Scores} (each : ∀ row f, change row = .ok f ↔ fits row ∧ own row = f) :
    scores.adjustLast change = .ok after ↔
      (∀ row < scores.rows.length, fits row ∧ ∃ found, scores.last row = .ok found) ∧
        scores.changeLast own = after := by
  -- rows that are still to come are as they were
  have untouched : ∀ count, (scores.changeFirst count own).last count = scores.last count := by
    intro count
    unfold last scoresAt fetch changeFirst
    dsimp only
    rw [List.getElem?_mapIdx]
    cases scores.rows[count]? <;> simp
  have partway : ∀ count after,
      (List.range count).foldlM (fun scores row => do
          scores.adjust row (scores.positions - 1) (← change row)) scores = .ok after ↔
        (∀ row < count, fits row ∧ ∃ found, scores.last row = .ok found) ∧
          scores.changeFirst count own = after := by
    intro count
    induction count with
    | zero =>
      intro after
      simp [changeFirst_zero, Outcome.pure_eq_ok]
    | succ count ih =>
      intro after
      rw [List.range_succ, List.foldlM_append, Outcome.bind_eq_ok]
      simp only [List.foldlM_cons, List.foldlM_nil, Outcome.bind_eq_ok, Outcome.pure_eq_ok, ih,
        each, adjust_eq_ok]
      constructor
      · rintro ⟨_, ⟨earlier, rfl⟩, _, ⟨_, ⟨fit, rfl⟩, ⟨found, here⟩, rfl⟩, rfl⟩
        refine ⟨fun row below => ?_, changeAt_changeFirst.symm⟩
        rcases Nat.lt_succ_iff_lt_or_eq.mp below with below | rfl
        · exact earlier row below
        · exact ⟨fit, found, (untouched row).symm.trans here⟩
      · rintro ⟨all, rfl⟩
        obtain ⟨fit, found, here⟩ := all count (Nat.lt_succ_self count)
        exact ⟨_, ⟨fun row below => all row (Nat.lt_succ_of_lt below), rfl⟩, _,
          ⟨_, ⟨fit, rfl⟩, ⟨found, (untouched count).trans here⟩, rfl⟩, changeAt_changeFirst⟩
  rw [adjustLast, partway, changeFirst_all]

theorem scoresAt_of_modify {change : Scores → Scores}
    (keeps : ∀ own, (change own).length = own.length)
    (changed : after.rows[row]? = scores.rows[row]?.map (·.modify other change))
    (width : after.vocabulary = scores.vocabulary) :
    after.scoresAt row position =
      if position = other then change <$> scores.scoresAt row position
      else scores.scoresAt row position := by
  unfold scoresAt fetch
  rw [changed, width]
  cases scores.rows[row]? with
  | none => simp [bind, Except.bind, Functor.map, Except.map]
  | some positions =>
    by_cases here : position = other
    · subst here
      cases found : positions[position]? with
      | none => simp [found, bind, Except.bind, Functor.map, Except.map]
      | some own =>
        by_cases wide : own.length = scores.vocabulary <;>
          simp [found, keeps, wide, bind, Except.bind, Functor.map, Except.map, pure, Except.pure,
            throw, throwThe, MonadExceptOf.throw]
    · simp [here, Ne.symm here, bind, Except.bind]

theorem getElem?_changeAt {change : Scores → Scores} :
    (scores.changeAt row position change).rows[row]? =
      scores.rows[row]?.map (·.modify position change) :=
  List.getElem?_modify_eq _ _ _

theorem scoresAt_changeAt {change : Scores → Scores}
    (keeps : ∀ own, (change own).length = own.length) :
    (scores.changeAt row position change).scoresAt row position =
      change <$> scores.scoresAt row position := by
  rw [scoresAt_of_modify keeps getElem?_changeAt rfl, if_pos rfl]

theorem scoresAt_changeAt_other {change : Scores → Scores}
    (keeps : ∀ own, (change own).length = own.length) (apart : position ≠ other) :
    (scores.changeAt row position change).scoresAt row other = scores.scoresAt row other := by
  rw [scoresAt_of_modify keeps getElem?_changeAt rfl, if_neg apart.symm]

theorem scoresAt_changeLast {change : Nat → Scores → Scores}
    (keeps : ∀ own, (change row own).length = own.length) :
    (scores.changeLast change).scoresAt row position =
      if position = scores.positions - 1 then change row <$> scores.scoresAt row position
      else scores.scoresAt row position :=
  scoresAt_of_modify keeps List.getElem?_mapIdx rfl

theorem last_changeLast {change : Nat → Scores → Scores}
    (keeps : ∀ own, (change row own).length = own.length) :
    (scores.changeLast change).last row = change row <$> scores.last row :=
  (scoresAt_changeLast keeps).trans (if_pos rfl)

theorem accept_eq_ok {rows vocabulary r n v : Nat} {tensor : Tensor} {laid : List (List Scores)} :
    load.accept rows vocabulary tensor r n v laid = .ok scores ↔
      r = rows ∧ (vocabulary = 0 ∨ v = vocabulary) ∧ 0 < n ∧
        tensor.values.length = Tensor.volume tensor.shape ∧ scores = ⟨laid, n, v, true⟩ := by
  unfold load.accept
  split
  · next refused =>
    simp only [Bool.or_eq_true, Bool.and_eq_true, decide_eq_true_eq] at refused
    constructor
    · intro accepted
      cases accepted
    · rintro ⟨rfl, fits, some, -⟩
      omega
  · next fits =>
    simp only [Bool.or_eq_true, Bool.and_eq_true, decide_eq_true_eq] at fits
    split
    · next short =>
      constructor
      · intro accepted
        cases accepted
      · rintro ⟨-, -, -, filled, -⟩
        exact absurd filled short
    · next filled =>
      constructor
      · rintro ⟨⟩
        exact ⟨by omega, by omega, by omega, Decidable.not_not.mp filled, rfl⟩
      · rintro ⟨-, -, -, -, rfl⟩
        rfl

/-- Scores are laid out by rows and positions, and the last position alone is kept unless all are
wanted. A tensor without an axis for positions has one position. -/
theorem load_eq_ok {rows vocabulary : Nat} {everyPosition : Bool} {tensor : Tensor} :
    load rows vocabulary everyPosition tensor = .ok scores ↔
      ∃ n v, (tensor.shape = [rows, n, v] ∨ n = 1 ∧ tensor.shape = [rows, v]) ∧
        (vocabulary = 0 ∨ v = vocabulary) ∧ 0 < n ∧
        tensor.values.length = Tensor.volume tensor.shape ∧
        scores = if everyPosition then ⟨layOut rows n v tensor.floats, n, v, true⟩
          else ⟨(layOut rows n v tensor.floats).map (·.drop (n - 1)), 1, v, true⟩ := by
  -- of a single position, the last one is all
  have single : ∀ {n v : Nat} {laid : List (List Scores)},
      everyPosition = true ∨ n = 1 → (if everyPosition then (⟨laid, n, v, true⟩ : LoadedScores)
        else ⟨laid.map (·.drop (n - 1)), 1, v, true⟩) = ⟨laid, n, v, true⟩ := by
    rintro n v laid (rfl | rfl)
    · rfl
    · split <;> simp
  constructor
  · intro loaded
    unfold load at loaded
    split at loaded
    case h_1 r v shape =>
      obtain ⟨rfl, fits, some, filled, rfl⟩ := accept_eq_ok.mp loaded
      exact ⟨1, v, .inr ⟨rfl, shape⟩, fits, some, filled, (single (.inr rfl)).symm⟩
    case h_2 r n v shape =>
      dsimp only at loaded
      split at loaded
      case isTrue whole =>
        obtain ⟨rfl, fits, some, filled, rfl⟩ := accept_eq_ok.mp loaded
        rw [Bool.or_eq_true, decide_eq_true_eq] at whole
        exact ⟨n, v, .inl shape, fits, some, filled,
          (single (whole.imp_right fun few => Nat.le_antisymm few some)).symm⟩
      case isFalse part =>
        obtain ⟨rfl, fits, -, filled, rfl⟩ := accept_eq_ok.mp loaded
        rw [Bool.or_eq_true, decide_eq_true_eq, not_or] at part
        exact ⟨n, v, .inl shape, fits, by omega, filled, (if_neg part.1).symm⟩
    case h_3 => cases loaded
  · rintro ⟨n, v, shape | ⟨rfl, shape⟩, fits, some, filled, rfl⟩
    · simp only [load, shape]
      split
      case isTrue whole =>
        rw [Bool.or_eq_true, decide_eq_true_eq] at whole
        rw [single (whole.imp_right fun few => Nat.le_antisymm few some)]
        exact accept_eq_ok.mpr ⟨rfl, fits, some, filled, rfl⟩
      case isFalse part =>
        rw [Bool.or_eq_true, decide_eq_true_eq, not_or] at part
        rw [if_neg part.1]
        exact accept_eq_ok.mpr ⟨rfl, fits, Nat.one_pos, filled, rfl⟩
    · rw [single (.inr rfl)]
      simp only [load, shape]
      exact accept_eq_ok.mpr ⟨rfl, fits, some, filled, rfl⟩

theorem layOut_wide {r n v : Nat} {values : List Float32} (filled : values.length = r * (n * v)) :
    ∀ row ∈ layOut r n v values, row.map List.length = List.replicate n v := by
  unfold layOut
  rw [List.forall_mem_map]
  intro block member
  have long := Tensor.length_of_mem_blocks filled member
  rw [List.eq_replicate_iff, List.length_map, Tensor.blocks_length]
  refine ⟨rfl, ?_⟩
  rw [List.forall_mem_map]
  exact fun own inside => Tensor.length_of_mem_blocks long inside

theorem load_wide {rows vocabulary : Nat} {everyPosition : Bool} {tensor : Tensor}
    (loaded : load rows vocabulary everyPosition tensor = .ok scores) :
    ∀ row ∈ scores.rows, ∀ own ∈ row, own.length = scores.vocabulary := by
  obtain ⟨n, v, shape, -, -, filled, rfl⟩ := load_eq_ok.mp loaded
  have long : tensor.floats.length = rows * (n * v) := by
    rcases shape with shape | ⟨rfl, shape⟩ <;>
      simpa [Tensor.floats, Tensor.volume, shape] using filled
  have wide : ∀ row ∈ layOut rows n v tensor.floats, ∀ own ∈ row, own.length = v := by
    intro row member own inside
    have same := layOut_wide long row member
    exact (List.eq_replicate_iff.mp same).2 _ (List.mem_map_of_mem inside)
  split
  · exact wide
  · dsimp only
    rw [List.forall_mem_map]
    exact fun row member own inside => wide row member own (List.mem_of_mem_drop inside)

theorem load_fresh {rows vocabulary : Nat} {everyPosition : Bool} {tensor : Tensor}
    (loaded : load rows vocabulary everyPosition tensor = .ok scores) :
    scores.fresh = true ∧ 0 < scores.positions := by
  obtain ⟨n, v, -, -, some, -, rfl⟩ := load_eq_ok.mp loaded
  split
  · exact ⟨rfl, some⟩
  · exact ⟨rfl, Nat.one_pos⟩

theorem constrainLength_eq_ok {minLength : Nat} {endTokens : List Token} {histories : Histories} :
    scores.constrainLength minLength endTokens histories = .ok after ↔ scores.fresh = true ∧
      if minLength ≤ histories.length then after = scores
      else (∀ row < scores.rows.length, ∃ found, scores.last row = .ok found) ∧
        after = scores.changeLast fun _ => Scores.suppress endTokens := by
  have each : ∀ (row : Nat) (f : Scores → Scores),
      (return Scores.suppress endTokens : Except Failure (Scores → Scores)) = .ok f ↔
        True ∧ Scores.suppress endTokens = f := fun _ _ => by simp [Outcome.pure_eq_ok]
  simp only [constrainLength, Outcome.bind_eq_ok, requireFresh_eq_ok, exists_const]
  refine and_congr_right fun _ => ?_
  split
  · rw [Outcome.pure_eq_ok, eq_comm]
  · rw [adjustLast_eq_ok each]
    simp only [true_and, @eq_comm _ after]

theorem penalize_eq_ok {penalty : Float32} {histories : Histories} :
    scores.penalize penalty histories = .ok after ↔ scores.fresh = true ∧
      if penalty == 1 then after = scores
      else (∀ row < scores.rows.length,
          row < histories.rows.length ∧ ∃ found, scores.last row = .ok found) ∧
        after = scores.changeLast fun i =>
          Scores.penalize penalty (histories.rows.getD i []) := by
  -- a row can be penalized exactly if it has a history
  have each : ∀ (row : Nat) (f : Scores → Scores),
      (return Scores.penalize penalty (← histories.row row) :
          Except Failure (Scores → Scores)) = .ok f ↔
        row < histories.rows.length ∧ Scores.penalize penalty (histories.rows.getD row []) = f := by
    intro row f
    simp only [Histories.row, Outcome.bind_eq_ok, Outcome.fetch_eq_ok, Outcome.pure_eq_ok]
    by_cases inside : row < histories.rows.length <;> simp [inside]
  simp only [penalize, Outcome.bind_eq_ok, requireFresh_eq_ok, exists_const]
  refine and_congr_right fun _ => ?_
  split
  · rw [Outcome.pure_eq_ok, eq_comm]
  · rw [adjustLast_eq_ok each, @eq_comm _ after]

end LoadedScores

end StagedDecoding
