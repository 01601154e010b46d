import StagedDecoding.Generator
import StagedDecoding.Proofs.FlatIndices
import StagedDecoding.Proofs.Remembering

/-! What a selection does to the histories.

Whatever the strategy, a selection replaces every row by a copy of its parent and appends one token.
Rows of the greedy searches are their own parents. In beam search a parent belongs to the batch
entry of its descendant, so that no row ever leaves the prompt it started from.
-/

set_option autoImplicit false

namespace StagedDecoding

namespace Histories

theorem checkRowCount_eq_ok {h : Histories} {count : Nat} {u : Unit} :
    h.checkRowCount count = .ok u ↔ count = h.rows.length := by
  unfold checkRowCount rowCount
  split <;> simp_all

theorem checkCapacity_eq_ok {h : Histories} {extra : Nat} {u : Unit} :
    h.checkCapacity extra = .ok u ↔ h.length + extra ≤ h.capacity := by
  unfold checkCapacity
  split
  · next short => simp [Nat.not_le.mpr short]
  · next fits => simp [Nat.le_of_not_lt fits]

theorem append_eq_ok {h next : Histories} {tokens : List Token} :
    h.append tokens = .ok next ↔
      tokens.length = h.rows.length ∧ h.length + 1 ≤ h.capacity ∧
        next = { h with
          rows := List.zipWith (fun row token => row ++ [token]) h.rows tokens
          length := h.length + 1 } := by
  simp only [append, Outcome.bind_eq_ok, checkRowCount_eq_ok, checkCapacity_eq_ok,
    Outcome.pure_eq_ok, exists_const]
  exact and_congr_right fun _ => and_congr_right fun _ => eq_comm

theorem parents_eq_ok {h : Histories} {parents : List Nat} {ancestors : List (List Token)} :
    parents.mapM h.parent = .ok ancestors ↔
      (∀ parent ∈ parents, parent < h.rows.length) ∧
        ancestors = parents.map fun parent => h.rows.getD parent [] := by
  have taken : ∀ parent row, h.parent parent = .ok row ↔
      parent < h.rows.length ∧ row = h.rows.getD parent [] := by
    intro parent row
    unfold Histories.parent
    by_cases inside : parent < h.rows.length <;> simp [inside, eq_comm]
  simp only [Outcome.mapM_eq_ok, taken]
  constructor
  · refine fun found => ⟨forall_of_forall₂ found.flip fun _ _ _ both => both.1, ?_⟩
    rw [← List.forall₂_eq_eq_eq, List.forall₂_map_right_iff]
    exact found.flip.imp fun _ _ both => both.2
  · rintro ⟨inside, rfl⟩
    rw [List.forall₂_map_right_iff, List.forall₂_same]
    exact fun parent member => ⟨inside parent member, rfl⟩

theorem descend_eq_ok {h next : Histories} {parents : List Nat} {tokens : List Token} :
    h.descend parents tokens = .ok next ↔
      parents.length = h.rows.length ∧ tokens.length = h.rows.length ∧
        h.length + 1 ≤ h.capacity ∧ (∀ parent ∈ parents, parent < h.rows.length) ∧
        next = { h with
          rows := List.zipWith (fun row token => row ++ [token])
            (parents.map fun parent => h.rows.getD parent []) tokens
          length := h.length + 1 } := by
  simp only [descend, Outcome.bind_eq_ok, checkRowCount_eq_ok, checkCapacity_eq_ok, parents_eq_ok,
    Outcome.pure_eq_ok, exists_const]
  constructor
  · rintro ⟨parentsCount, tokensCount, fits, _, ⟨inside, rfl⟩, rfl⟩
    exact ⟨parentsCount, tokensCount, fits, inside, rfl⟩
  · rintro ⟨parentsCount, tokensCount, fits, inside, rfl⟩
    exact ⟨parentsCount, tokensCount, fits, _, ⟨inside, rfl⟩, rfl⟩

theorem appendRun_eq_ok {h next : Histories} {tokens : List Token} :
    h.appendRun tokens = .ok next ↔
      h.rows.length = 1 ∧ h.length + tokens.length ≤ h.capacity ∧
        next = { h with rows := h.rows.map (· ++ tokens), length := h.length + tokens.length } := by
  simp only [appendRun, Outcome.throw_bind, Outcome.guard_eq_ok, Outcome.bind_eq_ok,
    checkCapacity_eq_ok, Outcome.pure_eq_ok, Decidable.not_not, exists_const]
  exact and_congr_right fun _ => and_congr_right fun _ => eq_comm

end Histories

namespace Greedy

def settleOne (settings : Settings) (row : Bool × Token) : Token × Bool :=
  if row.1 then (settings.pad, true) else (row.2, settings.isEnd row.2)

theorem settle_eq_ok {settings : Settings} {marked : List (Bool × Token)} {running : Nat}
    {settled : List (Token × Bool) × Nat} (ran : settle settings marked running = .ok settled) :
    settled.1 = marked.map (settleOne settings) ∧
      settled.2 + (marked.map Prod.fst).count false =
        running + (settled.1.map Prod.snd).count false := by
  induction marked generalizing running settled with
  | nil =>
    obtain rfl := Except.ok.inj ran
    simp
  | cons row rest ih =>
    obtain ⟨ended, token⟩ := row
    cases ended with
    | true =>
      simp only [settle, Outcome.bind_eq_ok, Outcome.pure_eq_ok] at ran
      -- a row that has ended is padded and was not counted any more
      obtain ⟨⟨later, left⟩, passed, rfl⟩ := ran
      obtain ⟨same, counted⟩ := ih passed
      dsimp only at same counted
      constructor
      · simp [settleOne, same]
      · simpa using counted
    | false =>
      unfold settle at ran
      split at ran
      case isTrue ends =>
        -- a row that ends now is no longer counted, for which there must be one that runs
        cases running with
        | zero => simp [Outcome.throw_eq_ok] at ran
        | succ running =>
          simp only [Outcome.bind_eq_ok, Outcome.pure_eq_ok] at ran
          obtain ⟨⟨later, left⟩, passed, rfl⟩ := ran
          obtain ⟨same, counted⟩ := ih passed
          dsimp only at same counted
          constructor
          · simp [settleOne, same, ends]
          · simp only [List.map_cons, List.count_cons_self,
              List.count_cons_of_ne (show true ≠ false by simp)]
            omega
      case isFalse runs =>
        simp only [Outcome.bind_eq_ok, Outcome.pure_eq_ok] at ran
        obtain ⟨⟨later, left⟩, passed, rfl⟩ := ran
        obtain ⟨same, counted⟩ := ih passed
        dsimp only at same counted
        constructor
        · simp [settleOne, same, runs]
        · simp only [List.map_cons, List.count_cons_self]
          omega

theorem fillSlots_eq_ok {settings : Settings} {tokens slots : List Token} :
    fillSlots settings tokens = .ok slots ↔
      settings.batchSize ≤ tokens.length ∧ tokens.take settings.batchSize = slots := by
  rw [fillSlots, Outcome.foldlM_store_eq_ok fun _ _ => Outcome.fetch_eq_ok]
  simp

theorem markedSlots_eq_ok {settings : Settings} {ended : List Bool} {slots : List Token}
    {marked : List (Bool × Token)} :
    markedSlots settings ended slots = .ok marked ↔
      settings.batchSize ≤ ended.length ∧ settings.batchSize ≤ slots.length ∧
        (ended.zip slots).take settings.batchSize = marked := by
  have each : ∀ i (pair : Bool × Token),
      (return (← fetch ended i, ← fetch slots i) : Except Failure (Bool × Token)) = .ok pair ↔
        (ended.zip slots)[i]? = some pair := by
    rintro i ⟨mark, token⟩
    simp only [Outcome.bind_eq_ok, Outcome.fetch_eq_ok, Outcome.pure_eq_ok,
      List.getElem?_zip_eq_some, Prod.mk.injEq]
    constructor
    · rintro ⟨_, here, _, there, rfl, rfl⟩
      exact ⟨here, there⟩
    · rintro ⟨here, there⟩
      exact ⟨mark, here, token, there, rfl, rfl⟩
  rw [markedSlots, Outcome.mapM_range_eq_ok each, List.length_zip, Nat.le_min, and_assoc]

theorem markAnew_eq_ok {settings : Settings} {histories : Histories} {ended after : List Bool} :
    markAnew settings histories ended = .ok after ↔
      settings.batchSize ≤ histories.rows.length ∧ settings.batchSize ≤ ended.length ∧
        (histories.rows.map fun row => (histories.generatedPart row).any settings.isEnd).take
          settings.batchSize ++ ended.drop settings.batchSize = after := by
  let mark (row : Nat) : Except Failure Bool :=
    (·.any settings.isEnd) <$> histories.generated row
  have each : ∀ row found, mark row = .ok found ↔ (histories.rows.map fun row =>
      (histories.generatedPart row).any settings.isEnd)[row]? = some found := by
    intro row found
    simp only [mark, Histories.generated, Outcome.map_eq_ok, Histories.row, Outcome.fetch_eq_ok,
      List.getElem?_map, Option.map_eq_some_iff]
    constructor
    · rintro ⟨_, ⟨own, here, rfl⟩, rfl⟩
      exact ⟨own, here, rfl⟩
    · rintro ⟨own, here, rfl⟩
      exact ⟨_, ⟨own, here, rfl⟩, rfl⟩
  have step : markAnew settings histories ended =
      (List.range settings.batchSize).foldlM
        (fun ended row => mark row >>= fun found => store ended row found) ended := by
    simp only [markAnew, mark, bind_map_left]
  rw [step, Outcome.foldlM_store_eq_ok each, List.length_map]

theorem commit_appends {tokens : List Token} {before after : Greedy} {u : Unit}
    (ran : Step.Returns (commit tokens) before u after) :
    before.settings.batchSize ≤ tokens.length ∧
    before.settings.batchSize = before.histories.rows.length ∧
    before.histories.length + 1 ≤ before.histories.capacity ∧
    ∃ settled running,
      settle before.settings ((before.ended.zip tokens).take before.settings.batchSize)
        before.running = .ok (settled, running) ∧
      settled.length = before.histories.rows.length ∧
      after = { before with
        nextTokens := settled.map Prod.fst
        ended := settled.map Prod.snd
        running := running
        histories := { before.histories with
          rows := List.zipWith (fun row token => row ++ [token]) before.histories.rows
            (settled.map Prod.fst)
          length := before.histories.length + 1 }
        scores := before.scores.consume }.refreshDone := by
  simp only [commit, Step.returns_bind, Step.returns_get, Step.returns_lift, Step.returns_set,
    Histories.append_eq_ok, fillSlots_eq_ok, markedSlots_eq_ok] at ran
  obtain ⟨_, _, ⟨rfl, rfl⟩, _, _, ⟨⟨enough, rfl⟩, rfl⟩, _, _, ⟨⟨marks, slots, rfl⟩, rfl⟩,
    settled, _, ⟨passed, rfl⟩, _, _, rfl, histories, _, ⟨⟨counted, fits, rfl⟩, rfl⟩, rfl⟩ := ran
  have pairs : (before.ended.zip (tokens.take before.settings.batchSize)).take
      before.settings.batchSize = (before.ended.zip tokens).take before.settings.batchSize := by
    simp only [List.zip, List.take_zipWith, List.take_take, Nat.min_self]
  rw [pairs] at passed
  rw [List.length_map] at counted
  refine ⟨enough, ?_, fits, settled.1, settled.2, passed, counted, rfl⟩
  rw [← counted, (settle_eq_ok passed).1, List.length_map, List.length_take, List.length_zip]
  omega

theorem commit_returns {tokens : List Token} {before after : Greedy} {u : Unit}
    (marks : before.ended.length = before.histories.rows.length)
    (ran : Step.Returns (commit tokens) before u after) :
    let settled := (before.ended.zip tokens).map (settleOne before.settings)
    settled.length = before.histories.rows.length ∧
    before.histories.length + 1 ≤ before.histories.capacity ∧
    ∃ running,
      running + ((before.ended.zip tokens).map Prod.fst).count false =
        before.running + (settled.map Prod.snd).count false ∧
      after = { before with
        nextTokens := settled.map Prod.fst
        ended := settled.map Prod.snd
        running := running
        histories := { before.histories with
          rows := List.zipWith (fun row token => row ++ [token]) before.histories.rows
            (settled.map Prod.fst)
          length := before.histories.length + 1 }
        scores := before.scores.consume }.refreshDone := by
  obtain ⟨enough, counted, fits, settled, running, passed, appended, rfl⟩ := commit_appends ran
  have whole : (before.ended.zip tokens).take before.settings.batchSize =
      before.ended.zip tokens := by
    apply List.take_of_length_le
    rw [List.length_zip, marks, counted]
    exact Nat.min_le_left _ _
  rw [whole] at passed
  obtain ⟨rfl, count⟩ := settle_eq_ok passed
  exact ⟨appended, fits, running, count, rfl⟩

theorem selectTop_returns {before after : Greedy} {u : Unit}
    (ran : Step.Returns selectTop before u after) :
    ∃ tokens, bestTokens before.scores (List.range before.settings.batchSize) = .ok tokens ∧
      Step.Returns (commit tokens) before () after := by
  simp only [selectTop, Step.returns_bind, Step.returns_get, Step.returns_lift] at ran
  obtain ⟨_, _, ⟨rfl, rfl⟩, _, _, ⟨-, rfl⟩, tokens, _, ⟨best, rfl⟩, committed⟩ := ran
  exact ⟨tokens, best, committed⟩

theorem sample_returns {sampling : Scores.Sampling} {before after : Greedy} {u : Unit}
    (ran : Step.Returns (sample sampling) before u after) :
    ∃ tokens words, Step.Returns (commit tokens) { before with words := words } () after := by
  simp only [sample, Step.returns_bind, Step.returns_get, Step.returns_lift,
    Step.returns_set] at ran
  obtain ⟨_, _, ⟨rfl, rfl⟩, _, _, ⟨-, rfl⟩, drawn, _, ⟨-, rfl⟩, _, _, rfl, committed⟩ := ran
  exact ⟨drawn.1, drawn.2, committed⟩

theorem sequence_row {g : Greedy} {index : Nat} {row : List Token}
    (found : g.histories.rows[index]? = some row) : Step.Returns (sequence index) g row g := by
  have inside : ¬ g.histories.rowCount ≤ index :=
    Nat.not_le.mpr (List.getElem?_eq_some_iff.mp found).1
  refine Step.returns_inspect.mpr ⟨?_, rfl⟩
  rw [if_neg inside]
  exact Outcome.fetch_eq_ok.mpr found

theorem row_of_sequence {g g' : Greedy} {index : Nat} {row : List Token}
    (ran : Step.Returns (sequence index) g row g') :
    g.histories.rows[index]? = some row ∧ g' = g := by
  obtain ⟨found, rfl⟩ := Step.returns_inspect.mp ran
  split at found
  · cases found
  · exact ⟨Outcome.fetch_eq_ok.mp found, rfl⟩

end Greedy

namespace Beam

theorem beam_of_mem_rank {elementary : Elementary} {b : Beam} {entry : Nat}
    {ranked : List Expansion} (ran : b.rank elementary entry = .ok ranked) :
    ∀ expansion ∈ ranked, expansion.beam < b.settings.beams := by
  obtain ⟨expansions, found, rfl⟩ := rank_eq_ok.mp ran
  rw [Outcome.mapM_eq_ok] at found
  intro expansion member
  have member := (List.mergeSort_perm _ _).subset (List.mem_of_mem_take member)
  obtain ⟨own, inside, member⟩ := List.mem_flatten.mp member
  refine forall_of_forall₂ found (p := fun own => ∀ expansion ∈ own,
    expansion.beam < b.settings.beams) (fun beam here own expanded => ?_) own inside expansion member
  obtain ⟨_, -, rfl⟩ := Outcome.map_eq_ok.mp expanded
  rw [label, List.forall_mem_map]
  exact fun _ _ => List.mem_range.mp here

theorem place_eq_ok {settings : Settings} {survivors placed : List Survivor} {next : Survivor} :
    place settings survivors next = .ok placed ↔
      survivors.length < settings.beams ∧ survivors ++ [next] = placed := by
  unfold place
  split <;> simp [*]

theorem choose_eq_ok {settings : Settings} {histories : Histories} {entry rank : Nat}
    {expansions : List Expansion} {survivors : List Survivor} {finished : Hypotheses}
    {result : List Survivor × Hypotheses}
    (within : ∀ expansion ∈ expansions, expansion.beam < settings.beams)
    (few : survivors.length < settings.beams)
    (own : ∀ survivor ∈ survivors, survivor.parent / settings.beams = entry)
    (ran : choose settings histories entry rank expansions survivors finished = .ok result) :
    result.1.length ≤ settings.beams ∧
      ∀ survivor ∈ result.1, survivor.parent / settings.beams = entry := by
  induction expansions generalizing rank survivors finished with
  | nil =>
    obtain rfl := Except.ok.inj ran
    exact ⟨Nat.le_of_lt few, own⟩
  | cons expansion rest ih =>
    have later : ∀ other ∈ rest, other.beam < settings.beams :=
      fun other member => within other (by simp [member])
    unfold choose at ran
    split at ran
    case isTrue =>
      split at ran
      · exact ih later few own ran
      · simp only [Outcome.bind_eq_ok] at ran
        obtain ⟨_, -, ran⟩ := ran
        exact ih later few own ran
    case isFalse =>
      -- the row of a survivor belongs to the entry that is walked
      have here : (entry * settings.beams + expansion.beam) / settings.beams = entry := by
        have small := within expansion (by simp)
        rw [Nat.mul_comm, Nat.mul_add_div (by omega), Nat.div_eq_of_lt small, Nat.add_zero]
      have grown : ∀ survivor ∈
          survivors ++ [⟨expansion.score, expansion.token, entry * settings.beams + expansion.beam⟩],
          survivor.parent / settings.beams = entry := by
        intro survivor member
        rcases List.mem_append.mp member with member | member
        · exact own survivor member
        · rw [List.mem_singleton.mp member, here]
      simp only [Outcome.bind_eq_ok, place_eq_ok] at ran
      obtain ⟨_, ⟨-, rfl⟩, ran⟩ := ran
      split at ran
      · next full =>
        obtain rfl := Outcome.pure_eq_ok.mp ran
        exact ⟨Nat.le_of_eq full, grown⟩
      · next room =>
        refine ih later ?_ grown ran
        rw [List.length_append, List.length_singleton] at room ⊢
        omega

theorem stepEntry_returns {settings : Settings} {histories : Histories} {entry : Nat}
    {expansions : List Expansion} {before after : BeamEntry} {survivors : List Survivor}
    (some : 0 < settings.beams)
    (within : ∀ expansion ∈ expansions, expansion.beam < settings.beams)
    (ran : Step.Returns (stepEntry settings histories entry expansions) before survivors after) :
    survivors.length = settings.beams ∧
      ∀ survivor ∈ survivors, survivor.parent / settings.beams = entry := by
  simp only [stepEntry, Step.returns_bind, Step.returns_get] at ran
  obtain ⟨_, _, ⟨rfl, rfl⟩, ran⟩ := ran
  split at ran
  case isTrue =>
    obtain ⟨rfl, -⟩ := Step.returns_pure.mp ran
    refine ⟨by simp [idleRows], ?_⟩
    simp only [idleRows, List.forall_mem_map, List.mem_range]
    intro beam bound
    rw [Nat.mul_comm, Nat.mul_add_div some, Nat.div_eq_of_lt bound, Nat.add_zero]
  case isFalse =>
    simp only [Step.returns_bind, Step.returns_lift, Step.returns_set, Step.throw_bind,
      Step.returns_guard, Step.returns_pure] at ran
    obtain ⟨chosen, _, ⟨passed, rfl⟩, _, _, rfl, enough, _, _, rfl, rfl, -⟩ := ran
    obtain ⟨few, own⟩ := choose_eq_ok within (by simpa using some) (by simp) passed
    exact ⟨by omega, own⟩

theorem stepEntries_nil {settings : Settings} {histories : Histories} {entry : Nat} :
    stepEntries settings histories entry [] = pure [] := by
  cases entry <;> rfl

theorem stepEntries_cons_returns {settings : Settings} {histories : Histories} {entry : Nat}
    {own : List Expansion} {rest : List (List Expansion)} {before after : List BeamEntry}
    {survivors : List Survivor} :
    Step.Returns (stepEntries settings histories entry (own :: rest)) before survivors after ↔
      ∃ state states part state' more states', before = state :: states ∧
        Step.Returns (stepEntry settings histories entry own) state part state' ∧
        Step.Returns (stepEntries settings histories (entry + 1) rest) states more states' ∧
        survivors = part ++ more ∧ after = state' :: states' := by
  unfold Step.Returns
  constructor
  · intro ran
    unfold stepEntries at ran
    split at ran
    case h_1 => simp at ran
    case h_2 state states =>
    split at ran
    case h_1 => simp at ran
    case h_2 part state' stepped =>
    split at ran
    case h_1 => simp at ran
    case h_2 more states' walked =>
    obtain ⟨passed, rfl⟩ := Prod.mk.inj ran
    obtain rfl := Except.ok.inj passed
    exact ⟨state, states, part, state', more, states', rfl, stepped, walked, rfl, rfl⟩
  · rintro ⟨state, states, part, state', more, states', rfl, stepped, walked, rfl, rfl⟩
    simp only [stepEntries, stepped, walked]

theorem stepEntries_cons_fails {settings : Settings} {histories : Histories} {entry : Nat}
    {own : List Expansion} {rest : List (List Expansion)} {state : BeamEntry}
    {states after : List BeamEntry} {failure : Failure} :
    Step.Fails (stepEntries settings histories entry (own :: rest)) (state :: states) failure
        after ↔
      (∃ state', Step.Fails (stepEntry settings histories entry own) state failure state' ∧
        after = state' :: states) ∨
      ∃ part state' states', Step.Returns (stepEntry settings histories entry own) state part
          state' ∧
        Step.Fails (stepEntries settings histories (entry + 1) rest) states failure states' ∧
        after = state' :: states' := by
  unfold Step.Fails Step.Returns
  constructor
  · intro failed
    unfold stepEntries at failed
    dsimp only at failed
    split at failed
    case h_1 thrown state' stepped =>
      obtain ⟨told, rfl⟩ := Prod.mk.inj failed
      obtain rfl := Except.error.inj told
      exact .inl ⟨state', stepped, rfl⟩
    case h_2 part state' stepped =>
      split at failed
      case h_2 => cases (Prod.mk.inj failed).1
      case h_1 thrown states' walked =>
        obtain ⟨told, rfl⟩ := Prod.mk.inj failed
        obtain rfl := Except.error.inj told
        exact .inr ⟨part, state', states', stepped, walked, rfl⟩
  · rintro (⟨state', stepped, rfl⟩ | ⟨part, state', states', stepped, walked, rfl⟩)
    · simp only [stepEntries, stepped]
    · simp only [stepEntries, stepped, walked]

theorem stepEntries_returns {settings : Settings} {histories : Histories} {entry : Nat}
    {expansions : List (List Expansion)} {before after : List BeamEntry}
    {survivors : List Survivor} (some : 0 < settings.beams)
    (within : ∀ own ∈ expansions, ∀ expansion ∈ own, expansion.beam < settings.beams)
    (ran : Step.Returns (stepEntries settings histories entry expansions) before survivors after) :
    ∀ i survivor, survivors[i]? = Option.some survivor →
      survivor.parent / settings.beams = entry + i / settings.beams := by
  induction expansions generalizing entry before survivors after with
  | nil =>
    rw [stepEntries_nil] at ran
    obtain ⟨rfl, -⟩ := Step.returns_pure.mp ran
    simp
  | cons own rest ih =>
    obtain ⟨_, _, _, _, _, _, rfl, stepped, walked, rfl, -⟩ := stepEntries_cons_returns.mp ran
    obtain ⟨sized, parents⟩ := stepEntry_returns some (within own (by simp)) stepped
    have later := ih (fun other member => within other (by simp [member])) walked
    intro i survivor found
    by_cases here : i < settings.beams
    · rw [List.getElem?_append_left (by omega)] at found
      rw [parents survivor (List.mem_of_getElem? found), Nat.div_eq_of_lt here, Nat.add_zero]
    · rw [List.getElem?_append_right (by omega), sized] at found
      have behind := later (i - settings.beams) survivor found
      have next : i / settings.beams = (i - settings.beams) / settings.beams + 1 :=
        Nat.div_eq_sub_div some (by omega)
      omega

theorem rankEntries_eq_ok {elementary : Elementary} {b : Beam} {entries : List Nat}
    {ranked : List (List Expansion)} :
    b.rankEntries elementary entries = .ok ranked ↔
      List.Forall₂ (fun entry own => b.rank elementary entry = .ok own) entries ranked := by
  induction entries generalizing ranked with
  | nil => simp [rankEntries, eq_comm]
  | cons entry rest ih =>
    simp only [rankEntries, Outcome.bind_eq_ok, Outcome.pure_eq_ok, ih,
      List.forall₂_cons_left_iff]
    constructor
    · rintro ⟨own, found, others, tail, rfl⟩
      exact ⟨own, others, found, tail, rfl⟩
    · rintro ⟨own, others, found, tail, rfl⟩
      exact ⟨own, found, others, tail, rfl⟩

theorem selectTop_returns {elementary : Elementary} {before after : Beam} {u : Unit} :
    Step.Returns (selectTop elementary) before u after ↔
      before.scores.requireFresh = .ok () ∧ before.finals.isSome = false ∧
      ∃ expansions survivors entries histories,
        before.rankEntries elementary (List.range before.settings.batchSize) = .ok expansions ∧
        Step.Returns (stepEntries before.settings before.histories 0 expansions) before.entries
          survivors entries ∧
        before.histories.descend (survivors.map (·.parent)) (survivors.map (·.token)) =
          .ok histories ∧
        after = { before with
          entries := entries
          histories := histories
          beamScores := survivors.map (·.score)
          nextTokens := survivors.map (·.token)
          nextIndices := survivors.map (·.parent)
          scores := before.scores.consume
          done := entries.all (·.done) || histories.isFull } := by
  simp only [selectTop, Step.returns_bind, Step.returns_get, Step.returns_lift, Step.throw_bind,
    Step.returns_guard, Step.returns_within, Step.returns_modify]
  constructor
  · rintro ⟨_, _, ⟨rfl, rfl⟩, _, _, ⟨fresh, rfl⟩, going, expansions, _, ⟨ranked, rfl⟩, survivors, _,
      ⟨entries, stepped, rfl⟩, histories, _, ⟨descended, rfl⟩, rfl⟩
    exact ⟨fresh, by simpa using going, expansions, survivors, entries, histories, ranked, stepped,
      descended, rfl⟩
  · rintro ⟨fresh, going, expansions, survivors, entries, histories, ranked, stepped, descended,
      rfl⟩
    exact ⟨_, _, ⟨rfl, rfl⟩, _, _, ⟨fresh, rfl⟩, by simp [going], expansions, _, ⟨ranked, rfl⟩,
      survivors, _, ⟨entries, stepped, rfl⟩, histories, _, ⟨descended, rfl⟩, rfl⟩

theorem selectTop_descends {elementary : Elementary} {before after : Beam} {u : Unit}
    (some : 0 < before.settings.beams)
    (ran : Step.Returns (selectTop elementary) before u after) :
    after.settings = before.settings ∧ after.finals = before.finals ∧
      before.histories.descend after.nextIndices after.nextTokens = .ok after.histories ∧
      ∀ i parent, after.nextIndices[i]? = Option.some parent →
        parent / before.settings.beams = i / before.settings.beams := by
  obtain ⟨-, -, expansions, survivors, entries, histories, ranked, stepped, descended, rfl⟩ :=
    selectTop_returns.mp ran
  refine ⟨rfl, rfl, descended, fun i parent found => ?_⟩
  simp only [List.getElem?_map, Option.map_eq_some_iff] at found
  obtain ⟨survivor, there, rfl⟩ := found
  have within := forall_of_forall₂ (rankEntries_eq_ok.mp ranked) fun _ _ own passed =>
    beam_of_mem_rank passed
  simpa using stepEntries_returns some within stepped i survivor there

end Beam

namespace Strategy

variable {α : Type} {greedy : Step Greedy α} {beam : Step Beam α}
  {speculative : Step Speculative α} {a : α} {before after : Strategy} {u : Unit}

theorem byCases_returns (ran : Step.Returns (byCases greedy beam speculative) before a after) :
    (∃ g g', before = .greedy g ∧ after = .greedy g' ∧ Step.Returns greedy g a g') ∨
    (∃ b b', before = .beam b ∧ after = .beam b' ∧ Step.Returns beam b a b') ∨
    ∃ s s', before = .speculative s ∧ after = .speculative s' ∧
      Step.Returns speculative s a s' := by
  cases before with
  | greedy g =>
    obtain ⟨passed, rfl⟩ := Prod.mk.inj ran
    exact .inl ⟨g, _, rfl, rfl, Prod.ext passed rfl⟩
  | beam b =>
    obtain ⟨passed, rfl⟩ := Prod.mk.inj ran
    exact .inr (.inl ⟨b, _, rfl, rfl, Prod.ext passed rfl⟩)
  | speculative s =>
    obtain ⟨passed, rfl⟩ := Prod.mk.inj ran
    exact .inr (.inr ⟨s, _, rfl, rfl, Prod.ext passed rfl⟩)

theorem byCases_speculative {s : Speculative}
    (ran : Step.Returns (byCases greedy beam speculative) (.speculative s) a after) :
    ∃ s', after = .speculative s' ∧ Step.Returns speculative s a s' := by
  rcases byCases_returns ran with ⟨_, _, ⟨⟩, _⟩ | ⟨_, _, ⟨⟩, _⟩ | ⟨_, s', ⟨⟩, rfl, passed⟩
  exact ⟨s', rfl, passed⟩

theorem returns_greedy {g g' : Greedy} (ran : Step.Returns greedy g a g') :
    Step.Returns (byCases greedy beam speculative) (.greedy g) a (.greedy g') := by
  unfold Step.Returns at ran ⊢
  simp only [byCases, ran]

theorem returns_beam {b b' : Beam} (ran : Step.Returns beam b a b') :
    Step.Returns (byCases greedy beam speculative) (.beam b) a (.beam b') := by
  unfold Step.Returns at ran ⊢
  simp only [byCases, ran]

theorem returns_speculative {s s' : Speculative} (ran : Step.Returns speculative s a s') :
    Step.Returns (byCases greedy beam speculative) (.speculative s) a (.speculative s') := by
  unfold Step.Returns at ran ⊢
  simp only [byCases, ran]

theorem returns_inside {step : Step Greedy α} {s : Speculative} {g' : Greedy}
    (ran : Step.Returns step s.inner a g') :
    Step.Returns (Speculative.inside step) s a { s with inner := g' } :=
  Step.returns_within.mpr ⟨g', ran, rfl⟩

/-- The strategy is the same but for its scores. -/
inductive SameCourse : Strategy → Strategy → Prop where
  | greedy (g : Greedy) (scores : LoadedScores) :
      SameCourse (.greedy g) (.greedy { g with scores := scores })
  | beam (b : Beam) (scores : LoadedScores) :
      SameCourse (.beam b) (.beam { b with scores := scores })
  | speculative (s : Speculative) (scores : LoadedScores) (marks : List Marks) :
      SameCourse (.speculative s) (.speculative ⟨{ s.inner with scores := scores }, marks⟩)

namespace SameCourse

theorem kind (same : SameCourse before after) : after.kind = before.kind := by
  cases same <;> rfl

theorem settings (same : SameCourse before after) : after.settings = before.settings := by
  cases same <;> rfl

theorem histories (same : SameCourse before after) : after.histories = before.histories := by
  cases same <;> rfl

theorem isDone (same : SameCourse before after) : after.isDone = before.isDone := by
  cases same <;> rfl

theorem refl (strategy : Strategy) : SameCourse strategy strategy := by
  cases strategy with
  | greedy g => exact .greedy g g.scores
  | beam b => exact .beam b b.scores
  | speculative s => exact .speculative s s.inner.scores s.marks

theorem trans {middle : Strategy} (first : SameCourse before middle)
    (second : SameCourse middle after) : SameCourse before after := by
  cases first <;> cases second <;> constructor

end SameCourse

theorem exists_speculative {strategy : Strategy} (kind : strategy.kind = .speculative) :
    ∃ s, strategy = .speculative s := by
  cases strategy with
  | greedy _ => simp [Strategy.kind] at kind
  | beam _ => simp [Strategy.kind] at kind
  | speculative s => exact ⟨s, rfl⟩

/-- Draft verification never moves its row. -/
theorem nextIndices_of_kind {strategy : Strategy} (kind : strategy.kind = .speculative) :
    strategy.nextIndices = [] := by
  obtain ⟨s, rfl⟩ := exists_speculative kind
  rfl

/-- Parents name rows of the same batch entry, or nothing moves. -/
def WithinEntries (beams rows : Nat) (parents : List Nat) : Prop :=
  parents = [] ∨ parents.length = rows ∧
    ∀ i parent, parents[i]? = some parent → parent < rows ∧ parent / beams = i / beams

structure Commits (before after : Strategy) : Prop where
  kind : after.kind = before.kind
  settings : after.settings = before.settings
  histories : after.histories = { before.histories with
    rows := List.zipWith (fun row token => row ++ [token])
      (inherited after.nextIndices before.histories.rows) after.nextTokens
    length := before.histories.length + 1 }
  count : after.nextTokens.length = before.histories.rows.length
  parents : WithinEntries before.settings.beams before.histories.rows.length after.nextIndices

def Beamed : Strategy → Prop
  | .beam b => 0 < b.settings.beams
  | _ => True

theorem setScores_returns {tensor : Tensor}
    (ran : Step.Returns (setScores tensor) before u after) : SameCourse before after := by
  rcases byCases_returns ran with ⟨g, g', rfl, rfl, passed⟩ | ⟨b, b', rfl, rfl, passed⟩ |
    ⟨s, s', rfl, rfl, passed⟩
  · simp only [Greedy.setScores, Step.returns_attempt, Outcome.bind_eq_ok,
      Outcome.pure_eq_ok] at passed
    obtain ⟨_, -, rfl⟩ := passed
    exact .greedy _ _
  · simp only [Beam.setScores, Step.returns_attempt, Outcome.bind_eq_ok,
      Outcome.pure_eq_ok] at passed
    obtain ⟨_, -, rfl⟩ := passed
    exact .beam _ _
  · simp only [Speculative.setScores, Speculative.inside, Greedy.setScores, Step.returns_bind,
      Step.returns_within, Step.returns_attempt, Step.returns_modify, Outcome.bind_eq_ok,
      Outcome.pure_eq_ok] at passed
    obtain ⟨_, _, ⟨_, ⟨_, -, rfl⟩, rfl⟩, rfl⟩ := passed
    exact .speculative _ _ _

theorem rescore_returns {greedyScores : Greedy → Except Failure LoadedScores}
    {beamScores : Beam → Except Failure LoadedScores}
    (ran : Step.Returns
      (byCases
        (.attempt fun g => do
          let scores ← greedyScores g
          return { g with scores := scores })
        (.attempt fun b => do
          let scores ← beamScores b
          return { b with scores := scores })
        (Speculative.inside (.attempt fun g => do
          let scores ← greedyScores g
          return { g with scores := scores })))
      before u after) : SameCourse before after := by
  rcases byCases_returns ran with ⟨g, g', rfl, rfl, passed⟩ | ⟨b, b', rfl, rfl, passed⟩ |
    ⟨s, s', rfl, rfl, passed⟩
  · simp only [Step.returns_attempt, Outcome.bind_eq_ok, Outcome.pure_eq_ok] at passed
    obtain ⟨_, -, rfl⟩ := passed
    exact .greedy _ _
  · simp only [Step.returns_attempt, Outcome.bind_eq_ok, Outcome.pure_eq_ok] at passed
    obtain ⟨_, -, rfl⟩ := passed
    exact .beam _ _
  · simp only [Speculative.inside, Step.returns_within, Step.returns_attempt, Outcome.bind_eq_ok,
      Outcome.pure_eq_ok] at passed
    obtain ⟨_, ⟨_, -, rfl⟩, rfl⟩ := passed
    exact .speculative _ _ _

def scores : Strategy → LoadedScores
  | .greedy g => g.scores
  | .beam b => b.scores
  | .speculative s => s.inner.scores

theorem scores_of_rescore
    (change : Settings → Histories → LoadedScores → Except Failure LoadedScores)
    (ran : Step.Returns
      (byCases
        (.attempt fun g => do
          let scores ← change g.settings g.histories g.scores
          return { g with scores := scores })
        (.attempt fun b => do
          let scores ← change b.settings b.histories b.scores
          return { b with scores := scores })
        (Speculative.inside (.attempt fun g => do
          let scores ← change g.settings g.histories g.scores
          return { g with scores := scores })))
      before u after) : change before.settings before.histories before.scores = .ok after.scores := by
  rcases byCases_returns ran with ⟨g, g', rfl, rfl, passed⟩ | ⟨b, b', rfl, rfl, passed⟩ |
    ⟨s, s', rfl, rfl, passed⟩
  · simp only [Step.returns_attempt, Outcome.bind_eq_ok, Outcome.pure_eq_ok] at passed
    obtain ⟨_, changed, rfl⟩ := passed
    exact changed
  · simp only [Step.returns_attempt, Outcome.bind_eq_ok, Outcome.pure_eq_ok] at passed
    obtain ⟨_, changed, rfl⟩ := passed
    exact changed
  · simp only [Speculative.inside, Step.returns_within, Step.returns_attempt, Outcome.bind_eq_ok,
      Outcome.pure_eq_ok] at passed
    obtain ⟨_, ⟨_, changed, rfl⟩, rfl⟩ := passed
    exact changed

theorem constrainLength_returns {minLength : Nat}
    (ran : Step.Returns (constrainLength minLength) before u after) : SameCourse before after :=
  rescore_returns ran

theorem penalize_returns {penalty : Float32}
    (ran : Step.Returns (penalize penalty) before u after) : SameCourse before after :=
  rescore_returns ran

theorem constraints_returns {minLength : Nat} {penalty : Float32} {lengthened : Strategy}
    (longer : if 0 < minLength then
        Step.Returns (constrainLength minLength) before () lengthened
      else lengthened = before)
    (fewer : if penalty != 1 then Step.Returns (penalize penalty) lengthened () after
      else after = lengthened) : SameCourse before after := by
  have first : SameCourse before lengthened := by
    split at longer
    · exact constrainLength_returns longer
    · exact longer ▸ .refl _
  have second : SameCourse lengthened after := by
    split at fewer
    · exact penalize_returns fewer
    · exact fewer ▸ .refl _
  exact first.trans second

/-- What a choice comes to: tokens committed to the rows, or a step of the beams. -/
inductive Chosen : Strategy → Strategy → Prop where
  | greedy {g g' : Greedy} {words : WordStream} {tokens : List Token} :
      Step.Returns (Greedy.commit tokens) { g with words := words } () g' →
      Chosen (.greedy g) (.greedy g')
  | beam {b b' : Beam} :
      Step.Returns (Beam.selectTop .native) b () b' → Chosen (.beam b) (.beam b')
  | speculative {s : Speculative} {g' : Greedy} {words : WordStream} {tokens : List Token} :
      Step.Returns (Greedy.commit tokens) { s.inner with words := words } () g' →
      Chosen (.speculative s) (.speculative { s with inner := g' })

theorem Chosen.kind (chosen : Chosen before after) : after.kind = before.kind := by
  cases chosen <;> rfl

theorem selectTop_chosen (ran : Step.Returns selectTop before u after) : Chosen before after := by
  rcases byCases_returns ran with ⟨g, g', rfl, rfl, passed⟩ | ⟨b, b', rfl, rfl, passed⟩ |
    ⟨s, s', rfl, rfl, passed⟩
  · obtain ⟨_, -, committed⟩ := Greedy.selectTop_returns passed
    exact .greedy committed
  · exact .beam passed
  · obtain ⟨_, inner, rfl⟩ := Step.returns_within.mp passed
    obtain ⟨_, -, committed⟩ := Greedy.selectTop_returns inner
    exact .speculative committed

theorem sample_chosen {operation : Operation} {sampling : Scores.Sampling}
    (ran : Step.Returns (rowBased operation (Greedy.sample sampling)) before u after) :
    Chosen before after := by
  rcases byCases_returns ran with ⟨g, g', rfl, rfl, passed⟩ | ⟨b, b', rfl, rfl, passed⟩ |
    ⟨s, s', rfl, rfl, passed⟩
  · obtain ⟨_, words, committed⟩ := Greedy.sample_returns passed
    exact .greedy committed
  · exact absurd passed (by simp [Step.returns_throw])
  · obtain ⟨_, inner, rfl⟩ := Step.returns_within.mp passed
    obtain ⟨_, words, committed⟩ := Greedy.sample_returns inner
    exact .speculative committed

theorem chosen_of_choose {config : SearchConfig}
    (ran : Step.Returns (Generator.choose config) before u after) : Chosen before after := by
  unfold Generator.choose at ran
  dsimp only at ran
  split at ran
  · exact selectTop_chosen ran
  · split at ran
    · split at ran
      · exact sample_chosen ran
      · exact sample_chosen ran
    · exact sample_chosen ran

theorem commits_of_beam {b b' : Beam} (some : 0 < b.settings.beams)
    (ran : Step.Returns (Beam.selectTop .native) b () b') : Commits (.beam b) (.beam b') := by
  obtain ⟨settings, -, descended, parents⟩ := Beam.selectTop_descends some ran
  obtain ⟨counted, tokens, -, inside, same⟩ := Histories.descend_eq_ok.mp descended
  have moved : inherited b'.nextIndices b.histories.rows =
      b'.nextIndices.map fun parent => b.histories.rows.getD parent [] := by
    unfold inherited
    split
    · next empty =>
      rw [List.isEmpty_iff.mp empty] at counted ⊢
      simpa using List.eq_nil_of_length_eq_zero counted.symm
    · rfl
  refine ⟨rfl, settings, ?_, tokens, .inr ⟨counted, fun i parent found => ?_⟩⟩
  · rw [show (Strategy.beam b').histories = b'.histories from rfl, same]
    simp only [histories, nextIndices, nextTokens, moved]
  · exact ⟨inside parent (List.mem_of_getElem? found), parents i parent found⟩

theorem Chosen.commits (beamed : before.Beamed) (chosen : Chosen before after) :
    before.Commits after := by
  cases chosen with
  | greedy committed =>
    obtain ⟨-, -, -, _, _, -, counted, rfl⟩ := Greedy.commit_appends committed
    exact ⟨rfl, rfl, rfl, (List.length_map _).trans counted, .inl rfl⟩
  | beam stepped => exact commits_of_beam beamed stepped
  | speculative committed =>
    obtain ⟨-, -, -, _, _, -, counted, rfl⟩ := Greedy.commit_appends committed
    exact ⟨rfl, rfl, rfl, (List.length_map _).trans counted, .inl rfl⟩

end Strategy

end StagedDecoding
