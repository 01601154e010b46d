import Mathlib.Data.List.Induction
import StagedDecoding.Proofs.Predictions
import StagedDecoding.Proofs.Wiring

/-! A model that recites its histories.

It has one stage and writes every token it is fed into its cache. From there it reads the histories
back, and scores every position by a given function of the history. Whatever that function is, the
model appends only and is causal.
-/

set_option autoImplicit false

namespace StagedDecoding.Recital

def decoder : DecoderConfig :=
  { DecoderConfig.standard with
    cacheHeads := 1
    headSize := 1
    layers := 1
    stages := [{ StageConfig.named "recital" with
      inputs := ["input_ids", "attention_mask", "position_ids", "past_key_values.0.key",
        "past_key_values.0.value"]
      outputs := ["logits", "present.0.key", "present.0.value"] }] }

def config : Config where
  model := {
    family := "decoder-pipeline"
    vocabulary := 4
    context := 6
    pad := 0
    endTokens := [3]
    beginning := none
    decoder := decoder }
  search := .standard

/-- A cache entry is the token that it is written for. -/
def ledger : Ledger := fun _ _ history cell => cell = [.whole (history.getLastD 0 : Nat)]

def written (history : List Token) : List Scalar :=
  history.map fun (token : Nat) => .whole token

def recorded (histories : List (List Token)) : Tensor :=
  .packed .f32 [histories.length, 1, Positions.width histories, 1] (histories.map written).flatten

def rows (tensor : Tensor) : List (List Token) :=
  match tensor.shape with
  | [] => []
  | count :: rest =>
    Tensor.blocks (Tensor.volume rest) count (tensor.values.map fun value => value.toInt.toNat)

def rowsOf (name : String) (inputs : Named Tensor) : List (List Token) :=
  ((inputs.get? name).map rows).getD []

def scored (next : List Token → Scores) (view : View) : Tensor :=
  let width := Positions.width view.fed
  .packed .f32 [(view.scores next width).length, width, (next []).length]
    (((view.scores next width).map List.flatten).flatten.map .real)

def answer (next : List Token → Scores) (inputs : Named Tensor) (name : String) : Tensor :=
  let fed := rowsOf "input_ids" inputs
  if name = "logits" then scored next ⟨rowsOf "past_key_values.0.key" inputs, fed⟩
  else
    let past := if name = "present.0.key" then "past_key_values.0.key" else "past_key_values.0.value"
    recorded (View.seen ⟨rowsOf past inputs, fed⟩)

def run (next : List Token → Scores) : Model Unit := fun invocation state =>
  (.ok (invocation.outputs.map fun name => (name, answer next invocation.inputs name)), state)

theorem layerNames_eq : decoder.layerNames =
    [("past_key_values.0.key", "present.0.key"),
      ("past_key_values.0.value", "present.0.value")] := by
  decide +kernel

theorem complete : decoder.Complete := by
  unfold DecoderConfig.Complete
  rw [layerNames_eq]
  decide

theorem lane_iff {name : String} {head : Nat} {history : List Token} {scalars : List Scalar} :
    Lane (ledger name head) 1 history scalars ↔ scalars = written history := by
  constructor
  · intro lane
    induction lane with
    | empty => rfl
    | @extend history token scalars cell _ _ entry ih =>
      have entry : cell = [.whole ((history ++ [token]).getLastD 0 : Nat)] := entry
      rw [ih, entry]
      simp [written]
  · rintro rfl
    induction history using List.reverseRecOn with
    | nil => exact .empty
    | append_singleton history token ih =>
      have whole : written (history ++ [token]) = written history ++ [.whole (token : Nat)] := by
        simp [written]
      rw [whole]
      exact ih.extend rfl (by simp [ledger])

theorem records_iff {name : String} {histories : List (List Token)} {tensor : Tensor} :
    Records (ledger name) 1 1 histories tensor ↔
      (∃ width, (∀ history ∈ histories, history.length = width) ∧
        tensor.shape = [histories.length, 1, width, 1]) ∧
      tensor.values = (histories.map written).flatten := by
  have lanes : ∀ history lanes, RowLanes (ledger name) 1 1 history lanes ↔
      lanes = [written history] := by
    intro history lanes
    simp [RowLanes, List.forall₂_cons_left_iff, lane_iff]
  have single : (histories.map fun history => [written history]).flatten = histories.map written := by
    rw [← List.flatMap_def, List.map_eq_flatMap]
  constructor
  · rintro ⟨shape, own, each, values⟩
    have same : own = histories.map fun history => [written history] := by
      rw [← List.forall₂_eq_eq_eq, List.forall₂_map_right_iff]
      exact each.flip.imp fun _ _ there => (lanes _ _).mp there
    refine ⟨shape, ?_⟩
    rw [values, same, single]
  · rintro ⟨shape, values⟩
    refine ⟨shape, histories.map fun history => [written history], ?_, ?_⟩
    · rw [List.forall₂_map_right_iff, List.forall₂_same]
      exact fun history _ => (lanes _ _).mpr rfl
    · rw [values, single]

theorem rows_of_records (name : String) {histories : List (List Token)} {tensor : Tensor}
    (records : Records (ledger name) 1 1 histories tensor) : rows tensor = histories := by
  obtain ⟨⟨width, long, shape⟩, values⟩ := records_iff.mp records
  have back : tensor.values.map (fun value => value.toInt.toNat) = histories.flatten := by
    rw [values, List.map_flatten, List.map_map]
    congr 1
    refine (List.map_congr_left fun history _ => ?_).trans (List.map_id' histories)
    simp [written, Scalar.toInt, Function.comp_def]
  have volume : Tensor.volume [1, width, 1] = width := by simp [Tensor.volume]
  simp only [rows, shape, volume]
  rw [back, Tensor.blocks_flatten long]

theorem rows_matrix {count width : Nat} {histories : List (List Token)}
    (rectangular : Rectangular count width histories) :
    rows (Reading.matrix histories) = histories := by
  have back : (histories.flatten.map fun (n : Nat) => Scalar.whole n).map
      (fun value => value.toInt.toNat) = histories.flatten := by
    simp [Scalar.toInt, Function.comp_def]
  have long : ∀ history ∈ histories, history.length = Positions.width histories :=
    fun history member => (rectangular.width history member).trans
      (rectangular.width_eq member).symm
  simp only [rows, Reading.matrix, Tensor.ofRows, Tensor.packed, Tensor.volume, List.foldr_cons,
    List.foldr_nil, Nat.mul_one]
  rw [back, Tensor.blocks_flatten long]

theorem recorded_records (name : String) {count width : Nat} {histories : List (List Token)}
    (rectangular : Rectangular count width histories) :
    Records (ledger name) 1 1 histories (recorded histories) := by
  exact records_iff.mpr ⟨⟨Positions.width histories, fun history member =>
    (rectangular.width history member).trans (rectangular.width_eq member).symm, rfl⟩, rfl⟩

variable {next : List Token → Scores} {size count old new : Nat} {view : View}

theorem scored_predicts (even : ∀ history, (next history).length = size) (some : 0 < count)
    (sized : view.Sized count old new) (feeds : 0 < new) :
    Predicts next new view (scored next view).shape (scored next view).floats := by
  have width : Positions.width view.fed = new := by
    obtain ⟨fed, member⟩ := List.exists_mem_of_length_pos (sized.fed.count ▸ some)
    exact sized.fed.width_eq member
  have wide : ∀ row ∈ view.scores next new, ∀ own ∈ row, own.length = size := by
    intro row member own inside
    obtain ⟨i, bound, rfl⟩ := List.mem_iff_getElem.mp member
    simp only [View.scores, List.getElem_zipWith, rowScores, List.mem_map] at inside
    obtain ⟨_, -, rfl⟩ := inside
    exact even _
  refine ⟨feeds, fun fed member => Nat.le_of_eq (sized.fed.width fed member).symm, size, wide,
    .inl ?_, ?_⟩
  · simp only [scored, width, Tensor.packed, even]
  · simp [scored, width, Tensor.packed, Tensor.floats, Scalar.toFloat, Function.comp_def]

variable {invocation : Invocation} {state after : Unit} {outputs inputs : Named Tensor}

theorem run_gives (ran : run next invocation state = (.ok outputs, after)) {name : String}
    {tensor : Tensor} (found : outputs.get? name = some tensor) :
    tensor = answer next invocation.inputs name := by
  obtain ⟨same, -⟩ := Prod.mk.inj ran
  obtain rfl := Except.ok.inj same
  obtain ⟨_, -, same⟩ := List.mem_map.mp (Named.mem_of_get? found)
  obtain ⟨rfl, rfl⟩ := Prod.mk.inj same
  rfl

theorem answer_present {past : Tensor} (sized : view.Sized count old new)
    (ids : inputs.get? decoder.inputs.inputIds = some (Reading.matrix view.fed))
    {names : String × String} (layer : names ∈ decoder.layerNames)
    (bound : inputs.get? names.1 = some past)
    (records : Records (ledger names.1) 1 1 view.past past) :
    answer next inputs names.2 = recorded view.seen := by
  have ids : inputs.get? "input_ids" = some (Reading.matrix view.fed) := ids
  have back := rows_of_records names.1 records
  rw [layerNames_eq] at layer
  simp only [List.mem_cons, List.not_mem_nil, or_false] at layer
  rcases layer with rfl | rfl
  · simp [answer, rowsOf, ids, bound, back, rows_matrix sized.fed]
  · simp [answer, rowsOf, ids, bound, back, rows_matrix sized.fed]

theorem answer_scores {past : Tensor} (sized : view.Sized count old new)
    (ids : inputs.get? decoder.inputs.inputIds = some (Reading.matrix view.fed))
    (bound : inputs.get? "past_key_values.0.key" = some past) (back : rows past = view.past) :
    answer next inputs "logits" = scored next view := by
  have ids : inputs.get? "input_ids" = some (Reading.matrix view.fed) := ids
  simp [answer, rowsOf, ids, bound, back, rows_matrix sized.fed]

theorem run_appendOnly : (run next).AppendOnly decoder ledger := by
  intro invocation state outputs after answered view count old new sized _ ids names layer _ past
    present bound given records
  rw [run_gives answered given, answer_present sized ids layer bound records]
  exact recorded_records names.1 sized.seen

/-- The reading of the model: its ledger, and scores at every position that is fed. -/
def reading (next : List Token → Scores) (request : Request) : Reading where
  decoder := decoder
  request := request
  ledger := ledger
  carried := fun _ _ _ => True
  scored := fun view shape floats => ∃ kept, (∀ fed ∈ view.fed, fed.length = kept) ∧
    Predicts next kept view shape floats

theorem run_honours {request : Request} (even : ∀ history, (next history).length = size)
    (some : 0 < request.rowCount) : (reading next request).Honours (run next) := by
  intro view old new sized feeds stage invocation presents state outputs after answered
  obtain ⟨member, runs, -, -, shows⟩ := presents
  obtain ⟨declared, cached⟩ := complete stage member runs
  have cache : decoder.cacheNames = decoder.layerNames := complete.cacheNames_eq member runs
  have ids := shows.ids (declared _ (by simp [reading, InputNames.placed]))
  refine ⟨fun _ tensor found => ?_, fun names inside _ _ free tensor found => ?_,
    fun _ _ _ _ _ _ => trivial⟩
  · -- the rows that came before are read back from the first layer
    have first : ("past_key_values.0.key", "present.0.key") ∈ decoder.layerNames := by
      simp [layerNames_eq]
    have free : "past_key_values.0.key" ∉ decoder.inputs.placed := by decide
    obtain ⟨past, bound, records⟩ := shows.pasts _ (cache ▸ first) (cached _ first).1 free
    have scores : tensor = answer next invocation.inputs "logits" := run_gives answered found
    have back : rows past = view.past := rows_of_records "past_key_values.0.key" records
    rw [scores, answer_scores sized ids bound back]
    exact ⟨new, sized.fed.width, scored_predicts even some sized feeds⟩
  · have layer : names ∈ decoder.layerNames := cache ▸ inside
    obtain ⟨past, bound, records⟩ := shows.pasts names inside (cached names layer).1 free
    rw [run_gives answered found, answer_present sized ids layer bound records]
    exact recorded_records names.1 sized.seen

theorem run_causal {request : Request} {everyPosition : Bool}
    (even : ∀ history, (next history).length = size) (some : 0 < request.rowCount) :
    (run next).Causal decoder request next everyPosition :=
  ⟨reading next request, rfl, rfl, fun _ _ _ ⟨kept, every, predicts⟩ =>
    ⟨kept, fun _ => every, predicts⟩, run_honours even some⟩

def counting (history : List Token) : Scores :=
  (List.range 4).map fun token => if token = history.getLastD 0 + 1 then 1 else 0

theorem counting_length (history : List Token) : (counting history).length = 4 := by
  simp [counting]

end StagedDecoding.Recital
