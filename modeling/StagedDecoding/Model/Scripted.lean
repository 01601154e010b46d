import StagedDecoding.Model.Basic
import StagedDecoding.Scores.Basic

/-! A model that follows a script.

Every stage gives exactly what it is asked for. Scores come from the next entry of the script, or
are all zero. A present is the past of the same name, longer by the fed positions, which hold the
number of their row, so that moved rows can be told apart. Anything else is all zero. The model
keeps a record of its invocations and can be told to fail at a stage.
-/

set_option autoImplicit false

namespace StagedDecoding

inductive ScriptEntry where
  /-- Scores as they are. -/
  | scores (tensor : Tensor)
  /-- One token per row, predicted at every position. -/
  | rows (tokens : List Token)
  /-- One token per position; the last one repeats. -/
  | positions (tokens : List Token)
  deriving Repr

structure StageCall where
  stage : String
  /-- The names of its inputs, sorted. -/
  inputs : List String
  outputs : List String
  inputIds : Option (List (List Int))
  /-- The number of positions in the first past, if that is bound. -/
  pastLength : Option Nat
  deriving DecidableEq, Repr

structure ScriptedModel where
  vocabulary : Nat
  /-- The shape of a present without a past. -/
  cacheHeads : Nat
  headSize : Nat
  script : List ScriptEntry
  calls : List StageCall
  failing : Option String
  deriving Repr

namespace ScriptedModel

def start (vocabulary : Nat) : ScriptedModel := ⟨vocabulary, 1, 1, [], [], none⟩

def push (entry : ScriptEntry) (m : ScriptedModel) : ScriptedModel :=
  { m with script := m.script ++ [entry] }

def failAt (stage : String) (m : ScriptedModel) : ScriptedModel :=
  { m with failing := some stage }

def hiddenSize : Nat := 8

def hotScore : Float32 := 10

def predicted (vocabulary rows positions : Nat) (token : Nat → Nat → Option Token) : Tensor :=
  let values := (List.range rows).flatMap fun row =>
    (List.range positions).flatMap fun position =>
      (List.range vocabulary).map fun candidate =>
        if token row position = some candidate then Scalar.real hotScore else Scalar.real 0
  .packed .f32 [rows, positions, vocabulary] values

def scores (m : ScriptedModel) (entry : Option ScriptEntry) (rows positions : Nat) : Tensor :=
  match entry with
  | some (.scores tensor) => tensor
  | some (.rows tokens) =>
    predicted m.vocabulary rows positions fun row _ => tokens[row % tokens.length]?
  | some (.positions tokens) =>
    predicted m.vocabulary rows positions fun _ position =>
      tokens[min position (tokens.length - 1)]?
  | none => predicted m.vocabulary rows positions fun _ _ => none

def present (m : ScriptedModel) (past : Option Tensor) (rows positions : Nat) :
    Except TensorFault Tensor := do
  let (heads, size, type) ← match past with
    | none => pure (m.cacheHeads, m.headSize, ElementType.f32)
    | some tensor =>
      match tensor.shape with
      | [_, heads, _, size] => pure (heads, size, tensor.type)
      | _ => throw .rank
  let values := (List.range rows).flatMap fun row =>
    List.replicate (heads * positions * size) (Scalar.real (UInt64.ofNat row).toFloat32)
  let fed := (Tensor.packed .f32 [rows, heads, positions, size] values).convert type
  match past with
  | none => return fed
  | some tensor => tensor.join 2 fed

/-- Rows and positions of the batch, from the token ids or their embeddings, else the rows of some
input. -/
def batchShape (inputs : Named Tensor) : Except TensorFault (Nat × Nat) :=
  match inputs.get? "input_ids", inputs.get? "inputs_embeds" with
  | some ids, _ =>
    match ids.shape with
    | [rows, positions] => .ok (rows, positions)
    | _ => .error .rank
  | none, some embeddings =>
    match embeddings.shape with
    | [rows, positions, _] => .ok (rows, positions)
    | _ => .error .rank
  | none, none =>
    match inputs with
    | (_, tensor) :: _ => .ok (tensor.shape.headD 1, 1)
    | [] => .ok (1, 1)

def integerRows (tensor : Tensor) : Except TensorFault (List (List Int)) :=
  match tensor.shape with
  | [rows, columns] =>
    .ok (Tensor.blocks columns rows (tensor.values.map Scalar.toInt))
  | _ => .error .rank

def record (invocation : Invocation) : Except TensorFault StageCall := do
  let ids ← (invocation.inputs.get? "input_ids").mapM integerRows
  let past ← (invocation.inputs.get? "past_key_values.0.key").mapM (·.extent 2)
  return {
    stage := invocation.stage
    inputs := invocation.inputs.names.mergeSort fun a b => !(b < a)
    outputs := invocation.outputs
    inputIds := ids
    pastLength := past }

/-- The tensors for some wanted outputs. A script entry serves the first request for scores. -/
def produce (m : ScriptedModel) (inputs : Named Tensor) (rows positions : Nat) :
    Option ScriptEntry → List String → Named Tensor → Except TensorFault (Named Tensor)
  | _, [], outputs => .ok outputs
  | entry, name :: rest, outputs => do
    if name = "logits" then
      produce m inputs rows positions none rest
        (outputs.insert name (m.scores entry rows positions))
    else if name.startsWith "present." then
      let layer := String.ofList (name.toList.drop "present.".length)
      let tensor ← m.present (inputs.get? ("past_key_values." ++ layer)) rows positions
      produce m inputs rows positions entry rest (outputs.insert name tensor)
    else
      let zeros := Tensor.filled .f32 [rows, positions, hiddenSize] (.real 0)
      produce m inputs rows positions entry rest (outputs.insert name zeros)

/-- Run a stage. An invocation that cannot be recorded is refused without a trace. -/
def run : Model ScriptedModel := fun invocation m =>
  match record invocation with
  | .error fault => (.error (.tensor fault), m)
  | .ok call =>
    let m := { m with calls := m.calls ++ [call] }
    if m.failing = some invocation.stage then
      (.error (.refused (invocation.stage ++ " exploded")), m)
    else
      let wantsScores := invocation.outputs.contains "logits"
      let entry := if wantsScores then m.script.head? else none
      let m := if wantsScores then { m with script := m.script.drop 1 } else m
      let produced := do
        let (rows, positions) ← batchShape invocation.inputs
        m.produce invocation.inputs rows positions entry invocation.outputs []
      match produced with
      | .error fault => (.error (.tensor fault), m)
      | .ok outputs => (.ok outputs, m)

end ScriptedModel

end StagedDecoding
