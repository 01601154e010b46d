import StagedDecoding.Json.Reader
import StagedDecoding.Named

/-! Typed values from trees.

Decoders walk a tree in the order of its text and stop at the first fault, be it one of the text
or one of form. A structure may be written as a record of its fields in any order, or as a list of
them in their declared order.
-/

set_option autoImplicit false

namespace StagedDecoding.Json

abbrev Decoder (α : Type) := Tree → Except Fault α

def wrongForm : Tree → Fault
  | .fault cause => cause
  | _ => .mistyped

namespace Decoder

def natural (bound : Nat) : Decoder Nat
  | .number (.natural n) => if n < bound then .ok n else .error .mistyped
  | tree => .error (wrongForm tree)

def word : Decoder Nat := natural 4294967296

def long : Decoder Nat := natural 18446744073709551616

def signed : Decoder Int
  | .number (.natural n) => if n < 2147483648 then .ok n else .error .mistyped
  | .number (.negative n) => if n ≤ 2147483648 then .ok (-n) else .error .mistyped
  | tree => .error (wrongForm tree)

def float : Decoder Float32
  | .number (.natural n) => .ok (UInt64.ofNat n).toFloat32
  | .number (.negative n) => .ok (Int64.ofInt (-n)).toFloat32
  | .number (.real x) => .ok x.toFloat32
  | tree => .error (wrongForm tree)

def boolean : Decoder Bool
  | .boolean value => .ok value
  | tree => .error (wrongForm tree)

def text : Decoder String
  | .text value => .ok value
  | tree => .error (wrongForm tree)

def optional {α : Type} (decode : Decoder α) : Decoder (Option α)
  | .null => .ok none
  | tree => some <$> decode tree

def elements {α : Type} (decode : Decoder α) : Elements → Except Fault (List α)
  | .done => .ok []
  | .fault cause => .error cause
  | .more value rest => do
    let first ← decode value
    return first :: (← elements decode rest)

def list {α : Type} (decode : Decoder α) : Decoder (List α)
  | .list values => elements decode values
  | tree => .error (wrongForm tree)

def members {α : Type} (decode : Decoder α) : Members → Except Fault (List (String × α))
  | .done => .ok []
  | .fault cause => .error cause
  | .more key value rest => do
    let first ← decode value
    return (key, first) :: (← members decode rest)

/-- A record with values of one type. Of equal keys the last one counts. -/
def dictionary {α : Type} (decode : Decoder α) : Decoder (Named α)
  | .record entries => Named.ofPairs <$> members decode entries
  | tree => .error (wrongForm tree)

/-- A list of records with one key each, as pairs. All records are read before any is judged. -/
def pairs {α : Type} (decode : Decoder α) : Decoder (List (String × α)) := fun tree => do
  let entries ← list (dictionary decode) tree
  entries.mapM fun entry =>
    match entry with
    | [pair] => .ok pair
    | _ => .error .mistyped

/-- One token, or a list of tokens. The whole value is read before its form is judged. -/
def tokens : Decoder (List Nat) := fun tree =>
  match tree.firstFault with
  | some cause => .error cause
  | none =>
    match tree with
    | .number _ => (fun n => [n]) <$> word tree
    | _ => list word tree

end Decoder

structure FieldDecoder (σ : Type) where
  name : String
  enter : Tree → σ → Except Fault σ

def FieldDecoder.of {σ α : Type} (name : String) (decode : Decoder α) (put : α → σ → σ) :
    FieldDecoder σ :=
  ⟨name, fun tree state => (put · state) <$> decode tree⟩

namespace Decoder

def fieldsOfRecord {σ : Type} (fields : List (FieldDecoder σ)) :
    List String → Members → σ → Except Fault σ
  | _, .done, state => .ok state
  | _, .fault cause, _ => .error cause
  | seen, .more key value rest, state =>
    match fields.find? (·.name == key) with
    | none => .error .mistyped
    | some field => do
      if seen.contains key then throw .mistyped
      fieldsOfRecord fields (key :: seen) rest (← field.enter value state)

/-- The fields of a list, in declared order; the last ones may be left out. A list that goes on
after the last field is not well formed. -/
def fieldsOfList {σ : Type} : List (FieldDecoder σ) → Elements → σ → Except Fault σ
  | _, .done, state => .ok state
  | _, .fault cause, _ => .error cause
  | [], .more _ _, _ => .error .malformed
  | field :: fields, .more value rest, state => do
    fieldsOfList fields rest (← field.enter value state)

def structured {σ : Type} (fields : List (FieldDecoder σ)) (initial : σ) : Decoder σ
  | .record entries => fieldsOfRecord fields [] entries initial
  | .list values => fieldsOfList fields values initial
  | tree => .error (wrongForm tree)

end Decoder

def decodeText {α : Type} (decode : Decoder α) (text : String) : Except Fault α := do
  let (tree, rest) := read text
  let value ← decode tree
  if (skipBlanks (rest.getD [])).isEmpty then return value
  throw .malformed

end StagedDecoding.Json
