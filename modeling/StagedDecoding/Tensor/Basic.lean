import StagedDecoding.Tensor.Element

/-! Dense tensors with a storage layout.

Elements are listed in row-major order of the shape, whatever the storage looks like. The strides
tell how far apart neighbours along an axis lie in storage; they matter only to operations that
refuse storage with gaps.
-/

set_option autoImplicit false

namespace StagedDecoding

inductive TensorFault where
  | elementCount
  | axis
  | rank
  | range
  | index
  | mismatch
  | gaps
  deriving DecidableEq, Repr

structure Tensor where
  type : ElementType
  shape : List Nat
  strides : List Nat
  values : List Scalar
  deriving Repr

namespace Tensor

def volume (shape : List Nat) : Nat :=
  shape.foldr (· * ·) 1

def packedStrides : List Nat → List Nat
  | [] => []
  | _ :: rest => volume rest :: packedStrides rest

def blocks {α : Type} (size : Nat) : Nat → List α → List (List α)
  | 0, _ => []
  | count + 1, values => values.take size :: blocks size count (values.drop size)

/-- A packed tensor; nothing is checked. -/
def packed (type : ElementType) (shape : List Nat) (values : List Scalar) : Tensor :=
  ⟨type, shape, packedStrides shape, values⟩

def ofValues (type : ElementType) (shape : List Nat) (values : List Scalar) :
    Except TensorFault Tensor :=
  if values.length = volume shape then .ok (packed type shape values) else .error .elementCount

def filled (type : ElementType) (shape : List Nat) (value : Scalar) : Tensor :=
  packed type shape (List.replicate (volume shape) value)

def ofRows (width : Nat) (rows : List (List Nat)) : Tensor :=
  packed .i64 [rows.length, width] (rows.flatten.map fun (n : Nat) => .whole n)

def rank (t : Tensor) : Nat := t.shape.length

def extent (t : Tensor) (axis : Nat) : Except TensorFault Nat :=
  match t.shape[axis]? with
  | some n => .ok n
  | none => .error .axis

/-- Whether storage lists the elements without gaps; axes of extent one have no say. -/
def isPacked (t : Tensor) : Bool :=
  ((t.shape.zip t.strides).foldr
    (fun axis (ok, step) => (ok && (axis.1 ≤ 1 || axis.2 == step), step * axis.1)) (true, 1)).1

/-- The same elements under another type. A conversion writes fresh storage. -/
def convert (type : ElementType) (t : Tensor) : Tensor :=
  if t.type = type then t else packed type t.shape (t.values.map (Scalar.convert type))

def floats (t : Tensor) : List Float32 :=
  t.values.map Scalar.toFloat

/-- The part of a tensor from `start`, `length` long, along one axis. It shares the storage. -/
def narrow (axis start length : Nat) (t : Tensor) : Except TensorFault Tensor := do
  let extent ← t.extent axis
  if extent < start + length then throw .range
  if start = 0 && extent = length then return t
  let outer := volume (t.shape.take axis)
  let inner := volume (t.shape.drop (axis + 1))
  let kept := (blocks (extent * inner) outer t.values).flatMap fun block =>
    (block.drop (start * inner)).take (length * inner)
  return { t with shape := t.shape.set axis length, values := kept }

/-- The rows of the first axis named by `indices`, in that order. The storage must be packed. -/
def selectRows (indices : List Nat) (t : Tensor) : Except TensorFault Tensor :=
  match t.shape with
  | [] => .error .axis
  | extent :: rest =>
    if t.isPacked then do
      let rows := (blocks (volume rest) extent t.values).toArray
      let chosen ← indices.mapM fun i =>
        match rows[i]? with
        | some row => .ok row
        | none => .error .index
      return packed t.type (indices.length :: rest) chosen.flatten
    else .error .gaps

def exchangeFirst (axis : Nat) (extents : List Nat) : List Nat :=
  (extents.set 0 (extents.getD axis 0)).set axis (extents.getD 0 0)

/-- Join two tensors along an axis. Storage with gaps is joined with that axis moved to the
front, which shows in the strides of the result. -/
def join (axis : Nat) (first second : Tensor) : Except TensorFault Tensor := do
  let firstExtent ← first.extent axis
  let secondExtent ← second.extent axis
  if first.rank ≠ second.rank then throw .rank
  if first.shape.set axis 0 ≠ second.shape.set axis 0 then throw .mismatch
  if first.type ≠ second.type then throw .mismatch
  let outer := volume (first.shape.take axis)
  let inner := volume (first.shape.drop (axis + 1))
  let values := (List.zipWith (· ++ ·)
    (blocks (firstExtent * inner) outer first.values)
    (blocks (secondExtent * inner) outer second.values)).flatten
  let shape := first.shape.set axis (firstExtent + secondExtent)
  let strides :=
    if axis = 0 || (first.isPacked && second.isPacked) then packedStrides shape
    else exchangeFirst axis (packedStrides (exchangeFirst axis shape))
  return ⟨first.type, shape, strides, values⟩

end Tensor

end StagedDecoding
