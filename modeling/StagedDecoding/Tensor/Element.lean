/-! Elements of tensors: their types, their values, and conversion between the types. -/

set_option autoImplicit false

namespace StagedDecoding

inductive ElementType where
  | f32
  | f16
  | f64
  | i64
  | u32
  deriving DecidableEq, Repr

/-- One element. Every real element type is held widened or narrowed to binary32. -/
inductive Scalar where
  | real (x : Float32)
  | whole (n : Int)
  deriving Repr

namespace Scalar

/-- The nearest binary16 number, ties to even. Below the least normal one the grid has step
`2^-24`, which is the step of binary32 just above one half. -/
def roundHalf (x : Float32) : Float32 :=
  let size := x.abs
  if x.isNaN || x.isInf then x
  else if size < Float32.ofScientific 6103515625 true 14 then
    let rounded := (size + 0.5) - 0.5
    if x < 0 then -rounded else rounded
  else if size ≥ 65520 then
    if x < 0 then -(1 / 0) else 1 / 0
  else
    let bits : UInt32 := x.toBits
    Float32.ofBits ((bits + (0xFFF : UInt32) + ((bits >>> 13) &&& 1)) &&& 0xFFFFE000)

def toFloat : Scalar → Float32
  | .real x => x
  | .whole n => (Int64.ofInt n).toFloat32

/-- An element as a signed 64-bit integer, truncated toward zero and clamped. -/
def toInt : Scalar → Int
  | .real x => x.toInt64.toInt
  | .whole n => n

/-- An element as an unsigned 32-bit integer; reals are clamped, integers wrap. -/
def toWord : Scalar → Nat
  | .real x => x.toUInt32.toNat
  | .whole n => (n % 4294967296).toNat

def convert (type : ElementType) (value : Scalar) : Scalar :=
  match type with
  | .f32 | .f64 => .real value.toFloat
  | .f16 => .real (roundHalf value.toFloat)
  | .i64 => .whole value.toInt
  | .u32 => .whole value.toWord

end Scalar

end StagedDecoding
