import StagedDecoding.Json.Tree

/-! Reading numbers.

The digits of a number form a significand below `2^64`; digits that no longer fit are left out,
and in the integer part each of them raises the exponent. The value is the significand as a
binary64 number, multiplied or divided by a power of ten.
-/

set_option autoImplicit false

namespace StagedDecoding.Json

abbrev Scanned (α : Type) := α × List Char

def digit? (c : Char) : Option Nat :=
  if '0' ≤ c && c ≤ '9' then some (c.toNat - '0'.toNat) else none

def startsWithDigit : List Char → Bool
  | [] => false
  | c :: _ => (digit? c).isSome

/-- Take digits into a significand while it stays below a bound. The result is the significand,
how many digits it took, and the text after them. -/
def takeDigits (bound : Nat) : Nat → Nat → List Char → Nat × Nat × List Char
  | significand, taken, [] => (significand, taken, [])
  | significand, taken, c :: rest =>
    match digit? c with
    | some d =>
      if significand * 10 + d < bound then
        takeDigits bound (significand * 10 + d) (taken + 1) rest
      else (significand, taken, c :: rest)
    | none => (significand, taken, c :: rest)

def skipDigits : List Char → Nat × List Char
  | [] => (0, [])
  | c :: rest =>
    if (digit? c).isSome then
      let (skipped, rest) := skipDigits rest
      (skipped + 1, rest)
    else (0, c :: rest)

def significandBound : Nat := 18446744073709551616

/-- Exponents that need more than 31 bits are not computed. -/
def exponentBound : Nat := 2147483648

def powerOfTen (exponent : Nat) : Float :=
  Float.ofScientific 1 false exponent

/-- Divide by a power of ten, in steps that a binary64 number can hold. -/
def scaleDown (x : Float) (exponent : Nat) : Float :=
  if exponent ≤ 308 then x / powerOfTen exponent
  else if x == 0 then x
  else scaleDown (x / powerOfTen 308) (exponent - 308)
termination_by exponent

def scaleUp (x : Float) (exponent : Nat) : Except Fault Float :=
  if exponent ≤ 308 then
    let scaled := x * powerOfTen exponent
    if scaled.isInf then .error .malformed else .ok scaled
  else if x == 0 then .ok x
  else .error .malformed

def assemble (negative : Bool) (significand : Nat) (exponent : Int) : Except Fault Float := do
  let x := (UInt64.ofNat significand).toFloat
  let scaled ← match exponent with
    | .ofNat up => scaleUp x up
    | .negSucc down => pure (scaleDown x (down + 1))
  return if negative then -scaled else scaled

def scanExponent (negative : Bool) (significand : Nat) (exponent : Int) (chars : List Char) :
    Except Fault (Scanned Number) := do
  let (up, chars) := match chars with
    | '+' :: rest => (true, rest)
    | '-' :: rest => (false, rest)
    | _ => (true, chars)
  match chars with
  | [] => throw .truncated
  | c :: _ =>
    if (digit? c).isNone then throw .malformed
    let (size, _, rest) := takeDigits exponentBound 0 0 chars
    if startsWithDigit rest then
      if significand ≠ 0 && up then throw .malformed
      return (.real (if negative then -0.0 else 0.0), (skipDigits rest).2)
    else
      let exponent := if up then exponent + size else exponent - size
      return (.real (← assemble negative significand exponent), rest)

def scanFraction (negative : Bool) (significand : Nat) (exponent : Int) (chars : List Char) :
    Except Fault (Scanned Number) := do
  let (significand, taken, rest) := takeDigits significandBound significand 0 chars
  if taken = 0 && !startsWithDigit rest then
    throw (if rest.isEmpty then .truncated else .malformed)
  let exponent := exponent - taken
  match (skipDigits rest).2 with
  | 'e' :: rest | 'E' :: rest => scanExponent negative significand exponent rest
  | rest => return (.real (← assemble negative significand exponent), rest)

def scanTail (negative : Bool) (significand dropped : Nat) (chars : List Char) :
    Except Fault (Scanned Number) :=
  match chars with
  | '.' :: rest => scanFraction negative significand dropped rest
  | 'e' :: rest | 'E' :: rest => scanExponent negative significand dropped rest
  | rest => do
    if dropped = 0 && !negative then return (.natural significand, rest)
    else if dropped = 0 && significand ≠ 0 && significand ≤ 9223372036854775808 then
      return (.negative significand, rest)
    else return (.real (← assemble negative significand dropped), rest)

def scanNumber (negative : Bool) (chars : List Char) :
    Except Fault (Scanned Number) :=
  match chars with
  | [] => .error .truncated
  | '0' :: rest =>
    if startsWithDigit rest then .error .malformed else scanTail negative 0 0 rest
  | c :: _ =>
    if (digit? c).isNone then .error .malformed
    else
      let (significand, _, rest) := takeDigits significandBound 0 0 chars
      let (dropped, rest) := skipDigits rest
      scanTail negative significand dropped rest

end StagedDecoding.Json
