import StagedDecoding.Json.Number

/-! From text to trees, left to right up to the first fault. -/

set_option autoImplicit false

namespace StagedDecoding.Json

def isBlank (c : Char) : Bool :=
  c == ' ' || c == '\n' || c == '\t' || c == '\r'

def skipBlanks (chars : List Char) : List Char :=
  chars.dropWhile isBlank

def scanName : List Char → List Char → Except Fault (Scanned Unit)
  | [], chars => .ok ((), chars)
  | _ :: _, [] => .error .truncated
  | expected :: name, c :: chars =>
    if c = expected then scanName name chars else .error .malformed

def hexDigit? (c : Char) : Option Nat :=
  if '0' ≤ c && c ≤ '9' then some (c.toNat - '0'.toNat)
  else if 'a' ≤ c && c ≤ 'f' then some (c.toNat - 'a'.toNat + 10)
  else if 'A' ≤ c && c ≤ 'F' then some (c.toNat - 'A'.toNat + 10)
  else none

def byteCount (chars : List Char) : Nat :=
  chars.foldr (fun c bytes => c.utf8Size + bytes) 0

/-- Four hexadecimal digits. With fewer than four bytes left the text ends too early. -/
def scanHex (chars : List Char) : Except Fault (Scanned Nat) :=
  match chars with
  | a :: b :: c :: d :: rest =>
    match hexDigit? a, hexDigit? b, hexDigit? c, hexDigit? d with
    | some a, some b, some c, some d => .ok (((a * 16 + b) * 16 + c) * 16 + d, rest)
    | _, _, _, _ => .error .malformed
  | _ => .error (if byteCount chars < 4 then .truncated else .malformed)

/-- A character given by its code. A code of the upper surrogate range needs a partner. -/
def scanCode (chars : List Char) : Except Fault (Scanned Char) := do
  let (code, rest) ← scanHex chars
  if 0xDC00 ≤ code && code ≤ 0xDFFF then throw .malformed
  if code < 0xD800 || 0xDBFF < code then return (Char.ofNat code, rest)
  match rest with
  | '\\' :: 'u' :: rest =>
    let (low, rest) ← scanHex rest
    if low < 0xDC00 || 0xDFFF < low then throw .malformed
    return (Char.ofNat (0x10000 + (code - 0xD800) * 0x400 + (low - 0xDC00)), rest)
  | [] | ['\\'] => throw .truncated
  | _ => throw .malformed

def scanEscape (chars : List Char) : Except Fault (Scanned Char) :=
  match chars with
  | [] => .error .truncated
  | 'u' :: rest => scanCode rest
  | '"' :: rest => .ok ('"', rest)
  | '\\' :: rest => .ok ('\\', rest)
  | '/' :: rest => .ok ('/', rest)
  | 'b' :: rest => .ok ('\x08', rest)
  | 'f' :: rest => .ok ('\x0c', rest)
  | 'n' :: rest => .ok ('\n', rest)
  | 'r' :: rest => .ok ('\r', rest)
  | 't' :: rest => .ok ('\t', rest)
  | _ => .error .malformed

def scanCharacters : Nat → List Char → Except Fault (Scanned (List Char))
  | 0, _ => .error .truncated
  | _ + 1, [] => .error .truncated
  | _ + 1, '"' :: rest => .ok ([], rest)
  | fuel + 1, '\\' :: rest => do
    let (c, rest) ← scanEscape rest
    let (cs, rest) ← scanCharacters fuel rest
    return (c :: cs, rest)
  | fuel + 1, c :: rest => do
    if c < ' ' then throw .malformed
    let (cs, rest) ← scanCharacters fuel rest
    return (c :: cs, rest)

def scanString (chars : List Char) : Except Fault (Scanned String) := do
  let (cs, rest) ← scanCharacters (chars.length + 1) chars
  return (String.ofList cs, rest)

/-- Lists and records may be nested one level less deep than this. -/
def depthLimit : Nat := 128

/-- A tree and the text after it; no text is left after a fault. -/
abbrev Partial (α : Type) := α × Option (List Char)

def leaf {α : Type} (make : α → Tree) : Except Fault (Scanned α) → Partial Tree
  | .ok (value, rest) => (make value, some rest)
  | .error cause => (.fault cause, none)

mutual

/-- A value at a depth. Each call looks at one character at least, so the length of the text bounds
their number. -/
def readValue : Nat → Nat → List Char → Partial Tree
  | 0, _, _ => (.fault .malformed, none)
  | fuel + 1, depth, chars =>
    match skipBlanks chars with
    | [] => (.fault .truncated, none)
    | 'n' :: rest => leaf (fun _ => .null) (scanName ['u', 'l', 'l'] rest)
    | 't' :: rest => leaf (fun _ => .boolean true) (scanName ['r', 'u', 'e'] rest)
    | 'f' :: rest => leaf (fun _ => .boolean false) (scanName ['a', 'l', 's', 'e'] rest)
    | '"' :: rest => leaf .text (scanString rest)
    | '-' :: rest => leaf .number (scanNumber true rest)
    | '[' :: rest =>
      if depthLimit ≤ depth + 1 then (.fault .malformed, none)
      else
        let (elements, rest) := readElements fuel (depth + 1) true rest
        (.list elements, rest)
    | '{' :: rest =>
      if depthLimit ≤ depth + 1 then (.fault .malformed, none)
      else
        let (members, rest) := readMembers fuel (depth + 1) true rest
        (.record members, rest)
    | c :: rest =>
      if (digit? c).isSome then leaf .number (scanNumber false (c :: rest))
      else (.fault .malformed, none)

def readElements : Nat → Nat → Bool → List Char → Partial Elements
  | 0, _, _, _ => (.fault .malformed, none)
  | fuel + 1, depth, first, chars =>
    let element (chars : List Char) : Partial Elements :=
      match readValue fuel depth chars with
      | (value, none) => (.more value .done, none)
      | (value, some rest) =>
        let (elements, rest) := readElements fuel depth false rest
        (.more value elements, rest)
    match skipBlanks chars with
    | [] => (.fault .truncated, none)
    | ']' :: rest => (.done, some rest)
    | c :: rest =>
      if first then element (c :: rest)
      else if c = ',' then element rest
      else (.fault .malformed, none)

def readMembers : Nat → Nat → Bool → List Char → Partial Members
  | 0, _, _, _ => (.fault .malformed, none)
  | fuel + 1, depth, first, chars =>
    let member (chars : List Char) : Partial Members :=
      match chars with
      | [] => (.fault .truncated, none)
      | '"' :: rest =>
        match scanString rest with
        | .error cause => (.fault cause, none)
        | .ok (key, rest) =>
          match skipBlanks rest with
          | [] => (.more key (.fault .truncated) .done, none)
          | ':' :: rest =>
            match readValue fuel depth rest with
            | (value, none) => (.more key value .done, none)
            | (value, some rest) =>
              let (members, rest) := readMembers fuel depth false rest
              (.more key value members, rest)
          | _ => (.more key (.fault .malformed) .done, none)
      | _ => (.fault .malformed, none)
    match skipBlanks chars with
    | [] => (.fault .truncated, none)
    | '}' :: rest => (.done, some rest)
    | c :: rest =>
      if first then member (c :: rest)
      else if c = ',' then member (skipBlanks rest)
      else (.fault .malformed, none)

end

def read (text : String) : Partial Tree :=
  let chars := text.toList
  readValue (2 * chars.length + 2) 0 chars

end StagedDecoding.Json
