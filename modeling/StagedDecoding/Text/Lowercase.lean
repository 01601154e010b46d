import StagedDecoding.Text.CaseTable

/-! Text in lower case.

Each character has its own lower-case form, with two exceptions. A dotted capital I becomes two
characters. A capital sigma becomes a final one at the end of a word: after a character with case
and before none, where some characters are passed over on either side.
-/

set_option autoImplicit false

namespace StagedDecoding.Text

def inRanges (ranges : List (Nat × Nat)) (c : Char) : Bool :=
  ranges.any fun range => range.1 ≤ c.toNat && c.toNat ≤ range.2

def CaseRange.covers (range : CaseRange) (c : Char) : Bool :=
  range.first ≤ c.toNat && c.toNat ≤ range.last && (c.toNat - range.first) % range.step == 0

def lowerChar (c : Char) : Char :=
  match lowerRanges.find? (·.covers c) with
  | some range => Char.ofNat (c.toNat + range.shift).toNat
  | none => c

/-- Whether the nearest character that is not passed over has case. -/
def meetsCase (chars : List Char) : Bool :=
  match chars.dropWhile (inRanges ignorableRanges) with
  | [] => false
  | c :: _ => inRanges casedRanges c

def lowerAfter : List Char → List Char → List Char
  | _, [] => []
  | before, c :: rest =>
    let lowered :=
      if c = 'Σ' then [if meetsCase before && !meetsCase rest then 'ς' else 'σ']
      else if c = 'İ' then ['i', '\u0307']
      else [lowerChar c]
    lowered ++ lowerAfter (c :: before) rest

def lowercase (text : String) : String :=
  String.ofList (lowerAfter [] text.toList)

end StagedDecoding.Text
