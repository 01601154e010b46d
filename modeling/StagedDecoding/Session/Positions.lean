import StagedDecoding.Failure
import StagedDecoding.Scores.Basic

/-! Position ids and attention mask of left-padded rows.

Pad tokens of the prompt have position zero and mask zero. Every other token has mask one, and its
position is the number of such tokens before it in its row.
-/

set_option autoImplicit false

namespace StagedDecoding

structure Positions where
  /-- The positions of the tokens fed last, by row. -/
  ids : List (List Nat)
  /-- The mask of all tokens, by row. -/
  mask : List (List Nat)
  /-- The position of the next token of every row. -/
  next : List Nat
  deriving DecidableEq, Repr

namespace Positions

def count (pad : Token) : Nat → List Token → List Nat × Nat
  | position, [] => ([], position)
  | position, token :: rest =>
    if token = pad then
      let (ids, final) := count pad position rest
      (0 :: ids, final)
    else
      let (ids, final) := count pad (position + 1) rest
      (position :: ids, final)

def maskOf (pad : Token) (row : List Token) : List Nat :=
  row.map fun token => if token = pad then 0 else 1

def ofPrompt (tokens : List Token) (rows : Nat) (pad : Token) : Except Failure Positions :=
  if rows = 0 || tokens.isEmpty || tokens.length % rows ≠ 0 then
    .error (.shape (.promptMultiple rows) (.count tokens.length))
  else
    let prompt := Tensor.blocks (tokens.length / rows) rows tokens
    let counted := prompt.map (count pad 0)
    .ok ⟨counted.map Prod.fst, prompt.map (maskOf pad), counted.map Prod.snd⟩

def width (rows : List (List Nat)) : Nat :=
  (rows.headD []).length

def idsTensor (p : Positions) : Tensor := .ofRows (width p.ids) p.ids

def maskTensor (p : Positions) : Tensor := .ofRows (width p.mask) p.mask

/-- Advance by some tokens per row. Positions move on before the width of the mask is compared
with the wanted length; the mask grows only if they agree. -/
def update (newTokens length : Nat) : Step Positions Unit := do
  modify fun p => { p with
    ids := p.next.map fun start => (List.range newTokens).map (start + ·)
    next := p.next.map (· + newTokens) }
  let p ← get
  let grown := width p.mask + newTokens
  if grown ≠ length then throw (.shape (.maskWidth length) (.count grown))
  set { p with mask := p.mask.map (· ++ List.replicate newTokens 1) }

def least : List Nat → Nat
  | [] => 0
  | first :: rest => rest.foldl min first

/-- Forget the last positions of every row. No row can go below zero real tokens. -/
def rollback (count : Nat) : Step Positions Unit :=
  .attempt fun p =>
    let width := width p.mask
    if width < count || least p.next < count then
      .error (.rollback count (min width (least p.next)))
    else .ok { p with
      mask := p.mask.map (·.take (width - count))
      next := p.next.map (· - count) }

end Positions

end StagedDecoding
