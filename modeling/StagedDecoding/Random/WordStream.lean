/-! A reproducible stream of 32-bit words.

A 64-bit seed is spread over a key by a linear congruential generator with a permuted output. The
key drives a ChaCha stream of twelve rounds whose blocks are numbered from zero; the words of the
stream are those of the blocks in order.
-/

set_option autoImplicit false

namespace StagedDecoding

namespace WordStream

def rotateLeft (word : UInt32) (by_ : UInt32) : UInt32 :=
  (word <<< by_) ||| (word >>> (32 - by_))

def rotateRight (word : UInt32) (by_ : UInt32) : UInt32 :=
  (word >>> by_) ||| (word <<< (32 - by_))

def advanceSeed (state : UInt64) : UInt64 :=
  state * 6364136223846793005 + 11634580027462260723

def keyWord (state : UInt64) : UInt32 :=
  rotateRight (((state >>> 18) ^^^ state) >>> 27).toUInt32 (state >>> 59).toUInt32

def keyWords : Nat → UInt64 → List UInt32
  | 0, _ => []
  | count + 1, state =>
    let next := advanceSeed state
    keyWord next :: keyWords count next

abbrev Block := Vector UInt32 16

def quarterRound (a b c d : Fin 16) (x : Block) : Block :=
  let xa := x[a] + x[b]
  let xd := rotateLeft (x[d] ^^^ xa) 16
  let xc := x[c] + xd
  let xb := rotateLeft (x[b] ^^^ xc) 12
  let xa := xa + xb
  let xd := rotateLeft (xd ^^^ xa) 8
  let xc := xc + xd
  let xb := rotateLeft (xb ^^^ xc) 7
  (((x.set a xa).set b xb).set c xc).set d xd

def doubleRound (x : Block) : Block :=
  let x := quarterRound 0 4 8 12 x
  let x := quarterRound 1 5 9 13 x
  let x := quarterRound 2 6 10 14 x
  let x := quarterRound 3 7 11 15 x
  let x := quarterRound 0 5 10 15 x
  let x := quarterRound 1 6 11 12 x
  let x := quarterRound 2 7 8 13 x
  quarterRound 3 4 9 14 x

def rounds : Nat → Block → Block
  | 0, x => x
  | n + 1, x => rounds n (doubleRound x)

def block (key : Vector UInt32 8) (number : UInt64) : Block :=
  let start : Block := #v[0x61707865, 0x3320646e, 0x79622d32, 0x6b206574,
    key[0], key[1], key[2], key[3], key[4], key[5], key[6], key[7],
    number.toUInt32, (number >>> 32).toUInt32, 0, 0]
  start.zipWith (· + ·) (rounds 6 start)

end WordStream

structure WordStream where
  key : Vector UInt32 8
  taken : Nat
  deriving DecidableEq, Repr

namespace WordStream

def ofSeed (seed : UInt64) : WordStream :=
  let words := keyWords 8 seed
  ⟨Vector.ofFn fun i => words.getD i 0, 0⟩

/-- Without a seed any stream will do, and the one of seed zero is taken. -/
def ofSeed? (seed : Option UInt64) : WordStream :=
  ofSeed (seed.getD 0)

def word (stream : WordStream) (i : Nat) : UInt32 :=
  (block stream.key (UInt64.ofNat (i / 16)))[i % 16]

def next (stream : WordStream) : UInt32 × WordStream :=
  (stream.word stream.taken, { stream with taken := stream.taken + 1 })

def take : Nat → WordStream → List UInt32 × WordStream
  | 0, stream => ([], stream)
  | count + 1, stream =>
    let (word, stream) := stream.next
    let (words, stream) := take count stream
    (word :: words, stream)

/-- A number at least zero and below one, on a grid of `2^-24`. -/
def unit (word : UInt32) : Float32 :=
  (word >>> 8).toFloat32 * Float32.ofScientific 59604644775390625 true 24

end WordStream

end StagedDecoding
