import Camouflage.Random.Source

/-!
# A seeded word source

The words of a ChaCha stream of twelve rounds. A block of sixteen words is kept as
four rows of four, so that one step works on all four columns, or, with the rows
turned against each other, on all four diagonals at once.
-/

namespace Camouflage

namespace ChaCha

/-- Turns the bits of a word to the left. -/
def rotate (x : UInt32) (n : UInt32) : UInt32 := x <<< n ||| x >>> (32 - n)

/-! ## Rows and blocks -/

/-- Four words. -/
structure Row where
  w0 : UInt32
  w1 : UInt32
  w2 : UInt32
  w3 : UInt32
  deriving DecidableEq, Repr

namespace Row

def zipWith (f : UInt32 → UInt32 → UInt32) (a b : Row) : Row :=
  ⟨f a.w0 b.w0, f a.w1 b.w1, f a.w2 b.w2, f a.w3 b.w3⟩

def add (a b : Row) : Row := zipWith (· + ·) a b

/-- Adds the bits of two rows without carries and turns each sum to the left. -/
def xorRotate (a b : Row) (n : UInt32) : Row := zipWith (fun x y => rotate (x ^^^ y) n) a b

/-- Moves each word one place to the front, and the first to the end. -/
def turn (a : Row) : Row := ⟨a.w1, a.w2, a.w3, a.w0⟩

def toList (a : Row) : List UInt32 := [a.w0, a.w1, a.w2, a.w3]

end Row

/-- Sixteen words. -/
structure Block where
  a : Row
  b : Row
  c : Row
  d : Row
  deriving DecidableEq, Repr

namespace Block

def add (x y : Block) : Block := ⟨x.a.add y.a, x.b.add y.b, x.c.add y.c, x.d.add y.d⟩

def toList (x : Block) : List UInt32 :=
  x.a.toList ++ x.b.toList ++ x.c.toList ++ x.d.toList

/-- One quarter round on each column. -/
def mixColumns (x : Block) : Block :=
  let a := x.a.add x.b
  let d := x.d.xorRotate a 16
  let c := x.c.add d
  let b := x.b.xorRotate c 12
  let a := a.add b
  let d := d.xorRotate a 8
  let c := c.add d
  let b := b.xorRotate c 7
  ⟨a, b, c, d⟩

/-- Turns the rows so that the diagonals stand in columns. -/
def diagonals (x : Block) : Block := ⟨x.a, x.b.turn, x.c.turn.turn, x.d.turn.turn.turn⟩

/-- Turns the rows back. -/
def columns (x : Block) : Block := ⟨x.a, x.b.turn.turn.turn, x.c.turn.turn, x.d.turn⟩

theorem columns_diagonals (x : Block) : x.diagonals.columns = x := rfl

/-- A round on the columns and one on the diagonals. -/
def doubleRound (x : Block) : Block := x.mixColumns.diagonals.mixColumns.columns

end Block

/-! ## The stream -/

/-- Eight words of a key. -/
structure Key where
  front : Row
  back : Row
  deriving DecidableEq, Repr

/-- The fixed words that every block starts with. -/
def constants : Row := ⟨0x61707865, 0x3320646e, 0x79622d32, 0x6b206574⟩

/-- The block of a number under a key: six double rounds, added to what they started
from. -/
def block (key : Key) (number : UInt64) : Block :=
  let start : Block :=
    ⟨constants, key.front, key.back, ⟨number.toUInt32, (number >>> 32).toUInt32, 0, 0⟩⟩
  (Nat.repeat Block.doubleRound 6 start).add start

end ChaCha

/-- A position in the stream of a key: the words left of the last block, and the number
of the next one. -/
structure ChaCha where
  key : ChaCha.Key
  number : UInt64
  pending : List UInt32
  deriving DecidableEq, Repr

namespace ChaCha

/-- The next word, from a new block if none is left of the last. -/
def next (s : ChaCha) : UInt32 × ChaCha :=
  match s.pending with
  | word :: rest => (word, { s with pending := rest })
  | [] =>
    let fresh := block s.key s.number
    (fresh.a.w0, { s with number := s.number + 1, pending := fresh.toList.tail })

/-- Sixteen words for each of the block numbers. -/
instance : WordSource ChaCha where
  next := next
  period := 16 * UInt64.size

/-! ## Seeds -/

/-- One step of the generator that spreads a seed over a key. -/
def spread (state : UInt64) : UInt64 := state * 6364136223846793005 + 11634580027462260723

/-- The word of a state of that generator, turned to the right by its first bits. -/
def spreadWord (state : UInt64) : UInt32 :=
  rotate ((state >>> 18 ^^^ state) >>> 27).toUInt32 ((32 : UInt32) - (state >>> 59).toUInt32)

/-- The next four words of that generator. -/
def spreadRow (state : UInt64) : Row × UInt64 :=
  let s0 := spread state
  let s1 := spread s0
  let s2 := spread s1
  let s3 := spread s2
  (⟨spreadWord s0, spreadWord s1, spreadWord s2, spreadWord s3⟩, s3)

/-- The key of a seed. -/
def keyOfSeed (seed : UInt64) : Key :=
  let (front, state) := spreadRow seed
  let (back, _) := spreadRow state
  ⟨front, back⟩

/-- The start of the stream of a seed. -/
def ofSeed (seed : UInt64) : ChaCha := ⟨keyOfSeed seed, 0, []⟩

/-- The first word of the stream of seed zero. -/
example : (ofSeed 0).next.1 = 3442241407 := by decide +kernel

end ChaCha

end Camouflage
