import Chiptune.Scalar

/-!
# White noise

The generator is ChaCha with eight rounds, keyed from a seed. Its blocks of sixteen words are
drawn from in order, two words at a time, low word first.
-/

namespace Chiptune

/-- A block of the generator. -/
abbrev Block := Vector UInt32 16

/-- A noise generator: its key, the number of the next block and what is left of the last one. -/
structure Noise where
  key : Vector UInt32 8
  block : UInt64
  pending : List UInt64
deriving DecidableEq

namespace Noise

/-- The bits of a word moved up by `n`, those that leave it coming back at the bottom. -/
def rotate (x n : UInt32) : UInt32 := (x <<< n) ||| (x >>> (32 - n))

/-- One quarter round on four words of a block. -/
def quarterRound (a b c d : Fin 16) (s : Block) : Block :=
  let s := s.set a (s[a] + s[b])
  let s := s.set d (rotate (s[d] ^^^ s[a]) 16)
  let s := s.set c (s[c] + s[d])
  let s := s.set b (rotate (s[b] ^^^ s[c]) 12)
  let s := s.set a (s[a] + s[b])
  let s := s.set d (rotate (s[d] ^^^ s[a]) 8)
  let s := s.set c (s[c] + s[d])
  s.set b (rotate (s[b] ^^^ s[c]) 7)

/-- A round on the columns and a round on the diagonals. -/
def doubleRound (s : Block) : Block :=
  let s := quarterRound 0 4 8 12 s
  let s := quarterRound 1 5 9 13 s
  let s := quarterRound 2 6 10 14 s
  let s := quarterRound 3 7 11 15 s
  let s := quarterRound 0 5 10 15 s
  let s := quarterRound 1 6 11 12 s
  let s := quarterRound 2 7 8 13 s
  quarterRound 3 4 9 14 s

/-- The words that a block starts from: constants, key, block number and two zeros. -/
def initialBlock (key : Vector UInt32 8) (block : UInt64) : Block :=
  #v[0x61707865, 0x3320646e, 0x79622d32, 0x6b206574,
    key[0], key[1], key[2], key[3], key[4], key[5], key[6], key[7],
    block.toUInt32, (block >>> 32).toUInt32, 0, 0]

/-- The words of a block: four double rounds, added to what it started from. -/
def words (key : Vector UInt32 8) (block : UInt64) : Block :=
  let start := initialBlock key block
  let mixed := doubleRound (doubleRound (doubleRound (doubleRound start)))
  Vector.zipWith (· + ·) mixed start

/-- Words joined in pairs, low word first. -/
def pairs : List UInt32 → List UInt64
  | low :: high :: rest => (low.toUInt64 ||| (high.toUInt64 <<< 32)) :: pairs rest
  | _ => []

/-- The next 64 bits. -/
def next (g : Noise) : UInt64 × Noise :=
  match g.pending with
  | bits :: pending => (bits, { g with pending })
  | [] =>
    match pairs (words g.key g.block).toList with
    | bits :: pending => (bits, { g with block := g.block + 1, pending })
    | [] => (0, g)

/-! ## Seeding -/

/-- The generator of key words: a linear congruential step. -/
def seedStep (state : UInt64) : UInt64 := state * 6364136223846793005 + 11634580027462260723

/-- The key word that a state gives: its high bits folded, rotated by its highest five. -/
def seedWord (state : UInt64) : UInt32 :=
  let x := (((state >>> 18) ^^^ state) >>> 27).toUInt32
  let n := (state >>> 59).toUInt32
  (x >>> n) ||| (x <<< ((32 - n) % 32))

/-- The state after `n + 1` steps. -/
def seedState (seed : UInt64) : Nat → UInt64
  | 0 => seedStep seed
  | n + 1 => seedStep (seedState seed n)

/-- The generator with a given seed. -/
def ofSeed (seed : UInt64) : Noise :=
  { key := Vector.ofFn fun i : Fin 8 => seedWord (seedState seed i)
    block := 0
    pending := [] }

/-! ## Samples -/

section

variable {α : Type} [Scalar α]

/-- The sample for 64 random bits: the upper 52 of them as a fraction of one, stretched over
`[-1, 1]`. The factor is the number just above two, so that the largest fraction comes as near
to one as it can. -/
def level (bits : UInt64) : α :=
  let fraction := Scalar.ofNat (bits >>> 12).toNat / Scalar.ofNat (Nat.pow 2 52)
  fraction * (Scalar.ofNat (Nat.pow 2 52 + 1) / Scalar.ofNat (Nat.pow 2 51)) - 1

/-- A sample between `-1` and `1`. -/
def sample (g : Noise) : α × Noise :=
  let (bits, g) := g.next
  (level bits, g)

end

end Noise

end Chiptune
