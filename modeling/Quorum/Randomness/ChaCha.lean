/-!
# ChaCha — a seeded stream of random words

The key stream of the ChaCha cipher with eight rounds, read as 64-bit words.  Word `k` of the
stream is a function of the key and of `k` alone (`word`): what is drawn does not depend on what
else happens between draws.
-/

namespace Quorum.Randomness

/-- A key of the stream: eight 32-bit words. -/
abbrev Key := Vector UInt32 8

namespace Key

/-- The words that a 64-bit seed expands to, one step of a multiplicative generator for each. -/
def words : Nat → UInt64 → List UInt32
  | 0, _ => []
  | n + 1, seed =>
    let state := seed * 6364136223846793005 + 11634580027462260723
    let x := (((state >>> 18) ^^^ state) >>> 27).toUInt32
    let turn := (state >>> 59).toUInt32
    (x >>> turn ||| x <<< ((32 - turn) % 32)) :: words n state

/-- The key of a 64-bit seed. -/
def ofSeed (seed : UInt64) : Key :=
  let expanded := words 8 seed
  Vector.ofFn fun i => expanded.getD i 0

end Key

/-- The sixteen words that a block of the stream is computed from. -/
abbrev Block := Vector UInt32 16

namespace Block

/-- The block of `key` with a given number, before mixing. -/
def start (key : Key) (number : Nat) : Block :=
  #v[0x61707865, 0x3320646e, 0x79622d32, 0x6b206574,
    key[0], key[1], key[2], key[3], key[4], key[5], key[6], key[7],
    UInt32.ofNat number, UInt32.ofNat (number / UInt32.size), 0, 0]

/-- Mixes four words of a block. -/
def quarterRound (s : Block) (i j k l : Fin 16) : Block :=
  let rotl (x : UInt32) (n : UInt32) := x <<< n ||| x >>> (32 - n)
  let (a, b, c, d) := (s[i], s[j], s[k], s[l])
  let a := a + b
  let d := rotl (d ^^^ a) 16
  let c := c + d
  let b := rotl (b ^^^ c) 12
  let a := a + b
  let d := rotl (d ^^^ a) 8
  let c := c + d
  let b := rotl (b ^^^ c) 7
  (((s.set i a).set j b).set k c).set l d

/-- A round over the columns, then one over the diagonals. -/
def doubleRound (s : Block) : Block :=
  let s := s.quarterRound 0 4 8 12
  let s := s.quarterRound 1 5 9 13
  let s := s.quarterRound 2 6 10 14
  let s := s.quarterRound 3 7 11 15
  let s := s.quarterRound 0 5 10 15
  let s := s.quarterRound 1 6 11 12
  let s := s.quarterRound 2 7 8 13
  s.quarterRound 3 4 9 14

/-- The block of the key stream with a given number. -/
def stream (key : Key) (number : Nat) : Block :=
  let s := start key number
  let mixed := s.doubleRound.doubleRound.doubleRound.doubleRound
  Vector.zipWith (· + ·) mixed s

end Block

/-- Word `k` of the key stream, in 64-bit words, low half first. -/
def word (key : Key) (k : Nat) : UInt64 :=
  let block := Block.stream key (k / 8)
  let low := block.toArray.getD (2 * (k % 8)) 0
  let high := block.toArray.getD (2 * (k % 8) + 1) 0
  low.toUInt64 ||| high.toUInt64 <<< 32

end Quorum.Randomness
