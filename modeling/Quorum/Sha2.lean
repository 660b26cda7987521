import Quorum.Bytes

/-!
# Sha2 — the hash functions SHA-256 and SHA-512

Both functions are one construction over words of different size: the message is
padded to whole blocks of sixteen words, and each block is mixed into a state of eight words by a
fixed number of rounds.  `Word` holds what depends on the word size.
-/

namespace Quorum.Sha2

/-- What a member of the SHA-2 family takes from its word size. -/
class Word (W : Type) extends Add W, AndOp W, XorOp W, Complement W where
  bytes : Nat
  /-- The word of a number, modulo the word size. -/
  ofNat : Nat → W
  toNat : W → Nat
  /-- The mixing function of the first state word in a round. -/
  bigSigma0 : W → W
  /-- The mixing function of the fifth state word in a round. -/
  bigSigma1 : W → W
  /-- The mixing function of the schedule for the word after the oldest. -/
  smallSigma0 : W → W
  /-- The mixing function of the schedule for the second newest word. -/
  smallSigma1 : W → W
  constants : List W
  /-- The state before the first block. -/
  initial : List W

/-- The fractional parts of the cube roots of the first eighty primes, 64 bits of each. -/
def cubeRoots : List Nat := [
  0x428a2f98d728ae22, 0x7137449123ef65cd, 0xb5c0fbcfec4d3b2f, 0xe9b5dba58189dbbc,
  0x3956c25bf348b538, 0x59f111f1b605d019, 0x923f82a4af194f9b, 0xab1c5ed5da6d8118,
  0xd807aa98a3030242, 0x12835b0145706fbe, 0x243185be4ee4b28c, 0x550c7dc3d5ffb4e2,
  0x72be5d74f27b896f, 0x80deb1fe3b1696b1, 0x9bdc06a725c71235, 0xc19bf174cf692694,
  0xe49b69c19ef14ad2, 0xefbe4786384f25e3, 0x0fc19dc68b8cd5b5, 0x240ca1cc77ac9c65,
  0x2de92c6f592b0275, 0x4a7484aa6ea6e483, 0x5cb0a9dcbd41fbd4, 0x76f988da831153b5,
  0x983e5152ee66dfab, 0xa831c66d2db43210, 0xb00327c898fb213f, 0xbf597fc7beef0ee4,
  0xc6e00bf33da88fc2, 0xd5a79147930aa725, 0x06ca6351e003826f, 0x142929670a0e6e70,
  0x27b70a8546d22ffc, 0x2e1b21385c26c926, 0x4d2c6dfc5ac42aed, 0x53380d139d95b3df,
  0x650a73548baf63de, 0x766a0abb3c77b2a8, 0x81c2c92e47edaee6, 0x92722c851482353b,
  0xa2bfe8a14cf10364, 0xa81a664bbc423001, 0xc24b8b70d0f89791, 0xc76c51a30654be30,
  0xd192e819d6ef5218, 0xd69906245565a910, 0xf40e35855771202a, 0x106aa07032bbd1b8,
  0x19a4c116b8d2d0c8, 0x1e376c085141ab53, 0x2748774cdf8eeb99, 0x34b0bcb5e19b48a8,
  0x391c0cb3c5c95a63, 0x4ed8aa4ae3418acb, 0x5b9cca4f7763e373, 0x682e6ff3d6b2b8a3,
  0x748f82ee5defb2fc, 0x78a5636f43172f60, 0x84c87814a1f0ab72, 0x8cc702081a6439ec,
  0x90befffa23631e28, 0xa4506cebde82bde9, 0xbef9a3f7b2c67915, 0xc67178f2e372532b,
  0xca273eceea26619c, 0xd186b8c721c0c207, 0xeada7dd6cde0eb1e, 0xf57d4f7fee6ed178,
  0x06f067aa72176fba, 0x0a637dc5a2c898a6, 0x113f9804bef90dae, 0x1b710b35131c471b,
  0x28db77f523047d84, 0x32caab7b40c72493, 0x3c9ebe0a15c9bebc, 0x431d67c49c100d4c,
  0x4cc5d4becb3e42b6, 0x597f299cfc657e2a, 0x5fcb6fab3ad6faec, 0x6c44198c4a475817]

/-- The fractional parts of the square roots of the first eight primes, 64 bits of each. -/
def squareRoots : List Nat := [
  0x6a09e667f3bcc908, 0xbb67ae8584caa73b, 0x3c6ef372fe94f82b, 0xa54ff53a5f1d36f1,
  0x510e527fade682d1, 0x9b05688c2b3e6c1f, 0x1f83d9abfb41bd6b, 0x5be0cd19137e2179]

instance : Word UInt32 where
  bytes := 4
  ofNat := UInt32.ofNat
  toNat := UInt32.toNat
  bigSigma0 x := (x >>> 2 ||| x <<< 30) ^^^ (x >>> 13 ||| x <<< 19) ^^^ (x >>> 22 ||| x <<< 10)
  bigSigma1 x := (x >>> 6 ||| x <<< 26) ^^^ (x >>> 11 ||| x <<< 21) ^^^ (x >>> 25 ||| x <<< 7)
  smallSigma0 x := (x >>> 7 ||| x <<< 25) ^^^ (x >>> 18 ||| x <<< 14) ^^^ (x >>> 3)
  smallSigma1 x := (x >>> 17 ||| x <<< 15) ^^^ (x >>> 19 ||| x <<< 13) ^^^ (x >>> 10)
  constants := (cubeRoots.take 64).map fun n => UInt32.ofNat (n / UInt32.size)
  initial := squareRoots.map fun n => UInt32.ofNat (n / UInt32.size)

instance : Word UInt64 where
  bytes := 8
  ofNat := UInt64.ofNat
  toNat := UInt64.toNat
  bigSigma0 x := (x >>> 28 ||| x <<< 36) ^^^ (x >>> 34 ||| x <<< 30) ^^^ (x >>> 39 ||| x <<< 25)
  bigSigma1 x := (x >>> 14 ||| x <<< 50) ^^^ (x >>> 18 ||| x <<< 46) ^^^ (x >>> 41 ||| x <<< 23)
  smallSigma0 x := (x >>> 1 ||| x <<< 63) ^^^ (x >>> 8 ||| x <<< 56) ^^^ (x >>> 7)
  smallSigma1 x := (x >>> 19 ||| x <<< 45) ^^^ (x >>> 61 ||| x <<< 3) ^^^ (x >>> 6)
  constants := cubeRoots.map UInt64.ofNat
  initial := squareRoots.map UInt64.ofNat

section
variable {W : Type} [Word W]

/-- The eight words of the state. -/
structure State (W : Type) where
  (a b c d e f g h : W)

/-- The state of a list of eight words; missing words count as zero. -/
def State.ofList (l : List W) : State W :=
  let word i := l.getD i (Word.ofNat 0)
  ⟨word 0, word 1, word 2, word 3, word 4, word 5, word 6, word 7⟩

def State.toList (s : State W) : List W := [s.a, s.b, s.c, s.d, s.e, s.f, s.g, s.h]

def State.add (s t : State W) : State W :=
  ⟨s.a + t.a, s.b + t.b, s.c + t.c, s.d + t.d, s.e + t.e, s.f + t.f, s.g + t.g, s.h + t.h⟩

/-- One round with the constant `k` and the schedule word `w`. -/
@[specialize] def State.round (s : State W) (k w : W) : State W :=
  let choice := (s.e &&& s.f) ^^^ (~~~s.e &&& s.g)
  let majority := (s.a &&& s.b) ^^^ (s.a &&& s.c) ^^^ (s.b &&& s.c)
  let t1 := s.h + Word.bigSigma1 s.e + choice + k + w
  let t2 := Word.bigSigma0 s.a + majority
  ⟨t1 + t2, s.a, s.b, s.c, s.d + t1, s.e, s.f, s.g⟩

/-- The schedule word that enters a window of sixteen when the oldest leaves it. -/
@[specialize] def nextWord (window : List W) : W :=
  let word i := window.getD i (Word.ofNat 0)
  Word.smallSigma1 (word 14) + word 9 + Word.smallSigma0 (word 1) + word 0

/-- One round for each constant; each takes the oldest word of the schedule's window. -/
@[specialize] def rounds : List W → List W → State W → State W
  | k :: ks, w :: window, s =>
    rounds ks (window ++ [nextWord (w :: window)]) (s.round k w)
  | _, _, s => s

/-- The sixteen words of a block. -/
def blockWords (W : Type) [Word W] (block : Bytes) : List W :=
  (List.range 16).map fun i =>
    Word.ofNat (Bytes.toNatBE ((block.drop (i * Word.bytes W)).take (Word.bytes W)))

/-- Mixes one block into the state. -/
@[specialize] def compress (s : State W) (block : Bytes) : State W :=
  s.add (rounds Word.constants (blockWords W block) s)

/-- Mixes the first `n` blocks of `message` into the state. -/
@[specialize] def absorb : Nat → Bytes → State W → State W
  | 0, _, s => s
  | n + 1, message, s =>
    absorb n (message.drop (16 * Word.bytes W)) (compress s (message.take (16 * Word.bytes W)))

/-- A message filled up to whole blocks: a one bit, zeros, the length in bits. -/
def pad (W : Type) [Word W] (message : Bytes) : Bytes :=
  let block := 16 * Word.bytes W
  let used := message.length + 1 + 2 * Word.bytes W
  message ++ 0x80 :: List.replicate ((block - used % block) % block) 0 ++
    Bytes.ofNatBE (2 * Word.bytes W) (8 * message.length)

/-- The hash of a message, as the bytes of the final state. -/
@[specialize] def hash (W : Type) [Word W] (message : Bytes) : Bytes :=
  let padded := pad W message
  let final : State W :=
    absorb (padded.length / (16 * Word.bytes W)) padded (State.ofList Word.initial)
  final.toList.flatMap fun w => Bytes.ofNatBE (Word.bytes W) (Word.toNat w)

end

def sha256 (message : Bytes) : Bytes := hash UInt32 message

def sha512 (message : Bytes) : Bytes := hash UInt64 message

end Quorum.Sha2
