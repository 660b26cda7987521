import Quorum.Randomness.ChaCha

/-!
# Loss — a seeded channel that loses messages

Each message survives with a given probability.  A probability of one or more needs no random
number and takes none; below one, message `k` survives if word `k` of the seeded stream is below
`⌊p · 2⁶⁴⌋`.  A negative probability has no such threshold: the first draw is a fault.
-/

namespace Quorum.Randomness

/-- With which probability something happens. -/
inductive Chance where
  /-- It always happens, without a draw. -/
  | certain
  /-- It happens if a 64-bit word is below `threshold`. -/
  | below (threshold : Nat)
  /-- A negative number is no probability. -/
  | negative
  deriving DecidableEq, Repr

namespace Chance

/-- The chance given by a 64-bit floating-point number, from its bits. -/
def ofBinary64 (bits : UInt64) : Chance :=
  let n := bits.toNat
  let exponent := n >>> 52 % 2048
  let fraction := n % 1 <<< 52
  if exponent = 2047 ∧ fraction ≠ 0 then .certain
  else if n >>> 63 = 1 then
    if exponent = 0 ∧ fraction = 0 then .below 0 else .negative
  else if 1023 ≤ exponent then .certain
  else if exponent = 0 then .below (fraction >>> 1010)
  else .below ((1 <<< 52 + fraction) <<< exponent >>> 1011)

end Chance

/-- A probability outside the unit interval was drawn on. -/
inductive DrawError where
  | notAProbability
  deriving DecidableEq, Repr

/-- A source of survival decisions. -/
structure Loss where
  chance : Chance
  key : Key
  /-- How many words of the stream have been used. -/
  drawn : Nat := 0

namespace Loss

/-- A source with a given chance and seed. -/
def seeded (chance : Chance) (seed : UInt64) : Loss := { chance, key := Key.ofSeed seed }

/-- The source that loses nothing. -/
def none : Loss := seeded .certain 0

/-- Decides whether the next message survives. -/
def draw (loss : Loss) : Except DrawError (Bool × Loss) :=
  match loss.chance with
  | .certain => .ok (true, loss)
  | .below threshold =>
    .ok ((word loss.key loss.drawn).toNat < threshold, { loss with drawn := loss.drawn + 1 })
  | .negative => .error .notAProbability

end Loss

end Quorum.Randomness
