import Quorum.Ed25519.Point
import Quorum.Sha2

/-!
# Signature — signing and strict verification

Signing is deterministic.  Verification is strict: the scalar has to be reduced, neither the key
nor the commitment may have small order, and the commitment computed from the equation must have
exactly the bytes of the one in the signature.
-/

namespace Quorum.Ed25519

open Sha2 (sha512)

/-- The secret scalar of a seed: half of its hash, with the low three bits cleared and the second
highest bit as the highest set. -/
def secretScalar (seed : Bytes) : Nat :=
  let n := Bytes.toNatLE ((sha512 seed).take 32)
  n % 1 <<< 254 - n % 8 + 1 <<< 254

def publicKey (seed : Bytes) : Bytes := (Point.base.smul 256 (secretScalar seed)).compress

/-- A hash of byte strings, read as a scalar. -/
def scalarHash (parts : List Bytes) : Nat :=
  Bytes.toNatLE (sha512 parts.flatten) % Point.order

/-- The signature of a message under the key of a seed: the commitment, then the scalar. -/
def sign (seed message : Bytes) : Bytes :=
  let nonce := scalarHash [(sha512 seed).drop 32, message]
  let commitment := (Point.base.smul 256 nonce).compress
  let challenge := scalarHash [commitment, publicKey seed, message]
  commitment ++ Bytes.ofNatLE 32 ((nonce + challenge * secretScalar seed) % Point.order)

/-- Whether a signature of a message is valid for a public key. -/
def verify (key signature message : Bytes) : Bool :=
  let commitment := signature.take 32
  let scalar := Bytes.toNatLE (signature.drop 32)
  match Point.decompress? key, Point.decompress? commitment with
  | some a, some r =>
    if scalar < Point.order ∧ !r.isSmallOrder ∧ !a.isSmallOrder then
      let challenge := scalarHash [commitment, key, message]
      ((Point.base.smul 256 scalar).add (a.neg.smul 256 challenge)).compress = commitment
    else false
  | _, _ => false

end Quorum.Ed25519
