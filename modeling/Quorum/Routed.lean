import Quorum.Wire.Reader
import Quorum.Wire.Writer

/-!
# Routed — messages of nested instances

A protocol that runs other protocols inside itself sends their messages with a route in front: a
byte for the subsystem, which tells how the message is to be read, and the index of the instance
within it.  The nested message follows up to the end, with a tag of its own, so nested tags never
meet the outer ones.
-/

namespace Quorum

open Wire

/-- A nested message with its route. -/
structure Routed (μ : Type) where
  subsystem : UInt8
  index : UInt16
  inner : μ
  deriving DecidableEq, Repr

namespace Routed
variable {μ : Type}

/-- The encoding of route and nested message. -/
def encodeBody (encode : μ → Except EncodeError Bytes) (m : Routed μ) :
    Except EncodeError Bytes := do
  return putU8 m.subsystem ++ putU16 m.index ++ (← encode m.inner)

/-- Reads a route and, as `decode` tells for it, the nested message from all that is left. -/
def readBody (decode : UInt8 → UInt16 → Bytes → Except DecodeError μ) : Reader (Routed μ) := do
  let subsystem ← Reader.u8
  let index ← Reader.u16
  let inner ← Reader.rest
  match decode subsystem index inner with
  | .ok inner => return { subsystem, index, inner }
  | .error e => throw e

end Routed

end Quorum
