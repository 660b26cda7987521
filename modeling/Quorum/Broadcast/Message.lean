import Quorum.Wire.Reader
import Quorum.Wire.Writer

/-!
# Message — the three messages of a reliable broadcast

Each message names a value: the one that the broadcaster sends, that a node has heard of, or that
a node is ready to deliver.  It is written as the tag of its kind and the value behind its length.
-/

namespace Quorum.Broadcast

open Wire

/-- The phases of a broadcast. -/
inductive Kind where
  | initial | echo | ready
  deriving DecidableEq, Repr

/-- The byte that tells a kind of message. -/
def Kind.tag : Kind → UInt8
  | initial => 1
  | echo => 2
  | ready => 3

/-- The kind told by a byte. -/
def Kind.ofTag? (tag : UInt8) : Option Kind :=
  if tag = 1 then some .initial
  else if tag = 2 then some .echo
  else if tag = 3 then some .ready
  else none

/-- A message of a broadcast. -/
structure Message where
  kind : Kind
  value : Bytes
  deriving DecidableEq, Repr

namespace Message

def encode (m : Message) : Except EncodeError Bytes := do
  return putU8 m.kind.tag ++ (← putBytes m.value)

/-- Reads a message up to the end of the input. -/
def read : Reader Message := do
  let tag ← Reader.u8
  match Kind.ofTag? tag with
  | some kind =>
    let value ← Reader.bytes
    Reader.finish
    return { kind, value }
  | none => throw (.unknownTag tag "RBC")

end Message

end Quorum.Broadcast
