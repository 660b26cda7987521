import Quorum.Bytes

/-!
# Writer — the fields of the wire format

Fixed-width numbers are big-endian.  A byte string carries its length in front as a 32-bit number,
a sequence its element count as a 16-bit number; what does not fit such a prefix has no encoding.
-/

namespace Quorum.Wire

/-- Why a value has no encoding. -/
inductive EncodeError where
  /-- A sequence of `size` elements, more than a 16-bit count can tell. -/
  | countTooLarge (size : Nat)
  /-- A byte string of `size` bytes, more than a 32-bit length can tell. -/
  | lengthTooLarge (size : Nat)
  deriving DecidableEq, Repr

namespace EncodeError

def message : EncodeError → String
  | countTooLarge size => s!"codec: {size} elements do not fit a u16 count"
  | lengthTooLarge size => s!"codec: {size} bytes do not fit a u32 length"

end EncodeError

def putU8 (v : UInt8) : Bytes := [v]

/-- A truth value as one byte, 0 or 1. -/
def putBool (v : Bool) : Bytes := [if v then 1 else 0]

def putU16 (v : UInt16) : Bytes := Bytes.ofNatBE 2 v.toNat

def putU32 (v : UInt32) : Bytes := Bytes.ofNatBE 4 v.toNat

/-- The number of elements of a sequence, as a 16-bit number. -/
def putCount (size : Nat) : Except EncodeError Bytes :=
  if size < UInt16.size then .ok (Bytes.ofNatBE 2 size) else .error (.countTooLarge size)

/-- A byte string behind its 32-bit length. -/
def putBytes (v : Bytes) : Except EncodeError Bytes :=
  if v.length < UInt32.size then .ok (Bytes.ofNatBE 4 v.length ++ v)
  else .error (.lengthTooLarge v.length)

end Quorum.Wire
