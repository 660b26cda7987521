import Quorum.Bytes.Hex
import Quorum.SortedMap

/-!
# NodeId — how members of a committee are addressed

A node id is a string of 32 bytes, kept as the number that it writes most significant byte first:
the order of ids as byte strings is the order of these numbers.
-/

namespace Quorum

/-- The address of a node. -/
structure NodeId where
  /-- The 32 bytes of the id, read as one number. -/
  num : BitVec 256
  deriving DecidableEq, Repr

namespace NodeId

instance : Ranked NodeId where
  rank id := id.num.toNat
  rank_inj {a b} h := by
    cases a
    cases b
    exact congrArg mk (BitVec.eq_of_toNat_eq h)

def zero : NodeId := ⟨0⟩

instance : Inhabited NodeId := ⟨zero⟩

/-- The id of a byte string, cut or padded with zeros on the right to 32 bytes. -/
def ofBytes (bs : Bytes) : NodeId := ⟨BitVec.ofNat 256 (Bytes.toNatBE (bs.fixed 32).toList)⟩

def bytes (id : NodeId) : Bytes := Bytes.ofNatBE 32 id.num.toNat

/-- How an id is shown to people: its first four bytes in hexadecimal. -/
def display (id : NodeId) : String := Bytes.hex (id.bytes.take 4)

/-- How an id is shown in diagnostics. -/
def debug (id : NodeId) : String := s!"NodeId({id.display})"

end NodeId

end Quorum
