import Quorum.NodeId

/-!
# Committee — who takes part, and how many may be faulty

A committee is a list of members in a fixed order.  Of `n` members it tolerates the largest `f`
with `n > 3 f`; a quorum is everyone but `f`.
-/

namespace Quorum

/-- The members of a committee in their agreed order. -/
structure Committee where
  members : List NodeId
  deriving DecidableEq, Repr

namespace Committee

instance : Membership NodeId Committee := ⟨fun c id => id ∈ c.members⟩

instance (id : NodeId) (c : Committee) : Decidable (id ∈ c) :=
  inferInstanceAs (Decidable (id ∈ c.members))

def size (c : Committee) : Nat := c.members.length

/-- The number of faulty members tolerated: the largest `f` with `size > 3 f`. -/
def faults (c : Committee) : Nat := (c.size - 1) / 3

/-- The number of members that remain when the faulty ones are gone. -/
def quorum (c : Committee) : Nat := c.size - c.faults

/-- The least number of members any two sets of which share a correct one: more than half of
all members and the tolerated faulty ones together. -/
def echoThreshold (c : Committee) : Nat := (c.size + c.faults + 2) / 2

/-- The position of a member, its first one if it occurs more often.  Positions are 16-bit numbers:
a member further back has none. -/
def indexOf? (c : Committee) (id : NodeId) : Option (Fin c.size) :=
  (c.members.finIdxOf? id).bind fun i => if i.val < UInt16.size then some i else none

def get? (c : Committee) (index : Nat) : Option NodeId := c.members[index]?

end Committee

end Quorum
