/-!
# ReceivedIds — which batches have arrived

The numbers of the batches received from a peer: everything up to a watermark, and a sparse set
above it.  As gaps fill, the watermark rises and the sparse set shrinks.
-/

namespace Quorum.Reliable

abbrev BatchId := UInt32

/-- The next batch number, if there is one. -/
def BatchId.next? (id : BatchId) : Option BatchId :=
  if id.toNat + 1 < UInt32.size then some (id + 1) else none

/-- A set of batch numbers that contains all numbers up to a watermark. -/
structure ReceivedIds where
  /-- Every number up to this one is in the set. -/
  watermark : BatchId := 0
  /-- The numbers in the set above the watermark, in increasing order. -/
  above : List BatchId := []
  deriving DecidableEq, Repr

namespace ReceivedIds

def contains (ids : ReceivedIds) (id : BatchId) : Bool := id ≤ ids.watermark ∨ id ∈ ids.above

/-- Raises a watermark through the front of the sparse numbers as far as there is no gap. -/
def compact (watermark : BatchId) : List BatchId → ReceivedIds
  | [] => { watermark }
  | id :: above =>
    if watermark.next? = some id then compact id above else { watermark, above := id :: above }

/-- Puts a number in its place among increasing numbers. -/
def insertSorted (id : BatchId) : List BatchId → List BatchId
  | [] => [id]
  | id' :: rest => if id < id' then id :: id' :: rest else id' :: insertSorted id rest

def insert (ids : ReceivedIds) (id : BatchId) : ReceivedIds :=
  if ids.contains id then ids else compact ids.watermark (insertSorted id ids.above)

/-- Puts a number on record, and tells whether it is new. -/
def record (ids : ReceivedIds) (id : BatchId) : Bool × ReceivedIds :=
  if ids.contains id then (false, ids) else (true, ids.insert id)

/-- Adds every number up to `id`. -/
def forgetThrough (ids : ReceivedIds) (id : BatchId) : ReceivedIds :=
  compact (max ids.watermark id) (ids.above.filter fun x => id < x)

/-- The largest number in the set. -/
def latest (ids : ReceivedIds) : BatchId := ids.above.getLast?.getD ids.watermark

end ReceivedIds

end Quorum.Reliable
