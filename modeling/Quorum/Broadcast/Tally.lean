import Quorum.NodeId

/-!
# Tally — counting votes for values

Every voter may vote for any number of values, but counts once for each.
-/

namespace Quorum.Broadcast

/-- The votes seen so far. -/
structure Tally where
  /-- Every pair of a voter and a value that it voted for, once each. -/
  votes : List (NodeId × Bytes) := []
  deriving DecidableEq, Repr

namespace Tally

/-- Records a vote, unless it is there already. -/
def cast (t : Tally) (voter : NodeId) (value : Bytes) : Tally :=
  if (voter, value) ∈ t.votes then t else { votes := (voter, value) :: t.votes }

/-- How many voters voted for a value. -/
def count (t : Tally) (value : Bytes) : Nat := t.votes.countP fun vote => vote.2 = value

/-- The largest number of votes for any one value. -/
def highest (t : Tally) : Nat := (t.votes.map fun vote => t.count vote.2).foldl max 0

theorem mem_votes_cast {t : Tally} {voter : NodeId} {value : Bytes} {vote : NodeId × Bytes} :
    vote ∈ (t.cast voter value).votes ↔ vote = (voter, value) ∨ vote ∈ t.votes := by
  unfold cast
  split
  next h => exact ⟨.inr, fun h' => h'.elim (fun h' => h' ▸ h) id⟩
  next => exact List.mem_cons

theorem cast_of_mem {t : Tally} {voter : NodeId} {value : Bytes}
    (h : (voter, value) ∈ t.votes) : t.cast voter value = t := if_pos h

theorem nodup_votes_cast {t : Tally} (h : t.votes.Nodup) (voter : NodeId) (value : Bytes) :
    (t.cast voter value).votes.Nodup := by
  unfold cast
  split
  next => exact h
  next hnew => exact List.nodup_cons.mpr ⟨hnew, h⟩

end Tally

end Quorum.Broadcast
