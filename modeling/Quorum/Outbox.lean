import Quorum.Protocol

/-!
# Outbox — sorting what is sent

Messages leave a node in the order in which it sent them.  `byRecipient` groups them, smallest
recipient first, and keeps that order within each group.
-/

namespace Quorum.Outbox
variable {μ : Type}

/-- The recipients of messages, each with its messages in order. -/
def byRecipient (out : List (Outgoing μ)) : SortedMap NodeId (List μ) :=
  let recipients := SortedMap.ofList (out.map fun m => (m.recipient, ()))
  recipients.mapKeyed fun id _ => (out.filter (·.recipient = id)).map (·.body)

end Quorum.Outbox
