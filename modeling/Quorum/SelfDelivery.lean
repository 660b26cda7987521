import Quorum.Fifo
import Quorum.Protocol

/-!
# SelfDelivery — messages that a node sends to itself

A protocol may address messages to the node that runs it.  This layer keeps them inside: each is
handed straight back, oldest first, with the node as its sender, until only messages for others
are left.  Nothing guarantees that this ends for every protocol, so the layer is given a limit on
the number of messages handed back in one event, and reaching it is a fault.
-/

namespace Quorum.SelfDelivery
variable {P : Protocol}

/-- An event being worked off. -/
structure Progress (P : Protocol) where
  state : P.State
  /-- The node's messages to itself that it has not yet received, oldest first. -/
  own : Fifo P.Msg
  /-- The messages sent to others, in order. -/
  remote : Array (Outgoing P.Msg)
  warnings : Array Warning

/-- Takes up what one step of the nested automaton did. -/
def Progress.absorb (me : NodeId) (own : Fifo P.Msg) (remote : Array (Outgoing P.Msg))
    (warnings : Array Warning) (r : Reaction P.State P.Msg) : Progress P :=
  let (toSelf, toOthers) := r.sent.partition (·.recipient = me)
  { state := r.state
    own := own.pushAll (toSelf.map (·.body))
    remote := remote ++ toOthers
    warnings := warnings ++ r.warnings }

/-- Hands the node's own messages back until none is left, at most `limit` of them. -/
def settle (me : NodeId) : (limit : Nat) → Progress P → Outcome P.State P.Msg
  | limit, ⟨state, own, remote, warnings⟩ =>
    match own.pop? with
    | none => .ok { state, sent := remote.toList, warnings := warnings.toList }
    | some (m, own) =>
      match limit with
      | 0 => .error { fault := .selfDeliveryUnending, warnings := warnings.toList }
      | limit + 1 =>
        match P.receive me state me m with
        | .ok r => settle me limit (.absorb me own remote warnings r)
        | .error failure => .error (failure.after warnings.toList)

/-- More messages to itself than any node handles in one event. -/
def stepLimit : Nat := 1 <<< 62

/-- Works off a reaction of the nested automaton. -/
def finish (me : NodeId) (limit : Nat) (outcome : Outcome P.State P.Msg) :
    Outcome P.State P.Msg :=
  outcome.bind fun r => settle me limit (.absorb me {} #[] #[] r)

end Quorum.SelfDelivery

namespace Quorum

open SelfDelivery in
/-- The protocol `P` with every node's messages to itself delivered inside the node, at most
`limit` in one event. -/
@[reducible] def Protocol.selfDelivering (limit : Nat) (P : Protocol) : Protocol where
  State := P.State
  Input := P.Input
  Output := P.Output
  Msg := P.Msg
  start := P.start
  input me s i := finish me limit (P.input me s i)
  receive me s sender m := finish me limit (P.receive me s sender m)
  output := P.output
  encode := P.encode
  decode := P.decode
  status := P.status

end Quorum
