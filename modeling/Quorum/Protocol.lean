import Quorum.NodeId
import Quorum.Wire.Reader
import Quorum.Wire.Writer

/-!
# Protocol — deterministic automata run by the members of a committee

A protocol is a state machine that every member runs under its own id.  It consumes local inputs
and messages whose sender has been authenticated, and reacts with a new state, messages to send
and at most one output, which stays once it is there.  It performs no I/O and reads no clock: time
arrives as an input like anything else.  Layers such as self-delivery or the reliable channel turn
one protocol into another.
-/

namespace Quorum

/-- Why an automaton, or what runs it, cannot go on. -/
inductive Fault where
  | unencodable (error : Wire.EncodeError)
  | batchIdsExhausted
  | notAMember (node : NodeId)
  | gatherInputTwice
  | noInstance (subsystem : UInt8) (index : UInt16)
  | notTheBroadcaster (node : NodeId)
  | broadcastInputTwice
  | unknownNode (node : NodeId)
  | undecodable (error : Wire.DecodeError)
  | selfDeliveryUnending
  | notAProbability
  | badCapacity
  | zeroInterval
  deriving DecidableEq, Repr

namespace Fault

def message : Fault → String
  | unencodable error => error.message
  | batchIdsExhausted => "AckHandler: batch id space exhausted"
  | notAMember node => s!"Gather: {node.display} is not a committee member"
  | gatherInputTwice => "Gather: input given twice"
  | noInstance subsystem index =>
    s!"Gather: no nested instance for subsystem {subsystem.toNat} index {index.toNat}"
  | notTheBroadcaster node =>
    s!"RBC: input given to {node.display} which is not the broadcaster"
  | broadcastInputTwice => "RBC: input given twice"
  | unknownNode node => s!"TestContext: unknown node {node.display}"
  | undecodable error => s!"TestContext: message does not decode: {error.message}"
  | selfDeliveryUnending => "a node does not stop sending messages to itself"
  | notAProbability => "a probability lies outside the unit interval"
  | badCapacity => "a queue cannot have this capacity"
  | zeroInterval => "the tick interval is zero"

end Fault

/-- Something that an operator should know about and that stops nothing. -/
inductive Warning where
  | noBatchIdsLeft
  deriving DecidableEq, Repr

def Warning.message : Warning → String
  | noBatchIdsLeft => "reset response leaves no batch ids"

/-- A message on its way out, with the node that it is for. -/
structure Outgoing (μ : Type) where
  recipient : NodeId
  body : μ
  deriving DecidableEq, Repr

def Outgoing.map (f : μ → ν) (m : Outgoing μ) : Outgoing ν := ⟨m.recipient, f m.body⟩

/-- What one event makes an automaton do. -/
structure Reaction (σ μ : Type) where
  state : σ
  /-- The messages sent, in order. -/
  sent : List (Outgoing μ) := []
  /-- The warnings given, in order. -/
  warnings : List Warning := []

/-- How an automaton ended that could not go on: the cause, and the warnings given before. -/
structure Failure where
  fault : Fault
  warnings : List Warning := []
  deriving DecidableEq, Repr

/-- The failure of an automaton that had given other warnings before. -/
def Failure.after (warnings : List Warning) (failure : Failure) : Failure :=
  { failure with warnings := warnings ++ failure.warnings }

/-- The outcome of one event: a reaction, or the end of the automaton. -/
abbrev Outcome (σ μ : Type) := Except Failure (Reaction σ μ)

/-- A protocol: the automaton that a node runs, given the node's id. -/
structure Protocol where
  /-- What a node remembers. -/
  State : Type
  /-- A local event, never encoded. -/
  Input : Type
  /-- The result, stable once there. -/
  Output : Type
  Msg : Type
  /-- The state of a node before any event, if the node can take part. -/
  start : NodeId → Except Fault State
  /-- How a node reacts to a local input. -/
  input : NodeId → State → Input → Outcome State Msg
  /-- How a node reacts to a message, given its sender. -/
  receive : NodeId → State → NodeId → Msg → Outcome State Msg
  output : State → Option Output
  encode : Msg → Except Wire.EncodeError Bytes
  decode : Bytes → Except Wire.DecodeError Msg
  /-- A line on the progress of a node, for people only. -/
  status : NodeId → State → String

/-- A message in transit: its authenticated sender, its recipient, its body. -/
structure Packet (μ : Type) where
  sender : NodeId
  recipient : NodeId
  body : μ
  deriving DecidableEq, Repr

def Packet.map (f : μ → ν) (p : Packet μ) : Packet ν := ⟨p.sender, p.recipient, f p.body⟩

/-- A message put in transit by its sender. -/
def Outgoing.sentBy (sender : NodeId) (m : Outgoing μ) : Packet μ :=
  ⟨sender, m.recipient, m.body⟩

end Quorum
