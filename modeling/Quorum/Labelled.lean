import Quorum.Reliable

/-!
# Labelled — what messages carry in memory and what is never written

A message that is passed around in memory carries more than its encoding does.  It keeps the
envelope that it was addressed with, also when it lies in a batch or is routed, and a batch that is
sent again carries the time of that.  A reader leaves an empty envelope and no time.  On arrival an
envelope is overwritten before anything looks at it.
-/

namespace Quorum

open Wire

/-- A message with a label that is not written. -/
structure Labelled (α μ : Type) where
  label : α
  body : μ
  deriving DecidableEq, Repr

namespace Labelled
variable {α μ : Type}

def encode (encode : μ → Except EncodeError Bytes) (m : Labelled α μ) :
    Except EncodeError Bytes :=
  encode m.body

/-- Reads a message, and gives it the label `unwritten`. -/
def decode (unwritten : α) (decode : Bytes → Except DecodeError μ) (bytes : Bytes) :
    Except DecodeError (Labelled α μ) :=
  (decode bytes).map (⟨unwritten, ·⟩)

end Labelled

/-- The reaction with labels on the messages sent, which may depend on the state that it leads
to. -/
def Reaction.labelled {σ μ α : Type} (label : σ → Outgoing μ → α) (r : Reaction σ μ) :
    Reaction σ (Labelled α μ) where
  state := r.state
  sent := r.sent.map fun o => ⟨o.recipient, label r.state o, o.body⟩
  warnings := r.warnings

/-- The protocol `P` with labels on its messages.  A message that is read has the label `unwritten`.
Given a node, the true sender of a message and its label, `taken` tells whom the node takes for the
sender. -/
@[reducible] def Protocol.labelled (P : Protocol) {α : Type} (unwritten : α)
    (label : P.State → Outgoing P.Msg → α) (taken : NodeId → NodeId → α → NodeId) : Protocol where
  State := P.State
  Input := P.Input
  Output := P.Output
  Msg := Labelled α P.Msg
  start := P.start
  input me s i := (P.input me s i).map (Reaction.labelled label)
  receive me s sender m :=
    (P.receive me s (taken me sender m.label) m.body).map (Reaction.labelled label)
  output := P.output
  encode := Labelled.encode P.encode
  decode := Labelled.decode unwritten P.decode
  status := P.status

/-! ### Envelopes -/

/-- How a message is addressed. -/
structure Envelope where
  sender : NodeId := .zero
  recipient : NodeId := .zero
  deriving DecidableEq, Repr

namespace Envelope

/-- The envelope of a message on its way out. -/
def outgoing (recipient : NodeId) : Envelope := { recipient }

/-- The envelope of a message that has come from a node. -/
def arrived (me sender : NodeId) (e : Envelope) : Envelope := { e with sender, recipient := me }

end Envelope

/-- The protocol `P` with its messages in envelopes, for use inside another one. -/
@[reducible] def Protocol.enveloped (P : Protocol) : Protocol :=
  P.labelled ({} : Envelope) (fun _ o => .outgoing o.recipient) fun me sender e =>
    (e.arrived me sender).sender

/-! ### Stamps -/

namespace Reliable

/-- A message between channels as it is in memory: in its envelope, and with its stamp. -/
abbrev InMemory (μ : Type) := Labelled Envelope (Labelled (Option Time) (Message μ))

namespace InMemory
variable {μ : Type}

def encode (encode : μ → Except EncodeError Bytes) : InMemory μ → Except EncodeError Bytes :=
  Labelled.encode (Labelled.encode (Message.encode encode))

def decode (decode : Bytes → Except DecodeError μ) : Bytes → Except DecodeError (InMemory μ) :=
  Labelled.decode {} (Labelled.decode none (Message.read decode).decode)

end InMemory

/-- The stamp of a message: that of the kept batch of which it is a copy. -/
def State.stampOf {P : Protocol} (s : State P) (peer : NodeId) : Message P.Msg → Option Time
  | .batch b => do
    let kept ← (s.link peer).unacked.get? (← b.id)
    kept.stamp
  | .reset _ => none

end Reliable

/-- The protocol `P` over reliable channels whose batches carry their stamps. -/
@[reducible] def Protocol.stamped (period : Reliable.Time) (P : Protocol) : Protocol :=
  (P.reliable period).labelled none (fun s o => s.stampOf o.recipient o.body) fun _ sender _ =>
    sender

end Quorum
