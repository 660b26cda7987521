import Quorum.Outbox
import Quorum.Reliable.Link

/-!
# Reliable — channels over a transport that loses and reorders

This layer delivers the messages of a nested protocol reliably.  What a node sends in one event is
grouped by recipient into numbered batches, which are sent again on ticks until they are
acknowledged.  An acknowledgement rides on the next batch in the other direction, or travels alone
when there is none.  Numbers received are remembered, so that a batch that comes again never
reaches the nested protocol twice.
-/

namespace Quorum.Reliable
variable {P : Protocol}

/-- What a node remembers: the nested automaton and the channels to its peers. -/
structure State (P : Protocol) where
  nested : P.State
  /-- The channel to each peer that anything was sent to or received from. -/
  links : SortedMap NodeId (Link P.Msg) := ∅
  /-- The peers that have left: nothing is sent to them or accepted from them. -/
  dismissed : List NodeId := []

/-- A local event. -/
inductive Input (P : Protocol) where
  | nested (i : P.Input)
  /-- A tick of the clock, with the time. -/
  | tick (now : Time)

namespace State

/-- The channel to a peer, a new one if there is none. -/
def link (s : State P) (peer : NodeId) : Link P.Msg := s.links.getD peer {}

/-- The state with another channel to a peer. -/
def setLink (s : State P) (peer : NodeId) (link : Link P.Msg) : State P :=
  { s with links := s.links.insert peer link }

/-- Forgets everything about a peer that has left. -/
def dismiss (s : State P) (peer : NodeId) : State P :=
  { s with links := s.links.erase peer, dismissed := s.dismissed.insert peer }

/-- The number of batches sent and not acknowledged, over all peers. -/
def unackedCount (s : State P) : Nat := (s.links.values.flatMap (·.unacked.entries)).length

/-- The number of nested messages that wait for a handshake, over all peers. -/
def pendingCount (s : State P) : Nat := (s.links.values.flatMap (·.pending.toList)).length

/-- Whether the numbering towards a peer is settled. -/
def isInitialized (s : State P) (peer : NodeId) : Bool := (s.link peer).isInitialized

end State

def toPeer (peer : NodeId) (ms : List (Message P.Msg)) : List (Outgoing (Message P.Msg)) :=
  ms.map fun m => ⟨peer, m⟩

/-! ### A round of sending -/

/-- Sends its part of a round to each peer in turn. -/
def sendGroups (owed : NodeId → Option BatchId) :
    List (NodeId × List P.Msg) → State P → Array (Outgoing (Message P.Msg)) →
      Except Fault (State P × Array (Outgoing (Message P.Msg)))
  | [], s, sent => .ok (s, sent)
  | (peer, msgs) :: groups, s, sent =>
    if peer ∈ s.dismissed then sendGroups owed groups s sent
    else
      match (s.link peer).post msgs (owed peer) with
      | .error fault => .error fault
      | .ok (link, ms) => sendGroups owed groups (s.setLink peer link) (sent ++ toPeer peer ms)

/-- Sends what the nested automaton sent in one event, a group for each recipient.  The peer that
an acknowledgement is owed to gets one in any case. -/
def sendRound (s : State P) (out : List (Outgoing P.Msg)) (owed : Option (NodeId × BatchId)) :
    Except Fault (Reaction (State P) (Message P.Msg)) := do
  let groups := Outbox.byRecipient out
  let groups := match owed with
    | none => groups
    | some (peer, _) => groups.insert peer (groups.getD peer [])
  let owedTo peer := owed.bind fun (creditor, id) => if creditor = peer then some id else none
  let (state, sent) ← sendGroups owedTo groups.entries s #[]
  return { state, sent := sent.toList }

/-- A round of sending after an event of the nested automaton. -/
def sendAfter (s : State P) (owed : Option (NodeId × BatchId)) (r : Reaction P.State P.Msg) :
    Outcome (State P) (Message P.Msg) :=
  match sendRound { s with nested := r.state } r.sent owed with
  | .ok round => .ok { round with warnings := r.warnings }
  | .error fault => .error { fault, warnings := r.warnings }

/-! ### Receiving -/

/-- Nested messages being handed over. -/
structure Handover (P : Protocol) where
  nested : P.State
  sent : Array (Outgoing P.Msg) := #[]
  warnings : Array Warning := #[]

/-- Hands the messages of a batch to the nested automaton, in order. -/
def handOver (me sender : NodeId) : List P.Msg → Handover P → Outcome P.State P.Msg
  | [], t => .ok { state := t.nested, sent := t.sent.toList, warnings := t.warnings.toList }
  | m :: ms, t =>
    match P.receive me t.nested sender m with
    | .ok r =>
      handOver me sender ms
        { nested := r.state, sent := t.sent ++ r.sent, warnings := t.warnings ++ r.warnings }
    | .error failure => .error (failure.after t.warnings.toList)

def onBatch (me : NodeId) (s : State P) (sender : NodeId) (b : Batch P.Msg) :
    Outcome (State P) (Message P.Msg) :=
  let (link, verdict) := (s.link sender).accept b
  match verdict with
  | .done => .ok { state := s.setLink sender link }
  | .duplicate id =>
    let (link, answer) := link.reacknowledge id
    .ok { state := s.setLink sender link, sent := [⟨sender, answer⟩] }
  | .fresh id =>
    (handOver me sender b.msgs { nested := s.nested }).bind
      (sendAfter (s.setLink sender link) (some (sender, id)))

/-- The reaction to a reset: a request is answered; an answer settles the numbering, unless that
is settled already or the answer leaves no number to use. -/
def onReset (s : State P) (sender : NodeId) (reset : Reset) :
    Outcome (State P) (Message P.Msg) :=
  let link := s.link sender
  if !reset.isResponse then
    let (link, answer) := link.answerReset
    .ok { state := s.setLink sender link, sent := [⟨sender, answer⟩] }
  else if link.isInitialized then .ok { state := s.setLink sender link }
  else
    match reset.latest.next? with
    | none => .ok { state := s.setLink sender link, warnings := [.noBatchIdsLeft] }
    | some next =>
      match link.settleNumbering next with
      | .ok (link, ms) => .ok { state := s.setLink sender link, sent := toPeer sender ms }
      | .error fault => .error { fault }

/-- The reaction to a message; what comes from a peer that has left is ignored. -/
def receive (me : NodeId) (s : State P) (sender : NodeId) :
    Message P.Msg → Outcome (State P) (Message P.Msg)
  | m =>
    if sender ∈ s.dismissed then .ok { state := s }
    else
      match m with
      | .batch b => onBatch me s sender b
      | .reset r => onReset s sender r

/-! ### Local events -/

/-- The reaction to a tick: what has waited too long is sent again, peer by peer. -/
def onTick (period : Time) (s : State P) (now : Time) :
    Reaction (State P) (Message P.Msg) where
  state := { s with links := s.links.mapVals (Link.tick period now) }
  sent := s.links.entries.flatMap fun (peer, link) => toPeer peer (link.resent period now)

def input (period : Time) (me : NodeId) (s : State P) :
    Input P → Outcome (State P) (Message P.Msg)
  | .nested i => (P.input me s.nested i).bind (sendAfter s none)
  | .tick now => .ok (onTick period s now)

def status (me : NodeId) (s : State P) : String :=
  let settled := s.links.values.countP (·.isInitialized)
  s!"\x7bAckHandler: me={me.display}, peers={settled}/{s.links.size} initialized, " ++
    s!"unacked={s.unackedCount}, pending={s.pendingCount}, " ++
    s!"nested={P.status me s.nested}\x7d"

end Quorum.Reliable

namespace Quorum

/-- The protocol `P` over reliable channels.  A batch that is not acknowledged is sent again when
more than `period` has passed. -/
@[reducible] def Protocol.reliable (period : Reliable.Time) (P : Protocol) : Protocol where
  State := Reliable.State P
  Input := Reliable.Input P
  Output := P.Output
  Msg := Reliable.Message P.Msg
  start me := (P.start me).map ({ nested := · })
  input := Reliable.input period
  receive := Reliable.receive
  output s := P.output s.nested
  encode := Reliable.Message.encode P.encode
  decode := (Reliable.Message.read P.decode).decode
  status := Reliable.status

end Quorum
