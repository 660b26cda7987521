import Quorum.Broadcast.Message
import Quorum.Broadcast.Tally
import Quorum.Committee
import Quorum.Protocol

/-!
# Broadcast — reliable broadcast of one value

The broadcaster sends its value to everyone in an `initial` message.  A node echoes the first
`initial` that it gets from the broadcaster.  Once `echoThreshold` nodes echoed one value, or more
than `f` nodes are ready for it, a node sends `ready` for that value, once.  A value for which
more than `2 f` nodes are ready is delivered.

If any correct node delivers, every correct node delivers the same value, even when the
broadcaster is faulty.
-/

namespace Quorum.Broadcast

/-- What a node remembers of one broadcast. -/
structure State where
  /-- The broadcaster's input has been given, at this node. -/
  inputGiven : Bool := false
  echoSent : Bool := false
  readySent : Bool := false
  /-- Who echoed what. -/
  echoes : Tally := {}
  /-- Who is ready for what. -/
  readies : Tally := {}
  delivered : Option Bytes := none
  deriving DecidableEq, Repr

instance : Inhabited State := ⟨{}⟩

/-- One copy of a message for every entry of the member list. -/
def toAll (c : Committee) (kind : Kind) (value : Bytes) : List (Outgoing Message) :=
  c.members.map fun id => ⟨id, ⟨kind, value⟩⟩

/-- Declares the node ready for a value, unless it is ready already. -/
def sendReady (c : Committee) (s : State) (value : Bytes) : Reaction State Message :=
  if s.readySent then { state := s }
  else { state := { s with readySent := true }, sent := toAll c .ready value }

def onInitial (c : Committee) (broadcaster : NodeId) (s : State) (sender : NodeId)
    (value : Bytes) : Reaction State Message :=
  if sender ≠ broadcaster ∨ s.echoSent then { state := s }
  else { state := { s with echoSent := true }, sent := toAll c .echo value }

def onEcho (c : Committee) (s : State) (sender : NodeId) (value : Bytes) :
    Reaction State Message :=
  let s := { s with echoes := s.echoes.cast sender value }
  if c.echoThreshold ≤ s.echoes.count value then sendReady c s value else { state := s }

/-- Delivers a value that more than `2 f` nodes are ready for, unless one is delivered already. -/
def deliver (c : Committee) (s : State) (value : Bytes) : State :=
  if 2 * c.faults < s.readies.count value ∧ s.delivered.isNone then
    { s with delivered := some value }
  else s

def onReady (c : Committee) (s : State) (sender : NodeId) (value : Bytes) :
    Reaction State Message :=
  let s := { s with readies := s.readies.cast sender value }
  let r : Reaction State Message :=
    if c.faults < s.readies.count value then sendReady c s value else { state := s }
  { r with state := deliver c r.state value }

/-- The reaction to a message; messages from outside the committee are ignored. -/
def receive (c : Committee) (broadcaster : NodeId) (s : State) (sender : NodeId) (m : Message) :
    Reaction State Message :=
  if sender ∈ c then
    match m.kind with
    | .initial => onInitial c broadcaster s sender m.value
    | .echo => onEcho c s sender m.value
    | .ready => onReady c s sender m.value
  else { state := s }

/-- The reaction to the value to be broadcast. -/
def input (c : Committee) (broadcaster me : NodeId) (s : State) (value : Bytes) :
    Except Fault (Reaction State Message) :=
  if me ≠ broadcaster then .error (.notTheBroadcaster me)
  else if s.inputGiven then .error .broadcastInputTwice
  else .ok { state := { s with inputGiven := true }, sent := toAll c .initial value }

def status (broadcaster : NodeId) (s : State) : String :=
  s!"\x7bRBC: broadcaster={broadcaster.display}, echoes={s.echoes.highest}, " ++
    s!"readies={s.readies.highest}, done={s.delivered.isSome}\x7d"

end Quorum.Broadcast

namespace Quorum

/-- The reliable broadcast of one value by `broadcaster` in the committee `c`. -/
def Protocol.broadcast (c : Committee) (broadcaster : NodeId) : Protocol where
  State := Broadcast.State
  Input := Bytes
  Output := Bytes
  Msg := Broadcast.Message
  start _ := .ok {}
  input me s value := (Broadcast.input c broadcaster me s value).mapError ({ fault := · })
  receive _ s sender m := .ok (Broadcast.receive c broadcaster s sender m)
  output s := s.delivered
  encode := Broadcast.Message.encode
  decode := Broadcast.Message.read.decode
  status _ := Broadcast.status broadcaster

end Quorum
