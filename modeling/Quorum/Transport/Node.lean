import Quorum.Committee
import Quorum.Reliable
import Quorum.Transport.MemoryNetwork

/-!
# Node — one protocol instance behind a transport

A node owns one automaton, its protocol over reliable channels, and is the only place that touches
it.  Commands, frames and ticks are taken one at a time, and what the automaton sends goes to the
transport before the next one is taken.  A frame is checked first: its signature, whether its
signer is a member, whether it is for this instance, and whether it decodes.
-/

namespace Quorum.Transport

open Reliable (Time)
open Signing

/-- The settings of a node. -/
structure Config where
  tickInterval : Time := 500000000
  /-- The capacity of the queues for commands and frames. -/
  capacity : Nat := 1024
  channel : Channel := Vector.replicate 32 0
  /-- How long a batch waits before it is sent again. -/
  period : Time := 3000000000

/-- A local order to a node. -/
inductive Command (P : Protocol) where
  | input (i : P.Input)
  | dismiss (peer : NodeId)
  | shutdown

/-- How a node came to its end. -/
inductive Stop where
  | shutdown
  | fault (fault : Fault)
  deriving DecidableEq, Repr

/-- What a node hands to the transport. -/
structure Sent where
  recipient : NodeId
  channel : Channel
  msgType : UInt8
  payload : Bytes
  deriving DecidableEq, Repr

/-- What a node warns of. -/
inductive Notice where
  | droppedFrame (why : Rejection)
  | warning (w : Warning)
  deriving DecidableEq, Repr

def Notice.message : Notice → String
  | droppedFrame why => s!"dropping frame: {why.message}"
  | warning w => w.message

/-- A node at some moment, with all that it has sent and warned of. -/
structure Node (S : Scheme) (P : Protocol) where
  me : NodeId
  committee : Committee
  config : Config
  state : Reliable.State P
  /-- The first output, once published. -/
  output : Option P.Output := none
  now : Time := 0
  /-- When the next tick is due. -/
  deadline : Time := 0
  /-- Whether and how the node has ended. -/
  stop : Option Stop := none
  /-- Everything handed to the transport, in order. -/
  sent : Array Sent := #[]
  /-- Every notice, in order. -/
  notices : Array Notice := #[]

namespace Node
variable {S : Scheme} {P : Protocol}

/-- Hands messages to the transport, one after the other. -/
def transmit (node : Node S P) : List (Outgoing (Reliable.Message P.Msg)) → Node S P
  | [] => node
  | m :: ms =>
    match Reliable.Message.encode P.encode m.body with
    | .error e => { node with stop := some (.fault (.unencodable e)) }
    | .ok payload =>
      { node with
        sent := node.sent.push ⟨m.recipient, node.config.channel, protocolTraffic, payload⟩
        }.transmit ms

/-- Publishes the output, the first time that there is one. -/
def publish (node : Node S P) : Node S P :=
  if node.stop.isSome then node
  else { node with output := node.output <|> P.output node.state.nested }

/-- Takes up what an event made the automaton do. -/
def settle (node : Node S P) (outcome : Outcome (Reliable.State P) (Reliable.Message P.Msg)) :
    Node S P :=
  match outcome with
  | .error failure =>
    { node with
      stop := some (.fault failure.fault)
      notices := node.notices ++ failure.warnings.map Notice.warning }
  | .ok r =>
    { node with
      state := r.state
      notices := node.notices ++ r.warnings.map Notice.warning }.transmit r.sent

/-- What a frame means to a node: a message with its sender, nothing for a frame that is not for
this instance, or a rejection. -/
def examine (node : Node S P) (frame : Frame S) :
    Except Rejection (Option (NodeId × Reliable.Message P.Msg)) := do
  let sender ← frame.verify
  if sender ∉ node.committee then throw (.unknownPeer sender)
  else if frame.channel ≠ node.config.channel ∨ frame.msgType ≠ protocolTraffic then return none
  else
    match (Reliable.Message.read P.decode).decode frame.payload with
    | .ok m => return some (sender, m)
    | .error e => throw (.undecodable e)

def onFrame (node : Node S P) (frame : Frame S) : Node S P :=
  match node.examine frame with
  | .error why => { node with notices := node.notices.push (.droppedFrame why) }
  | .ok none => node
  | .ok (some (sender, m)) => node.settle (Reliable.receive node.me node.state sender m)

def onCommand (node : Node S P) : Command P → Node S P
  | .input i =>
    node.settle (Reliable.input node.config.period node.me node.state (.nested i))
  | .dismiss peer => { node with state := node.state.dismiss peer }
  | .shutdown => { node with stop := some .shutdown }

def onTick (node : Node S P) : Node S P :=
  node.settle (Reliable.input node.config.period node.me node.state (.tick node.now))

/-- Gives a command to a node that runs. -/
def command (node : Node S P) (c : Command P) : Except Rejection (Node S P) :=
  if node.stop.isSome then .error .stopped else .ok (node.onCommand c).publish

/-- Takes frames one after the other; a node that stops takes no more. -/
def takeFrames (node : Node S P) : List (Frame S) → Node S P
  | [] => node
  | frame :: frames =>
    if node.stop.isSome then node else (node.onFrame frame).publish.takeFrames frames

/-- How far a tick may be late without moving the ticks after it. -/
def lateness : Time := 5000000

/-- Lets time pass, and takes the tick that has come due, if any.  The next tick is due one
interval after the tick's deadline, or after the present if it came too late. -/
def advance (node : Node S P) (elapsed : Time) : Node S P :=
  let node := { node with now := node.now + elapsed }
  if node.stop.isSome ∨ node.now < node.deadline then node
  else
    let late := node.deadline + lateness < node.now
    { node with
      deadline := (if late then node.now else node.deadline) + node.config.tickInterval
      }.onTick.publish

/-- What became of a frame that was put into a node's inbox. -/
inductive Arrival where
  | accepted
  | full
  | closed
  deriving DecidableEq, Repr

/-- Puts frames into the inbox, and lets the node take them; those beyond the capacity are lost. -/
def arrive (node : Node S P) (frames : List (Frame S)) : Node S P × List Arrival :=
  if node.stop.isSome then (node, frames.map fun _ => .closed)
  else
    (node.takeFrames (frames.take node.config.capacity),
      (frames.take node.config.capacity).map (fun _ => .accepted) ++
        (frames.drop node.config.capacity).map fun _ => .full)

/-- A node that has taken nothing yet.  Its first tick is due. -/
def create (S : Scheme) (P : Protocol) (me : NodeId) (committee : Committee) (config : Config) :
    Except Fault (Node S P) := do
  let nested ← P.start me
  if !validCapacity config.capacity then throw .badCapacity
  let node : Node S P := { me, committee, config, state := { nested } }
  if config.tickInterval = 0 then return { node with stop := some (.fault .zeroInterval) }
  else return node

/-- A node that has taken its first tick. -/
def start (S : Scheme) (P : Protocol) (me : NodeId) (committee : Committee) (config : Config) :
    Except Fault (Node S P) :=
  (advance · 0) <$> create S P me committee config

end Node

end Quorum.Transport
