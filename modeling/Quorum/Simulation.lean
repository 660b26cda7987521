import Quorum.Fifo
import Quorum.Protocol
import Quorum.Randomness.Loss

/-!
# Simulation — a whole committee run in one place

Inputs wait in one queue and messages in another.  A step takes the oldest input, or else the
oldest message, and queues what the node sends; so a run is determined by the nodes, the inputs
and the seed.  Messages may be lost at random, and may be made to pass through their encoding.
-/

namespace Quorum

open Randomness

/-- A simulated committee. -/
structure Simulation (P : Protocol) where
  nodes : SortedMap NodeId P.State
  /-- Inputs not yet given, with the nodes that they are for. -/
  inputs : Fifo (NodeId × P.Input) := {}
  /-- Messages in transit, in the order in which they were sent. -/
  queue : Fifo (Packet P.Msg) := {}
  /-- Decides which messages survive. -/
  loss : Loss := Loss.none
  /-- Whether messages pass through their encoding. -/
  wire : Bool := false
  /-- Sender, recipient and encoding of every message sent, if a log is kept. -/
  log : Option (Fifo (Packet Bytes)) := none
  /-- The number of messages handed to their recipients. -/
  delivered : Nat := 0
  /-- The number of messages lost. -/
  dropped : Nat := 0

namespace Simulation
variable {P : Protocol}

/-- The start of a simulation: every node before its first event.  The order of the ids does not
matter, nor does a repeated one: the nodes start in the order of their ids. -/
def start (P : Protocol) (ids : List NodeId) : Except Fault (Simulation P) := do
  let distinct := (SortedMap.ofList (ids.map (·, ()))).keys
  let nodes ← distinct.foldlM (fun nodes id => do return nodes.insert id (← P.start id)) ∅
  return { nodes }

/-- Adds inputs, to be given in this order, before any message is delivered. -/
def addInputs (sim : Simulation P) (inputs : List (NodeId × P.Input)) : Simulation P :=
  { sim with inputs := sim.inputs.pushAll inputs }

/-- Puts a message in transit, and on record if a log is kept. -/
def enqueue (sim : Simulation P) (p : Packet P.Msg) : Except Fault (Simulation P) :=
  match sim.log with
  | none => .ok { sim with queue := sim.queue.push p }
  | some log =>
    match P.encode p.body with
    | .ok bytes =>
      .ok { sim with queue := sim.queue.push p, log := some (log.push (p.map fun _ => bytes)) }
    | .error e => .error (.unencodable e)

/-- Puts what a node sends in transit. -/
def enqueueFrom (sim : Simulation P) (sender : NodeId) (out : List (Outgoing P.Msg)) :
    Except Fault (Simulation P) :=
  out.foldlM (fun sim m => sim.enqueue (m.sentBy sender)) sim

/-- Takes up the outcome of an event at a node. -/
def settle (sim : Simulation P) (node : NodeId) (outcome : Outcome P.State P.Msg) :
    Except Fault (Simulation P) :=
  match outcome with
  | .ok r => { sim with nodes := sim.nodes.insert node r.state }.enqueueFrom node r.sent
  | .error failure => .error failure.fault

/-- A message as its recipient sees it: as it is, or passed through its encoding. -/
def transmit (sim : Simulation P) (m : P.Msg) : Except Fault P.Msg :=
  if sim.wire then
    match P.encode m with
    | .error e => .error (.unencodable e)
    | .ok bytes => (P.decode bytes).mapError .undecodable
  else .ok m

/-- Hands a message that has survived to its recipient; a message for nobody is discarded. -/
def deliver (sim : Simulation P) (p : Packet P.Msg) : Except Fault (Simulation P) :=
  match sim.nodes.get? p.recipient with
  | none => .ok sim
  | some s =>
    match sim.transmit p.body with
    | .error fault => .error fault
    | .ok m =>
      { sim with delivered := sim.delivered + 1 }.settle p.recipient
        (P.receive p.recipient s p.sender m)

/-- Takes one input, or else one message.  No simulation is left when there is neither. -/
def step (sim : Simulation P) : Except Fault (Option (Simulation P)) :=
  match sim.inputs.pop? with
  | some ((node, i), inputs) =>
    match sim.nodes.get? node with
    | none => .error (.unknownNode node)
    | some s => some <$> { sim with inputs }.settle node (P.input node s i)
  | none =>
    match sim.queue.pop? with
    | none => .ok none
    | some (p, queue) =>
      match sim.loss.draw with
      | .error .notAProbability => .error .notAProbability
      | .ok (true, loss) => some <$> { sim with queue, loss }.deliver p
      | .ok (false, loss) => .ok (some { sim with queue, loss, dropped := sim.dropped + 1 })

/-- Takes up to `max` steps, and tells whether all of them could be taken. -/
def runSteps (sim : Simulation P) : (max : Nat) → Except Fault (Simulation P × Bool)
  | 0 => .ok (sim, true)
  | max + 1 =>
    match sim.step with
    | .error fault => .error fault
    | .ok none => .ok (sim, false)
    | .ok (some sim) => sim.runSteps max

/-- Takes steps until `done` holds or nothing is left to do, at most `limit` of them, and tells
whether `done` holds. -/
def runUntil (sim : Simulation P) (done : Simulation P → Bool) :
    (limit : Nat) → Except Fault (Simulation P × Bool)
  | 0 => .ok (sim, done sim)
  | limit + 1 =>
    if done sim then .ok (sim, true)
    else
      match sim.step with
      | .error fault => .error fault
      | .ok none => .ok (sim, false)
      | .ok (some sim) => sim.runUntil done limit

/-- More steps than any run of a simulation takes. -/
def stepLimit : Nat := 1 <<< 62

/-- Takes steps until nothing is left to do. -/
def runAll (sim : Simulation P) : Except Fault (Simulation P) :=
  (·.1) <$> sim.runSteps stepLimit

/-- Changes the state of a node from outside. -/
def modify (sim : Simulation P) (node : NodeId) (f : P.State → P.State) :
    Except Fault (Simulation P) :=
  match sim.nodes.get? node with
  | none => .error (.unknownNode node)
  | some s => .ok { sim with nodes := sim.nodes.insert node (f s) }

def output (sim : Simulation P) (node : NodeId) : Except Fault (Option P.Output) :=
  match sim.nodes.get? node with
  | none => .error (.unknownNode node)
  | some s => .ok (P.output s)

/-- Whether a node is there and has an output. -/
def hasOutput (node : NodeId) (sim : Simulation P) : Bool :=
  (sim.nodes.get? node).any fun s => (P.output s).isSome

/-- Takes steps until a node has an output or nothing is left to do, and tells whether it has. -/
def runUntilOutput (node : NodeId) (sim : Simulation P) : Except Fault (Simulation P × Bool) := do
  let _ ← sim.output node
  sim.runUntil (hasOutput node) stepLimit

def outputCount (sim : Simulation P) : Nat := sim.nodes.values.countP fun s => (P.output s).isSome

/-- A line on the progress of every node. -/
def status (sim : Simulation P) : List String :=
  sim.nodes.entries.map fun (node, s) => s!"{node.display}: {P.status node s}"

end Simulation

end Quorum
