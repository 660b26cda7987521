import Quorum.Protocol

/-!
# Mesh — a committee over an adversarial network

Every message that a node has ever sent stays in a pool, stamped with its true sender, and may be
handed to its recipient at any time, any number of times, or never.  Nodes may restart with their
memory lost while their old messages stay in the pool.
-/

namespace Quorum

/-- A committee and everything that it has sent. -/
structure Mesh (P : Protocol) where
  nodes : SortedMap NodeId P.State
  /-- Every message sent, oldest first. -/
  pool : Array (Packet P.Msg) := #[]

namespace Mesh
variable {P : Protocol}

/-- A mesh of nodes before their first event. -/
def start (P : Protocol) (ids : List NodeId) : Except Fault (Mesh P) := do
  let nodes ← ids.foldlM (fun nodes id => do return nodes.insert id (← P.start id)) ∅
  return { nodes }

/-- Why an event of a mesh did not happen. -/
inductive Obstacle where
  | noNode (node : NodeId)
  | nothingSent
  /-- The recipient cannot read the message. -/
  | undecodable (error : Wire.DecodeError)
  | fault (fault : Fault)

/-- Takes up the outcome of an event at a node, and tells what it sent. -/
def settle (mesh : Mesh P) (node : NodeId) (outcome : Outcome P.State P.Msg) :
    Except Obstacle (Mesh P × List (Outgoing P.Msg)) :=
  match outcome with
  | .ok r =>
    .ok ({ nodes := mesh.nodes.insert node r.state
           pool := mesh.pool ++ r.sent.map (Outgoing.sentBy node) }, r.sent)
  | .error failure => .error (.fault failure.fault)

def input (mesh : Mesh P) (node : NodeId) (i : P.Input) :
    Except Obstacle (Mesh P × List (Outgoing P.Msg)) :=
  match mesh.nodes.get? node with
  | none => .error (.noNode node)
  | some s => mesh.settle node (P.input node s i)

/-- Hands a message to its recipient, by way of its encoding. -/
def deliver (mesh : Mesh P) (p : Packet P.Msg) :
    Except Obstacle (Mesh P × List (Outgoing P.Msg)) :=
  match mesh.nodes.get? p.recipient with
  | none => .error (.noNode p.recipient)
  | some s =>
    match P.encode p.body with
    | .error e => .error (.fault (.unencodable e))
    | .ok bytes =>
      match P.decode bytes with
      | .error e => .error (.undecodable e)
      | .ok m => mesh.settle p.recipient (P.receive p.recipient s p.sender m)

/-- The message in the pool that a number picks, round and round. -/
def pick? (mesh : Mesh P) (i : Nat) : Option (Packet P.Msg) := mesh.pool[i % mesh.pool.size]?

/-- Changes the state of a node from outside. -/
def modify (mesh : Mesh P) (node : NodeId) (f : P.State → P.State) : Except Obstacle (Mesh P) :=
  match mesh.nodes.get? node with
  | none => .error (.noNode node)
  | some s => .ok { mesh with nodes := mesh.nodes.insert node (f s) }

/-- Replaces a node by one before its first event. -/
def restart (mesh : Mesh P) (node : NodeId) : Except Obstacle (Mesh P) :=
  match P.start node with
  | .ok s => mesh.modify node fun _ => s
  | .error fault => .error (.fault fault)

end Mesh

end Quorum
