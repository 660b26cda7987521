import Quorum.Fifo
import Quorum.Randomness.Loss
import Quorum.Transport.Frame

/-!
# MemoryNetwork — a transport within one process

Every node registers an inbox, a bounded queue of frames.  A frame sent is lost with a seeded
probability; a survivor goes to the inbox registered for its recipient at that moment, and is lost
as on a wire if there is none, if it is full, or if nobody reads it any more.
-/

namespace Quorum.Transport

open Randomness Signing

/-- How many elements a queue may hold. -/
def validCapacity (capacity : Nat) : Bool := 0 < capacity ∧ capacity < 1 <<< 61

/-- A bounded queue of frames. -/
structure Inbox (S : Scheme) where
  capacity : Nat
  /-- The frames in it, oldest first. -/
  frames : Fifo (Frame S) := {}
  /-- Whether somebody still reads it. -/
  isOpen : Bool := true

/-- The number of an inbox, in order of registration. -/
abbrev InboxId := Nat

/-- A network and its inboxes. -/
structure MemoryNetwork (S : Scheme) where
  /-- Decides which frames survive. -/
  loss : Loss := Loss.none
  inboxes : Array (Inbox S) := #[]
  routes : SortedMap NodeId InboxId := ∅
  /-- The number of frames put into an inbox. -/
  delivered : Nat := 0
  /-- The number of frames lost for any reason. -/
  dropped : Nat := 0

/-- What a reader finds in an inbox. -/
inductive Received (S : Scheme) where
  | frame (f : Frame S)
  /-- No frame, but some may come. -/
  | empty
  /-- No frame, and none will come: no node is registered with this inbox. -/
  | closed
  /-- There is no such inbox, or it has been closed by its reader. -/
  | noInbox

namespace MemoryNetwork
variable {S : Scheme}

/-- Gives a node a new inbox, in the place of any it had. -/
def register (net : MemoryNetwork S) (node : NodeId) (capacity : Nat) :
    Except Fault (MemoryNetwork S × InboxId) :=
  if validCapacity capacity then
    .ok ({ net with
      inboxes := net.inboxes.push { capacity }
      routes := net.routes.insert node net.inboxes.size }, net.inboxes.size)
  else .error .badCapacity

/-- Gives a node an inbox that there is already, in the place of any it had. -/
def connect (net : MemoryNetwork S) (node : NodeId) (inbox : InboxId) : MemoryNetwork S :=
  { net with routes := net.routes.insert node inbox }

def unregister (net : MemoryNetwork S) (node : NodeId) : MemoryNetwork S :=
  { net with routes := net.routes.erase node }

/-- Closes an inbox from the reader's side; the frames in it are gone. -/
def close (net : MemoryNetwork S) (inbox : InboxId) : MemoryNetwork S :=
  { net with inboxes := net.inboxes.modify inbox fun b => { b with frames := {}, isOpen := false } }

/-- The inbox that takes a frame for a node, if there is one with room. -/
def accepting? (net : MemoryNetwork S) (node : NodeId) : Option InboxId := do
  let inbox ← net.routes.get? node
  let b ← net.inboxes[inbox]?
  if b.isOpen ∧ b.frames.length < b.capacity then some inbox else none

/-- Carries a frame to a node, or loses it. -/
def route (net : MemoryNetwork S) (node : NodeId) (f : Frame S) :
    Except Fault (MemoryNetwork S) :=
  match net.loss.draw with
  | .error .notAProbability => .error .notAProbability
  | .ok (survives, loss) =>
    let net := { net with loss }
    match if survives then net.accepting? node else none with
    | some inbox =>
      .ok { net with
        inboxes := net.inboxes.modify inbox fun b => { b with frames := b.frames.push f }
        delivered := net.delivered + 1 }
    | none => .ok { net with dropped := net.dropped + 1 }

/-- Signs a frame and sends it to a node. -/
def send (net : MemoryNetwork S) (secret : S.Secret) (node : NodeId) (channel : Channel)
    (msgType : UInt8) (payload : Bytes) : Except Fault (MemoryNetwork S) :=
  net.route node (Frame.signed secret channel msgType payload)

/-- Carries a frame to a node again and again. -/
def routeTimes (net : MemoryNetwork S) (node : NodeId) (f : Frame S) :
    (times : Nat) → Except Fault (MemoryNetwork S)
  | 0 => .ok net
  | times + 1 =>
    match net.route node f with
    | .ok net => net.routeTimes node f times
    | .error fault => .error fault

def isRouted (net : MemoryNetwork S) (inbox : InboxId) : Bool := net.routes.values.contains inbox

/-- Takes the oldest frame out of an inbox. -/
def recv (net : MemoryNetwork S) (inbox : InboxId) : MemoryNetwork S × Received S :=
  match net.inboxes[inbox]? with
  | none => (net, .noInbox)
  | some b =>
    if !b.isOpen then (net, .noInbox)
    else
      match b.frames.pop? with
      | some (f, frames) =>
        ({ net with inboxes := net.inboxes.modify inbox fun b => { b with frames } }, .frame f)
      | none => (net, if net.isRouted inbox then .empty else .closed)

end MemoryNetwork

end Quorum.Transport
