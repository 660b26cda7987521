import Quorum.Broadcast
import Quorum.Routed

/-!
# Gather — one value from each of a quorum of members

Every member reliably broadcasts one value, and every node runs the broadcasts of all members side
by side.  Its output is the set of values delivered at the moment when they first come from a
quorum.  The messages of a broadcast travel routed: subsystem 0, and as index the position of the
broadcaster in the committee.
-/

namespace Quorum.Gather

open Wire

/-- The messages of a gather: those of its broadcasts, routed. -/
abbrev Message := Routed Broadcast.Message

/-- What a node remembers of a gather in the committee `c`. -/
structure State (c : Committee) where
  broadcasts : Vector Broadcast.State c.size
  /-- This node's own value has been given. -/
  inputGiven : Bool := false
  /-- The values of the first quorum. -/
  output : Option (SortedMap NodeId Bytes) := none
  deriving DecidableEq

/-- The subsystem of the broadcasts. -/
def broadcastSubsystem : UInt8 := 0

/-- The state before any event. -/
def State.initial (c : Committee) : State c := { broadcasts := Vector.replicate c.size {} }

/-- The member whose broadcast has a given index. -/
def broadcaster (c : Committee) (i : Fin c.size) : NodeId := c.members.get i

/-- The values delivered so far, by broadcaster. -/
def delivered {c : Committee} (s : State c) : SortedMap NodeId Bytes :=
  SortedMap.ofList ((c.members.zip s.broadcasts.toList).filterMap fun (id, b) =>
    b.delivered.map fun value => (id, value))

/-- Makes the values delivered the output once they come from a quorum. -/
def settle {c : Committee} (s : State c) : State c :=
  if s.output.isNone ∧ c.quorum ≤ (delivered s).size then { s with output := delivered s } else s

/-- Carries the reaction of broadcast `i` out of the gather. -/
def lift {c : Committee} (s : State c) (i : Fin c.size)
    (r : Reaction Broadcast.State Broadcast.Message) : Reaction (State c) Message where
  state := settle { s with broadcasts := s.broadcasts.set i r.state }
  sent := r.sent.map (Outgoing.map fun m => ⟨broadcastSubsystem, UInt16.ofNat i, m⟩)
  warnings := r.warnings

/-- The reaction to the node's own value. -/
def input (c : Committee) (me : NodeId) (s : State c) (value : Bytes) :
    Except Fault (Reaction (State c) Message) :=
  if s.inputGiven then .error .gatherInputTwice
  else
    match c.indexOf? me with
    | none => .error (.notAMember me)
    | some i => do
      let r ← Broadcast.input c (broadcaster c i) me s.broadcasts[i] value
      return lift { s with inputGiven := true } i r

def receive (c : Committee) (s : State c) (sender : NodeId) (m : Message) :
    Except Fault (Reaction (State c) Message) :=
  if h : m.subsystem = broadcastSubsystem ∧ m.index.toNat < c.size then
    let i : Fin c.size := ⟨m.index.toNat, h.2⟩
    .ok (lift s i (Broadcast.receive c (broadcaster c i) s.broadcasts[i] sender m.inner))
  else .error (.noInstance m.subsystem m.index)

/-- The encoding of a message: the tag 1, the route, the nested message. -/
def encode (m : Message) : Except EncodeError Bytes := do
  return putU8 1 ++ (← m.encodeBody Broadcast.Message.encode)

/-- Reads the message of a broadcast, if the route leads to one. -/
def decodeInner (c : Committee) (subsystem : UInt8) (index : UInt16) (inner : Bytes) :
    Except DecodeError Broadcast.Message :=
  if subsystem = broadcastSubsystem ∧ index.toNat < c.size then
    Broadcast.Message.read.decode inner
  else .error (.invalid (Fault.noInstance subsystem index).message)

/-- Reads a message up to the end of the input. -/
def read (c : Committee) : Reader Message := do
  let tag ← Reader.u8
  if tag = 1 then
    let m ← Routed.readBody (decodeInner c)
    Reader.finish
    return m
  else throw (.unknownTag tag "Gather")

def status {c : Committee} (s : State c) : String :=
  let count := s.broadcasts.toList.countP (·.delivered.isSome)
  s!"\x7bGather: delivered={count}/{c.size}, quorum={c.quorum}, done={s.output.isSome}\x7d"

end Quorum.Gather

namespace Quorum

/-- The gather of one value from each of a quorum of the committee `c`. -/
def Protocol.gather (c : Committee) : Protocol where
  State := Gather.State c
  Input := Bytes
  Output := SortedMap NodeId Bytes
  Msg := Gather.Message
  start me := if me ∈ c then .ok (Gather.State.initial c) else .error (.notAMember me)
  input me s value := (Gather.input c me s value).mapError ({ fault := · })
  receive _ s sender m := (Gather.receive c s sender m).mapError ({ fault := · })
  output s := s.output
  encode := Gather.encode
  decode := (Gather.read c).decode
  status _ := Gather.status

end Quorum
