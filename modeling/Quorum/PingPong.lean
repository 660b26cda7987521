import Quorum.Protocol

/-!
# PingPong — the smallest protocol that answers

A ping carries a number of bounces left.  A node records every ping it receives and, while bounces
are left, answers its sender with one less.  Its output is the record at the moment when it first
holds the expected number of pings.
-/

namespace Quorum.PingPong

open Wire

/-- A ping with the number of times it is still to be answered. -/
structure Ping where
  ttl : UInt8
  deriving DecidableEq, Repr

/-- The request to send a ping. -/
structure Serve where
  recipient : NodeId
  ttl : UInt8
  deriving DecidableEq, Repr

/-- What a node remembers. -/
structure State where
  /-- Every ping received, with its sender, oldest first. -/
  received : Array (NodeId × UInt8) := #[]
  /-- The record that became the output. -/
  output : Option (List (NodeId × UInt8)) := none
  deriving DecidableEq, Repr

/-- The state before any ping; nothing to wait for is an output at once. -/
def State.initial (expect : Nat) : State := { output := if expect = 0 then some [] else none }

def serve (s : State) (request : Serve) : Reaction State Ping :=
  { state := s, sent := [⟨request.recipient, ⟨request.ttl⟩⟩] }

def receive (expect : Nat) (s : State) (sender : NodeId) (ping : Ping) : Reaction State Ping :=
  let received := s.received.push (sender, ping.ttl)
  let output :=
    if s.output.isNone ∧ expect ≤ received.size then some received.toList else s.output
  let sent := if 0 < ping.ttl then [⟨sender, ⟨ping.ttl - 1⟩⟩] else []
  { state := { received, output }, sent }

/-- A ping is written as the tag 1 and its number. -/
def encode (ping : Ping) : Bytes := putU8 1 ++ putU8 ping.ttl

/-- Reads a ping up to the end of the input. -/
def read : Reader Ping := do
  let tag ← Reader.u8
  if tag = 1 then
    let ttl ← Reader.u8
    Reader.finish
    return ⟨ttl⟩
  else throw (.unknownTag tag "PingPong")

def status (expect : Nat) (me : NodeId) (s : State) : String :=
  s!"\x7bPingPong@{me.display}: received={s.received.size}/{expect}\x7d"

end Quorum.PingPong

namespace Quorum

/-- The protocol that answers pings and waits for `expect` of them. -/
def Protocol.pingPong (expect : Nat) : Protocol where
  State := PingPong.State
  Input := PingPong.Serve
  Output := List (NodeId × UInt8)
  Msg := PingPong.Ping
  start _ := .ok (PingPong.State.initial expect)
  input _ s request := .ok (PingPong.serve s request)
  receive _ s sender ping := .ok (PingPong.receive expect s sender ping)
  output s := s.output
  encode ping := .ok (PingPong.encode ping)
  decode := PingPong.read.decode
  status := PingPong.status expect

instance {expect : Nat} : DecidableEq (Protocol.pingPong expect).Msg :=
  inferInstanceAs (DecidableEq PingPong.Ping)

end Quorum
