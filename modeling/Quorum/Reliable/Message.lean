import Quorum.Protocol
import Quorum.Reliable.ReceivedIds

/-!
# Message — what reliable channels exchange

A batch carries messages of the nested protocol and acknowledgements.  Without a number it carries
acknowledgements only, and is sent once.  A reset asks the peer for the last batch number that it
has seen, or tells it.
-/

namespace Quorum.Reliable

open Wire

/-- Nested messages and acknowledgements for one recipient. -/
structure Batch (μ : Type) where
  /-- The number of the batch, if it is to be acknowledged. -/
  id : Option BatchId := none
  msgs : List μ := []
  /-- The numbers of batches that have arrived. -/
  acks : List BatchId := []
  deriving DecidableEq, Repr

/-- The handshake that settles the numbering towards a peer. -/
structure Reset where
  isResponse : Bool
  /-- The largest batch number that the responder has seen; without meaning in a request. -/
  latest : BatchId
  deriving DecidableEq, Repr

/-- A message between two reliable channels. -/
inductive Message (μ : Type) where
  | batch (b : Batch μ)
  | reset (r : Reset)
  deriving DecidableEq, Repr

def Reset.request : Reset := ⟨false, 0⟩

/-- The most nested messages that one batch can carry. -/
def maxBatch : Nat := 65535

section
variable {μ : Type}

/-- The encodings of nested messages, each behind its length. -/
def putMsgs (encode : μ → Except EncodeError Bytes) (msgs : List μ) :
    Except EncodeError Bytes := do
  let parts ← msgs.foldlM (fun parts m => do return parts.push (← putBytes (← encode m))) #[]
  return parts.toList.flatten

/-- The encoding of a batch behind its tag. -/
def Batch.encodeBody (encode : μ → Except EncodeError Bytes) (b : Batch μ) :
    Except EncodeError Bytes := do
  let number := match b.id with
    | some id => putU32 id
    | none => []
  let msgCount ← putCount b.msgs.length
  let msgs ← putMsgs encode b.msgs
  let ackCount ← putCount b.acks.length
  return putBool b.id.isSome ++ number ++ msgCount ++ msgs ++ ackCount ++ b.acks.flatMap putU32

namespace Message

def encode (encode : μ → Except EncodeError Bytes) : Message μ → Except EncodeError Bytes
  | batch b => do return putU8 1 ++ (← b.encodeBody encode)
  | reset r => .ok (putU8 2 ++ putBool r.isResponse ++ putU32 r.latest)

/-- Reads one nested message behind its length. -/
def readInner (decode : Bytes → Except DecodeError μ) : Reader μ := do
  match decode (← Reader.bytes) with
  | .ok m => return m
  | .error e => throw e

def readNumber : Reader (Option BatchId) := do
  if ← Reader.bool then return some (← Reader.u32) else return none

def readBatch (decode : Bytes → Except DecodeError μ) : Reader (Batch μ) := do
  let id ← readNumber
  let msgs ← Reader.times (← Reader.u16).toNat (readInner decode)
  let acks ← Reader.times (← Reader.u16).toNat Reader.u32
  return { id, msgs, acks }

/-- Reads a message up to the end of the input. -/
def read (decode : Bytes → Except DecodeError μ) : Reader (Message μ) := do
  let tag ← Reader.u8
  if tag = 1 then
    let b ← readBatch decode
    Reader.finish
    return batch b
  else if tag = 2 then
    let isResponse ← Reader.bool
    let latest ← Reader.u32
    Reader.finish
    return reset { isResponse, latest }
  else throw (.unknownTag tag "AckHandler")

end Message

end

end Quorum.Reliable
