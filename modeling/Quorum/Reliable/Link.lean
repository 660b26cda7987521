import Quorum.Fifo
import Quorum.Reliable.Message

/-!
# Link — the state of the channel to one peer

Numbering towards a peer starts only after a reset handshake: the peer tells the last number that
it has seen from this node, and numbering continues above it.  Until then messages are buffered.
A numbered batch is kept until the peer acknowledges it.  Numbers received are remembered, and
with them the batch of this node that carried each acknowledgement.
-/

namespace Quorum.Reliable

/-- A point in time, in nanoseconds. -/
abbrev Time := Nat

/-- A batch that waits for its acknowledgement. -/
structure Unacked (μ : Type) where
  batch : Batch μ
  /-- When the batch was last known to be on its way, if a tick has come since. -/
  stamp : Option Time := none
  deriving DecidableEq, Repr

/-- Everything remembered about one peer. -/
structure Link (μ : Type) where
  /-- The number of the next batch to the peer; none before the handshake. -/
  nextId : Option BatchId := none
  resetSent : Bool := false
  /-- Messages that wait for the handshake, in order. -/
  pending : Fifo μ := {}
  /-- Numbered batches not yet acknowledged. -/
  unacked : SortedMap BatchId (Unacked μ) := ∅
  received : ReceivedIds := {}
  /-- For a number received: the number of the batch that carried its acknowledgement. -/
  ackedIn : SortedMap BatchId BatchId := ∅
  /-- The number told in the last answer to a reset request.  A peer that restarts continues
  above it. -/
  answeredReset : Option BatchId := none

instance {μ : Type} : Inhabited (Link μ) := ⟨{}⟩

namespace Link
variable {μ : Type}

/-- Whether the numbering towards the peer is settled. -/
def isInitialized (link : Link μ) : Bool := link.nextId.isSome

/-! ### Receiving -/

/-- Takes note that the peer has a batch; it then has every acknowledgement in it, too. -/
def acked (link : Link μ) (id : BatchId) : Link μ :=
  if link.unacked.contains id then
    { link with
      unacked := link.unacked.erase id
      ackedIn := link.ackedIn.filter fun _ carrier => carrier ≠ id }
  else link

/-- Gives up on what the peer sent before it restarted: numbers up to the last answer that are
still missing will never come. -/
def forgetPrevious (link : Link μ) : Link μ :=
  match link.answeredReset with
  | none => link
  | some answered =>
    { link with
      received := link.received.forgetThrough answered
      ackedIn := link.ackedIn.filter fun id _ => answered < id
      answeredReset := none }

/-- Whether a batch of this number is the first one above the last answer to a reset request. -/
def startsNewRun (link : Link μ) (id : BatchId) : Bool :=
  link.answeredReset.bind BatchId.next? = some id

/-- What is to be done about a batch that has come in. -/
inductive Verdict where
  /-- The batch had acknowledgements only. -/
  | done
  | duplicate (id : BatchId)
  | fresh (id : BatchId)
  deriving DecidableEq, Repr

/-- Takes note of a batch: first of its acknowledgements, then of its number. -/
def accept (link : Link μ) (b : Batch μ) : Link μ × Verdict :=
  let link := b.acks.foldl acked link
  match b.id with
  | none => (link, .done)
  | some id =>
    let link := if link.startsNewRun id then link.forgetPrevious else link
    let recorded := link.received.record id
    ({ link with received := recorded.2 }, if recorded.1 then .fresh id else .duplicate id)

/-- The answer to a batch that came in again: the batch that carried its acknowledgement, if it is
still kept, or else the acknowledgement alone.  A batch sent again is stamped anew by the next
tick. -/
def reacknowledge (link : Link μ) (id : BatchId) : Link μ × Message μ :=
  let carrier? := do
    let carrier ← link.ackedIn.get? id
    let kept ← link.unacked.get? carrier
    return (carrier, kept)
  match carrier? with
  | some (carrier, kept) =>
    ({ link with unacked := link.unacked.insert carrier { kept with stamp := none } },
      .batch kept.batch)
  | none => (link, .batch { acks := [id] })

/-- Answers a reset request with the last number seen. -/
def answerReset (link : Link μ) : Link μ × Message μ :=
  let latest := link.received.latest
  ({ link with answeredReset := some latest }, .reset ⟨true, latest⟩)

/-! ### Sending -/

/-- Cuts a list into pieces of `size` elements, the last one shorter. -/
def pieces (size : Nat) : (fuel : Nat) → List μ → List (List μ)
  | 0, _ => []
  | _, [] => []
  | fuel + 1, l => l.take size :: pieces size fuel (l.drop size)

/-- The acknowledgement alone, if one is owed. -/
def ackAlone (owed : Option BatchId) : List (Message μ) :=
  match owed with
  | none => []
  | some id => [.batch { acks := [id] }]

/-- Sends one batch with a number.  The last number there is cannot be used. -/
def sendBatch (link : Link μ) (id : BatchId) (msgs : List μ) (owed : Option BatchId) :
    Except Fault (Link μ × Message μ) :=
  match id.next? with
  | none => .error .batchIdsExhausted
  | some next =>
    let b : Batch μ := { id := some id, msgs, acks := owed.toList }
    let ackedIn := match owed with
      | none => link.ackedIn
      | some ack => link.ackedIn.insert ack id
    let unacked := link.unacked.insert id { batch := b }
    .ok ({ link with nextId := some next, unacked, ackedIn }, .batch b)

/-- Sends pieces as batches with consecutive numbers; the first one carries what is owed. -/
def sendBatches (link : Link μ) (id : BatchId) (owed : Option BatchId) :
    List (List μ) → Except Fault (Link μ × List (Message μ))
  | [] => .ok (link, [])
  | msgs :: rest => do
    let (link, m) ← link.sendBatch id msgs owed
    let (link, ms) ← link.sendBatches (id + 1) none rest
    return (link, m :: ms)

/-- Keeps messages until the handshake, and asks for one unless that is under way. -/
def buffer (link : Link μ) (msgs : List μ) : Link μ × List (Message μ) :=
  ({ link with pending := link.pending.pushAll msgs, resetSent := true },
    if link.resetSent then [] else [.reset .request])

/-- Sends messages to the peer, with the acknowledgement owed to it: in numbered batches, or
buffered before the handshake.  An acknowledgement that no batch can carry goes alone. -/
def post (link : Link μ) (msgs : List μ) (owed : Option BatchId) :
    Except Fault (Link μ × List (Message μ)) :=
  if msgs.isEmpty then .ok (link, ackAlone owed)
  else
    match link.nextId with
    | none =>
      let (link, sent) := link.buffer msgs
      .ok (link, sent ++ ackAlone owed)
    | some id => link.sendBatches id owed (pieces maxBatch msgs.length msgs)

/-- Settles the numbering at `next` and sends what was buffered. -/
def settleNumbering (link : Link μ) (next : BatchId) : Except Fault (Link μ × List (Message μ)) :=
  { link with nextId := some next, resetSent := false, pending := {} }.post
    link.pending.toList none

/-! ### Time -/

/-- What a tick does to a batch that is kept, and whether it sends it again: a batch without a
stamp gets one; a batch whose stamp is older than `period` is sent and stamped. -/
def Unacked.tick (period now : Time) (kept : Unacked μ) : Unacked μ × Bool :=
  match kept.stamp with
  | none => ({ kept with stamp := some now }, false)
  | some stamp =>
    if stamp + period < now then ({ kept with stamp := some now }, true) else (kept, false)

def needsReset (link : Link μ) : Bool :=
  !link.isInitialized && (link.resetSent || link.pending.length ≠ 0)

def tick (period now : Time) (link : Link μ) : Link μ :=
  { link with
    unacked := link.unacked.mapVals fun kept => (Unacked.tick period now kept).1
    resetSent := link.resetSent || link.needsReset }

/-- What a tick sends: every batch that has waited too long, then the reset request if the
handshake is due. -/
def resent (period now : Time) (link : Link μ) : List (Message μ) :=
  (link.unacked.values.filter fun kept => (Unacked.tick period now kept).2).map
    (fun kept => .batch kept.batch) ++
  if link.needsReset then [.reset .request] else []

end Link

end Quorum.Reliable
