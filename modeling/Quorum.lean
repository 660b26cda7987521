import Quorum.Bytes
import Quorum.Bytes.Hex
import Quorum.SortedMap
import Quorum.Fifo
import Quorum.NodeId
import Quorum.Wire.Writer
import Quorum.Wire.Reader
import Quorum.Wire.Field
import Quorum.Sha2
import Quorum.Ed25519.Field
import Quorum.Ed25519.Point
import Quorum.Ed25519.Signature
import Quorum.Randomness.ChaCha
import Quorum.Randomness.Loss
import Quorum.Committee
import Quorum.Protocol
import Quorum.Outbox
import Quorum.Routed
import Quorum.PingPong
import Quorum.Broadcast.Tally
import Quorum.Broadcast.Message
import Quorum.Broadcast
import Quorum.Gather
import Quorum.SelfDelivery
import Quorum.Reliable.ReceivedIds
import Quorum.Reliable.Message
import Quorum.Reliable.Link
import Quorum.Reliable
import Quorum.Labelled
import Quorum.Simulation
import Quorum.Mesh
import Quorum.Signing
import Quorum.Transport.Frame
import Quorum.Transport.MemoryNetwork
import Quorum.Transport.Node
import Quorum.Proofs.Bytes
import Quorum.Proofs.Run
import Quorum.Proofs.Quorums
import Quorum.Proofs.Broadcast.Reaction
import Quorum.Proofs.Broadcast.Agreement
import Quorum.Proofs.Broadcast.Totality
import Quorum.Proofs.Broadcast.Validity
import Quorum.Proofs.Broadcast.Traffic
import Quorum.Proofs.SortedMap
import Quorum.Proofs.Projection
import Quorum.Proofs.Gather.Reaction
import Quorum.Proofs.Gather.Instances
import Quorum.Proofs.Gather.Agreement
import Quorum.Proofs.Gather.Completion
import Quorum.Proofs.Recorded
import Quorum.Proofs.Reliable.ReceivedIds
import Quorum.Proofs.Reliable.Channel
import Quorum.Proofs.Reliable.Reaction
import Quorum.Proofs.Reliable.Network
import Quorum.Proofs.Reliable.AtMostOnce
import Quorum.Proofs.Reliable.Acknowledged
import Quorum.Proofs.Wire.Reader
import Quorum.Proofs.Wire.Messages
import Quorum.Proofs.Tame
import Quorum.Proofs.SelfDelivery
import Quorum.Proofs.Gather.Traffic
import Quorum.Proofs.Reliable.Posting
import Quorum.Proofs.Reliable.Lane
import Quorum.Proofs.Reliable.Serving
import Quorum.Proofs.Reliable.Lossless
import Quorum.Proofs.Simulation
import Quorum.Proofs.Reliable.Drain
import Quorum.Proofs.Gather.EndToEnd
import Quorum.Proofs.Reliable.Act
import Quorum.Proofs.Reliable.Register
import Quorum.Proofs.Reliable.Exhaustion
import Quorum.Proofs.Reliable.Incarnation
import Quorum.Proofs.Wire.Exact
import Quorum.Proofs.Reliable.Codec
import Quorum.Proofs.Gather.Codec
import Quorum.Proofs.Wire.Legible
import Quorum.Proofs.Wire.Transparency
import Quorum.Proofs.Frugal
import Quorum.Proofs.Reliable.Coherent
import Quorum.Proofs.Reliable.Answer
import Quorum.Proofs.Reliable.Rest
import Quorum.Proofs.Reliable.Dismissal
import Quorum.Proofs.Reliable.Progress
import Quorum.Proofs.Transport.History
import Quorum.Proofs.Transport.Authenticity
import Quorum.Proofs.Transport.Recipient
import Quorum.Proofs.Transport.Unrecorded
import Quorum.Proofs.History
import Quorum.Proofs.Loopback
import Quorum.Proofs.Broadcast.Chronicle
import Quorum.Proofs.Gather.FirstQuorum
import Quorum.Proofs.Gather.Product
import Quorum.Proofs.Reliable.Kept
import Quorum.Proofs.Reliable.Bookkeeping
import Quorum.Proofs.Reliable.Handshake
import Quorum.Proofs.Reliable.Gaps
import Quorum.Proofs.Reliable.Resend
import Quorum.Proofs.Reliable.Isolation
import Quorum.Proofs.Settling
import Quorum.Proofs.Wire.Cut
import Quorum.Proofs.Transport.BadFrames
import Quorum.Proofs.Reliable.ReceivedSet
import Quorum.Proofs.Wire.Record
import Quorum.Proofs.Randomness.Loss
import Quorum.Proofs.Transport.Inboxes
import Quorum.Proofs.Ledger
