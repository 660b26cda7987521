import Quorum.Protocol
import Quorum.Signing

/-!
# Frame — signed units of transport

The transport carries frames from point to point.  It may lose, repeat or reorder them, but every
frame is signed, and its receiver takes the sender's identity from the signing key, never from the
payload.
-/

namespace Quorum.Transport

open Signing

/-- Which protocol instance a frame belongs to, among those that share a transport. -/
abbrev Channel := Vector UInt8 32

/-- The message type of protocol traffic. -/
def protocolTraffic : UInt8 := 1

/-- A signed frame. -/
structure Frame (S : Scheme) where
  channel : Channel
  msgType : UInt8
  payload : Bytes
  /-- The key that the frame claims to be signed under. -/
  signer : S.Key
  signature : S.Sig

/-- Why a frame, or a command to a node, comes to nothing. -/
inductive Rejection where
  | undecodable (error : Wire.DecodeError)
  | badSignature
  | unknownPeer (node : NodeId)
  | stopped
  deriving DecidableEq, Repr

def Rejection.message : Rejection → String
  | undecodable error => s!"decode failed: {error.message}"
  | badSignature => "frame signature does not verify"
  | unknownPeer node => s!"frame from non-member {node.display}"
  | stopped => "node driver has stopped"

namespace Frame
variable {S : Scheme}

/-- What is signed: channel, message type and payload. -/
def digest (channel : Channel) (msgType : UInt8) (payload : Bytes) : Digest :=
  Signing.digest [channel.toList, [msgType], payload]

/-- The frame that the holder of a secret signs. -/
def signed (secret : S.Secret) (channel : Channel) (msgType : UInt8) (payload : Bytes) :
    Frame S where
  channel
  msgType
  payload
  signer := S.key secret
  signature := S.sign secret (digest channel msgType payload)

/-- The identity of the signer, if the signature is valid. -/
def verify (frame : Frame S) : Except Rejection NodeId :=
  if S.verify frame.signer (digest frame.channel frame.msgType frame.payload) frame.signature then
    .ok (S.nodeId frame.signer)
  else .error .badSignature

end Frame

end Quorum.Transport
