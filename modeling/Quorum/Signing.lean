import Quorum.Ed25519.Signature
import Quorum.NodeId

/-!
# Signing — keys, signatures and the identities behind them

A node is addressed by the hash of its public key, so that whoever can sign under a key speaks for
one id.  What follows from a signature scheme needs no more than `Scheme`; the scheme in use is
`Scheme.ed25519`.
-/

namespace Quorum.Signing

/-- The bytes that are signed: the 64-byte hash of what is to be authenticated. -/
abbrev Digest := Bytes

/-- The digest of several parts, one behind the other. -/
def digest (parts : List Bytes) : Digest := Sha2.sha512 parts.flatten

/-- A signature scheme, with the ids of its keys. -/
structure Scheme where
  /-- What a signer keeps to itself. -/
  Secret : Type
  Key : Type
  Sig : Type
  key : Secret → Key
  sign : Secret → Digest → Sig
  /-- Whether a signature of a digest is valid for a key. -/
  verify : Key → Digest → Sig → Bool
  /-- The id of the node that signs under a key. -/
  nodeId : Key → NodeId

def Scheme.idOf (S : Scheme) (secret : S.Secret) : NodeId := S.nodeId (S.key secret)

/-- Signatures over the curve of `Quorum.Ed25519`; an id is the SHA-256 hash of a key. -/
def Scheme.ed25519 : Scheme where
  Secret := Vector UInt8 32
  Key := Vector UInt8 32
  Sig := Vector UInt8 64
  key seed := Bytes.fixed 32 (Ed25519.publicKey seed.toList)
  sign seed d := Bytes.fixed 64 (Ed25519.sign seed.toList d)
  verify key d sig := Ed25519.verify key.toList sig.toList d
  nodeId key := NodeId.ofBytes (Sha2.sha256 key.toList)

/-- The seed of the sample key with a given number. -/
def sampleSeed (i : Nat) : Vector UInt8 32 :=
  Bytes.fixed 32 (Bytes.ofNatLE 8 i ++ Bytes.ofNatLE 8 0x517cc1b727220a95)

end Quorum.Signing
