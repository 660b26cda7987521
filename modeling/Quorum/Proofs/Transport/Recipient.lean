import Quorum.PingPong
import Quorum.Proofs.Run
import Quorum.Proofs.Transport.History

/-!
# Recipient — a frame is bound to its sender, and to nobody else

Nodes of one committee and one channel send each other frames through a network that may lose,
repeat and reorder them, hand them to anybody, and bring frames of its own.  It cannot forge the
signatures of the nodes, and has no other keys of the same ids.  A frame then tells who has sent it
and what, but not to whom: the recipient is the destination that the transport is given, and is not
among what is signed.

**Main statements.**  `Reaches.regular`: what all nodes of a network have in common.
`frame_of_examine`: a frame that is taken has been sent as it is by the node that has signed it.
`recipient_plays_no_part`: whomever it has been sent to, it may come to any node, and means the same
to all of them.  `misdirected_is_taken`: so a node takes a frame that has not been sent to it.
-/

namespace Quorum.Transport

open Signing

/-- A signature is valid exactly if it is the one that the holder of the secret gives. -/
def Exact (S : Scheme) : Prop :=
  ∀ secret d sig, S.verify (S.key secret) d sig = true ↔ sig = S.sign secret d

theorem exact_idealScheme : Exact idealScheme :=
  fun (_ : NodeId) (_ : Digest) (_ : NodeId × Digest) => decide_eq_true_iff

abbrev Net (S : Scheme) (P : Protocol) := SortedMap NodeId (Node S P)

section
variable {S : Scheme} {P : Protocol} {secret : NodeId → S.Secret} {members : Committee}
  {channel : Channel} {net : Net S P} {node node' : Node S P} {f : Frame S} {x : Sent}
  {a b : NodeId} {m : Reliable.Message P.Msg}

def Sent.frame (secret : S.Secret) (x : Sent) : Frame S :=
  .signed secret x.channel x.msgType x.payload

/-- Two different payloads with one digest, so that a signature of the one fits the other. -/
def Collide (channel : Channel) (payload payload' : Bytes) : Prop :=
  payload ≠ payload' ∧
    Frame.digest channel protocolTraffic payload = Frame.digest channel protocolTraffic payload'

/-- What a network that cannot forge may bring: nothing under another key of the same id, and no
signature of a node under what the node has not signed. -/
structure Carries (secret : NodeId → S.Secret) (net : Net S P) (f : Frame S) : Prop where
  signer : ∀ a node, net.get? a = some node → S.nodeId f.signer = a → f.signer = S.key (secret a)
  unforged : ∀ a node, net.get? a = some node → f.signer = S.key (secret a) →
    f.signature = S.sign (secret a) (Frame.digest f.channel f.msgType f.payload) →
    ∃ x ∈ node.sent, Frame.digest f.channel f.msgType f.payload =
      Frame.digest x.channel x.msgType x.payload

/-- The networks that nodes of one committee and one channel may come to.  Each has started under
the id of its key, and has taken its first tick or not; it is given commands, time passes for it,
and the frames come that the network brings. -/
inductive Reaches (secret : NodeId → S.Secret) (members : Committee) (channel : Channel) :
    Net S P → Prop where
  | start {net : Net S P}
      (h : ∀ a node, net.get? a = some node → S.idOf (secret a) = a ∧
        ∃ config : Config, config.channel = channel ∧
          ∃ ticked, Node.fresh ticked S P a members config = .ok node) :
      Reaches secret members channel net
  | step {net : Net S P} {a : NodeId} {node : Node S P} {e : Event S P}
      (h : Reaches secret members channel net) (ha : net.get? a = some node)
      (hcarries : ∀ f, e = .frame f → Carries secret net f) :
      Reaches secret members channel (net.insert a (node.handle e))

/-- Node `a` of a network: its id is that of its key, it is in the committee and on the channel of
the others, and all that it has sent is protocol traffic there. -/
structure Regular (secret : NodeId → S.Secret) (members : Committee) (channel : Channel)
    (a : NodeId) (node : Node S P) : Prop where
  id : S.idOf (secret a) = a
  inCommittee : node.committee = members
  onChannel : node.config.channel = channel
  traffic : ∀ x ∈ node.sent, x.channel = channel ∧ x.msgType = protocolTraffic

theorem Regular.same (h : Regular secret members channel a node) (hsame : node.Same node') :
    Regular secret members channel a node' where
  id := h.id
  inCommittee := hsame.committee.trans h.inCommittee
  onChannel := by rw [hsame.config, h.onChannel]
  traffic x hx := by
    rcases hsame.traffic x hx with hx | hx
    · exact h.traffic x hx
    · rw [h.onChannel] at hx
      exact hx

/-- **The nodes of a network are all in one committee and on one channel**, under the ids of their
keys. -/
theorem Reaches.regular (h : Reaches secret members channel net) (ha : net.get? a = some node) :
    Regular secret members channel a node := by
  induction h generalizing a node with
  | start h =>
    obtain ⟨hid, config, hchannel, ticked, hstart⟩ := h a node ha
    obtain ⟨nested, -, -, hsame⟩ := Node.fresh_eq_ok hstart
    refine Regular.same ⟨hid, rfl, hchannel, fun x hx => ?_⟩ hsame
    exact absurd hx (Array.not_mem_empty x)
  | @step net b before e _ hb _ ih =>
    rw [SortedMap.get?_insert] at ha
    split at ha
    · rename_i hab
      cases Ranked.rank_inj hab
      cases ha
      exact (ih hb).same (Node.same_handle before e)
    · exact ih ha

/-! ### From the frame to its sender -/

theorem eq_signed {secret : S.Secret} (hsigner : f.signer = S.key secret)
    (hsignature : f.signature = S.sign secret (Frame.digest f.channel f.msgType f.payload)) :
    f = .signed secret f.channel f.msgType f.payload := by
  obtain ⟨channel, msgType, payload, signer, signature⟩ := f
  cases hsigner
  exact congrArg (Frame.mk channel msgType payload (S.key secret)) hsignature

/-- **A frame that is taken is as its signer has sent it**, to whomever, unless its payload is
another one with the same digest. -/
theorem frame_of_examine (hexact : Exact S) (hreach : Reaches secret members channel net)
    (ha : net.get? a = some node') (hcarries : Carries secret net f)
    (hb : net.get? b = some node) (h : node.examine f = .ok (some (a, m))) :
    ∃ x ∈ node'.sent, f = x.frame (secret a) ∨ Collide channel f.payload x.payload := by
  obtain ⟨hverify, -, hchannel, htype, -⟩ := Node.examine_eq_message_iff.mp h
  rw [(hreach.regular hb).onChannel] at hchannel
  unfold Frame.verify at hverify
  split at hverify
  · rename_i hvalid
    have hsigner := hcarries.signer a node' ha (Except.ok.inj hverify)
    rw [hsigner, hexact] at hvalid
    obtain ⟨x, hx, hdigest⟩ := hcarries.unforged a node' ha hsigner hvalid
    obtain ⟨hxchannel, hxtype⟩ := (hreach.regular ha).traffic x hx
    refine ⟨x, hx, ?_⟩
    by_cases hpayload : f.payload = x.payload
    · left
      rw [eq_signed hsigner hvalid, Sent.frame, hchannel, htype, hpayload, hxchannel, hxtype]
    · rw [hchannel, htype, hxchannel, hxtype] at hdigest
      exact .inr ⟨hpayload, hdigest⟩
  · cases hverify

/-! ### From the frame to its receivers -/

theorem carries_of_sent (hreach : Reaches secret members channel net)
    (ha : net.get? a = some node) (hx : x ∈ node.sent) :
    Carries secret net (x.frame (secret a)) := by
  have hid := (hreach.regular ha).id
  refine ⟨fun b other hb hsigner => ?_, fun b other hb hsigner _ => ?_⟩
  · cases hid.symm.trans hsigner
    rfl
  · have hab : a = b := calc
      a = S.idOf (secret a) := hid.symm
      _ = S.idOf (secret b) := congrArg S.nodeId hsigner
      _ = b := (hreach.regular hb).id
    cases hab
    cases ha.symm.trans hb
    exact ⟨x, hx, rfl⟩

theorem examine_eq (hcommittee : node'.committee = node.committee)
    (hchannel : node'.config.channel = node.config.channel) (f : Frame S) :
    node'.examine f = node.examine f := by
  unfold Node.examine
  rw [hcommittee, hchannel]

/-- **The recipient plays no part.**  Let nodes of one committee and one channel exchange frames
over a network that does not forge their signatures, and that has no other keys of their ids.  If a
frame that the network brings hands the automaton of some node a message of a node `a`, then `a` has
handed its transport that frame, for whatever recipient, unless two different payloads have the same
digest.  And whatever `a` has handed its transport, and for whatever recipient, may come to each
node, and means the same to all of them. -/
theorem recipient_plays_no_part (hexact : Exact S) (hreach : Reaches secret members channel net)
    (ha : net.get? a = some node') (hb : net.get? b = some node) :
    (∀ f m, Carries secret net f → node.examine f = .ok (some (a, m)) →
      ∃ x ∈ node'.sent, f = x.frame (secret a) ∨ Collide channel f.payload x.payload) ∧
    ∀ x ∈ node'.sent, Carries secret net (x.frame (secret a)) ∧
      ∀ c other, net.get? c = some other →
        other.examine (x.frame (secret a)) = node.examine (x.frame (secret a)) := by
  refine ⟨fun f m hcarries h => frame_of_examine hexact hreach ha hcarries hb h, fun x hx => ?_⟩
  refine ⟨carries_of_sent hreach ha hx, fun c other hc => ?_⟩
  have hnode := hreach.regular hb
  have hother := hreach.regular hc
  exact examine_eq (hother.inCommittee.trans hnode.inCommittee.symm)
    (hother.onChannel.trans hnode.onChannel.symm) _

end

/-! ### A frame that goes astray -/

def trio : Committee := ⟨[⟨0⟩, ⟨1⟩, ⟨2⟩]⟩

/-- A node of the three after its start, which answers pings. -/
def started (me : NodeId) : Node idealScheme (.pingPong 1) :=
  ({ me, committee := trio, config := {}, state := { nested := .initial 1 } } :
    Node idealScheme (.pingPong 1)).advance 0

def pinging : Node idealScheme (.pingPong 1) := (started ⟨0⟩).handle (.command (.input ⟨⟨1⟩, 0⟩))

def trioNet : Net idealScheme (.pingPong 1) :=
  (SortedMap.ofList (trio.members.map fun a => (a, started a))).insert ⟨0⟩ pinging

/-- In the ideal scheme, a node's id is its secret. -/
def idealSecret (a : NodeId) : idealScheme.Secret := a

/-- What the first one hands its transport: before the ping, a request of the reset. -/
def request : Sent := ⟨⟨1⟩, Vector.replicate 32 0, protocolTraffic, [2, 0, 0, 0, 0, 0]⟩

theorem sent_pinging : pinging.sent = #[request] := by decide +kernel

theorem request_mem_sent : request ∈ pinging.sent := by
  rw [sent_pinging]
  exact Array.mem_singleton.mpr rfl

theorem reaches_trioNet : Reaches idealSecret trio (Vector.replicate 32 0) trioNet := by
  have hkeys : ((trio.members.map fun a => (a, started a)).map (·.1)).Nodup := by decide
  refine .step (.start fun a node ha => ?_) ((SortedMap.get?_ofList hkeys).mpr ?_) nofun
  · rw [SortedMap.get?_ofList hkeys] at ha
    obtain ⟨me, -, hme⟩ := List.mem_map.mp ha
    cases hme
    exact ⟨rfl, {}, rfl, true, rfl⟩
  · exact List.mem_map_of_mem (List.mem_cons_self ..)

theorem request_plays_no_part :
    (∀ f m, Carries idealSecret trioNet f → (started ⟨2⟩).examine f = .ok (some (⟨0⟩, m)) →
      ∃ x ∈ pinging.sent, f = x.frame (idealSecret ⟨0⟩) ∨
        Collide (Vector.replicate 32 0) f.payload x.payload) ∧
    (started ⟨1⟩).examine (request.frame (idealSecret ⟨0⟩)) =
      (started ⟨2⟩).examine (request.frame (idealSecret ⟨0⟩)) := by
  obtain ⟨hsender, hreceivers⟩ := recipient_plays_no_part (a := ⟨0⟩) (b := ⟨2⟩)
    exact_idealScheme reaches_trioNet rfl rfl
  exact ⟨hsender, (hreceivers request request_mem_sent).2 ⟨1⟩ _ rfl⟩

/-- **A node takes a frame that has not been sent to it.**  The first of the three has sent one
frame, to the second one; the network brings it to the third one, to which it is a message of the
first one. -/
theorem misdirected_is_taken : Exact idealScheme ∧
    Reaches idealSecret trio (Vector.replicate 32 0) trioNet ∧
    trioNet.get? ⟨0⟩ = some pinging ∧ trioNet.get? ⟨2⟩ = some (started ⟨2⟩) ∧
    ∃ f m, Carries idealSecret trioNet f ∧ (started ⟨2⟩).stop = none ∧
      (started ⟨2⟩).examine f = .ok (some (⟨0⟩, m)) ∧ ∀ x ∈ pinging.sent, x.recipient ≠ ⟨2⟩ := by
  refine ⟨exact_idealScheme, reaches_trioNet, rfl, rfl, request.frame (idealSecret ⟨0⟩),
    .reset .request, carries_of_sent reaches_trioNet rfl request_mem_sent, rfl, ?_, ?_⟩
  · refine Node.examine_eq_message_iff.mpr ⟨?_, by decide, rfl, rfl, rfl⟩
    exact if_pos ((exact_idealScheme (idealSecret ⟨0⟩) _ _).mpr rfl)
  · rw [sent_pinging]
    decide

end Quorum.Transport
