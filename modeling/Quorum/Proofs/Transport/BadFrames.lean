import Quorum.Proofs.Transport.Recipient

/-!
# BadFrames — frames that come to nothing leave no trace

A frame goes through five checks before the automaton of a node gets to see it: the signature, the
membership of its signer, the channel, the type, and whether it can be read.  One that fails is
dropped, with a notice or without, and the node is as it was.  A message of a dismissed peer passes
the checks and makes no difference either.  So the node ends in the same state, and hands the same
to the transport, if none of these frames had come.

A frame that passes is a call of the automaton.  The node goes on after it, unless the automaton
fails; and it can fail, for want of batch numbers.

**Main statements.**  `judges`: what becomes of a frame.  `bare_handle`: what is published and
warned of has no influence.  `bad_frames_have_no_effect`: what has no effect can be left out.
-/

namespace Quorum.Transport

open Signing

variable {S : Scheme} {P : Protocol}

/-! ### One frame -/

namespace Frame

def IsSigned (f : Frame S) : Prop :=
  S.verify f.signer (digest f.channel f.msgType f.payload) f.signature = true

def sender (f : Frame S) : NodeId := S.nodeId f.signer

theorem verify_of_isSigned {f : Frame S} (h : f.IsSigned) : f.verify = .ok f.sender := if_pos h

theorem verify_of_not_isSigned {f : Frame S} (h : ¬ f.IsSigned) :
    f.verify = .error .badSignature :=
  if_neg h

end Frame

namespace Node

variable {node node' : Node S P} {f : Frame S} {e : Event S P} {es : List (Event S P)}
  {m : Reliable.Message P.Msg}

/-- The frame is for the channel of the node, and is of the type of protocol traffic. -/
def Concerns (node : Node S P) (f : Frame S) : Prop :=
  f.channel = node.config.channel ∧ f.msgType = protocolTraffic

def dropping (node : Node S P) (why : Rejection) : Node S P :=
  { node with notices := node.notices.push (.droppedFrame why) }

def Writable (P : Protocol) (out : List (Outgoing (Reliable.Message P.Msg))) : Prop :=
  ∀ o ∈ out, ∃ bytes, Reliable.Message.encode P.encode o.body = .ok bytes

/-- What becomes of a frame: the first check that fails decides.  One that passes all of them goes
to the automaton, and the node goes on exactly if the automaton reacts, and what it sends can be
written. -/
structure Judges (node : Node S P) (f : Frame S) : Prop where
  badSignature : ¬ f.IsSigned → node.onFrame f = node.dropping .badSignature
  unknownPeer : f.IsSigned → f.sender ∉ node.committee →
    node.onFrame f = node.dropping (.unknownPeer f.sender)
  unconcerned : f.IsSigned → f.sender ∈ node.committee → ¬ node.Concerns f →
    node.onFrame f = node
  undecodable : f.IsSigned → f.sender ∈ node.committee → node.Concerns f →
    ∀ e, (Reliable.Message.read P.decode).decode f.payload = .error e →
      node.onFrame f = node.dropping (.undecodable e)
  message : f.IsSigned → f.sender ∈ node.committee → node.Concerns f →
    ∀ m, (Reliable.Message.read P.decode).decode f.payload = .ok m →
      node.onFrame f = node.settle (Reliable.receive node.me node.state f.sender m) ∧
      ((node.onFrame f).stop = none ↔
        ∃ r, Reliable.receive node.me node.state f.sender m = .ok r ∧ Writable P r.sent)

theorem examine_of_not_isSigned (node : Node S P) (h : ¬ f.IsSigned) :
    node.examine f = .error .badSignature := by
  rw [examine, Frame.verify_of_not_isSigned h]
  rfl

theorem examine_of_unknownPeer (hsigned : f.IsSigned) (h : f.sender ∉ node.committee) :
    node.examine f = .error (.unknownPeer f.sender) := by
  rw [examine, Frame.verify_of_isSigned hsigned]
  exact if_pos h

theorem examine_of_unconcerned (hsigned : f.IsSigned) (hmember : f.sender ∈ node.committee)
    (h : ¬ node.Concerns f) : node.examine f = .ok none := by
  rw [examine, Frame.verify_of_isSigned hsigned]
  exact (if_neg (not_not.mpr hmember)).trans (if_pos (not_and_or.mp h))

theorem examine_of_undecodable (hsigned : f.IsSigned) (hmember : f.sender ∈ node.committee)
    (hconcerns : node.Concerns f) {e : Wire.DecodeError}
    (h : (Reliable.Message.read P.decode).decode f.payload = .error e) :
    node.examine f = .error (.undecodable e) := by
  rw [examine, Frame.verify_of_isSigned hsigned]
  refine (if_neg (not_not.mpr hmember)).trans ((if_neg ?_).trans ?_)
  · exact fun hother => not_and_or.mpr hother hconcerns
  · rw [h]
    rfl

/-- A node goes on after handing messages to the transport if all of them can be written. -/
theorem stop_transmit (node : Node S P) (ms : List (Outgoing (Reliable.Message P.Msg))) :
    (node.transmit ms).stop = none ↔ node.stop = none ∧ Writable P ms := by
  induction ms generalizing node with
  | nil => exact (and_iff_left fun _ hx => absurd hx List.not_mem_nil).symm
  | cons m ms ih =>
    unfold transmit Writable
    rw [List.forall_mem_cons]
    cases Reliable.Message.encode P.encode m.body with
    | error e =>
      refine iff_of_false (fun h => by cases h) ?_
      rintro ⟨-, ⟨_, h⟩, -⟩
      cases h
    | ok payload =>
      rw [ih]
      exact and_congr_right fun _ => (and_iff_right ⟨payload, rfl⟩).symm

theorem stop_settle (hstop : node.stop = none)
    (outcome : Outcome (Reliable.State P) (Reliable.Message P.Msg)) :
    (node.settle outcome).stop = none ↔ ∃ r, outcome = .ok r ∧ Writable P r.sent := by
  cases outcome with
  | error failure => exact iff_of_false nofun nofun
  | ok r =>
    refine (stop_transmit _ r.sent).trans ?_
    constructor
    · exact fun h => ⟨r, rfl, h.2⟩
    · rintro ⟨_, hr, h⟩
      cases hr
      exact ⟨hstop, h⟩

/-- **What becomes of a frame at a node that runs.** -/
theorem judges (hstop : node.stop = none) (f : Frame S) : node.Judges f where
  badSignature h := by
    rw [onFrame, examine_of_not_isSigned node h]
    rfl
  unknownPeer hsigned h := by
    rw [onFrame, examine_of_unknownPeer hsigned h]
    rfl
  unconcerned hsigned hmember h := by
    rw [onFrame, examine_of_unconcerned hsigned hmember h]
  undecodable hsigned hmember hconcerns e h := by
    rw [onFrame, examine_of_undecodable hsigned hmember hconcerns h]
    rfl
  message hsigned hmember hconcerns m h := by
    have hexamine : node.examine f = .ok (some (f.sender, m)) := examine_eq_message_iff.mpr
      ⟨Frame.verify_of_isSigned hsigned, hmember, hconcerns.1, hconcerns.2, h⟩
    have hframe : node.onFrame f =
        node.settle (Reliable.receive node.me node.state f.sender m) := by
      rw [onFrame, hexamine]
    exact ⟨hframe, hframe ▸ stop_settle hstop _⟩

/-! ### What has no influence -/

def bare (node : Node S P) : Node S P := { node with output := none, notices := #[] }

theorem bare_transmit (node : Node S P) (ms : List (Outgoing (Reliable.Message P.Msg))) :
    (node.transmit ms).bare = node.bare.transmit ms := by
  induction ms generalizing node with
  | nil => rfl
  | cons m ms ih =>
    unfold transmit
    cases Reliable.Message.encode P.encode m.body with
    | error e => rfl
    | ok payload => exact ih _

theorem bare_publish (node : Node S P) : node.publish.bare = node.bare := by
  unfold publish
  split <;> rfl

theorem bare_settle (node : Node S P)
    (outcome : Outcome (Reliable.State P) (Reliable.Message P.Msg)) :
    (node.settle outcome).bare = (node.bare.settle outcome).bare := by
  cases outcome with
  | error failure => rfl
  | ok r =>
    let turned : Node S P :=
      { node.bare with
        state := r.state
        notices := node.bare.notices ++ r.warnings.map Notice.warning }
    exact (bare_transmit _ _).trans (bare_transmit turned r.sent).symm

theorem bare_onFrame (node : Node S P) (f : Frame S) :
    (node.onFrame f).bare = (node.bare.onFrame f).bare := by
  have hexamine : node.bare.examine f = node.examine f := rfl
  unfold onFrame
  rw [hexamine]
  cases node.examine f with
  | error why => rfl
  | ok x =>
    cases x with
    | none => rfl
    | some x => exact bare_settle node _

theorem bare_onCommand (node : Node S P) (c : Command P) :
    (node.onCommand c).bare = (node.bare.onCommand c).bare := by
  cases c with
  | input i => exact bare_settle node _
  | dismiss peer => rfl
  | shutdown => rfl

theorem bare_advance (node : Node S P) (t : Reliable.Time) :
    (node.advance t).bare = (node.bare.advance t).bare := by
  unfold advance
  dsimp only
  have hstop : node.bare.stop = node.stop := rfl
  have hnow : node.bare.now = node.now := rfl
  have hdeadline : node.bare.deadline = node.deadline := rfl
  rw [hstop, hnow, hdeadline]
  split
  · rfl
  · rw [bare_publish, bare_publish]
    exact bare_settle _ _

/-- **What a node has published and warned of has no influence on what it does.** -/
theorem bare_handle (node : Node S P) (e : Event S P) :
    (node.handle e).bare = (node.bare.handle e).bare := by
  have hstop : node.bare.stop = node.stop := rfl
  cases e with
  | frame f =>
    simp only [handle, takeFrames]
    rw [hstop]
    split
    · rfl
    · rw [bare_publish, bare_publish, bare_onFrame]
  | command c =>
    simp only [handle, command]
    rw [hstop]
    by_cases hended : node.stop.isSome
    · rw [if_pos hended, if_pos hended]
      rfl
    · rw [if_neg hended, if_neg hended]
      exact (bare_publish _).trans ((bare_onCommand node c).trans (bare_publish _).symm)
  | elapse t => exact bare_advance node t

/-! ### What can be left out -/

/-- Whether an event is one for the automaton.  A frame is if it passes all checks and does not come
from a dismissed peer. -/
def heeds (node : Node S P) : Event S P → Bool
  | .frame f =>
    match node.examine f with
    | .ok (some (sender, _)) => sender ∉ node.state.dismissed
    | _ => false
  | _ => true

theorem heeds_of_message {sender : NodeId} (h : node.examine f = .ok (some (sender, m))) :
    node.heeds (.frame f) = decide (sender ∉ node.state.dismissed) := by
  simp only [heeds, h]

/-- The events without the frames that are not for the automaton when they come. -/
def heeded (node : Node S P) : List (Event S P) → List (Event S P)
  | [] => []
  | e :: es =>
    if node.heeds e then e :: (node.handle e).heeded es else (node.handle e).heeded es

/-- **A frame that is not for the automaton changes nothing** but what is published and warned
of. -/
theorem bare_handle_unheeded (h : node.heeds e = false) : (node.handle e).bare = node.bare := by
  cases e with
  | command c => cases h
  | elapse t => cases h
  | frame f =>
    rw [handle, takeFrames]
    split
    · rfl
    · rw [takeFrames, bare_publish, onFrame]
      split
      · rfl
      · rfl
      · rename_i sender m hexamine
        rw [heeds_of_message hexamine] at h
        have hgone : sender ∈ node.state.dismissed := by simpa using h
        have hignored :
            Reliable.receive node.me node.state sender m = .ok { state := node.state } :=
          if_pos hgone
        rw [hignored]
        exact bare_settle node (.ok { state := node.state })

/-- **The frames that are not for the automaton can be left out.** -/
theorem bare_run_heeded (h : node'.bare = node.bare) (es : List (Event S P)) :
    (node'.run (node.heeded es)).bare = (node.run es).bare := by
  induction es generalizing node node' with
  | nil => exact h
  | cons e es ih =>
    rw [heeded]
    split
    · have hboth : (node'.handle e).bare = (node.handle e).bare := by
        rw [bare_handle node', h, ← bare_handle]
      exact ih hboth
    · rename_i hunheeded
      have hleft : node'.bare = (node.handle e).bare := by
        rw [h, bare_handle_unheeded (by simpa using hunheeded)]
      exact ih hleft

/-- **Bad frames have no effect.**  Whatever happens at a node: a frame that comes while the node
runs is judged by the first check that it fails, and is a call of the automaton if it fails none.
If all the frames that fail one are left out, and all those that come from a peer when it has been
dismissed, then in the end the automaton and its channels are in the same state, the same has been
handed to the transport in the same order, and the node runs or has ended as it would have. -/
theorem bad_frames_have_no_effect (node : Node S P) (es : List (Event S P)) :
    (∀ earlier f later, es = earlier ++ .frame f :: later → (node.run earlier).stop = none →
      (node.run earlier).Judges f) ∧
    (node.run (node.heeded es)).state = (node.run es).state ∧
    (node.run (node.heeded es)).sent = (node.run es).sent ∧
    (node.run (node.heeded es)).stop = (node.run es).stop := by
  have hbare : (node.run (node.heeded es)).bare = (node.run es).bare := bare_run_heeded rfl es
  have hstate := congrArg Node.state hbare
  have hsent := congrArg Node.sent hbare
  have hstop := congrArg Node.stop hbare
  exact ⟨fun earlier f later _ hruns => judges hruns f, hstate, hsent, hstop⟩

end Node

/-! ### A frame that passes -/

/-- The second of the three answers the request of the first one with the last number but one. -/
def lastNumbers : Frame idealScheme :=
  Frame.signed (idealSecret ⟨1⟩) (Vector.replicate 32 0) protocolTraffic [2, 1, 255, 255, 255, 254]

/-- **A frame that passes all checks can end a node.**  The first of the three waits with a ping
for the second one.  Told that the last number but one has been seen, it takes the last number for
the next one, and has none to put behind it. -/
theorem last_numbers_end_node : pinging.stop = none ∧ lastNumbers.IsSigned ∧
    lastNumbers.sender ∈ pinging.committee ∧ lastNumbers.sender ∉ pinging.state.dismissed ∧
    pinging.Concerns lastNumbers ∧
    (Reliable.Message.read (Protocol.pingPong 1).decode).decode lastNumbers.payload =
      .ok (.reset ⟨true, 0xfffffffe⟩) ∧
    (pinging.onFrame lastNumbers).stop = some (.fault .batchIdsExhausted) := by
  have hstop : pinging.stop = none := by decide +kernel
  have hsigned : lastNumbers.IsSigned := (exact_idealScheme (idealSecret ⟨1⟩) _ _).mpr rfl
  have hmember : lastNumbers.sender ∈ pinging.committee := by decide +kernel
  have hconcerns : pinging.Concerns lastNumbers := ⟨by decide +kernel, rfl⟩
  have hread : (Reliable.Message.read (Protocol.pingPong 1).decode).decode lastNumbers.payload =
    .ok (.reset ⟨true, 0xfffffffe⟩) := rfl
  refine ⟨hstop, hsigned, hmember, by decide +kernel, hconcerns, hread, ?_⟩
  rw [((Node.judges hstop lastNumbers).message hsigned hmember hconcerns _ hread).1]
  decide +kernel

end Quorum.Transport
