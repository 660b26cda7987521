import Quorum.Labelled
import Quorum.Proofs.Gather.Instances
import Quorum.Proofs.Transport.Unrecorded

/-!
# Authenticity — votes are those of the signers

A vote in a broadcast of a gather has passed four layers: the frame, the batch, the route, and the
loop that hands a node's own messages back.  Each of them puts the message in a new envelope, and
the sender that the broadcast is told comes from the key that has signed the frame, or is the node
itself.

**Main statements.**  `keeps_voted`: a gather knows no votes but those in messages that it has been
handed.  `exists_recorded`: the record that tells these makes no difference.
`votes_are_authentic`: those have come in frames that the voter has signed, or are the node's own.
-/

namespace Quorum

namespace Broadcast
variable {c : Committee} {broadcaster sender : NodeId} {s : State} {m : Message}

theorem declared_echo_sendReady (v : Bytes) :
    (sendReady c s v).state.declared .echo = s.declared .echo := by
  unfold sendReady
  split <;> rfl

/-- A node echoes only when an `initial` message of the broadcaster comes. -/
theorem declared_echo_receive (h : (receive c broadcaster s sender m).state.declared .echo = true) :
    s.declared .echo = true ∨ (sender = broadcaster ∧ m.kind = .initial) := by
  unfold receive at h
  split at h
  · cases hkind : m.kind with
    | initial =>
      rw [hkind] at h
      simp only [onInitial] at h
      split at h
      · exact .inl h
      · rename_i hfirst
        exact .inr ⟨not_not.mp (not_or.mp hfirst).1, rfl⟩
    | echo =>
      rw [hkind] at h
      simp only [onEcho] at h
      split at h
      · rw [declared_echo_sendReady] at h
        exact .inl h
      · exact .inl h
    | ready =>
      rw [hkind] at h
      simp only [onReady, declared_deliver] at h
      split at h
      · rw [declared_echo_sendReady] at h
        exact .inl h
      · exact .inl h
  · exact .inl h

end Broadcast

namespace Transport

open Signing Broadcast

section
variable {c : Committee} {me : NodeId} {heard : NodeId → (Protocol.gather c).enveloped.Msg → Prop}

/-- The nodes of a gather, as they run behind a transport: messages are in envelopes, the gather
keeps a record, and its own messages are handed back inside. -/
abbrev gathering (c : Committee) (limit : Nat) : Protocol :=
  (Protocol.gather c).enveloped.recorded.selfDelivering limit

/-- A message of `x` for broadcast `i` is among those that a gather has been handed. -/
def Handed (s : Recorded (Protocol.gather c).enveloped) (i : Fin c.size) (x : NodeId)
    (m : Broadcast.Message) : Prop :=
  ∃ g, (x, g) ∈ s.received ∧ Gather.inner? i g.body = some m

/-- In broadcast `i`, a gather has recorded votes and has echoed because of what it has been
handed. -/
structure Voted (s : Recorded (Protocol.gather c).enveloped) (i : Fin c.size) : Prop where
  vote : ∀ k x v, (x, v) ∈ ((s.state.broadcasts.get i).tally k).votes → Handed s i x ⟨k, v⟩
  echo : (s.state.broadcasts.get i).declared .echo = true →
    ∃ v, Handed s i (Gather.broadcaster c i) ⟨.initial, v⟩

theorem Handed.mono {s s' : Recorded (Protocol.gather c).enveloped} {i : Fin c.size} {x : NodeId}
    {m : Broadcast.Message} (h : Handed s i x m) (hreceived : ∀ p ∈ s.received, p ∈ s'.received) :
    Handed s' i x m := by
  obtain ⟨g, hg, hm⟩ := h
  exact ⟨g, hreceived _ hg, hm⟩

theorem Voted.mono {s s' : Recorded (Protocol.gather c).enveloped} {i : Fin c.size}
    (h : Voted s i) (hreceived : ∀ p ∈ s.received, p ∈ s'.received)
    (hvotes : ∀ k, (s'.state.broadcasts.get i).tally k = (s.state.broadcasts.get i).tally k)
    (hecho : (s'.state.broadcasts.get i).declared .echo =
      (s.state.broadcasts.get i).declared .echo) : Voted s' i where
  vote k x v hv := (h.vote k x v (hvotes k ▸ hv)).mono hreceived
  echo hsent := by
    obtain ⟨v, hv⟩ := h.echo (hecho ▸ hsent)
    exact ⟨v, hv.mono hreceived⟩

theorem input_gather {s : Recorded (Protocol.gather c).enveloped} {v : Bytes}
    {r : Reaction (Recorded (Protocol.gather c).enveloped) (Protocol.gather c).enveloped.Msg}
    (h : (Protocol.gather c).enveloped.recorded.input me s v = .ok r) :
    ∃ r', Gather.input c me s.state v = .ok r' ∧ r.state.state = r'.state := by
  obtain ⟨r₀, henveloped, rfl⟩ := map_eq_ok h
  obtain ⟨r', hgather, rfl⟩ := map_eq_ok henveloped
  exact ⟨r', Gather.input_of_protocol hgather, rfl⟩

theorem receive_gather {s : Recorded (Protocol.gather c).enveloped} {x : NodeId}
    {g : (Protocol.gather c).enveloped.Msg}
    {r : Reaction (Recorded (Protocol.gather c).enveloped) (Protocol.gather c).enveloped.Msg}
    (h : (Protocol.gather c).enveloped.recorded.receive me s x g = .ok r) :
    ∃ r', Gather.receive c s.state x g.body = .ok r' ∧ r.state.state = r'.state := by
  obtain ⟨r₀, henveloped, rfl⟩ := map_eq_ok h
  obtain ⟨r', hgather, rfl⟩ := map_eq_ok henveloped
  exact ⟨r', Gather.receive_of_protocol hgather, rfl⟩

theorem Voted.untouched {s s' : Recorded (Protocol.gather c).enveloped} {i : Fin c.size}
    (h : Voted s i) (hreceived : ∀ p ∈ s.received, p ∈ s'.received)
    (hbroadcast : s'.state.broadcasts.get i = s.state.broadcasts.get i) : Voted s' i :=
  h.mono hreceived (fun k => by rw [hbroadcast]) (by rw [hbroadcast])

/-- An input is noted in one broadcast, and is neither a vote nor an echo. -/
theorem voted_input {s : Recorded (Protocol.gather c).enveloped} {v : Bytes}
    {r : Reaction (Recorded (Protocol.gather c).enveloped) (Protocol.gather c).enveloped.Msg}
    (hs : ∀ i, Voted s i) (h : (Protocol.gather c).enveloped.recorded.input me s v = .ok r)
    (j : Fin c.size) : Voted r.state j := by
  obtain ⟨r', hgather, hstate⟩ := input_gather h
  obtain ⟨-, i, b, -, hb, rfl⟩ := Gather.input_eq_ok hgather
  obtain ⟨-, -, hgiven, -⟩ := Broadcast.input_eq_ok hb
  have hreceived : ∀ p ∈ s.received, p ∈ r.state.received := fun p hp => by
    rw [(received_input h).1]
    exact hp
  have hbroadcast := Gather.broadcasts_lift { s.state with inputGiven := true } i j b
  rw [← hstate] at hbroadcast
  by_cases hij : i = j
  · subst hij
    rw [if_pos rfl, hgiven] at hbroadcast
    refine (hs i).mono hreceived (fun k => ?_) ?_
    · rw [hbroadcast]
      cases k <;> rfl
    · rw [hbroadcast]
      rfl
  · rw [if_neg hij] at hbroadcast
    exact (hs j).untouched hreceived hbroadcast

/-- A message is a vote in one broadcast, or the reason to echo there. -/
theorem voted_receive {s : Recorded (Protocol.gather c).enveloped} {x : NodeId}
    {g : (Protocol.gather c).enveloped.Msg}
    {r : Reaction (Recorded (Protocol.gather c).enveloped) (Protocol.gather c).enveloped.Msg}
    (hs : ∀ i, Voted s i) (h : (Protocol.gather c).enveloped.recorded.receive me s x g = .ok r)
    (j : Fin c.size) : Voted r.state j := by
  obtain ⟨r', hgather, hstate⟩ := receive_gather h
  obtain ⟨hsubsystem, i, hi, rfl⟩ := Gather.receive_eq_ok hgather
  have hreceived : ∀ p ∈ s.received, p ∈ r.state.received := fun p hp => by
    rw [(received_receive h).1]
    exact List.mem_append_left _ hp
  have hbroadcast := Gather.broadcasts_lift s.state i j
    (Broadcast.receive c (Gather.broadcaster c i) (s.state.broadcasts.get i) x g.body.inner)
  rw [← hstate] at hbroadcast
  by_cases hij : i = j
  · subst hij
    have hnew : Handed r.state i x g.body.inner := by
      refine ⟨g, ?_, if_pos ⟨hsubsystem, hi.symm⟩⟩
      rw [(received_receive h).1]
      exact List.mem_append_right _ (List.mem_singleton_self _)
    rw [if_pos rfl] at hbroadcast
    refine ⟨fun k y v hv => ?_, fun hecho => ?_⟩
    · rw [hbroadcast, mem_votes_receive] at hv
      rcases hv with hv | ⟨-, hkind, -, hvote⟩
      · exact ((hs i).vote k y v hv).mono hreceived
      · cases hvote
        rw [← hkind]
        exact hnew
    · rw [hbroadcast] at hecho
      rcases declared_echo_receive hecho with hecho | ⟨hsender, hkind⟩
      · obtain ⟨v, hv⟩ := (hs i).echo hecho
        exact ⟨v, hv.mono hreceived⟩
      · rw [← hsender, ← hkind]
        exact ⟨_, hnew⟩
  · rw [if_neg hij] at hbroadcast
    exact (hs j).untouched hreceived hbroadcast

/-- **A gather knows no votes but those that it has been handed**, and no reason to echo. -/
theorem keeps_voted : Keeps (Protocol.gather c).enveloped me heard fun s => ∀ i, Voted s i where
  input _ _ _ hs h := voted_input hs h
  receive _ _ _ _ hs _ h := voted_receive hs h

theorem voted_start {s : Recorded (Protocol.gather c).enveloped}
    (h : (Protocol.gather c).enveloped.recorded.start me = .ok s) (i : Fin c.size) : Voted s i := by
  obtain ⟨s₀, hstart, rfl⟩ := map_eq_ok h
  obtain ⟨-, rfl⟩ := Gather.start_of_protocol hstart
  refine ⟨fun k x v hv => ?_, fun hecho => ?_⟩
  · rw [Gather.get_initial] at hv
    cases k <;> cases hv
  · rw [Gather.get_initial] at hecho
    cases hecho

end

/-! ### Nodes -/

section
variable {S : Scheme} {c members : Committee} {limit : Nat} {me : NodeId} {config : Config}
  {node : Node S (gathering c limit)} {ticked : Bool}

def Node.gather (node : Node S (gathering c limit)) : Gather.State c :=
  Recorded.state (P := (Protocol.gather c).enveloped) node.state.nested

/-- The record that a gather keeps when its own messages are handed back inside. -/
abbrev gatherRecord (c : Committee) (limit : Nat) :
    Ghost ((Protocol.gather c).enveloped.selfDelivering limit) :=
  (recording (Protocol.gather c).enveloped).selfDelivering limit

/-- **Nothing reads the record.**  What happens at a node that keeps none happens at one that does,
and with the same gather. -/
theorem exists_recorded {node : Node S ((Protocol.gather c).enveloped.selfDelivering limit)}
    (hstart : Node.fresh ticked S ((Protocol.gather c).enveloped.selfDelivering limit) me members
      config = .ok node)
    (es : List (Event S ((Protocol.gather c).enveloped.selfDelivering limit))) :
    ∃ (twin : Node S (gathering c limit)) (es' : List (Event S (gathering c limit))),
      Node.fresh ticked S (gathering c limit) me members config = .ok twin ∧
        es'.map (Event.forget (gatherRecord c limit)) = es ∧
        (twin.run es').gather = (node.run es).state.nested := by
  obtain ⟨twin, es', htwin, hes, hrun⟩ := Node.exists_twin (gatherRecord c limit) hstart es
  exact ⟨twin, es', htwin, hes, congrArg (fun node => node.state.nested) hrun⟩

/-- In the course of the events, a message of broadcast `i` has come from `x`: in a batch of a frame
that `x` has signed, or from the gather of the node, which has sent it to itself. -/
def Comes (node : Node S (gathering c limit)) (es : List (Event S (gathering c limit)))
    (i : Fin c.size) (x : NodeId) (m : Broadcast.Message) : Prop :=
  ∃ g, Gather.inner? i g.body = some m ∧ (node.Heard es x g ∨ (x = node.me ∧
    ⟨node.me, g⟩ ∈ Recorded.sent (P := (Protocol.gather c).enveloped) (node.run es).state.nested))

/-- **Votes are authentic.**  Let frames of any content come to a node, also before its first tick,
and let it be given commands and time pass.  If a node `x` counts as having echoed a value in a
broadcast, or as being ready for it, then `x` is a member and has signed a frame with that vote in a
batch, for this channel and of the type of protocol traffic; or `x` is the node itself, and its
gather has sent that vote to itself.  The node has echoed only if an `initial` message of the
broadcaster has come in the same way. -/
theorem votes_are_authentic
    (hstart : Node.fresh ticked S (gathering c limit) me members config = .ok node)
    (es : List (Event S (gathering c limit))) (i : Fin c.size) :
    (∀ x v, (x, v) ∈ ((node.run es).gather.broadcasts.get i).echoes.votes →
      Comes node es i x ⟨.echo, v⟩) ∧
    (∀ x v, (x, v) ∈ ((node.run es).gather.broadcasts.get i).readies.votes →
      Comes node es i x ⟨.ready, v⟩) ∧
    (((node.run es).gather.broadcasts.get i).echoSent = true →
      ∃ v, Comes node es i (Gather.broadcaster c i) ⟨.initial, v⟩) := by
  have hsourced := sourced_of_run hstart es
  obtain ⟨nested, hnested, hstate, hsame⟩ := Node.fresh_eq_ok hstart
  have hme : node.me = me := hsame.me
  rw [← hme] at hsourced
  have hkeeps : Keeps (Protocol.gather c).enveloped node.me (node.Heard es)
      fun s => ∀ i, Voted s i := keeps_voted
  have hvoted := hkeeps.run (by rw [hstate]; exact voted_start hnested) (fun _ _ h => h) i
  have hcomes : ∀ {x m}, Handed (node.run es).state.nested i x m → Comes node es i x m := by
    rintro x m ⟨g, hg, hm⟩
    exact ⟨g, hm, hsourced x g hg⟩
  refine ⟨fun x v hv => hcomes (hvoted.vote .echo x v hv),
    fun x v hv => hcomes (hvoted.vote .ready x v hv), fun hecho => ?_⟩
  obtain ⟨v, hv⟩ := hvoted.echo hecho
  exact ⟨v, hcomes hv⟩

def pair : Committee := ⟨[⟨0⟩, ⟨1⟩]⟩

/-- A frame of the second of them, with its echo of the value 7 in broadcast 0, comes to the first;
then the first one gets the value 7 as its input. -/
def echoes : List (Event idealScheme (gathering pair 100)) :=
  let secret : idealScheme.Secret := (⟨1⟩ : NodeId)
  [.frame (.signed secret (Vector.replicate 32 0) protocolTraffic
    [1, 1, 0, 0, 0, 1, 0, 1, 0, 0, 0, 10, 1, 0, 0, 0, 2, 0, 0, 0, 1, 7, 0, 0]),
    .command (.input ([7] : Bytes))]

theorem echoes_are_authentic : ∃ node,
    Node.start idealScheme (gathering pair 100) ⟨0⟩ pair {} = .ok node ∧
    Comes node echoes ⟨0, by decide⟩ ⟨0⟩ ⟨.echo, [7]⟩ ∧
    Comes node echoes ⟨0, by decide⟩ ⟨1⟩ ⟨.echo, [7]⟩ ∧
    ∃ v, Comes node echoes ⟨0, by decide⟩ ⟨0⟩ ⟨.initial, v⟩ := by
  obtain ⟨node, hstart, htest⟩ := (Option.any_eq_true _ _).mp
    (show (Node.start idealScheme (gathering pair 100) ⟨0⟩ pair {}).toOption.any (fun node =>
      let s := (node.run echoes).gather.broadcasts.get ⟨0, by decide⟩
      (⟨0⟩, [7]) ∈ s.echoes.votes ∧ (⟨1⟩, [7]) ∈ s.echoes.votes ∧ s.echoSent) = true by
      decide +kernel)
  obtain ⟨hown, hother, hsent⟩ := of_decide_eq_true htest
  have hstart := Mesh.eq_ok_of_toOption hstart
  have hfresh : Node.fresh true idealScheme (gathering pair 100) ⟨0⟩ pair {} = .ok node := hstart
  obtain ⟨hecho, -, hinitial⟩ := votes_are_authentic hfresh echoes ⟨0, by decide⟩
  exact ⟨node, hstart, hecho _ _ hown, hecho _ _ hother, hinitial hsent⟩

end

end Transport

end Quorum
