import Quorum.Proofs.Reliable.Act
import Quorum.Proofs.SelfDelivery
import Quorum.Transport.Node

/-!
# History — what happens at a node behind a transport

Frames of any content arrive at a node, it is given commands, and time passes.  Whatever happens,
its automaton is called once or not at all, and it is called with a message only when a frame has
passed all checks; the identity of the sender is then that of the signer.

**Main statements.**  `examine_eq_message_iff`: which frames bring a message.  `handle_spec`: what
an event means to the automaton.  `Keeps.run`: what holds of the automaton in all that happens.
`sourced_of_run`: what it has been handed has come in frames of that sender, or is its own.
-/

namespace Quorum.Transport

open Signing

/-- The ideal scheme: a node signs under its id, and a signature tells who has signed what. -/
def idealScheme : Scheme where
  Secret := NodeId
  Key := NodeId
  Sig := NodeId × Digest
  key secret := secret
  sign secret d := (secret, d)
  verify key d sig := sig = (key, d)
  nodeId key := key

/-- What may happen at a node. -/
inductive Event (S : Scheme) (P : Protocol) where
  | frame (f : Frame S)
  | command (c : Command P)
  | elapse (t : Reliable.Time)

namespace Node

section
variable {S : Scheme} {P : Protocol}

/-- The node after an event; a node that has ended takes no frames and no commands any more. -/
def handle (node : Node S P) : Event S P → Node S P
  | .frame f => node.takeFrames [f]
  | .command c =>
    match node.command c with
    | .ok next => next
    | .error _ => node
  | .elapse t => node.advance t

def run (node : Node S P) (es : List (Event S P)) : Node S P := es.foldl handle node

variable {node : Node S P} {f : Frame S} {sender : NodeId} {m : Reliable.Message P.Msg}
  {es : List (Event S P)} {e : Event S P}

theorem run_concat (node : Node S P) (es : List (Event S P)) (e : Event S P) :
    node.run (es ++ [e]) = (node.run es).handle e :=
  List.foldl_concat ..

/-! ### What stays -/

/-- The node is who it was, in the committee and with the settings that it had, and has sent nothing
but protocol traffic since. -/
structure Same (node node' : Node S P) : Prop where
  me : node'.me = node.me
  committee : node'.committee = node.committee
  config : node'.config = node.config
  traffic : ∀ x ∈ node'.sent, x ∈ node.sent ∨
    (x.channel = node.config.channel ∧ x.msgType = protocolTraffic)

/-- Nothing has come of it for the automaton. -/
structure Quiet (node node' : Node S P) : Prop extends node.Same node' where
  state : node'.state = node.state

/-- What comes of a call: the automaton has turned to the state that it leads to, or is as it was
because the call fails. -/
structure Follows (node : Node S P) (c : Reliable.Call P) (node' : Node S P) : Prop
    extends node.Same node' where
  state : node'.state = node.state ∨
    ∃ r, Reliable.call node.config.period node.me node.state c = .ok r ∧ node'.state = r.state

theorem Same.of_eq {node' : Node S P} (hme : node'.me = node.me)
    (hcommittee : node'.committee = node.committee) (hconfig : node'.config = node.config)
    (hsent : node'.sent = node.sent) : node.Same node' :=
  ⟨hme, hcommittee, hconfig, fun _ hx => .inl (hsent ▸ hx)⟩

theorem Same.refl (node : Node S P) : node.Same node := .of_eq rfl rfl rfl rfl

theorem Same.trans {node' node'' : Node S P} (h : node.Same node') (h' : node'.Same node'') :
    node.Same node'' where
  me := h'.me.trans h.me
  committee := h'.committee.trans h.committee
  config := h'.config.trans h.config
  traffic x hx := by
    rcases h'.traffic x hx with hx | hx
    · exact h.traffic x hx
    · rw [h.config] at hx
      exact .inr hx

theorem Quiet.refl (node : Node S P) : node.Quiet node := ⟨.refl node, rfl⟩

theorem Quiet.trans {node' node'' : Node S P} (h : node.Quiet node') (h' : node'.Quiet node'') :
    node.Quiet node'' :=
  ⟨h.toSame.trans h'.toSame, h'.state.trans h.state⟩

theorem Follows.trans {c : Reliable.Call P} {node' node'' : Node S P} (h : node.Follows c node')
    (h' : node'.Quiet node'') : node.Follows c node'' :=
  ⟨h.toSame.trans h'.toSame, by rw [h'.state]; exact h.state⟩

/-- Handing messages to the transport leaves the automaton alone. -/
theorem quiet_transmit (node : Node S P) (ms : List (Outgoing (Reliable.Message P.Msg))) :
    node.Quiet (node.transmit ms) := by
  induction ms generalizing node with
  | nil => exact .refl node
  | cons m ms ih =>
    unfold transmit
    split
    · exact ⟨.of_eq rfl rfl rfl rfl, rfl⟩
    · rename_i payload _
      have hsent : node.Quiet ({ node with
          sent := node.sent.push ⟨m.recipient, node.config.channel, protocolTraffic, payload⟩ } :
          Node S P) := by
        refine ⟨⟨rfl, rfl, rfl, fun x hx => (Array.mem_push.mp hx).imp_right ?_⟩, rfl⟩
        rintro rfl
        exact ⟨rfl, rfl⟩
      exact hsent.trans (ih _)

theorem quiet_publish (node : Node S P) : node.Quiet node.publish := by
  unfold publish
  split
  · exact .refl node
  · exact ⟨.of_eq rfl rfl rfl rfl, rfl⟩

theorem follows_settle (node : Node S P) (c : Reliable.Call P) :
    node.Follows c
      (node.settle (Reliable.call node.config.period node.me node.state c)).publish := by
  refine Follows.trans ?_ (quiet_publish _)
  unfold settle
  split
  · exact ⟨.of_eq rfl rfl rfl rfl, .inl rfl⟩
  · rename_i r hr
    have hturned : ∀ notices, node.Follows c { node with state := r.state, notices } :=
      fun _ => ⟨.of_eq rfl rfl rfl rfl, .inr ⟨r, hr, rfl⟩⟩
    exact (hturned _).trans (quiet_transmit _ _)

/-! ### What an event means -/

/-- **A frame brings a message if it passes all checks**: it is signed, by a member, for this
channel, of the type of protocol traffic, and can be read. -/
theorem examine_eq_message_iff : node.examine f = .ok (some (sender, m)) ↔
    f.verify = .ok sender ∧ sender ∈ node.committee ∧ f.channel = node.config.channel ∧
      f.msgType = protocolTraffic ∧ (Reliable.Message.read P.decode).decode f.payload = .ok m := by
  unfold examine
  cases hverify : f.verify with
  | error why => exact ⟨nofun, fun h => by cases h.1⟩
  | ok signer =>
    change (if signer ∉ node.committee then _ else _) = _ ↔ _
    split
    · rename_i hforeign
      refine ⟨nofun, ?_⟩
      rintro ⟨hsender, hmember, -⟩
      cases hsender
      exact absurd hmember hforeign
    · rename_i hmember
      split
      · rename_i hother
        refine ⟨nofun, ?_⟩
        rintro ⟨-, -, hchannel, htype, -⟩
        exact absurd hother (not_or.mpr ⟨not_not.mpr hchannel, not_not.mpr htype⟩)
      · rename_i hours
        obtain ⟨hchannel, htype⟩ := not_or.mp hours
        cases hread : (Reliable.Message.read P.decode).decode f.payload with
        | error e => exact ⟨nofun, fun h => by cases h.2.2.2.2⟩
        | ok m' =>
          constructor
          · intro h
            cases h
            exact ⟨rfl, not_not.mp hmember, not_not.mp hchannel, not_not.mp htype, rfl⟩
          · rintro ⟨hsender, -, -, -, hm⟩
            cases hsender
            cases hm
            rfl

/-- What an event means to the automaton of a node. -/
inductive Means (node : Node S P) : Event S P → Reliable.Call P → Prop where
  | frame {f : Frame S} {sender : NodeId} {m : Reliable.Message P.Msg}
      (h : node.examine f = .ok (some (sender, m))) : Means node (.frame f) (.message sender m)
  | input {i : P.Input} : Means node (.command (.input i)) (.input (.nested i))
  | dismiss {peer : NodeId} : Means node (.command (.dismiss peer)) (.dismiss peer)
  | tick {t : Reliable.Time} : Means node (.elapse t) (.input (.tick (node.now + t)))

/-- **An event is one call of the automaton, or none.** -/
theorem handle_spec (node : Node S P) (e : Event S P) : node.Quiet (node.handle e) ∨
    node.stop = none ∧ ∃ c, node.Means e c ∧ node.Follows c (node.handle e) := by
  cases e with
  | frame f =>
    rw [handle, takeFrames]
    split
    · exact .inl (.refl node)
    · rename_i hstop
      rw [takeFrames, onFrame]
      split
      · have hnotice : ∀ notices, node.Quiet { node with notices } :=
          fun _ => ⟨.of_eq rfl rfl rfl rfl, rfl⟩
        exact .inl ((hnotice _).trans (quiet_publish _))
      · exact .inl (quiet_publish node)
      · rename_i sender m hm
        exact .inr ⟨by simpa using hstop, _, .frame hm, follows_settle node _⟩
  | command c =>
    rw [handle, command]
    by_cases hstop : node.stop.isSome
    · rw [if_pos hstop]
      exact .inl (.refl node)
    · rw [if_neg hstop]
      have hstop : node.stop = none := by simpa using hstop
      cases c with
      | input i => exact .inr ⟨hstop, _, .input, follows_settle node (.input (.nested i))⟩
      | dismiss peer =>
        have hdismissed : node.Follows (.dismiss peer)
            { node with state := node.state.dismiss peer } :=
          ⟨.of_eq rfl rfl rfl rfl, .inr ⟨_, rfl, rfl⟩⟩
        exact .inr ⟨hstop, _, .dismiss, hdismissed.trans (quiet_publish _)⟩
      | shutdown =>
        have hended : ∀ stop, node.Quiet { node with stop } :=
          fun _ => ⟨.of_eq rfl rfl rfl rfl, rfl⟩
        exact .inl ((hended _).trans (quiet_publish _))
  | elapse t =>
    rw [handle, advance]
    dsimp only
    split
    · exact .inl ⟨.of_eq rfl rfl rfl rfl, rfl⟩
    · rename_i hdue
      have hstop : node.stop = none := by simpa using (not_or.mp hdue).1
      have hticked : ∀ now deadline, node.Follows (.input (.tick now))
          ({ node with now, deadline } : Node S P).onTick.publish := fun now deadline =>
        have hclock : node.Same ({ node with now, deadline } : Node S P) := .of_eq rfl rfl rfl rfl
        have hfollows := follows_settle ({ node with now, deadline } : Node S P)
          (.input (.tick now))
        ⟨hclock.trans hfollows.toSame, hfollows.state⟩
      exact .inr ⟨hstop, _, .tick, hticked _ _⟩

theorem same_handle (node : Node S P) (e : Event S P) : node.Same (node.handle e) := by
  rcases handle_spec node e with h | ⟨-, c, -, h⟩
  · exact h.toSame
  · exact h.toSame

theorem same_run (node : Node S P) (es : List (Event S P)) : node.Same (node.run es) := by
  induction es using List.reverseRecOn with
  | nil => exact .refl node
  | append_singleton es e ih =>
    rw [run_concat]
    exact ih.trans (same_handle _ e)

/-! ### The start -/

/-- A node at its start.  Its first tick is due at once, but a frame or a command may come before
it. -/
def fresh (ticked : Bool) (S : Scheme) (P : Protocol) (me : NodeId) (committee : Committee)
    (config : Config) : Except Fault (Node S P) :=
  if ticked then start S P me committee config else create S P me committee config

theorem create_eq_ok {me : NodeId} {committee : Committee} {config : Config}
    (h : create S P me committee config = .ok node) : ∃ nested, P.start me = .ok nested ∧
      ∃ stop, node = { me, committee, config, state := { nested }, stop } := by
  obtain ⟨nested, hnested, h⟩ := bind_eq_ok h
  by_cases hcapacity : validCapacity config.capacity = true
  · rw [hcapacity] at h
    by_cases hinterval : config.tickInterval = 0
    · rw [if_neg (by decide), if_pos hinterval] at h
      cases h
      exact ⟨nested, hnested, _, rfl⟩
    · rw [if_neg (by decide), if_neg hinterval] at h
      cases h
      exact ⟨nested, hnested, _, rfl⟩
  · rw [if_pos (by simpa using hcapacity)] at h
    cases h

/-- **A node starts with its automaton before its first event**: the first tick finds nothing to
do. -/
theorem fresh_eq_ok {ticked : Bool} {me : NodeId} {committee : Committee} {config : Config}
    (h : fresh ticked S P me committee config = .ok node) : ∃ nested, P.start me = .ok nested ∧
      node.state = { nested } ∧
      ({ me, committee, config, state := { nested } } : Node S P).Same node := by
  cases ticked with
  | false =>
    obtain ⟨nested, hnested, stop, rfl⟩ := create_eq_ok h
    exact ⟨nested, hnested, rfl, .of_eq rfl rfl rfl rfl⟩
  | true =>
    obtain ⟨created, hcreated, rfl⟩ := map_eq_ok h
    obtain ⟨nested, hnested, stop, hcreated⟩ := create_eq_ok hcreated
    have hsame : ({ me, committee, config, state := { nested } } : Node S P).Same created := by
      rw [hcreated]
      exact .of_eq rfl rfl rfl rfl
    refine ⟨nested, hnested, ?_, hsame.trans (same_handle created (.elapse 0))⟩
    subst hcreated
    rcases handle_spec _ (.elapse 0) with hquiet | ⟨-, c, hmeans, hfollows⟩
    · exact hquiet.state
    · cases hmeans
      rcases hfollows.state with hstate | ⟨r, hr, hstate⟩
      · exact hstate
      · cases hr
        exact hstate

/-! ### Where messages have come from -/

/-- A running node takes a frame that `sender` has signed, with `m` in a batch. -/
structure Brings (node : Node S P) (f : Frame S) (sender : NodeId) (m : P.Msg) : Prop where
  running : node.stop = none
  signed : f.verify = .ok sender
  member : sender ∈ node.committee
  channel : f.channel = node.config.channel
  msgType : f.msgType = protocolTraffic
  batch : ∃ b, (Reliable.Message.read P.decode).decode f.payload = .ok (.batch b) ∧ m ∈ b.msgs

/-- In the course of the events, a frame has brought the message. -/
def Heard (node : Node S P) (es : List (Event S P)) (sender : NodeId) (m : P.Msg) : Prop :=
  ∃ earlier f later, es = earlier ++ .frame f :: later ∧ (node.run earlier).Brings f sender m

theorem Heard.append {sender : NodeId} {m : P.Msg} (h : node.Heard es sender m)
    (later : List (Event S P)) : node.Heard (es ++ later) sender m := by
  obtain ⟨earlier, f, later', rfl, hbrings⟩ := h
  exact ⟨earlier, f, later' ++ later, by rw [List.append_assoc, List.cons_append], hbrings⟩

end

end Node

/-! ### What holds of the automaton -/

/-- Whatever happens at the automaton of node `me` keeps `I`: an input, a message that has been
heard, and a message that the automaton has sent to itself. -/
structure Keeps (P : Protocol) (me : NodeId) (heard : NodeId → P.Msg → Prop)
    (I : Recorded P → Prop) : Prop where
  input : ∀ s i r, I s → P.recorded.input me s i = .ok r → I r.state
  receive : ∀ s x m r, I s → heard x m ∨ (x = me ∧ ⟨me, m⟩ ∈ s.sent) →
    P.recorded.receive me s x m = .ok r → I r.state

namespace Keeps

open SelfDelivery

variable {P : Protocol} {me : NodeId} {heard : NodeId → P.Msg → Prop} {I : Recorded P → Prop}
  {limit : Nat}

/-- What is handed back has been sent, so that it is kept through all of it. -/
theorem finish (h : Keeps P me heard I) {outcome : Outcome (Recorded P) P.Msg}
    (hfirst : ∀ first, outcome = .ok first →
      I first.state ∧ ∀ o ∈ first.sent, o ∈ first.state.sent)
    {r : Reaction (Recorded P) P.Msg}
    (hr : SelfDelivery.finish (P := P.recorded) me limit outcome = .ok r) : I r.state := by
  obtain ⟨n, hi, -⟩ := (finish_invariant (P := P.recorded)
    (R := fun _ s own _ => I s ∧ ∀ m ∈ own, ⟨me, m⟩ ∈ Recorded.sent s)
    (fun n s m own remote r ⟨hs, hown⟩ hr => by
      obtain ⟨hm, hown⟩ := List.forall_mem_cons.mp hown
      have hsent := (received_receive hr).2
      refine ⟨h.receive s me m r hs (.inr ⟨rfl, hm⟩) hr, fun m' hm' => ?_⟩
      rw [hsent, List.mem_append]
      exact (List.mem_append.mp hm').imp (hown m') mem_toSelf.mp)
    (fun first hok => by
      obtain ⟨hs, hsent⟩ := hfirst first hok
      exact ⟨hs, fun m hm => hsent _ (mem_toSelf.mp hm)⟩)).1 r hr
  exact hi

theorem finish_input (h : Keeps P me heard I) {s : Recorded P} {i : P.Input}
    {r : Reaction (Recorded P) P.Msg} (hs : I s)
    (hr : (P.recorded.selfDelivering limit).input me s i = .ok r) : I r.state := by
  refine h.finish (fun first hfirst => ⟨h.input s i first hs hfirst, fun o ho => ?_⟩) hr
  rw [(received_input hfirst).2]
  exact List.mem_append_right _ ho

theorem finish_receive (h : Keeps P me heard I) {s : Recorded P} {x : NodeId} {m : P.Msg}
    {r : Reaction (Recorded P) P.Msg} (hs : I s) (hm : heard x m)
    (hr : (P.recorded.selfDelivering limit).receive me s x m = .ok r) : I r.state := by
  refine h.finish (fun first hfirst => ⟨h.receive s x m first hs (.inl hm) hfirst, ?_⟩) hr
  intro o ho
  rw [(received_receive hfirst).2]
  exact List.mem_append_right _ ho

/-- It is kept by a call of the channels around the automaton. -/
theorem call (h : Keeps P me heard I) {period : Reliable.Time}
    {s : Reliable.State (P.recorded.selfDelivering limit)}
    {c : Reliable.Call (P.recorded.selfDelivering limit)}
    {r : Reaction (Reliable.State (P.recorded.selfDelivering limit)) (Reliable.Message P.Msg)}
    (hs : I s.nested) (hc : Reliable.call period me s c = .ok r)
    (hheard : ∀ x b, c = .message x (.batch b) → ∀ m ∈ b.msgs, heard x m) : I r.state.nested := by
  by_cases hdismiss : ∃ peer, c = .dismiss peer
  · obtain ⟨peer, rfl⟩ := hdismiss
    cases hc
    exact hs
  · obtain ⟨inner, hconduct⟩ := Reliable.call_conduct hc (not_exists.mp hdismiss)
    rw [hconduct.state]
    cases hconduct.involves with
    | input hinput => exact h.finish_input hs hinput
    | @batch x b _ hhand =>
      exact (Reliable.handOver_invariant (R := fun t _ => I t)
        (fun m hm t _ r ht hr => h.finish_receive ht (hheard x b rfl m hm) hr) hs).1 _ hhand
    | nothing => exact hs

/-- **What whatever happens at the automaton keeps true is true in all that happens at the
node.** -/
theorem run {S : Scheme} {node : Node S (P.recorded.selfDelivering limit)}
    {es : List (Event S (P.recorded.selfDelivering limit))} (h : Keeps P node.me heard I)
    (hs : I node.state.nested) (hheard : ∀ x m, node.Heard es x m → heard x m) :
    I (node.run es).state.nested := by
  induction es using List.reverseRecOn with
  | nil => exact hs
  | append_singleton es e ih =>
    have hbefore := ih fun x m hm => hheard x m (hm.append [e])
    rw [Node.run_concat]
    rcases (node.run es).handle_spec e with hquiet | ⟨hstop, c, hmeans, hfollows⟩
    · rw [hquiet.state]
      exact hbefore
    · rcases hfollows.state with hstate | ⟨r, hr, hstate⟩
      · rw [hstate]
        exact hbefore
      · rw [hstate]
        rw [(node.same_run es).me] at hr
        refine h.call hbefore hr ?_
        rintro x b rfl m hm
        cases hmeans with
        | @frame f _ _ hexamine =>
          obtain ⟨hsigned, hmember, hchannel, htype, hread⟩ :=
            Node.examine_eq_message_iff.mp hexamine
          exact hheard x m
            ⟨es, f, [], rfl, hstop, hsigned, hmember, hchannel, htype, b, hread, hm⟩

end Keeps

/-! ### What the automaton has been handed -/

section
variable {P : Protocol} {limit : Nat} {S : Scheme}

/-- What an automaton has been handed has been heard, or it has sent it to itself. -/
def Sourced (me : NodeId) (heard : NodeId → P.Msg → Prop) (s : Recorded P) : Prop :=
  ∀ x m, (x, m) ∈ s.received → heard x m ∨ (x = me ∧ ⟨me, m⟩ ∈ s.sent)

theorem keeps_sourced (me : NodeId) (heard : NodeId → P.Msg → Prop) :
    Keeps P me heard (Sourced me heard) where
  input s i r hs hr x m hm := by
    obtain ⟨hreceived, hsent⟩ := received_input hr
    rw [hreceived] at hm
    rw [hsent]
    exact (hs x m hm).imp_right fun ⟨hx, hown⟩ => ⟨hx, List.mem_append_left _ hown⟩
  receive s x m r hs hsource hr x' m' hm' := by
    obtain ⟨hreceived, hsent⟩ := received_receive hr
    rw [hreceived, List.mem_append] at hm'
    have hold : heard x' m' ∨ (x' = me ∧ ⟨me, m'⟩ ∈ s.sent) := by
      rcases hm' with hm' | hm'
      · exact hs x' m' hm'
      · cases List.mem_singleton.mp hm'
        exact hsource
    rw [hsent]
    exact hold.imp_right fun ⟨hx, hown⟩ => ⟨hx, List.mem_append_left _ hown⟩

/-- **What the automaton of a node has been handed has come in frames of that sender**, or the
automaton has sent it to itself. -/
theorem sourced_of_run {ticked : Bool} {me : NodeId} {committee : Committee} {config : Config}
    {node : Node S (P.recorded.selfDelivering limit)}
    (hstart : Node.fresh ticked S (P.recorded.selfDelivering limit) me committee config = .ok node)
    (es : List (Event S (P.recorded.selfDelivering limit))) :
    Sourced (P := P) me (node.Heard es) (node.run es).state.nested := by
  obtain ⟨nested, hnested, hstate, hsame⟩ := Node.fresh_eq_ok hstart
  have hme : node.me = me := hsame.me
  rw [← hme]
  refine (keeps_sourced node.me _).run ?_ fun x m hm => hm
  rw [hstate]
  intro x m hm
  rw [(recorded_start hnested).1] at hm
  exact absurd hm List.not_mem_nil

end

end Quorum.Transport
