import Quorum.Proofs.Reliable.Posting
import Quorum.Proofs.Reliable.Reaction

/-!
# Act — what one call makes of a channel

A node with reliable channels is called with an input, with a message, or to dismiss a peer.  Of
each channel, such a call makes one of a few things, and `Link.Act` lists them: news for the peer
is sent, a batch or a reset of the peer is dealt with, or a tick passes.  `Conduct` says so of all
channels of the node at once, and says what the nested automaton did.

**Main statements.**  `call_conduct`: a call that is no dismissal is an act on every channel.
`call_act` and `call_dismissed`: what any call does to the channel to a peer that is not, and that
is, dismissed.  `Link.Act.received` and `Link.Act.answer`: what counts as received after an act, and
what an answer tells of it.  `Link.Act.turn`: every act is a turn.
-/

namespace Quorum.Reliable

open SortedMap Link

/-- `link.Act period came news link' ms`: with `came` having come from the peer, if anything, and
with nested messages `news` for it, the channel `link` becomes `link'`, and `ms` is sent. -/
inductive Link.Act {μ : Type} (period : Time) (link : Link μ) :
    Option (Message μ) → List μ → Link μ → List (Message μ) → Prop where
  | send {news : List μ} {link' : Link μ} {ms : List (Message μ)}
      (h : link.post news none = .ok (link', ms)) : Act period link none news link' ms
  /-- A batch that carries acknowledgements only. -/
  | acks {b : Batch μ} (hid : b.id = none) :
      Act period link (some (.batch b)) [] (link.accept b).1 []
  /-- A batch with a number that counts as received. -/
  | again {b : Batch μ} {id : BatchId} (hid : b.id = some id)
      (hreceived : link.received.contains id) :
      Act period link (some (.batch b)) [] ((link.accept b).1.reacknowledge id).1
        [((link.accept b).1.reacknowledge id).2]
  /-- A batch with a new number; its acknowledgement goes out with the news. -/
  | fresh {b : Batch μ} {id : BatchId} {news : List μ} {link' : Link μ} {ms : List (Message μ)}
      (hid : b.id = some id) (hfresh : ¬ link.received.contains id)
      (h : (link.accept b).1.post news (some id) = .ok (link', ms)) :
      Act period link (some (.batch b)) news link' ms
  | request {r : Reset} (hr : r.isResponse = false) :
      Act period link (some (.reset r)) [] link.answerReset.1 [link.answerReset.2]
  /-- An answer that comes too late, or leaves no number. -/
  | ignore {r : Reset} (hr : r.isResponse = true)
      (h : link.isInitialized = true ∨ r.latest.next? = none) :
      Act period link (some (.reset r)) [] link []
  /-- The answer that settles the numbering. -/
  | settle {r : Reset} {next : BatchId} {link' : Link μ} {ms : List (Message μ)}
      (hr : r.isResponse = true) (hid : link.nextId = none) (hnext : r.latest.next? = some next)
      (h : link.settleNumbering next = .ok (link', ms)) :
      Act period link (some (.reset r)) [] link' ms
  | tick (now : Time) : Act period link none [] (link.tick period now) (link.resent period now)

/-! ### Acts as turns -/

def Message.batch? {μ : Type} : Message μ → Option (Batch μ)
  | batch b => some b
  | reset _ => none

section
variable {μ : Type} {period : Time} {link link' : Link μ} {came : Option (Message μ)}
  {news : List μ} {ms : List (Message μ)}

theorem bind_batch?_eq_some {b : Batch μ} :
    came.bind Message.batch? = some b ↔ came = some (.batch b) := by
  cases came with
  | none => exact ⟨nofun, nofun⟩
  | some m =>
    cases m with
    | batch b' => exact ⟨fun h => by cases h; rfl, fun h => by cases h; rfl⟩
    | reset r => exact ⟨nofun, nofun⟩

/-- **Every act is a turn**, in which the batch arrives that has come, if any. -/
theorem Link.Act.turn (h : link.Act period came news link' ms) :
    ∃ new, link.Turn (came.bind Message.batch?) news new link' ms := by
  cases h with
  | send h => exact post_turn h nofun
  | @acks b hid => exact ⟨[], accept_turn link b⟩
  | @again b id hid hreceived =>
    have haccept := accept_turn link b
    exact ⟨[], haccept.trans (reacknowledge_turn (haccept.received_mono hreceived))⟩
  | @fresh b id _ _ _ hid hfresh h =>
    have haccept := accept_turn link b
    have howed : ∀ i ∈ some id, (link.accept b).1.received.contains i := by
      rintro _ ⟨⟩
      exact (haccept.received id).mpr (.inr ⟨b, id, rfl, hid, .inl rfl⟩)
    obtain ⟨new, hturn⟩ := post_turn h howed
    exact ⟨new, haccept.trans hturn⟩
  | request hr => exact ⟨[], answerReset_turn link⟩
  | ignore hr h => exact ⟨[], .refl link⟩
  | settle hr hid hnext h => exact settleNumbering_turn h hid hnext
  | tick now => exact ⟨[], tick_turn period now link⟩

/-! ### What counts as received -/

theorem reacknowledge_received (link : Link μ) (id : BatchId) :
    (link.reacknowledge id).1.received = link.received ∧
      (link.reacknowledge id).1.answeredReset = link.answeredReset ∧
      ∃ b, (link.reacknowledge id).2 = .batch b := by
  unfold reacknowledge
  dsimp only
  split
  · exact ⟨rfl, rfl, _, rfl⟩
  · exact ⟨rfl, rfl, _, rfl⟩

/-- **What counts as received after an act**: what did before, the number of a batch that has come,
and what it skips. -/
theorem Link.Act.received (h : link.Act period came news link' ms) (i : BatchId) :
    link'.received.contains i ↔ link.received.contains i ∨ ∃ b id, came = some (.batch b) ∧
      b.id = some id ∧ (i = id ∨ link.Skips id i) := by
  obtain ⟨new, hturn⟩ := h.turn
  simp only [hturn.received i, bind_batch?_eq_some]

theorem accept_wellFormed (hlink : link.received.WellFormed) (b : Batch μ) :
    (link.accept b).1.received.WellFormed := by
  obtain ⟨unacked, ackedIn, heq, -, -⟩ := foldl_acked link b.acks
  simp only [accept, heq]
  cases b.id with
  | none => exact hlink
  | some id =>
    have hforget :
        ({ link with unacked, ackedIn } : Link μ).forgetPrevious.received.WellFormed := by
      unfold forgetPrevious
      split
      · exact hlink
      · exact hlink.forgetThrough _
    dsimp only
    rw [ReceivedIds.record_snd]
    by_cases hrun : startsNewRun { link with unacked, ackedIn } id
    · simp only [if_pos hrun]
      exact hforget.insert id
    · simp only [if_neg hrun]
      exact hlink.insert id

theorem Link.Act.wellFormed (h : link.Act period came news link' ms)
    (hlink : link.received.WellFormed) : link'.received.WellFormed := by
  cases h with
  | send h => rwa [(post_posted h).received]
  | @acks b hid => exact accept_wellFormed hlink b
  | @again b id hid hreceived =>
    rw [(reacknowledge_received _ id).1]
    exact accept_wellFormed hlink b
  | @fresh b id _ _ _ hid hfresh h =>
    rw [(post_posted h).received]
    exact accept_wellFormed hlink b
  | request hr => exact hlink
  | ignore hr h => exact hlink
  | settle hr hid hnext h =>
    rw [(settle_posted h).1.received]
    exact hlink
  | tick now => exact hlink

/-- **An answer to a reset request tells the latest number received.** -/
theorem Link.Act.answer (h : link.Act period came news link' ms) {latest : BatchId}
    (hm : .reset ⟨true, latest⟩ ∈ ms) :
    latest = link.received.latest ∧ link'.received = link.received ∧
      ∃ r, came = some (.reset r) ∧ r.isResponse = false := by
  have hposted : ∀ {link₀ : Link μ} {news owed}, Posted link₀ news owed link' ms → False := by
    intro link₀ news owed hposted
    have hanswer : latest ∈ answers ms := List.mem_filterMap.mpr ⟨_, hm, rfl⟩
    rw [hposted.answers] at hanswer
    exact List.not_mem_nil hanswer
  cases h with
  | send h => exact (hposted (post_posted h)).elim
  | acks hid => cases hm
  | @again b id hid hreceived =>
    obtain ⟨-, -, b', hb'⟩ := reacknowledge_received (link.accept b).1 id
    rw [hb'] at hm
    cases List.mem_singleton.mp hm
  | fresh hid hfresh h => exact (hposted (post_posted h)).elim
  | @request r hr =>
    cases List.mem_singleton.mp hm
    exact ⟨rfl, rfl, r, rfl, hr⟩
  | ignore hr h => cases hm
  | settle hr hid hnext h => exact (hposted (settle_posted h).1).elim
  | tick now =>
    rcases List.mem_append.mp hm with hm | hm
    · obtain ⟨kept, -, hkept⟩ := List.mem_map.mp hm
      cases hkept
    · split at hm
      · cases List.mem_singleton.mp hm
      · cases hm

/-- What is remembered as told was told before, or is told now. -/
theorem Link.Act.answered (h : link.Act period came news link' ms) {n : BatchId}
    (hn : link'.answeredReset = some n) :
    link.answeredReset = some n ∨ .reset ⟨true, n⟩ ∈ ms := by
  have haccept : ∀ b, (link.accept b).1.answeredReset = some n → link.answeredReset = some n := by
    intro b hb
    rcases answeredReset_accept link b with hsame | hnone
    · rwa [← hsame]
    · rw [hnone] at hb
      cases hb
  cases h with
  | send h =>
    rw [(post_posted h).answeredReset] at hn
    exact .inl hn
  | @acks b hid => exact .inl (haccept b hn)
  | @again b id hid hreceived =>
    rw [(reacknowledge_received _ id).2.1] at hn
    exact .inl (haccept b hn)
  | @fresh b id _ _ _ hid hfresh h =>
    rw [(post_posted h).answeredReset] at hn
    exact .inl (haccept b hn)
  | request hr =>
    cases hn
    exact .inr (List.mem_singleton_self _)
  | ignore hr h => exact .inl hn
  | settle hr hid hnext h =>
    rw [(settle_posted h).1.answeredReset] at hn
    exact .inl hn
  | tick now => exact .inl hn

end

/-! ### Calls -/

/-- A call of a node with reliable channels. -/
inductive Call (P : Protocol) where
  | input (i : Input P)
  | message (sender : NodeId) (m : Message P.Msg)
  | dismiss (peer : NodeId)

section
variable {P : Protocol} {period : Time} {me : NodeId} {s : State P} {c : Call P}

def call (period : Time) (me : NodeId) (s : State P) : Call P → Outcome (State P) (Message P.Msg)
  | .input i => input period me s i
  | .message sender m => receive me s sender m
  | .dismiss peer => .ok { state := s.dismiss peer }

/-- What a call brings to the channel to a peer. -/
def Call.came (c : Call P) (s : State P) (q : NodeId) : Option (Message P.Msg) :=
  match c with
  | .message sender m => if sender = q ∧ q ∉ s.dismissed then some m else none
  | _ => none

theorem came_eq_some {q : NodeId} {m : Message P.Msg} :
    c.came s q = some m ↔ c = .message q m ∧ q ∉ s.dismissed := by
  cases c with
  | message sender m' =>
    simp only [Call.came, Option.ite_none_right_eq_some, Option.some.injEq, Call.message.injEq]
    constructor
    · rintro ⟨⟨rfl, hq⟩, rfl⟩
      exact ⟨⟨rfl, rfl⟩, hq⟩
    · rintro ⟨⟨rfl, rfl⟩, hq⟩
      exact ⟨⟨rfl, hq⟩, rfl⟩
  | input i => exact ⟨nofun, nofun⟩
  | dismiss peer => exact ⟨nofun, nofun⟩

/-- What the nested automaton does in a call: it takes an input, or the messages of a batch, or
is left alone. -/
inductive Involves (me : NodeId) (t : P.State) : Call P → Reaction P.State P.Msg → Prop where
  | input {i : P.Input} {nested : Reaction P.State P.Msg} (h : P.input me t i = .ok nested) :
      Involves me t (.input (.nested i)) nested
  | batch {sender : NodeId} {b : Batch P.Msg} {nested : Reaction P.State P.Msg}
      (h : handOver me sender b.msgs { nested := t } = .ok nested) :
      Involves me t (.message sender (.batch b)) nested
  | nothing (c : Call P) : Involves me t c { state := t }

/-- **What every message of a batch keeps true is true when the batch has been handed over**, of the
state of the nested automaton and of all that it has sent.  Handing over fails only where the nested
automaton does. -/
theorem handOver_invariant {R : P.State → List (Outgoing P.Msg) → Prop} {sender : NodeId}
    {msgs : List P.Msg}
    (hstep : ∀ m ∈ msgs, ∀ t out r, R t out → P.receive me t sender m = .ok r →
      R r.state (out ++ r.sent))
    {t : Handover P} (ht : R t.nested t.sent.toList) :
    (∀ r, handOver me sender msgs t = .ok r → R r.state r.sent) ∧
      ∀ failure, handOver me sender msgs t = .error failure → ∃ m ∈ msgs, ∃ t out failure',
        R t out ∧ P.receive me t sender m = .error failure' ∧
          failure.fault = failure'.fault := by
  induction msgs generalizing t with
  | nil =>
    refine ⟨fun r h => ?_, nofun⟩
    cases h
    exact ht
  | cons m msgs ih =>
    obtain ⟨hm, hmsgs⟩ := List.forall_mem_cons.mp hstep
    unfold handOver
    split
    · rename_i next hnext
      have hnested : R next.state (t.sent ++ next.sent).toList := by
        rw [Array.toList_appendList]
        exact hm _ _ _ ht hnext
      obtain ⟨hok, herror⟩ := ih (t := ⟨next.state, _, t.warnings ++ next.warnings⟩) hmsgs hnested
      refine ⟨hok, fun failure h => ?_⟩
      obtain ⟨m', hm', hfails⟩ := herror failure h
      exact ⟨m', List.mem_cons_of_mem _ hm', hfails⟩
    · rename_i failure hfailure
      refine ⟨nofun, fun _ h => ?_⟩
      cases h
      exact ⟨m, List.mem_cons_self .., _, _, failure, ht, hfailure, rfl⟩

/-- What a call other than a dismissal does: the nested automaton reacts with `nested`, and every
channel acts. -/
structure Conduct (period : Time) (me : NodeId) (s : State P) (c : Call P)
    (nested : Reaction P.State P.Msg) (s' : State P) (sent : List (Outgoing (Message P.Msg))) :
    Prop where
  involves : Involves me s.nested c nested
  state : s'.nested = nested.state
  dismissed : s'.dismissed = s.dismissed
  act : ∀ q, (s.link q).Act period (c.came s q)
    (if q ∈ s.dismissed then [] else addressedTo q nested.sent) (s'.link q) (addressedTo q sent)

theorem conduct_setLink {sender : NodeId} {m : Message P.Msg} {link : Link P.Msg}
    {ms : List (Message P.Msg)} (hsender : sender ∉ s.dismissed)
    (h : (s.link sender).Act period (some m) [] link ms) :
    Conduct period me s (.message sender m) { state := s.nested } (s.setLink sender link)
      (toPeer sender ms) where
  involves := .nothing _
  state := rfl
  dismissed := rfl
  act := fun q => by
    rw [addressedTo_nil, ite_self, link_setLink, addressedTo_toPeer]
    by_cases hq : sender = q
    · subst hq
      rw [if_pos rfl, if_pos rfl, came_eq_some.mpr ⟨rfl, hsender⟩]
      exact h
    · have hcame : (Call.message sender m).came s q = none := if_neg fun h => hq h.1
      rw [if_neg hq, if_neg hq, hcame]
      exact .send (post_nil _)

/-- A batch makes the channel to its sender act, and if it is new, the other channels send news. -/
theorem onBatch_conduct {sender : NodeId} {b : Batch P.Msg}
    {r : Reaction (State P) (Message P.Msg)} (hsender : sender ∉ s.dismissed)
    (h : onBatch me s sender b = .ok r) :
    ∃ nested, Conduct period me s (.message sender (.batch b)) nested r.state r.sent := by
  rcases onBatch_cases h with
    ⟨hid, rfl⟩ | ⟨id, hid, hreceived, rfl⟩ | ⟨id, nested, hid, hfresh, hnested, h⟩
  · exact ⟨_, conduct_setLink hsender (.acks hid)⟩
  · exact ⟨_, conduct_setLink hsender (.again hid hreceived)⟩
  · obtain ⟨hstate, hdismissed, hposts⟩ := sendAfter_post h (forPeer_of_dismissed hsender id)
    refine ⟨nested, ⟨.batch hnested, hstate, hdismissed, fun q => ?_⟩⟩
    have hq := hposts q
    rw [link_setLink] at hq
    by_cases hsame : sender = q
    · subst hsame
      rw [if_pos rfl, forPeer_self] at hq
      rw [came_eq_some.mpr ⟨rfl, hsender⟩]
      exact .fresh hid hfresh hq
    · have hcame : (Call.message sender (.batch b)).came s q = none := if_neg fun h => hsame h.1
      rw [if_neg hsame, forPeer_ne hsame] at hq
      rw [hcame]
      exact .send hq

theorem onReset_conduct {sender : NodeId} {reset : Reset}
    {r : Reaction (State P) (Message P.Msg)} (hsender : sender ∉ s.dismissed)
    (h : onReset s sender reset = .ok r) :
    ∃ nested, Conduct period me s (.message sender (.reset reset)) nested r.state r.sent := by
  rcases onReset_cases h with
    ⟨hr, hstate, hsent⟩ | ⟨hr, hignored, hstate, hsent⟩ |
    ⟨next, link, ms, hr, hid, hnext, hsettle, hstate, hsent⟩
  · rw [hstate, hsent]
    exact ⟨_, conduct_setLink hsender (.request hr)⟩
  · rw [hstate, hsent]
    exact ⟨_, conduct_setLink hsender (.ignore hr hignored)⟩
  · rw [hstate, hsent]
    exact ⟨_, conduct_setLink hsender (.settle hr hid hnext hsettle)⟩

/-- On a tick, every channel of the node passes it. -/
theorem tick_conduct (period : Time) (me : NodeId) (s : State P) (now : Time) :
    Conduct period me s (.input (.tick now)) { state := s.nested } (onTick period s now).state
      (onTick period s now).sent where
  involves := .nothing _
  state := rfl
  dismissed := rfl
  act := fun q => by
    obtain ⟨hlink, hsent⟩ := onTick_link period now s q
    rw [addressedTo_nil, ite_self, hlink, hsent]
    exact .tick now

/-- **A call that is no dismissal is an act on every channel.** -/
theorem call_conduct {r : Reaction (State P) (Message P.Msg)} (h : call period me s c = .ok r)
    (hc : ∀ peer, c ≠ .dismiss peer) : ∃ nested, Conduct period me s c nested r.state r.sent := by
  match c with
  | .input (.nested i) =>
    obtain ⟨nested, hnested, h⟩ := bind_eq_ok h
    obtain ⟨hstate, hdismissed, hposts⟩ := sendAfter_post h fun _ _ => rfl
    exact ⟨nested, ⟨.input hnested, hstate, hdismissed, fun q => .send (hposts q)⟩⟩
  | .input (.tick now) =>
    cases h
    exact ⟨_, tick_conduct period me s now⟩
  | .message sender m =>
    change receive me s sender m = _ at h
    unfold receive at h
    split at h
    · rename_i hsender
      cases h
      refine ⟨{ state := s.nested }, ⟨.nothing _, rfl, rfl, fun q => ?_⟩⟩
      have hcame : (Call.message sender m).came s q = none := if_neg fun h => h.2 (h.1 ▸ hsender)
      rw [addressedTo_nil, ite_self, hcame]
      exact .send (post_nil _)
    · rename_i hsender
      cases m with
      | batch b => exact onBatch_conduct hsender h
      | reset reset => exact onReset_conduct hsender h
  | .dismiss peer => exact absurd rfl (hc peer)

/-- The channel to a peer that is not dismissed acts, also when another one is dismissed. -/
theorem call_act {r : Reaction (State P) (Message P.Msg)} (h : call period me s c = .ok r)
    {q : NodeId} (hq : q ∉ r.state.dismissed) :
    q ∉ s.dismissed ∧ ∃ nested, Involves me s.nested c nested ∧ r.state.nested = nested.state ∧
      (s.link q).Act period (c.came s q) (addressedTo q nested.sent) (r.state.link q)
        (addressedTo q r.sent) := by
  by_cases hc : ∃ peer, c = .dismiss peer
  · obtain ⟨peer, rfl⟩ := hc
    cases h
    rw [State.dismiss, List.mem_insert_iff, not_or] at hq
    refine ⟨hq.2, { state := s.nested }, .nothing _, rfl, ?_⟩
    rw [link_dismiss, if_neg (Ne.symm hq.1)]
    exact .send (post_nil _)
  · obtain ⟨nested, hconduct⟩ := call_conduct h (not_exists.mp hc)
    rw [hconduct.dismissed] at hq
    have hact := hconduct.act q
    rw [if_neg hq] at hact
    exact ⟨hq, nested, hconduct.involves, hconduct.state, hact⟩

theorem Link.Act.of_empty {μ : Type} {link : Link μ} {ms : List (Message μ)}
    (h : ({} : Link μ).Act period none [] link ms) : link = {} ∧ ms = [] := by
  cases h with
  | send h =>
    rw [post_nil] at h
    cases h
    exact ⟨rfl, rfl⟩
  | tick now => exact ⟨rfl, rfl⟩

/-- To a peer that is dismissed, there is no channel, and nothing is sent. -/
theorem call_dismissed {r : Reaction (State P) (Message P.Msg)} (h : call period me s c = .ok r)
    {q : NodeId} (hq : q ∈ r.state.dismissed) (hlink : q ∈ s.dismissed → s.link q = {}) :
    r.state.link q = {} ∧ addressedTo q r.sent = [] := by
  by_cases hc : ∃ peer, c = .dismiss peer
  · obtain ⟨peer, rfl⟩ := hc
    cases h
    refine ⟨?_, rfl⟩
    rw [link_dismiss]
    split
    · rfl
    · rename_i hne
      rw [State.dismiss, List.mem_insert_iff] at hq
      exact hlink (hq.resolve_left (Ne.symm hne))
  · obtain ⟨nested, hconduct⟩ := call_conduct h (not_exists.mp hc)
    rw [hconduct.dismissed] at hq
    have hcame : c.came s q = none := by
      cases hm : c.came s q with
      | none => rfl
      | some m => exact absurd hq (came_eq_some.mp hm).2
    have hact := hconduct.act q
    rw [if_pos hq, hcame, hlink hq] at hact
    exact hact.of_empty

theorem mem_dismissed_call {r : Reaction (State P) (Message P.Msg)}
    (h : call period me s c = .ok r) {q : NodeId} :
    q ∈ r.state.dismissed ↔ c = .dismiss q ∨ q ∈ s.dismissed := by
  by_cases hc : ∃ peer, c = .dismiss peer
  · obtain ⟨peer, rfl⟩ := hc
    cases h
    rw [State.dismiss, List.mem_insert_iff, Call.dismiss.injEq, eq_comm]
  · obtain ⟨nested, hconduct⟩ := call_conduct h (not_exists.mp hc)
    rw [hconduct.dismissed]
    exact ⟨.inr, fun h => h.resolve_left fun h => hc ⟨q, h⟩⟩

end

end Quorum.Reliable
