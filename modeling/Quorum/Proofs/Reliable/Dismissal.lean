import Quorum.Proofs.Reliable.Act

/-!
# Dismissal — a peer that has left stays away

A node that dismisses a peer forgets the channel to it.  Channels come about on demand, when a
message arrives and when one is to be sent, so a peer that is dismissed stays away only because
everything that would make a channel asks first whether its peer has left.

What a dismissed peer sends is dropped before anything else is looked at.  Such a message can be
left out of a sequence of calls, or put in, and no other call comes out differently.

**Main statements.**  `State.Without.call`: no call brings a dismissed peer back.
`filter_attempts`: the messages of a dismissed peer make no difference.
`dismissal_is_final`: what dismissing a peer comes to, whatever follows.
-/

namespace Quorum.Reliable

open SortedMap

section
variable {P : Protocol} {period : Time} {me p : NodeId} {s s' : State P} {c : Call P}
  {r : Reaction (State P) (Message P.Msg)}

def Call.isFrom (p : NodeId) : Call P → Bool
  | .message sender _ => sender = p
  | _ => false

theorem Call.isFrom_iff : c.isFrom p = true ↔ ∃ m, c = .message p m := by
  cases c with
  | message sender m =>
    rw [isFrom, decide_eq_true_iff]
    constructor
    · rintro rfl
      exact ⟨m, rfl⟩
    · rintro ⟨m', hm⟩
      exact (Call.message.inj hm).1
  | input i => exact ⟨nofun, nofun⟩
  | dismiss peer => exact ⟨nofun, nofun⟩

/-- **What a dismissed peer sends is dropped**: it changes nothing and is not answered. -/
theorem call_of_isFrom (hp : p ∈ s.dismissed) (hc : c.isFrom p = true) :
    call period me s c = .ok { state := s } := by
  obtain ⟨m, rfl⟩ := Call.isFrom_iff.mp hc
  exact if_pos hp

/-! ### The table of peers -/

/-- The peer `p` is dismissed and has no entry in the table of peers. -/
structure State.Without (s : State P) (p : NodeId) : Prop where
  dismissed : p ∈ s.dismissed
  absent : s.links.get? p = none

theorem State.without_dismiss (s : State P) (p : NodeId) : (s.dismiss p).Without p where
  dismissed := List.mem_insert_self
  absent := by
    change (s.links.erase p).get? p = none
    rw [get?_erase, if_pos rfl]

theorem State.Without.link (hs : s.Without p) : s.link p = {} := by
  rw [State.link, getD, hs.absent]
  rfl

theorem State.Without.setLink (hs : s.Without p) {peer : NodeId} (hpeer : peer ∉ s.dismissed)
    (link : Link P.Msg) : (s.setLink peer link).Without p where
  dismissed := hs.dismissed
  absent := by
    have hne : peer ≠ p := fun h => hpeer (h ▸ hs.dismissed)
    change (s.links.insert peer link).get? p = none
    rw [get?_insert_ne _ _ hne]
    exact hs.absent

theorem State.Without.sendGroups (hs : s.Without p) {owed : NodeId → Option BatchId}
    {groups : List (NodeId × List P.Msg)} {sent sent' : Array (Outgoing (Message P.Msg))}
    (h : sendGroups owed groups s sent = .ok (s', sent')) : s'.Without p := by
  induction groups generalizing s sent with
  | nil =>
    cases h
    exact hs
  | cons group groups ih =>
    unfold Reliable.sendGroups at h
    split at h
    · exact ih hs h
    · rename_i hpeer
      split at h
      · cases h
      · exact ih (hs.setLink hpeer _) h

theorem State.Without.sendAfter (hs : s.Without p) {owed : Option (NodeId × BatchId)}
    {inner : Reaction P.State P.Msg} (h : sendAfter s owed inner = .ok r) : r.state.Without p := by
  unfold Reliable.sendAfter at h
  split at h
  · rename_i round hround
    cases h
    obtain ⟨groups, heq, -, -⟩ := sendRound_eq { s with nested := inner.state } inner.sent owed
    rw [heq] at hround
    obtain ⟨⟨last, sent⟩, hsend, hround⟩ := bind_eq_ok hround
    cases hround
    have hnested : State.Without { s with nested := inner.state } p := ⟨hs.dismissed, hs.absent⟩
    exact hnested.sendGroups hsend
  · cases h

theorem State.Without.onBatch (hs : s.Without p) {sender : NodeId} {b : Batch P.Msg}
    (hsender : sender ∉ s.dismissed) (h : onBatch me s sender b = .ok r) : r.state.Without p := by
  rcases onBatch_cases h with ⟨-, rfl⟩ | ⟨id, -, -, rfl⟩ | ⟨id, inner, -, -, -, h⟩
  · exact hs.setLink hsender _
  · exact hs.setLink hsender _
  · exact (hs.setLink hsender _).sendAfter h

theorem State.Without.onReset (hs : s.Without p) {sender : NodeId} {reset : Reset}
    (hsender : sender ∉ s.dismissed) (h : onReset s sender reset = .ok r) :
    r.state.Without p := by
  rcases onReset_cases h with
    ⟨-, hstate, -⟩ | ⟨-, -, hstate, -⟩ | ⟨next, link, ms, -, -, -, -, hstate, -⟩
  all_goals
    rw [hstate]
    exact hs.setLink hsender _

/-- **No call brings a dismissed peer back.** -/
theorem State.Without.call (hs : s.Without p) (h : call period me s c = .ok r) :
    r.state.Without p := by
  match c with
  | .input (.nested i) =>
    obtain ⟨inner, -, h⟩ := bind_eq_ok h
    exact hs.sendAfter h
  | .input (.tick now) =>
    cases h
    refine ⟨hs.dismissed, ?_⟩
    change (s.links.mapVals _).get? p = none
    rw [get?_mapVals, hs.absent]
    rfl
  | .message sender m =>
    change receive me s sender m = _ at h
    unfold receive at h
    split at h
    · cases h
      exact hs
    · rename_i hsender
      cases m with
      | batch b => exact hs.onBatch hsender h
      | reset reset => exact hs.onReset hsender h
  | .dismiss peer =>
    cases h
    refine ⟨List.mem_insert_of_mem hs.dismissed, ?_⟩
    change (s.links.erase peer).get? p = none
    rw [get?_erase, hs.absent, ite_self]

theorem State.Without.sent (hs : s.Without p) (h : Reliable.call period me s c = .ok r) :
    ∀ o ∈ r.sent, o.recipient ≠ p := by
  rintro ⟨q, m⟩ ho rfl
  have hnone := (call_dismissed h (hs.call h).dismissed fun _ => hs.link).2
  have hm := mem_addressedTo.mpr ho
  rw [hnone] at hm
  exact List.not_mem_nil hm

/-! ### Sequences of calls -/

/-- A call that a node gets, and what comes of it. -/
structure Attempt (P : Protocol) where
  before : State P
  call : Call P
  outcome : Outcome (State P) (Message P.Msg)

/-- What comes of calls, one after the other; the first one that makes the node fail is the last
one that it gets. -/
def attempts (period : Time) (me : NodeId) (s : State P) : List (Call P) → List (Attempt P)
  | [] => []
  | c :: cs =>
    ⟨s, c, Reliable.call period me s c⟩ ::
      match Reliable.call period me s c with
      | .ok r => attempts period me r.state cs
      | .error _ => []

theorem attempts_invariant {I : State P → Prop}
    (hstep : ∀ s c r, I s → Reliable.call period me s c = .ok r → I r.state) (hs : I s)
    {cs : List (Call P)} {x : Attempt P} (hx : x ∈ attempts period me s cs) :
    I x.before ∧ x.outcome = Reliable.call period me x.before x.call := by
  induction cs generalizing s with
  | nil => cases hx
  | cons c cs ih =>
    rcases List.mem_cons.mp hx with rfl | hx
    · exact ⟨hs, rfl⟩
    · split at hx
      · rename_i r hr
        exact ih (hstep s c r hs hr) hx
      · cases hx

/-- **The messages of a dismissed peer make no difference**: the other calls find the same states
and come out the same when they are left out. -/
theorem filter_attempts (hs : s.Without p) (cs : List (Call P)) :
    (attempts period me s cs).filter (!·.call.isFrom p) =
      attempts period me s (cs.filter (!·.isFrom p)) := by
  induction cs generalizing s with
  | nil => rfl
  | cons c cs ih =>
    rw [attempts]
    by_cases hc : c.isFrom p = true
    · rw [List.filter_cons_of_neg (by simpa using hc), List.filter_cons_of_neg (by simpa using hc),
        call_of_isFrom hs.dismissed hc]
      exact ih hs
    · rw [List.filter_cons_of_pos (by simpa using hc), List.filter_cons_of_pos (by simpa using hc),
        attempts]
      congr 1
      split
      · rename_i r hr
        exact ih (hs.call hr)
      · rfl

end

/-! ### The nested automaton -/

section
variable {P : Protocol} {period : Time} {me p : NodeId} {s : State P.recorded}
  {c : Call P.recorded} {r : Reaction (State P.recorded) (Message P.Msg)}

/-- What the nested automaton of a node has been handed in the name of a peer. -/
def State.heardFrom (p : NodeId) (s : State P.recorded) : List (NodeId × P.Msg) :=
  s.heard.filter (·.1 = p)

/-- **In the name of a dismissed peer, nothing is handed to the nested automaton.** -/
theorem State.Without.heardFrom (hs : s.Without p) (h : Reliable.call period me s c = .ok r) :
    r.state.heardFrom p = s.heardFrom p := by
  by_cases hc : ∃ peer, c = .dismiss peer
  · obtain ⟨peer, rfl⟩ := hc
    cases h
    rfl
  · by_cases hfrom : c.isFrom p = true
    · rw [call_of_isFrom hs.dismissed hfrom] at h
      cases h
      rfl
    · obtain ⟨inner, hconduct⟩ := call_conduct h (not_exists.mp hc)
      have hinvolves := hconduct.involves
      rw [State.heardFrom, State.heard, hconduct.state]
      cases hinvolves with
      | input h =>
        rw [(received_input h).1]
        rfl
      | @batch sender b _ h =>
        obtain ⟨-, -, hreceived, -⟩ := handOver_recorded (P := P) h
        have hsender : sender ≠ p := fun heq => hfrom (decide_eq_true heq)
        have hnone : (b.msgs.map (sender, ·)).filter (·.1 = p) = [] := by
          refine List.filter_eq_nil_iff.mpr fun x hx => ?_
          obtain ⟨m, -, rfl⟩ := List.mem_map.mp hx
          simpa using hsender
        rw [hreceived, List.filter_append, hnone, List.append_nil]
        rfl
      | nothing => rfl

/-- **Dismissal is final.**  Dismissing a peer changes neither the nested automaton nor anything
about another peer.  Whatever calls follow, up to one that makes the node fail: a message in the
name of the dismissed peer changes nothing and is not answered; nothing is sent to the peer, nothing
is handed to the nested automaton in its name, and it is not in the table of peers again.  Two
sequences of calls that differ in nothing but such messages find the same states and come out the
same, reactions and failures, at every other call. -/
theorem dismissal_is_final (period : Time) (me : NodeId) (s : State P.recorded) (p : NodeId) :
    ((s.dismiss p).nested = s.nested ∧
      ∀ q ≠ p, (s.dismiss p).links.get? q = s.links.get? q ∧
        (q ∈ (s.dismiss p).dismissed ↔ q ∈ s.dismissed)) ∧
    (∀ cs, ∀ x ∈ attempts period me (s.dismiss p) cs,
      (x.call.isFrom p = true → x.outcome = .ok { state := x.before }) ∧
      ∀ r, x.outcome = .ok r →
        (∀ o ∈ r.sent, o.recipient ≠ p) ∧ r.state.heardFrom p = s.heardFrom p ∧
          r.state.links.get? p = none ∧ ¬ r.state.isInitialized p) ∧
    ∀ cs cs', cs.filter (!·.isFrom p) = cs'.filter (!·.isFrom p) →
      (attempts period me (s.dismiss p) cs).filter (!·.call.isFrom p) =
        (attempts period me (s.dismiss p) cs').filter (!·.call.isFrom p) := by
  have hgone := s.without_dismiss p
  refine ⟨⟨rfl, fun q hq => ⟨?_, ?_⟩⟩, fun cs x hx => ?_, fun cs cs' hsame => ?_⟩
  · change (s.links.erase p).get? q = _
    rw [get?_erase, if_neg fun hrank => hq (Ranked.rank_inj hrank)]
  · rw [State.dismiss, List.mem_insert_iff]
    exact or_iff_right hq
  · obtain ⟨⟨hbefore, hheard⟩, houtcome⟩ := attempts_invariant
      (I := fun t => t.Without p ∧ t.heardFrom p = s.heardFrom p)
      (fun t c r ht hr => ⟨ht.1.call hr, (ht.1.heardFrom hr).trans ht.2⟩) ⟨hgone, rfl⟩ hx
    refine ⟨fun hfrom => ?_, fun r hr => ?_⟩
    · rw [houtcome]
      exact call_of_isFrom hbefore.dismissed hfrom
    · rw [houtcome] at hr
      have hafter := hbefore.call hr
      refine ⟨hbefore.sent hr, (hbefore.heardFrom hr).trans hheard, hafter.absent, ?_⟩
      rw [State.isInitialized, hafter.link]
      exact Bool.false_ne_true
  · rw [filter_attempts hgone, filter_attempts hgone, hsame]

end

end Quorum.Reliable
