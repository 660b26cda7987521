import Quorum.Proofs.Reliable.Lane
import Quorum.Proofs.Reliable.Reaction
import Quorum.Proofs.SelfDelivery

/-!
# Serving — what one event does to the channels of a node where nothing is lost

Where nothing is lost, a batch that comes is new, a request comes before any batch, and its answer
is zero.  Then every event lets all channels of the node serve: the one to the sender takes what
has come, and each sends its part of the news of the nested automaton.

**Main statements.**  `input_serves`, `batch_serves`, `request_serves`, `response_serves`: the
events of a node.  `handOver_ok`: handing a batch over is work of the nested automaton.
-/

namespace Quorum.Reliable

open SortedMap Link Mesh

section
variable {P : Protocol} {s : State P} {me sender : NodeId}

/-- Every channel of a node has served: what came, if anything, and its part of the news. -/
structure Serves (s : State P) (came : Option (NodeId × Message P.Msg))
    (news : List (Outgoing P.Msg)) (s' : State P) (sent : List (Outgoing (Message P.Msg))) :
    Prop where
  dismissed : s'.dismissed = s.dismissed
  serve : ∀ q, Serve (s.link q) (forPeer came q) (addressedTo q news) (s'.link q)
    (addressedTo q sent)

theorem serves_setLink {m : Message P.Msg} {link : Link P.Msg} {ms : List (Message P.Msg)}
    (h : Serve (s.link sender) (some m) [] link ms) :
    Serves s (some (sender, m)) [] (s.setLink sender link) (toPeer sender ms) where
  dismissed := rfl
  serve q := by
    rw [addressedTo_nil, link_setLink, addressedTo_toPeer, forPeer, Option.bind_some]
    by_cases hq : sender = q
    · subst hq
      rw [if_pos rfl, if_pos rfl, if_pos rfl]
      exact h
    · rw [if_neg hq, if_neg hq, if_neg hq]
      exact .quiet rfl

theorem sendAfter_ok (owed : Option (NodeId × BatchId)) (nested : Reaction P.State P.Msg)
    (hstays : s.dismissed = [])
    (h : ∀ q, ∃ link ms,
      (s.link q).post (addressedTo q nested.sent) (forPeer owed q) = .ok (link, ms)) :
    ∃ r, sendAfter s owed nested = .ok r ∧ r.state.nested = nested.state ∧
      r.state.dismissed = s.dismissed ∧ ∀ q,
        (s.link q).post (addressedTo q nested.sent) (forPeer owed q) =
          .ok (r.state.link q, addressedTo q r.sent) := by
  obtain ⟨round, hround⟩ :=
    sendRound_ok (s := { s with nested := nested.state }) fun q _ => h q
  have hsend : sendAfter s owed nested = .ok { round with warnings := nested.warnings } := by
    rw [sendAfter, hround]
  obtain ⟨hnested, hdismissed, hposts⟩ := sendAfter_post hsend fun q hq => by
    rw [hstays] at hq
    cases hq
  refine ⟨_, hsend, hnested, hdismissed, fun q => ?_⟩
  have hq := hposts q
  rwa [hstays, if_neg List.not_mem_nil] at hq

/-- **An input of the nested automaton.** -/
theorem input_serves (period : Time) {i : P.Input} {nested : Reaction P.State P.Msg}
    (hstays : s.dismissed = []) (hnested : P.input me s.nested i = .ok nested)
    (h : ∀ q, ∃ link ms, (s.link q).post (addressedTo q nested.sent) none = .ok (link, ms)) :
    ∃ r, input period me s (.nested i) = .ok r ∧ r.state.nested = nested.state ∧
      Serves s none nested.sent r.state r.sent := by
  obtain ⟨r, hr, hstate, hdismissed, hpost⟩ :=
    sendAfter_ok none nested hstays h
  refine ⟨r, ?_, hstate, hdismissed, fun q => .quiet (hpost q)⟩
  rw [input, hnested]
  exact hr

/-- **A batch that is new, or carries nothing.** -/
theorem batch_serves {b : Batch P.Msg} {nested : Reaction P.State P.Msg}
    (hstays : s.dismissed = [])
    (hnew : ∀ id, b.id = some id → ¬ (s.link sender).received.contains id)
    (hbare : b.id = none → b.msgs = [])
    (hnested : handOver me sender b.msgs { nested := s.nested } = .ok nested)
    (hsender : ∃ link ms, ((s.link sender).accept b).1.post (addressedTo sender nested.sent) b.id =
      .ok (link, ms))
    (h : ∀ q, ∃ link ms, (s.link q).post (addressedTo q nested.sent) none = .ok (link, ms)) :
    ∃ r, receive me s sender (.batch b) = .ok r ∧ r.state.nested = nested.state ∧
      Serves s (some (sender, .batch b)) nested.sent r.state r.sent := by
  have hreceive : receive me s sender (.batch b) = onBatch me s sender b := by
    rw [receive, hstays, if_neg List.not_mem_nil]
  rw [hreceive]
  simp only [onBatch]
  rcases accept_cases (s.link sender) b with
    ⟨hid, hverdict⟩ | ⟨id, hid, hreceived, -⟩ | ⟨id, hid, -, hverdict⟩
  · rw [hverdict]
    rw [hbare hid] at hnested
    cases hnested
    exact ⟨_, rfl, rfl, serves_setLink (.batch (by rw [hid]; rfl))⟩
  · exact absurd hreceived (hnew id hid)
  · rw [hverdict]
    rw [hid] at hsender
    obtain ⟨r, hr, hstate, hdismissed, hpost⟩ :=
      sendAfter_ok (s := s.setLink sender ((s.link sender).accept b).1)
        (some (sender, id)) nested hstays fun q => by
          rw [link_setLink, forPeer, Option.bind_some]
          by_cases hq : sender = q
          · subst hq
            rw [if_pos rfl, if_pos rfl]
            exact hsender
          · rw [if_neg hq, if_neg hq]
            exact h q
    refine ⟨r, ?_, hstate, hdismissed, fun q => ?_⟩
    · simp only [hnested]
      exact hr
    · have hq := hpost q
      rw [link_setLink, forPeer, Option.bind_some] at hq
      rw [forPeer, Option.bind_some]
      by_cases hsame : sender = q
      · subst hsame
        rw [if_pos rfl, if_pos rfl, ← hid] at hq
        rw [if_pos rfl]
        exact .batch hq
      · rw [if_neg hsame, if_neg hsame] at hq
        rw [if_neg hsame]
        exact .quiet hq

/-- **A reset request.** -/
theorem request_serves {reset : Reset} (hstays : s.dismissed = [])
    (hreset : reset.isResponse = false) :
    ∃ r, receive me s sender (.reset reset) = .ok r ∧ r.state.nested = s.nested ∧
      Serves s (some (sender, .reset reset)) [] r.state r.sent := by
  refine ⟨⟨s.setLink sender (s.link sender).answerReset.1,
    toPeer sender [(s.link sender).answerReset.2], []⟩, ?_, rfl,
    serves_setLink (.request hreset)⟩
  rw [receive, hstays, if_neg List.not_mem_nil]
  simp only [onReset, hreset]
  rfl

/-- **The answer to a reset request, if it is zero.** -/
theorem response_serves {reset : Reset} {link : Link P.Msg} {ms : List (Message P.Msg)}
    (hstays : s.dismissed = []) (hreset : reset.isResponse = true) (hlatest : reset.latest = 0)
    (hid : (s.link sender).nextId = none)
    (hsettle : (s.link sender).settleNumbering 1 = .ok (link, ms)) :
    ∃ r, receive me s sender (.reset reset) = .ok r ∧ r.state.nested = s.nested ∧
      Serves s (some (sender, .reset reset)) [] r.state r.sent := by
  have hinitialized : (s.link sender).isInitialized = false := by rw [isInitialized, hid]; rfl
  have hnext : reset.latest.next? = some 1 := by rw [hlatest]; rfl
  refine ⟨⟨s.setLink sender link, toPeer sender ms, []⟩, ?_, rfl,
    serves_setLink (.response hreset hsettle)⟩
  rw [receive, hstays, if_neg List.not_mem_nil]
  simp only [onReset, hreset, hinitialized, hnext, hsettle]
  rfl

end

/-! ### Handing over -/

section
variable {P : Protocol} {ids : List NodeId} {fits : P.Input → Prop} {most limit : Nat}
variable {past : List (Moment P)} {mesh : Mesh P}

open SelfDelivery

/-- **Handing over messages that the sender has sent is work of the nested automaton.** -/
theorem handOver_ok (ht : Tame P ids fits most) (hlimit : most ≤ limit) {me sender : NodeId}
    {msgs : List P.Msg} {t : Handover (P.selfDelivering limit)}
    (hrun : Run ids (Event.IsHonest fits) past mesh) (hs : mesh.nodes.get? me = some t.nested)
    (hmsgs : ∀ m ∈ msgs, (⟨sender, me, m⟩ : Packet P.Msg) ∈ mesh.pool) :
    ∃ r past' mesh' out, handOver (P := P.selfDelivering limit) me sender msgs t = .ok r ∧
      Done ids fits me past mesh none r.state out past' mesh' ∧
      r.sent = t.sent.toList ++ toOthers me out ∧
      ∀ m ∈ msgs, Arrived past' mesh' ⟨sender, me, m⟩ := by
  induction msgs generalizing t past mesh with
  | nil =>
    refine ⟨_, past, mesh, [], rfl, Done.refl hrun hs, by simp [toOthers], ?_⟩
    exact fun _ hm => absurd hm List.not_mem_nil
  | cons m msgs ih =>
    obtain ⟨hm, hmsgs⟩ := List.forall_mem_cons.mp hmsgs
    obtain ⟨k, hk⟩ := Array.getElem?_of_mem hm
    obtain ⟨r, hr⟩ := ht.receive past mesh hrun _ hm _ hs
    obtain ⟨r', past', mesh', out, hfinish, hdone, hsent, harrived⟩ :=
      finish_ok ht hlimit hrun hs (e := .deliver k) trivial (.deliver hk rfl hr)
    have hreceive : (P.selfDelivering limit).receive me t.nested sender m = .ok r' := by
      change finish me limit (P.receive me t.nested sender m) = _
      rw [hr, hfinish]
    obtain ⟨last, past'', mesh'', out', hrest, hdone', hsent', harrived'⟩ :=
      ih (t := ⟨r'.state, t.sent ++ r'.sent, t.warnings ++ r'.warnings⟩)
        hdone.run hdone.get? fun m hm => hdone.mem_pool (hmsgs m hm)
    refine ⟨last, past'', mesh'', out ++ out', ?_, hdone.trans hdone', ?_, fun m' hm' => ?_⟩
    · rw [handOver, hreceive]
      exact hrest
    · rw [hsent', Array.toList_appendList, hsent, List.append_assoc, toOthers, toOthers, toOthers,
        List.filter_append]
    · rcases List.mem_cons.mp hm' with rfl | hm'
      · exact hdone'.arrived _ (harrived k _ rfl hk)
      · exact harrived' m' hm'

end

end Quorum.Reliable
