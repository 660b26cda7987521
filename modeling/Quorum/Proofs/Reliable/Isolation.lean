import Quorum.Broadcast
import Quorum.Proofs.Reliable.Bookkeeping

/-!
# Isolation — a peer cannot touch the channel to another one

The channels of a node lie in one table, where entries come about on demand, and one round of
sending serves all peers that the nested automaton has news for.  Still a message touches no channel
but that to its sender, whatever it carries: to every other peer, the node does no more than send
the news that there is for it.

Sending only adds.  What is kept for a peer has lower numbers than any batch to come, so that
nothing is overwritten, and as nothing is owed to that peer, no acknowledgement finds a new carrier.

**Main statements.**  `Link.spares_post`: what sending leaves alone.  `receive_confined`: what a
message comes to for the others.  `peers_are_isolated`: both, for a node at any point of its life.
-/

namespace Quorum.Reliable

open SortedMap

/-! ### Sending without an acknowledgement -/

section
variable {μ : Type} {link link' : Link μ} {news : List μ} {ms : List (Message μ)}

/-- What a peer has told is as it was, and what is kept for the peer is still kept unchanged. -/
structure Link.Spares (link link' : Link μ) : Prop where
  received : link'.received = link.received
  answeredReset : link'.answeredReset = link.answeredReset
  ackedIn : link'.ackedIn = link.ackedIn
  kept : ∀ i kept, link.unacked.get? i = some kept → link'.unacked.get? i = some kept

namespace Link

/-- Where nothing is owed, the carriers of acknowledgements stay what they are. -/
theorem ackedIn_sendBatches {id : BatchId} {chunks : List (List μ)}
    (h : link.sendBatches id none chunks = .ok (link', ms)) : link'.ackedIn = link.ackedIn := by
  induction chunks generalizing link id ms with
  | nil =>
    cases h
    rfl
  | cons chunk chunks ih =>
    obtain ⟨⟨next, m⟩, hbatch, h⟩ := bind_eq_ok h
    obtain ⟨⟨last, ms⟩, hrest, h⟩ := bind_eq_ok h
    cases h
    have hnext : next.ackedIn = link.ackedIn := by
      unfold sendBatch at hbatch
      split at hbatch
      · cases hbatch
      · cases hbatch
        rfl
    exact (ih hrest).trans hnext

/-- **Sending only adds to a channel** that keeps nothing above its numbering, if nothing is
owed. -/
theorem spares_post (h : link.post news none = .ok (link', ms))
    (hbelow : ∀ i kept, link.unacked.get? i = some kept →
      ∃ next, link.nextId = some next ∧ i < next) : link.Spares link' := by
  have hposted := post_posted h
  have hrestocks := restocks_post h
  refine ⟨hposted.received, hposted.answeredReset, ?_, fun i kept hkept => ?_⟩
  · unfold post at h
    split at h
    · cases h
      rfl
    · split at h
      · cases h
        rfl
      · exact ackedIn_sendBatches h
  · obtain ⟨next, hnext, hlt⟩ := hbelow i kept hkept
    have hold : i ∉ numbers ms := fun hi => by
      have htop := (hposted.fresh i hi).1
      rw [top, hnext] at htop
      exact absurd (UInt32.lt_iff_toNat_lt.mp hlt) (Nat.not_lt.mpr htop)
    rw [hrestocks.same i hold not_mem_acks_none]
    exact hkept

end Link

end

/-! ### The table of peers -/

section
variable {P : Protocol} {me p q : NodeId} {s s' : State P} {m : Message P.Msg}

theorem get?_byRecipient_eq_none {out : List (Outgoing P.Msg)} (h : addressedTo q out = []) :
    (Outbox.byRecipient out).get? q = none := by
  unfold Outbox.byRecipient
  rw [get?_mapKeyed, Option.map_eq_none_iff, ← Option.not_isSome_iff_eq_none]
  intro hsome
  obtain ⟨_, hentry, rfl⟩ := contains_ofList.mp hsome
  obtain ⟨o, ho, rfl⟩ := List.mem_map.mp hentry
  have hbody : o.body ∈ addressedTo o.recipient out := mem_addressedTo.mpr ho
  rw [h] at hbody
  exact List.not_mem_nil hbody

/-- Groups for others leave the entry of a peer alone, and so do those for a peer that has left. -/
theorem get?_sendGroups {owed : NodeId → Option BatchId} {groups : List (NodeId × List P.Msg)}
    {sent sent' : Array (Outgoing (Message P.Msg))}
    (h : sendGroups owed groups s sent = .ok (s', sent'))
    (hq : q ∈ s.dismissed ∨ ∀ e ∈ groups, e.1 ≠ q) : s'.links.get? q = s.links.get? q := by
  induction groups generalizing s sent with
  | nil =>
    cases h
    rfl
  | cons group groups ih =>
    obtain ⟨peer, msgs⟩ := group
    unfold sendGroups at h
    split at h
    · exact ih h (hq.imp_right fun hother => (List.forall_mem_cons.mp hother).2)
    · rename_i hpeer
      split at h
      · cases h
      · rename_i link ms _
        have hne : peer ≠ q := by
          rcases hq with hq | hq
          · exact fun heq => hpeer (heq ▸ hq)
          · exact (List.forall_mem_cons.mp hq).1
        have hsame : (s.setLink peer link).links.get? q = s.links.get? q := get?_insert_ne _ _ hne
        rw [← hsame]
        exact ih h (hq.imp_right fun hother => (List.forall_mem_cons.mp hother).2)

/-- **A round of sending makes no entry for a peer that it has nothing for.** -/
theorem get?_sendRound {out : List (Outgoing P.Msg)} {owed : Option (NodeId × BatchId)}
    {r : Reaction (State P) (Message P.Msg)} (h : sendRound s out owed = .ok r)
    (howed : forPeer owed q = none) (hq : q ∈ s.dismissed ∨ addressedTo q out = []) :
    r.state.links.get? q = s.links.get? q := by
  obtain ⟨⟨last, sent⟩, hsend, h⟩ := bind_eq_ok h
  cases h
  refine get?_sendGroups hsend (hq.imp_right fun hnone e he heq => ?_)
  obtain rfl := heq
  have hgroup := mem_entries_iff.mp he
  have habsent := get?_byRecipient_eq_none hnone
  cases owed with
  | none =>
    rw [habsent] at hgroup
    cases hgroup
  | some x =>
    obtain ⟨peer, id⟩ := x
    have hne : peer ≠ e.1 := by
      rintro rfl
      rw [forPeer_self] at howed
      cases howed
    dsimp only at hgroup
    rw [get?_insert_ne _ _ hne, habsent] at hgroup
    cases hgroup

/-! ### Messages -/

/-- With `inner` the reaction of the nested automaton, a message of the peer `p` takes the node from
`s` to `s'`, and `sent` is sent: every other channel sends the news that there is for its peer, and
none comes about without news. -/
structure Confined (p : NodeId) (s : State P) (inner : Reaction P.State P.Msg) (s' : State P)
    (sent : List (Outgoing (Message P.Msg))) : Prop where
  nested : s'.nested = inner.state
  dismissed : s'.dismissed = s.dismissed
  posts : ∀ q ≠ p, (s.link q).post (if q ∈ s.dismissed then [] else addressedTo q inner.sent) none =
    .ok (s'.link q, addressedTo q sent)
  table : ∀ q ≠ p, q ∈ s.dismissed ∨ addressedTo q inner.sent = [] →
    s'.links.get? q = s.links.get? q

theorem confined_setLink (s : State P) (p : NodeId) (link : Link P.Msg)
    (ms : List (Message P.Msg)) :
    Confined p s { state := s.nested } (s.setLink p link) (toPeer p ms) where
  nested := rfl
  dismissed := rfl
  posts q hq := by
    rw [addressedTo_nil, ite_self, link_setLink, if_neg hq.symm, addressedTo_toPeer,
      if_neg hq.symm]
    exact Link.post_nil _
  table q hq _ := get?_insert_ne _ _ hq.symm

/-- What the nested automaton has been handed for is acknowledged to the sender alone. -/
theorem confined_sendAfter {link : Link P.Msg} {id : BatchId} {inner : Reaction P.State P.Msg}
    {r : Reaction (State P) (Message P.Msg)} (hp : p ∉ s.dismissed)
    (h : sendAfter (s.setLink p link) (some (p, id)) inner = .ok r) :
    Confined p s inner r.state r.sent := by
  obtain ⟨hnested, hdismissed, hposts⟩ := sendAfter_post h (forPeer_of_dismissed hp id)
  refine ⟨hnested, hdismissed, fun q hq => ?_, fun q hq hnone => ?_⟩
  · have hpost := hposts q
    rw [link_setLink, if_neg hq.symm, forPeer_ne hq.symm] at hpost
    exact hpost
  · unfold sendAfter at h
    split at h
    · rename_i round hround
      cases h
      exact (get?_sendRound hround (forPeer_ne hq.symm id) hnone).trans
        (get?_insert_ne _ _ hq.symm)
    · cases h

/-- **A message is confined to the channel to its sender**: the nested automaton is left alone, or
is handed the messages of a batch that is new. -/
theorem receive_confined {r : Reaction (State P) (Message P.Msg)} (h : receive me s p m = .ok r) :
    ∃ inner, Confined p s inner r.state r.sent ∧ (inner = { state := s.nested } ∨
      ∃ b id, m = .batch b ∧ b.id = some id ∧ ¬ (s.link p).received.contains id ∧
        handOver me p b.msgs { nested := s.nested } = .ok inner) := by
  unfold receive at h
  split at h
  · cases h
    refine ⟨_, ⟨rfl, rfl, fun q _ => ?_, fun q _ _ => rfl⟩, .inl rfl⟩
    rw [addressedTo_nil, ite_self]
    exact Link.post_nil _
  · rename_i hp
    cases m with
    | batch b =>
      rcases onBatch_cases h with
        ⟨-, rfl⟩ | ⟨id, -, -, rfl⟩ | ⟨id, inner, hid, hfresh, hinner, h⟩
      · exact ⟨_, confined_setLink s p _ [], .inl rfl⟩
      · exact ⟨_, confined_setLink s p _ _, .inl rfl⟩
      · exact ⟨inner, confined_sendAfter hp h, .inr ⟨b, id, rfl, hid, hfresh, hinner⟩⟩
    | reset reset =>
      rcases onReset_cases h with
        ⟨-, hstate, hsent⟩ | ⟨-, -, hstate, hsent⟩ | ⟨_, _, ms, -, -, -, -, hstate, hsent⟩
      · rw [hstate, hsent]
        exact ⟨_, confined_setLink s p _ _, .inl rfl⟩
      · rw [hstate, hsent]
        exact ⟨_, confined_setLink s p _ [], .inl rfl⟩
      · rw [hstate, hsent]
        exact ⟨_, confined_setLink s p _ ms, .inl rfl⟩

theorem Confined.recipient {inner : Reaction P.State P.Msg}
    {sent : List (Outgoing (Message P.Msg))} (h : Confined p s inner s' sent)
    (hnone : inner.sent = []) : ∀ o ∈ sent, o.recipient = p := by
  intro o ho
  by_contra hne
  have hpost := h.posts o.recipient hne
  rw [hnone, addressedTo_nil, ite_self, Link.post_nil] at hpost
  have hbody : o.body ∈ addressedTo o.recipient sent := mem_addressedTo.mpr ho
  rw [← (Prod.mk.inj (Except.ok.inj hpost)).2] at hbody
  exact List.not_mem_nil hbody

end

/-! ### All the life of a node -/

section
variable {P : Protocol} {period : Time} {me p : NodeId}

/-- What is kept for a peer has numbers below those to come. -/
theorem Life.below {s : State P} {log : List (Episode P)} (hlife : Life period me log s)
    {q : NodeId} {i : BatchId} {kept : Unacked P.Msg}
    (hkept : (s.link q).unacked.get? i = some kept) :
    ∃ next, (s.link q).nextId = some next ∧ i < next := by
  cases hlink : s.links.get? q with
  | none =>
    rw [State.link, getD, hlink] at hkept
    cases hkept
  | some link =>
    have hsame : s.link q = link := by rw [State.link, getD, hlink, Option.getD_some]
    rw [hsame] at hkept ⊢
    exact ((hlife.consistent hlink).2.own i kept hkept).2.1

/-- **Peers cannot touch each other's channels.**  A node receives a message of the peer `p`, at any
point of its life, and in the course of this the nested automaton sends `news`.  For every other
peer `q`, what has been received from it, the answer to its last reset request and the carriers of
its acknowledgements are as they were, and everything that is kept for it is kept unchanged.  The
channel becomes, and what is sent to `q` is, what sending the news for `q` makes of the channel as
it was; without news the entry of `q` in the table stays what it is.  If the message hands over
nothing, because it is a reset, has no number, has a number that counts as received, or is empty,
then the nested automaton and all other entries are unchanged, and everything sent is for `p`. -/
theorem peers_are_isolated {s : State P.recorded} {log : List (Episode P.recorded)}
    (hlife : Life period me log s) {m : Message P.Msg}
    {r : Reaction (State P.recorded) (Message P.Msg)} (h : receive me s p m = .ok r) :
    r.state.dismissed = s.dismissed ∧
    (∃ news, r.state.told = s.told ++ news ∧ ∀ q ≠ p,
      (s.link q).Spares (r.state.link q) ∧
      (s.link q).post (if q ∈ s.dismissed then [] else addressedTo q news) none =
        .ok (r.state.link q, addressedTo q r.sent) ∧
      (q ∈ s.dismissed ∨ addressedTo q news = [] →
        r.state.links.get? q = s.links.get? q)) ∧
    ((∀ b id, m = .batch b → b.id = some id →
        (s.link p).received.contains id ∨ b.msgs = []) →
      r.state.nested = s.nested ∧ (∀ q ≠ p, r.state.links.get? q = s.links.get? q) ∧
        ∀ o ∈ r.sent, o.recipient = p) := by
  obtain ⟨inner, hconfined, hinner⟩ := receive_confined h
  refine ⟨hconfined.dismissed, ⟨inner.sent, ?_, fun q hq => ?_⟩, fun hquiet => ?_⟩
  · rw [State.told, hconfined.nested]
    rcases hinner with rfl | ⟨b, id, -, -, -, hinner⟩
    · exact (List.append_nil _).symm
    · obtain ⟨news, hsent, -, htold⟩ := handOver_recorded (P := P) hinner
      obtain rfl : inner.sent = news := hsent
      exact htold
  · have hpost := hconfined.posts q hq
    exact ⟨Link.spares_post hpost fun _ _ hkept => hlife.below hkept, hpost,
      hconfined.table q hq⟩
  · have hnothing : inner = { state := s.nested } := by
      rcases hinner with hinner | ⟨b, id, rfl, hid, hfresh, hinner⟩
      · exact hinner
      · rw [(hquiet b id rfl hid).resolve_left hfresh] at hinner
        cases hinner
        rfl
    subst hnothing
    exact ⟨hconfined.nested, fun q hq => hconfined.table q hq (.inr rfl),
      hconfined.recipient rfl⟩

/-- The first of three members of a broadcast has its numbering towards the third one settled, and
has become ready with it in the batch 5, which is not acknowledged. -/
def readyMember : List (Call (Protocol.broadcast ⟨[⟨0⟩, ⟨1⟩, ⟨2⟩]⟩ ⟨1⟩).recorded) :=
  [.message ⟨2⟩ (.reset ⟨true, 4⟩),
    .message ⟨2⟩ (.batch { id := some 9, msgs := [(⟨.ready, [7]⟩ : Broadcast.Message)] })]

/-- Then the value of the second member comes, and is echoed: to the third member in the batch 6,
and the batch 5 is still kept for it. -/
theorem isolated_from_initial :
    let P := Protocol.broadcast ⟨[⟨0⟩, ⟨1⟩, ⟨2⟩]⟩ ⟨1⟩
    let initial : Message P.Msg :=
      .batch { id := some 1, msgs := [(⟨.initial, [8]⟩ : Broadcast.Message)] }
    ∃ log s r, Life (P := P.recorded) 0 ⟨0⟩ log s ∧
      receive (P := P.recorded) ⟨0⟩ s ⟨1⟩ initial = .ok r ∧
      (s.link ⟨2⟩).unacked.contains 5 ∧ addressedTo ⟨2⟩ r.sent =
        [.batch { id := some 6, msgs := [(⟨.echo, [8]⟩ : Broadcast.Message)] }] ∧
      (s.link ⟨2⟩).Spares (r.state.link ⟨2⟩) ∧
      ∃ news, r.state.told = s.told ++ news ∧ (s.link ⟨2⟩).post (addressedTo ⟨2⟩ news) none =
        .ok (r.state.link ⟨2⟩, addressedTo ⟨2⟩ r.sent) := by
  intro P initial
  obtain ⟨log, s, hlife, htest⟩ := @Life.exists P.recorded 0 ⟨0⟩ readyMember
    (fun _ s => (receive (P := P.recorded) ⟨0⟩ s ⟨1⟩ initial).toOption.any fun r =>
      s.dismissed = [] ∧ (s.link ⟨2⟩).unacked.contains 5 ∧
        (addressedTo ⟨2⟩ r.sent : List (Message Broadcast.Message)) =
          [.batch { id := some 6, msgs := [⟨.echo, [8]⟩] }]) (by decide +kernel)
  obtain ⟨r, hr, htest⟩ := (Option.any_eq_true _ _).mp htest
  obtain ⟨hnobody, hkept, hsent⟩ := of_decide_eq_true htest
  have hreceive := Mesh.eq_ok_of_toOption hr
  obtain ⟨-, ⟨news, htold, hothers⟩, -⟩ := peers_are_isolated hlife hreceive
  obtain ⟨hspares, hpost, -⟩ := hothers ⟨2⟩ (by decide)
  rw [hnobody, if_neg List.not_mem_nil] at hpost
  exact ⟨log, s, r, hlife, hreceive, hkept, hsent, hspares, news, htold, hpost⟩

end

end Quorum.Reliable
