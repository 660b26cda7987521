import Quorum.Proofs.Reliable.Channel
import Quorum.Proofs.SortedMap

/-!
# Reaction — what one event does to a node with reliable channels

An event of a node is an exchange with its peers: the nested automaton is handed the messages of a
batch, or nothing, and its own messages are the news on which every channel takes a turn.

**Main statements.**  `onBatch_cases`, `onReset_cases`: what becomes of a message.
`input_exchange`, `receive_exchange`: every event that a node reacts to is an exchange.
-/

namespace Quorum.Reliable

open SortedMap Link

/-! ### Messages by recipient -/

section
variable {μ : Type}

def addressedTo (q : NodeId) (out : List (Outgoing μ)) : List μ :=
  (out.filter (·.recipient = q)).map (·.body)

theorem mem_addressedTo {q : NodeId} {out : List (Outgoing μ)} {m : μ} :
    m ∈ addressedTo q out ↔ ⟨q, m⟩ ∈ out := by
  simp only [addressedTo, List.mem_map, List.mem_filter, decide_eq_true_iff]
  constructor
  · rintro ⟨x, ⟨hx, rfl⟩, rfl⟩
    exact hx
  · intro h
    exact ⟨⟨q, m⟩, ⟨h, rfl⟩, rfl⟩

@[simp] theorem addressedTo_nil (q : NodeId) : addressedTo q ([] : List (Outgoing μ)) = [] := rfl

theorem addressedTo_append (q : NodeId) (out out' : List (Outgoing μ)) :
    addressedTo q (out ++ out') = addressedTo q out ++ addressedTo q out' := by
  rw [addressedTo, List.filter_append, List.map_append]
  rfl

theorem addressedTo_eq_nil {q : NodeId} {out : List (Outgoing μ)}
    (h : ∀ m ∈ out, m.recipient ≠ q) : addressedTo q out = [] := by
  rw [addressedTo, List.filter_eq_nil_iff.mpr, List.map_nil]
  exact fun m hm => by simpa using h m hm

/-- The group of a recipient is what is addressed to it. -/
theorem getD_byRecipient (out : List (Outgoing μ)) (q : NodeId) :
    (Outbox.byRecipient out).getD q [] = addressedTo q out := by
  unfold Outbox.byRecipient getD
  rw [get?_mapKeyed]
  cases h : (ofList (out.map fun m => (m.recipient, ()))).get? q with
  | some _ => rfl
  | none =>
    have hnone : ∀ m ∈ out, m.recipient ≠ q := by
      rintro m hm rfl
      have hkey : (ofList (out.map fun m => (m.recipient, ()))).contains m.recipient :=
        contains_ofList.mpr ⟨_, List.mem_map_of_mem hm, rfl⟩
      rw [contains, h] at hkey
      cases hkey
    rw [addressedTo_eq_nil hnone]
    rfl

end

section
variable {P : Protocol} {s s' : State P}

theorem addressedTo_toPeer (q peer : NodeId) (ms : List (Message P.Msg)) :
    addressedTo q (toPeer peer ms) = if peer = q then ms else [] := by
  unfold toPeer
  split
  · rename_i hq
    rw [addressedTo, List.filter_eq_self.mpr, List.map_map]
    · exact List.map_id ms
    · intro m hm
      obtain ⟨body, -, rfl⟩ := List.mem_map.mp hm
      exact decide_eq_true hq
  · rename_i hq
    refine addressedTo_eq_nil fun m hm => ?_
    obtain ⟨body, -, rfl⟩ := List.mem_map.mp hm
    exact hq

theorem addressedTo_flatMap (q : NodeId) (f : Link P.Msg → List (Message P.Msg))
    {l : List (NodeId × Link P.Msg)}
    (hl : l.Pairwise fun a b => Ranked.rank a.1 < Ranked.rank b.1) :
    addressedTo q (l.flatMap fun e => toPeer e.1 (f e.2)) = ((lookup q l).map f).getD [] := by
  induction l with
  | nil => rfl
  | cons first l ih =>
    obtain ⟨hfirst, hl⟩ := List.pairwise_cons.mp hl
    rw [List.flatMap_cons, addressedTo_append, addressedTo_toPeer, ih hl, lookup]
    by_cases hq : first.1 = q
    · subst hq
      rw [lookup_eq_none_of_lt hfirst, if_pos rfl, if_pos rfl]
      simp
    · rw [if_neg hq, if_neg fun hrank => hq (Ranked.rank_inj hrank), List.nil_append]

theorem link_setLink (s : State P) (peer q : NodeId) (link : Link P.Msg) :
    (s.setLink peer link).link q = if peer = q then link else s.link q := by
  unfold State.link State.setLink getD
  rw [get?_insert]
  by_cases hq : peer = q
  · rw [if_pos (hq ▸ rfl), if_pos hq, Option.getD_some]
  · rw [if_neg fun hr => hq (Ranked.rank_inj hr), if_neg hq]

theorem link_setLink_link (s : State P) (peer q : NodeId) :
    (s.setLink peer (s.link peer)).link q = s.link q := by
  rw [link_setLink]
  split
  · rename_i hq
    rw [hq]
  · rfl

theorem link_dismiss (s : State P) (peer q : NodeId) :
    (s.dismiss peer).link q = if peer = q then {} else s.link q := by
  have herase := SortedMap.get?_erase s.links peer q
  unfold State.link State.dismiss SortedMap.getD
  by_cases hq : peer = q
  · rw [if_pos (hq ▸ rfl)] at herase
    rw [herase, if_pos hq]
    rfl
  · rw [if_neg fun hrank => hq (Ranked.rank_inj hrank).symm] at herase
    rw [herase, if_neg hq]

/-! ### A round of sending -/

/-- A round touches the channels to the recipients that have not left, each once. -/
theorem sendGroups_spec {owed : NodeId → Option BatchId} {groups : List (NodeId × List P.Msg)}
    {sent sent' : Array (Outgoing (Message P.Msg))}
    (h : sendGroups owed groups s sent = .ok (s', sent'))
    (hdistinct : groups.Pairwise fun a b => a.1 ≠ b.1) :
    s'.nested = s.nested ∧ s'.dismissed = s.dismissed ∧ ∀ q,
      (q ∉ s.dismissed ∧ ∃ msgs ms, (q, msgs) ∈ groups ∧
        (s.link q).post msgs (owed q) = .ok (s'.link q, ms) ∧
        addressedTo q sent'.toList = addressedTo q sent.toList ++ ms) ∨
      ((q ∈ s.dismissed ∨ ∀ e ∈ groups, e.1 ≠ q) ∧ s'.link q = s.link q ∧
        addressedTo q sent'.toList = addressedTo q sent.toList) := by
  induction groups generalizing s sent with
  | nil =>
    cases h
    exact ⟨rfl, rfl, fun q => .inr ⟨.inr fun _ he => absurd he List.not_mem_nil, rfl, rfl⟩⟩
  | cons group groups ih =>
    obtain ⟨peer, msgs⟩ := group
    obtain ⟨hfirst, hdistinct⟩ := List.pairwise_cons.mp hdistinct
    unfold sendGroups at h
    split at h
    · rename_i hdismissed
      obtain ⟨hnested, hsame, hlinks⟩ := ih h hdistinct
      refine ⟨hnested, hsame, fun q => ?_⟩
      rcases hlinks q with ⟨hq, msgs', ms, hmem, hpost⟩ | ⟨hq, hlink⟩
      · exact .inl ⟨hq, msgs', ms, List.mem_cons_of_mem _ hmem, hpost⟩
      · refine .inr ⟨?_, hlink⟩
        by_cases hpeer : peer = q
        · exact .inl (hpeer ▸ hdismissed)
        · exact hq.imp_right fun hnone => List.forall_mem_cons.mpr ⟨hpeer, hnone⟩
    · rename_i hdismissed
      split at h
      · cases h
      · rename_i link ms hpost
        obtain ⟨hnested, hsame, hlinks⟩ := ih h hdistinct
        refine ⟨hnested, hsame, fun q => ?_⟩
        have hlink := link_setLink s peer q link
        have hq := hlinks q
        rw [hlink, Array.toList_appendList, addressedTo_append, addressedTo_toPeer] at hq
        by_cases hpeer : peer = q
        · -- no later group is for the same peer
          subst hpeer
          rw [if_pos rfl, if_pos rfl] at hq
          rcases hq with ⟨-, msgs', -, hmem, -⟩ | ⟨-, hkept, hsent⟩
          · exact (hfirst _ hmem rfl).elim
          · rw [← hkept] at hpost
            exact .inl ⟨hdismissed, msgs, ms, List.mem_cons_self .., hpost, hsent⟩
        · rw [if_neg hpeer, if_neg hpeer, List.append_nil] at hq
          rcases hq with ⟨hq, msgs', ms', hmem, hpost'⟩ | ⟨hq, hlink'⟩
          · exact .inl ⟨hq, msgs', ms', List.mem_cons_of_mem _ hmem, hpost'⟩
          · exact .inr ⟨hq.imp_right fun hnone => List.forall_mem_cons.mpr ⟨hpeer, hnone⟩, hlink'⟩

theorem getD_insert_getD {κ α : Type} [Ranked κ] (m : SortedMap κ α) (k q : κ) (default : α) :
    (m.insert k (m.getD k default)).getD q default = m.getD q default := by
  unfold getD
  rw [get?_insert]
  split
  · rename_i hrank
    rw [Ranked.rank_inj hrank]
    rfl
  · rfl

def forPeer {α : Type} (x : Option (NodeId × α)) (peer : NodeId) : Option α :=
  x.bind fun x => if x.1 = peer then some x.2 else none

section
variable {α : Type} {peer q : NodeId}

theorem forPeer_self (peer : NodeId) (a : α) : forPeer (some (peer, a)) peer = some a := by
  rw [forPeer, Option.bind_some, if_pos rfl]

theorem forPeer_ne (h : peer ≠ q) (a : α) : forPeer (some (peer, a)) q = none := by
  rw [forPeer, Option.bind_some, if_neg h]

theorem forPeer_of_dismissed (hpeer : peer ∉ s.dismissed) (a : α) :
    ∀ q ∈ s.dismissed, forPeer (some (peer, a)) q = none := by
  intro q hq
  have hne : peer ≠ q := fun hsame => hpeer (hsame ▸ hq)
  exact forPeer_ne hne a

end

/-- A round sends to each recipient, as one group, what is addressed to it; the peer that an
acknowledgement is owed to is one of them. -/
theorem sendRound_eq (s : State P) (out : List (Outgoing P.Msg))
    (owed : Option (NodeId × BatchId)) : ∃ groups : SortedMap NodeId (List P.Msg),
      sendRound s out owed = (do
        let x ← sendGroups (forPeer owed) groups.entries s #[]
        return { state := x.1, sent := x.2.toList }) ∧
      (∀ q, groups.getD q [] = addressedTo q out) ∧
      ∀ q, groups.get? q = none → forPeer owed q = none := by
  refine ⟨_, rfl, fun q => ?_, fun q hq => ?_⟩
  · split
    · exact getD_byRecipient out q
    · rw [getD_insert_getD, getD_byRecipient]
  · cases owed with
    | none => rfl
    | some x =>
      simp only [get?_insert] at hq
      split at hq
      · cases hq
      · rename_i hrank
        exact forPeer_ne (fun h => hrank (congrArg _ h)) _

theorem sendGroups_ok {owed : NodeId → Option BatchId} {groups : List (NodeId × List P.Msg)}
    (hdistinct : groups.Pairwise fun a b => a.1 ≠ b.1)
    (h : ∀ e ∈ groups, e.1 ∉ s.dismissed →
      ∃ link ms, (s.link e.1).post e.2 (owed e.1) = .ok (link, ms))
    (sent : Array (Outgoing (Message P.Msg))) :
    ∃ s' sent', sendGroups owed groups s sent = .ok (s', sent') := by
  induction groups generalizing s sent with
  | nil => exact ⟨s, sent, rfl⟩
  | cons group groups ih =>
    obtain ⟨peer, msgs⟩ := group
    obtain ⟨hfirst, hdistinct⟩ := List.pairwise_cons.mp hdistinct
    obtain ⟨hpost, h⟩ := List.forall_mem_cons.mp h
    unfold sendGroups
    split
    · exact ih hdistinct h sent
    · rename_i hdismissed
      obtain ⟨link, ms, hpost⟩ := hpost hdismissed
      simp only [hpost]
      refine ih hdistinct (fun e he hstays => ?_) _
      rw [link_setLink, if_neg (hfirst e he)]
      exact h e he hstays

/-- **A round of sending does not fail if no channel fails on the messages for its peer.** -/
theorem sendRound_ok {out : List (Outgoing P.Msg)} {owed : Option (NodeId × BatchId)}
    (h : ∀ q, q ∉ s.dismissed →
      ∃ link ms, (s.link q).post (addressedTo q out) (forPeer owed q) = .ok (link, ms)) :
    ∃ r, sendRound s out owed = .ok r := by
  obtain ⟨groups, hround, hgroup, -⟩ := sendRound_eq s out owed
  have hdistinct : groups.entries.Pairwise fun a b => a.1 ≠ b.1 :=
    groups.sorted.imp fun hlt heq => absurd hlt (by rw [heq]; exact Nat.lt_irrefl _)
  obtain ⟨s', sent, hsend⟩ :
      ∃ s' sent, sendGroups (forPeer owed) groups.entries s #[] = .ok (s', sent) := by
    refine sendGroups_ok hdistinct (fun e he hstays => ?_) #[]
    have hmsgs : e.2 = addressedTo e.1 out := by
      rw [← hgroup, getD, mem_entries_iff.mp he, Option.getD_some]
    rw [hmsgs]
    exact h e.1 hstays
  rw [hround, hsend]
  exact ⟨_, rfl⟩

/-- **In a round of sending, every channel sends the messages for its peer.** -/
theorem sendRound_post {out : List (Outgoing P.Msg)} {owed : Option (NodeId × BatchId)}
    {r : Reaction (State P) (Message P.Msg)} (h : sendRound s out owed = .ok r) :
    r.state.nested = s.nested ∧ r.state.dismissed = s.dismissed ∧ ∀ q,
      (q ∉ s.dismissed ∧ (s.link q).post (addressedTo q out) (forPeer owed q) =
        .ok (r.state.link q, addressedTo q r.sent)) ∨
      (q ∈ s.dismissed ∧ r.state.link q = s.link q ∧ addressedTo q r.sent = []) := by
  obtain ⟨groups, hround, hgroup, howed⟩ := sendRound_eq s out owed
  rw [hround] at h
  obtain ⟨⟨last, sent⟩, hsend, h⟩ := bind_eq_ok h
  cases h
  have hdistinct : groups.entries.Pairwise fun a b => a.1 ≠ b.1 :=
    groups.sorted.imp fun hlt heq => absurd hlt (by rw [heq]; exact Nat.lt_irrefl _)
  obtain ⟨hnested, hdismissed, hlinks⟩ := sendGroups_spec hsend hdistinct
  refine ⟨hnested, hdismissed, fun q => ?_⟩
  rcases hlinks q with ⟨hq, msgs, ms, hmem, hpost, hsent⟩ | ⟨hq, hlink, hsent⟩
  · have hmsgs : msgs = addressedTo q out := by
      rw [← hgroup q, getD, mem_entries_iff.mp hmem, Option.getD_some]
    rw [hmsgs] at hpost
    exact .inl ⟨hq, by rw [hpost, hsent]; rfl⟩
  · by_cases hstays : q ∈ s.dismissed
    · exact .inr ⟨hstays, hlink, hsent⟩
    · have hnone : groups.get? q = none := by
        cases hget : groups.get? q with
        | none => rfl
        | some msgs => exact absurd rfl ((hq.resolve_left hstays) _ (mem_entries_iff.mpr hget))
      have hmsgs : addressedTo q out = [] := by rw [← hgroup q, getD, hnone, Option.getD_none]
      rw [hmsgs, howed q hnone, hlink, hsent]
      exact .inl ⟨hstays, rfl⟩

/-- **In a round of sending, every channel takes a turn on the messages for its peer.** -/
theorem sendRound_turn {out : List (Outgoing P.Msg)} {owed : Option (NodeId × BatchId)}
    {r : Reaction (State P) (Message P.Msg)} (h : sendRound s out owed = .ok r)
    (howed : ∀ peer id, owed = some (peer, id) → (s.link peer).received.contains id) :
    r.state.nested = s.nested ∧ r.state.dismissed = s.dismissed ∧
      ∀ q, ∃ new, (s.link q).Turn none (if q ∈ s.dismissed then [] else addressedTo q out) new
        (r.state.link q) (addressedTo q r.sent) := by
  obtain ⟨hnested, hdismissed, hlinks⟩ := sendRound_post h
  refine ⟨hnested, hdismissed, fun q => ?_⟩
  rcases hlinks q with ⟨hq, hpost⟩ | ⟨hq, hlink, hsent⟩
  · rw [if_neg hq]
    refine post_turn hpost fun i hi => ?_
    obtain ⟨⟨peer, id⟩, hcreditor, hid⟩ := Option.bind_eq_some_iff.mp hi
    split at hid
    · rename_i hpeer
      cases hid
      cases hpeer
      exact howed _ _ hcreditor
    · cases hid
  · rw [if_pos hq, hlink, hsent]
    exact ⟨[], Link.Turn.refl _⟩

theorem sendAfter_turn {owed : Option (NodeId × BatchId)} {nested : Reaction P.State P.Msg}
    {r : Reaction (State P) (Message P.Msg)} (h : sendAfter s owed nested = .ok r)
    (howed : ∀ peer id, owed = some (peer, id) → (s.link peer).received.contains id) :
    r.state.nested = nested.state ∧ r.state.dismissed = s.dismissed ∧
      ∀ q, ∃ new, (s.link q).Turn none
        (if q ∈ s.dismissed then [] else addressedTo q nested.sent) new (r.state.link q)
        (addressedTo q r.sent) := by
  unfold sendAfter at h
  split at h
  · rename_i round hround
    cases h
    exact sendRound_turn hround howed
  · cases h

/-- In a round of sending after an event of the nested automaton, every channel sends its news. -/
theorem sendAfter_post {owed : Option (NodeId × BatchId)} {nested : Reaction P.State P.Msg}
    {r : Reaction (State P) (Message P.Msg)} (h : sendAfter s owed nested = .ok r)
    (howed : ∀ q ∈ s.dismissed, forPeer owed q = none) :
    r.state.nested = nested.state ∧ r.state.dismissed = s.dismissed ∧ ∀ q,
      (s.link q).post (if q ∈ s.dismissed then [] else addressedTo q nested.sent)
        (forPeer owed q) = .ok (r.state.link q, addressedTo q r.sent) := by
  unfold sendAfter at h
  split at h
  · rename_i round hround
    cases h
    obtain ⟨hnested, hdismissed, hlinks⟩ := sendRound_post hround
    refine ⟨hnested, hdismissed, fun q => ?_⟩
    rcases hlinks q with ⟨hq, hpost⟩ | ⟨hq, hlink, hsent⟩
    · rw [if_neg hq]
      exact hpost
    · rw [if_pos hq, howed q hq, hlink, hsent]
      exact post_nil _
  · cases h

/-! ### Ticks -/

/-- **A tick passes on every channel**, and sends what the channel sends again. -/
theorem onTick_link (period now : Time) (s : State P) (q : NodeId) :
    (onTick period s now).state.link q = (s.link q).tick period now ∧
      addressedTo q (onTick period s now).sent = (s.link q).resent period now := by
  have hlink : (onTick period s now).state.link q =
      ((s.links.get? q).map (Link.tick period now)).getD {} := by
    rw [← get?_mapVals]
    rfl
  have hsent := addressedTo_flatMap q (Link.resent period now) s.links.sorted
  rw [hlink]
  change _ ∧ addressedTo q (s.links.entries.flatMap _) = _
  rw [hsent]
  change _ = ((s.links.get? q).getD {}).tick period now ∧
    ((s.links.get? q).map _).getD [] = ((s.links.get? q).getD {}).resent period now
  cases s.links.get? q with
  | none => exact ⟨rfl, rfl⟩
  | some link => exact ⟨rfl, rfl⟩

/-! ### What becomes of a message -/

/-- A batch that is accepted is done with, is acknowledged again if its number counts as received,
or else is handed to the nested automaton. -/
theorem onBatch_cases {me sender : NodeId} {b : Batch P.Msg}
    {r : Reaction (State P) (Message P.Msg)} (h : onBatch me s sender b = .ok r) :
    (b.id = none ∧ r = { state := s.setLink sender ((s.link sender).accept b).1 }) ∨
    (∃ id, b.id = some id ∧ (s.link sender).received.contains id ∧
      r = { state := s.setLink sender (((s.link sender).accept b).1.reacknowledge id).1
            sent := toPeer sender [(((s.link sender).accept b).1.reacknowledge id).2] }) ∨
    ∃ id nested, b.id = some id ∧ ¬ (s.link sender).received.contains id ∧
      handOver me sender b.msgs { nested := s.nested } = .ok nested ∧
      sendAfter (s.setLink sender ((s.link sender).accept b).1) (some (sender, id)) nested =
        .ok r := by
  simp only [onBatch] at h
  rcases accept_cases (s.link sender) b with
    ⟨hid, hverdict⟩ | ⟨id, hid, hreceived, hverdict⟩ | ⟨id, hid, hfresh, hverdict⟩
  · rw [hverdict] at h
    cases h
    exact .inl ⟨hid, rfl⟩
  · rw [hverdict] at h
    cases h
    exact .inr (.inl ⟨id, hid, hreceived, rfl⟩)
  · rw [hverdict] at h
    obtain ⟨nested, hnested, h⟩ := bind_eq_ok h
    exact .inr (.inr ⟨id, nested, hid, hfresh, hnested, h⟩)

/-- A reset that is accepted is answered if it is a request.  An answer is ignored if the numbering
is settled or no number is left, and settles the numbering otherwise. -/
theorem onReset_cases {sender : NodeId} {reset : Reset}
    {r : Reaction (State P) (Message P.Msg)} (h : onReset s sender reset = .ok r) :
    (reset.isResponse = false ∧ r.state = s.setLink sender (s.link sender).answerReset.1 ∧
      r.sent = toPeer sender [(s.link sender).answerReset.2]) ∨
    (reset.isResponse = true ∧
      ((s.link sender).isInitialized = true ∨ reset.latest.next? = none) ∧
      r.state = s.setLink sender (s.link sender) ∧ r.sent = []) ∨
    ∃ next link ms, reset.isResponse = true ∧ (s.link sender).nextId = none ∧
      reset.latest.next? = some next ∧ (s.link sender).settleNumbering next = .ok (link, ms) ∧
      r.state = s.setLink sender link ∧ r.sent = toPeer sender ms := by
  simp only [onReset] at h
  split at h
  · rename_i hr
    cases h
    exact .inl ⟨by simpa using hr, rfl, rfl⟩
  · rename_i hr
    have hr : reset.isResponse = true := by simpa using hr
    right
    split at h
    · rename_i hsettled
      cases h
      exact .inl ⟨hr, .inl hsettled, rfl, rfl⟩
    · rename_i hopen
      have hid : (s.link sender).nextId = none := by
        rwa [isInitialized, Option.isSome_iff_ne_none, not_not] at hopen
      split at h
      · rename_i hnext
        cases h
        exact .inl ⟨hr, .inr hnext, rfl, rfl⟩
      · rename_i next hnext
        split at h
        · rename_i link ms hsettle
          cases h
          exact .inr ⟨next, link, ms, hr, hid, hnext, hsettle, rfl, rfl⟩
        · cases h

end

/-! ### Exchanges -/

section
variable {P : Protocol} {s s' : State P.recorded}

/-- The messages that the nested automaton has been handed, with their senders. -/
def State.heard (s : State P.recorded) : List (NodeId × P.Msg) := Recorded.received s.nested

/-- The messages that the nested automaton has sent. -/
def State.told (s : State P.recorded) : List (Outgoing P.Msg) := Recorded.sent s.nested

/-- The batch that a message brings to the channel to a peer. -/
def State.arrival (s : State P.recorded) (came : Option (NodeId × Message P.Msg)) (q : NodeId) :
    Option (Batch P.Msg) :=
  match came with
  | some (sender, .batch b) => if sender = q ∧ q ∉ s.dismissed then some b else none
  | _ => none

/-- The messages of a batch are handed over if its number does not count as received. -/
def State.Takes (s : State P.recorded) (sender : NodeId) (b : Batch P.Msg) : Prop :=
  sender ∉ s.dismissed ∧ ∃ id, b.id = some id ∧ ¬ (s.link sender).received.contains id

/-- `Exchange s came news s' sent`: on a message, if any, a node has gone from `s` to `s'` and has
sent `sent`; the nested automaton has sent `news`. -/
structure Exchange (s : State P.recorded) (came : Option (NodeId × Message P.Msg))
    (news : List (Outgoing P.Msg)) (s' : State P.recorded)
    (sent : List (Outgoing (Message P.Msg))) : Prop where
  dismissed : s'.dismissed = s.dismissed
  told : s'.told = s.told ++ news
  /-- Either the messages of the batch that came are handed over, all of them in order, or none. -/
  heard : (∃ sender b, came = some (sender, .batch b) ∧ s.Takes sender b ∧
      s'.heard = s.heard ++ b.msgs.map (sender, ·)) ∨
    ((∀ sender b, came = some (sender, .batch b) → ¬ s.Takes sender b) ∧ s'.heard = s.heard)
  turn : ∀ q, ∃ new, (s.link q).Turn (s.arrival came q)
    (if q ∈ s.dismissed then [] else addressedTo q news) new (s'.link q) (addressedTo q sent)

/-- Messages that are handed over are recorded in order. -/
theorem handOver_recorded {me sender : NodeId} {msgs : List P.Msg} {t : Handover P.recorded}
    {r : Reaction (Recorded P) P.Msg} (h : handOver (P := P.recorded) me sender msgs t = .ok r) :
    ∃ news, r.sent = t.sent.toList ++ news ∧
      r.state.received = Recorded.received t.nested ++ msgs.map (sender, ·) ∧
      r.state.sent = Recorded.sent t.nested ++ news := by
  induction msgs generalizing t with
  | nil =>
    cases h
    exact ⟨[], by simp, by simp, by simp⟩
  | cons m msgs ih =>
    unfold handOver at h
    split at h
    · rename_i first hfirst
      obtain ⟨hreceived, hsent⟩ := received_receive hfirst
      obtain ⟨news, hout, hreceived', hsent'⟩ := ih h
      refine ⟨first.sent ++ news, ?_, ?_, ?_⟩
      · rw [hout, Array.toList_appendList, List.append_assoc]
      · rw [hreceived', hreceived, List.append_assoc]
        rfl
      · rw [hsent', hsent, List.append_assoc]
    · cases h

theorem onTick_turn (period now : Time) (s : State P.recorded) (q : NodeId) :
    (s.link q).Turn none [] [] ((onTick period s now).state.link q)
      (addressedTo q (onTick period s now).sent) := by
  obtain ⟨hlink, hsent⟩ := onTick_link period now s q
  rw [hlink, hsent]
  exact tick_turn period now (s.link q)

/-- **An input to the nested automaton, or a tick, is an exchange without a message.** -/
theorem input_exchange {period : Time} {me : NodeId} {i : Input P.recorded}
    {r : Reaction (State P.recorded) (Message P.Msg)} (h : input period me s i = .ok r) :
    ∃ news, Exchange s none news r.state r.sent := by
  cases i with
  | nested i =>
    obtain ⟨nested, hnested, h⟩ := bind_eq_ok h
    obtain ⟨hreceived, hsent⟩ := received_input hnested
    obtain ⟨hstate, hdismissed, hturn⟩ := sendAfter_turn h nofun
    exact ⟨nested.sent,
      { dismissed := hdismissed
        told := by rw [State.told, hstate, hsent, State.told]
        heard := .inr ⟨nofun, by rw [State.heard, hstate, hreceived, State.heard]⟩
        turn := hturn }⟩
  | tick now =>
    cases h
    exact ⟨[],
      { dismissed := rfl
        told := (List.append_nil _).symm
        heard := .inr ⟨nofun, rfl⟩
        turn := fun q => ⟨[], by
          rw [addressedTo_nil, ite_self]
          exact onTick_turn period now s q⟩ }⟩

theorem exchange_setLink {sender : NodeId} {m : Message P.Msg} {link : Link P.Msg}
    {new : List (Batch P.Msg)} {ms : List (Message P.Msg)}
    (hturn : (s.link sender).Turn (s.arrival (some (sender, m)) sender) [] new link ms)
    (hquiet : ∀ b, m = .batch b → ¬ s.Takes sender b) :
    Exchange s (some (sender, m)) [] (s.setLink sender link) (toPeer sender ms) where
  dismissed := rfl
  told := (List.append_nil _).symm
  heard := .inr ⟨fun _ b hcame => by cases hcame; exact hquiet b rfl, rfl⟩
  turn := fun q => by
    rw [addressedTo_nil, ite_self, link_setLink, addressedTo_toPeer]
    by_cases hq : sender = q
    · subst hq
      rw [if_pos rfl, if_pos rfl]
      exact ⟨new, hturn⟩
    · have harrival : s.arrival (some (sender, m)) q = none := by
        cases m with
        | batch b => exact if_neg fun h => hq h.1
        | reset r => rfl
      rw [if_neg hq, if_neg hq, harrival]
      exact ⟨[], Turn.refl _⟩

theorem arrival_eq_some {came : Option (NodeId × Message P.Msg)} {q : NodeId} {b : Batch P.Msg} :
    s.arrival came q = some b ↔ q ∉ s.dismissed ∧ came = some (q, .batch b) := by
  rcases came with - | ⟨sender, b' | reset⟩
  · exact ⟨nofun, nofun⟩
  · simp only [State.arrival, Option.ite_none_right_eq_some, Option.some.injEq, Prod.mk.injEq,
      Message.batch.injEq]
    constructor
    · rintro ⟨⟨rfl, hq⟩, rfl⟩
      exact ⟨hq, rfl, rfl⟩
    · rintro ⟨hq, rfl, rfl⟩
      exact ⟨⟨rfl, hq⟩, rfl⟩
  · constructor
    · rintro ⟨⟩
    · rintro ⟨-, ⟨⟩⟩

theorem arrival_sender {sender : NodeId} (hsender : sender ∉ s.dismissed) (b : Batch P.Msg) :
    s.arrival (some (sender, .batch b)) sender = some b :=
  if_pos ⟨rfl, hsender⟩

theorem onBatch_exchange {me sender : NodeId} {b : Batch P.Msg}
    {r : Reaction (State P.recorded) (Message P.Msg)} (hsender : sender ∉ s.dismissed)
    (h : onBatch me s sender b = .ok r) :
    ∃ news, Exchange s (some (sender, .batch b)) news r.state r.sent := by
  have haccept := accept_turn (s.link sender) b
  rcases onBatch_cases h with
    ⟨hid, rfl⟩ | ⟨id, hid, hreceived, rfl⟩ | ⟨id, nested, hid, hfresh, hnested, h⟩
  · rw [← arrival_sender hsender] at haccept
    refine ⟨[], exchange_setLink haccept fun b' hb' htakes => ?_⟩
    obtain ⟨-, id, hid', -⟩ := htakes
    cases hb'
    rw [hid] at hid'
    cases hid'
  · have hturn := haccept.trans (reacknowledge_turn (haccept.received_mono hreceived))
    rw [← arrival_sender hsender] at hturn
    refine ⟨[], exchange_setLink hturn fun b' hb' htakes => ?_⟩
    obtain ⟨-, id', hid', hnot⟩ := htakes
    cases hb'
    rw [hid] at hid'
    cases hid'
    exact hnot hreceived
  · obtain ⟨news, hout, hreceived, hsent⟩ := handOver_recorded (P := P) hnested
    have hnumber : (s.link sender).accept b |>.1.received.contains id :=
      (haccept.received id).mpr (.inr ⟨b, id, rfl, hid, .inl rfl⟩)
    obtain ⟨hstate, hdismissed, hturn⟩ := sendAfter_turn h fun peer i howed => by
      cases howed
      rw [link_setLink, if_pos rfl]
      exact hnumber
    refine ⟨news,
      { dismissed := hdismissed
        told := by rw [State.told, hstate, hsent]; rfl
        heard := .inl ⟨sender, b, rfl, ⟨hsender, id, hid, hfresh⟩, by
          rw [State.heard, hstate, hreceived]; rfl⟩
        turn := fun q => ?_ }⟩
    obtain ⟨new, hturn⟩ := hturn q
    rw [hout, List.nil_append, link_setLink] at hturn
    by_cases hq : sender = q
    · subst hq
      rw [if_pos rfl] at hturn
      have hboth := haccept.trans hturn
      rw [← arrival_sender hsender] at hboth
      exact ⟨_, hboth⟩
    · rw [if_neg hq] at hturn
      have harrival : s.arrival (some (sender, .batch b)) q = none := if_neg fun h => hq h.1
      rw [harrival]
      exact ⟨new, hturn⟩

theorem onReset_exchange {sender : NodeId} {reset : Reset}
    {r : Reaction (State P.recorded) (Message P.Msg)} (h : onReset s sender reset = .ok r) :
    Exchange s (some (sender, .reset reset)) [] r.state r.sent := by
  have hquiet : ∀ b, Message.reset reset = .batch b → ¬ s.Takes sender b :=
    fun b hb => by cases hb
  rcases onReset_cases h with
    ⟨-, hstate, hsent⟩ | ⟨-, -, hstate, hsent⟩ |
    ⟨next, link, ms, -, hid, hnext, hsettle, hstate, hsent⟩
  · rw [hstate, hsent]
    exact exchange_setLink (answerReset_turn (s.link sender)) hquiet
  · rw [hstate, hsent]
    exact exchange_setLink (Turn.refl (s.link sender)) hquiet
  · obtain ⟨new, hturn⟩ := settleNumbering_turn hsettle hid hnext
    rw [hstate, hsent]
    exact exchange_setLink hturn hquiet

/-- **A message is an exchange.** -/
theorem receive_exchange {me sender : NodeId} {m : Message P.Msg}
    {r : Reaction (State P.recorded) (Message P.Msg)} (h : receive me s sender m = .ok r) :
    ∃ news, Exchange s (some (sender, m)) news r.state r.sent := by
  unfold receive at h
  split at h
  · rename_i hdismissed
    cases h
    refine ⟨[],
      { dismissed := rfl
        told := (List.append_nil _).symm
        heard := .inr ⟨fun _ b hcame htakes => ?_, rfl⟩
        turn := fun q => ⟨[], ?_⟩ }⟩
    · cases hcame
      exact htakes.1 hdismissed
    · have harrival : s.arrival (some (sender, m)) q = none := by
        cases m with
        | batch b => exact if_neg fun h => h.2 (h.1 ▸ hdismissed)
        | reset r => rfl
      rw [addressedTo_nil, ite_self, harrival]
      exact Turn.refl _
  · rename_i hsender
    cases m with
    | batch b => exact onBatch_exchange hsender h
    | reset reset => exact ⟨[], onReset_exchange h⟩

end

end Quorum.Reliable
