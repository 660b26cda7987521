import Quorum.Proofs.Reliable.Posting

/-!
# Lane — one direction of a channel where nothing is lost

Between two nodes that have talked to nobody else in the meantime, over a network that hands over
everything once, the channel in one direction is easy to describe: the handshake has not begun, or
one request or answer is on its way, or it is over; numbers on their way are new to the peer; and a
batch is kept as long as it, or its acknowledgement, is on its way.  `Lane` says so of the two ends
and what is on its way in both directions.

**Main statements.**  `Lane.serve` and `Lane.serve_peer`: a lane stays one when an end of it takes
what arrives and sends news.  `Serve.potential_le`: this uses up what is still to be sent.
`Lane.drained`: in the end everything has been handed over.
-/

namespace Quorum.Reliable

open SortedMap Link

variable {μ : Type} {link link' peer : Link μ} {out back ms : List (Message μ)}
variable {told told' news : List μ} {arrived arrived' : μ → Prop} {owed : Option BatchId}

/-- `Lane link peer out back told arrived`: the direction from `link` to `peer`, with the messages
`out` on their way there and `back` on their way back; `told` is what has ever been sent, and
`arrived` what has been handed over. -/
structure Lane (link peer : Link μ) (out back : List (Message μ)) (told : List μ)
    (arrived : μ → Prop) : Prop where
  /-- While the handshake is under way, the request or its answer is on its way. -/
  asked : requests out + (answers back).length = link.resetSent.toNat
  settled : link.nextId.isSome → link.resetSent = false
  zero : ∀ latest ∈ answers back, latest = 0
  answered : ∀ latest, peer.answeredReset = some latest → latest = 0
  distinct : (numbers out).Nodup
  ahead : ∀ i ∈ numbers out, i.toNat < link.top ∧ ¬ peer.received.contains i
  behind : ∀ i, peer.received.contains i → i.toNat < link.top
  /-- What is kept is on its way, or its acknowledgement is. -/
  kept : ∀ i, link.unacked.contains i → i ∈ numbers out ∨ i ∈ acksIn back
  room : link.top + link.pending.length ≤ told.length + 1
  source : ∀ m, m ∈ link.pending.toList ∨ m ∈ carried out → m ∈ told
  supply : ∀ m ∈ told, arrived m ∨ m ∈ link.pending.toList ∨ m ∈ carried out
  light : ∀ m ∈ out, m.Light

theorem Lane.start : Lane ({} : Link μ) {} [] [] [] arrived where
  asked := rfl
  settled h := by cases h
  zero _ h := absurd h List.not_mem_nil
  answered _ h := by cases h
  distinct := List.nodup_nil
  ahead _ h := absurd h List.not_mem_nil
  behind i hi := by
    by_contra hpos
    have hne : i ≠ 0 := by
      rintro rfl
      exact hpos Nat.one_pos
    rw [ReceivedIds.contains_empty hne] at hi
    cases hi
  kept i hi := by cases hi
  room := le_rfl
  source m hm := by simp at hm
  supply _ hm := absurd hm List.not_mem_nil
  light _ hm := absurd hm List.not_mem_nil

theorem Lane.mono (hlane : Lane link peer out back told arrived)
    (harrived : ∀ m, arrived m → arrived' m) : Lane link peer out back told arrived' :=
  { hlane with supply := fun m hm => (hlane.supply m hm).imp_left (harrived m) }

/-- Messages that neither carry nor ask for anything and have no number leave a lane as it is. -/
theorem Lane.append {extra : List (Message μ)} (hlane : Lane link peer out back told arrived)
    (hrequests : requests extra = 0) (hnumbers : numbers extra = []) (hcarried : carried extra = [])
    (hlight : ∀ m ∈ extra, m.Light) : Lane link peer (out ++ extra) back told arrived := by
  have hnumbers' : numbers (out ++ extra) = numbers out := by
    rw [numbers_append, hnumbers, List.append_nil]
  have hcarried' : carried (out ++ extra) = carried out := by
    rw [carried_append, hcarried, List.append_nil]
  exact
    { hlane with
      asked := by
        rw [requests_append, hrequests]
        exact hlane.asked
      distinct := by rw [hnumbers']; exact hlane.distinct
      ahead := by rw [hnumbers']; exact hlane.ahead
      kept := by rw [hnumbers']; exact hlane.kept
      source := by rw [hcarried']; exact hlane.source
      supply := by rw [hcarried']; exact hlane.supply
      light := fun m hm => by
        rcases List.mem_append.mp hm with hm | hm
        · exact hlane.light m hm
        · exact hlight m hm }

/-! ### Sending -/

/-- More has been sent: `news`, and what has been handed over at once. -/
structure Tells (told news told' : List μ) (arrived : μ → Prop) : Prop where
  old : ∀ m ∈ told, m ∈ told'
  new : ∀ m ∈ news, m ∈ told'
  other : ∀ m ∈ told', m ∈ told ∨ m ∈ news ∨ arrived m
  length : told.length + news.length ≤ told'.length

/-- **Sending keeps the lane of the sender.** -/
theorem Lane.posted (hlane : Lane link peer (out ++ ackAlone owed) back told arrived)
    (h : Posted link news owed link' ms) (htells : Tells told news told' arrived')
    (harrived : ∀ m, arrived m → arrived' m) :
    Lane link' peer (out ++ ms) back told' arrived' := by
  obtain ⟨hasked, hsettled, hzero, hanswered, hdistinct, hahead, hbehind, hkept, hroom,
    hsource, hsupply, hlight⟩ := hlane
  simp only [requests_append, requests_ackAlone, numbers_append, numbers_ackAlone,
    List.append_nil, carried_append, carried_ackAlone, Nat.add_zero] at *
  refine
    { asked := ?_
      settled := h.settled hsettled
      zero := hzero
      answered := hanswered
      distinct := ?_
      ahead := ?_
      behind := fun i hi => (hbehind i hi).trans_le h.top_le
      kept := ?_
      room := ?_
      source := ?_
      supply := ?_
      light := ?_ }
  · have := h.asked
    rw [requests_append]
    omega
  · rw [numbers_append]
    refine List.nodup_append'.mpr ⟨hdistinct, h.distinct, ?_⟩
    intro i hold hnew
    have := (hahead i hold).1
    have := (h.fresh i hnew).1
    omega
  · intro i hi
    rw [numbers_append, List.mem_append] at hi
    rcases hi with hi | hi
    · exact ⟨(hahead i hi).1.trans_le h.top_le, (hahead i hi).2⟩
    · refine ⟨(h.fresh i hi).2, fun hreceived => ?_⟩
      have := hbehind i hreceived
      have := (h.fresh i hi).1
      omega
  · intro i hi
    rw [numbers_append, List.mem_append]
    rcases h.kept i hi with hold | hnew
    · exact (hkept i hold).imp_left .inl
    · exact .inl (.inr hnew)
  · have := h.room
    have := htells.length
    omega
  · intro m hm
    rcases (h.supplied_append out m).mp hm with hold | hnews
    · exact htells.old m (hsource m hold)
    · exact htells.new m hnews
  · intro m hm
    have hsent := (h.supplied_append out m).mpr
    rcases htells.other m hm with hold | hnew | hdone
    · rcases hsupply m hold with hdone | hheld
      · exact .inl (harrived m hdone)
      · exact .inr (hsent (.inl hheld))
    · exact .inr (hsent (.inr hnew))
    · exact .inl hdone
  · intro m hm
    rcases List.mem_append.mp hm with hm | hm
    · exact hlight m (List.mem_append_left _ hm)
    · exact h.light m hm

/-- **What one end sends keeps the lane of the other.** -/
theorem Lane.posted_peer (hlane : Lane link peer out (back ++ ackAlone owed) told arrived)
    {peer' : Link μ} (h : Posted peer news owed peer' ms)
    (harrived : ∀ m, arrived m → arrived' m) :
    Lane link peer' out (back ++ ms) told arrived' := by
  have hback : answers (back ++ ms) = answers (back ++ ackAlone owed) := by
    rw [answers_append, answers_append, answers_ackAlone, h.answers]
  have hacks : acksIn (back ++ ms) = acksIn (back ++ ackAlone owed) := by
    rw [acksIn_append, acksIn_append, acksIn_ackAlone, h.acks]
  exact
    { hlane with
      asked := by rw [hback]; exact hlane.asked
      zero := by rw [hback]; exact hlane.zero
      answered := by rw [h.answeredReset]; exact hlane.answered
      ahead := by rw [h.received]; exact hlane.ahead
      behind := by rw [h.received]; exact hlane.behind
      kept := by rw [hacks]; exact hlane.kept
      supply := fun m hm => (hlane.supply m hm).imp_left (harrived m) }

/-! ### A batch arrives -/

/-- What a batch changes at a node that has answered resets with zero only. -/
theorem accept_lossless (hzero : ∀ latest, link.answeredReset = some latest → latest = 0)
    (b : Batch μ) : ∃ unacked received ackedIn answeredReset,
      (link.accept b).1 = { link with unacked, received, ackedIn, answeredReset } ∧
      (∀ i, unacked.contains i → link.unacked.contains i ∧ i ∉ b.acks) ∧
      (∀ i, received.contains i ↔ link.received.contains i ∨ b.id = some i) ∧
      ∀ latest, answeredReset = some latest → latest = 0 := by
  obtain ⟨unacked, received, ackedIn, answeredReset, haccept, hold, hreceived⟩ := accept_eq link b
  refine ⟨unacked, received, ackedIn, answeredReset, haccept, ?_, ?_, ?_⟩
  · intro i hi
    obtain ⟨kept, hkept⟩ := get?_of_contains hi
    obtain ⟨hkept, hnot⟩ := hold i kept hkept
    exact ⟨contains_of_get? hkept, hnot⟩
  · intro i
    rw [hreceived]
    refine or_congr_right ⟨?_, fun hid => ⟨i, hid, .inl rfl⟩⟩
    rintro ⟨id, hid, rfl | ⟨-, hnot, latest, hlatest, hle⟩⟩
    · exact hid
    · -- the peer has never been told a number, so none is given up
      rw [hzero latest hlatest, UInt32.le_iff_toNat_le] at hle
      obtain rfl : i = 0 := UInt32.toNat_inj.mp (Nat.le_zero.mp hle)
      exact absurd (ReceivedIds.contains_zero _) hnot
  · intro latest hlatest
    have hanswered := answeredReset_accept link b
    rw [haccept] at hanswered
    rcases hanswered with hsame | hnone
    · exact hzero latest (hsame.symm.trans hlatest)
    · rw [hlatest] at hnone
      cases hnone

/-- **A batch that arrives keeps the lane of the node that takes it.** -/
theorem Lane.accept {b : Batch μ} (hlane : Lane link peer out (.batch b :: back) told arrived)
    (hzero : ∀ latest, link.answeredReset = some latest → latest = 0) :
    Lane (link.accept b).1 peer (out ++ ackAlone b.id) back told arrived := by
  obtain ⟨unacked, received, ackedIn, answeredReset, haccept, hunacked, -, -⟩ :=
    accept_lossless hzero b
  refine Lane.append ?_ (requests_ackAlone _) (numbers_ackAlone _) (carried_ackAlone _)
    fun m hm => light_ackAlone _ hm
  rw [haccept]
  exact
    { hlane with
      kept := fun i hi => by
        obtain ⟨hold, hnot⟩ := hunacked i hi
        refine (hlane.kept i hold).imp_right fun hback => ?_
        exact (List.mem_append.mp hback).resolve_left hnot }

/-- **A batch that arrives keeps the lane of its sender.** -/
theorem Lane.accept_peer {b : Batch μ} (hlane : Lane link peer (.batch b :: out) back told arrived)
    (harrived : ∀ m, arrived m → arrived' m) (hmsgs : ∀ m ∈ b.msgs, arrived' m) :
    Lane link (peer.accept b).1 out (back ++ ackAlone b.id) told arrived' := by
  obtain ⟨unacked, received, ackedIn, answeredReset, haccept, -, hreceived, hlatest⟩ :=
    accept_lossless hlane.answered b
  obtain ⟨hasked, hsettled, hzero, -, hdistinct, hahead, hbehind, hkept, hroom, hsource, hsupply,
    hlight⟩ := hlane
  have hanswers : answers (back ++ ackAlone b.id) = answers back := by
    rw [answers_append, answers_ackAlone, List.append_nil]
  rw [numbers_cons, List.nodup_append'] at hdistinct
  obtain ⟨-, hdistinct, hdisjoint⟩ := hdistinct
  have hid : ∀ i, b.id = some i → i ∈ (Message.batch b).number?.toList := by
    intro i hi
    exact Option.mem_toList.mpr hi
  rw [haccept]
  refine
    { asked := ?_
      settled := hsettled
      zero := by rw [hanswers]; exact hzero
      answered := hlatest
      distinct := hdistinct
      ahead := ?_
      behind := ?_
      kept := ?_
      room := hroom
      source := ?_
      supply := ?_
      light := fun m hm => hlight m (List.mem_cons_of_mem _ hm) }
  · rw [hanswers]
    simpa [Message.asks] using hasked
  · intro i hi
    obtain ⟨hlt, hnot⟩ := hahead i (by rw [numbers_cons]; exact List.mem_append_right _ hi)
    refine ⟨hlt, fun h => ?_⟩
    rcases (hreceived i).mp h with hold | hnew
    · exact hnot hold
    · exact hdisjoint (hid i hnew) hi
  · intro i hi
    rcases (hreceived i).mp hi with hold | hnew
    · exact hbehind i hold
    · exact (hahead i (by rw [numbers_cons]; exact List.mem_append_left _ (hid i hnew))).1
  · intro i hi
    rw [acksIn_append, acksIn_ackAlone, List.mem_append]
    rcases hkept i hi with hout | hback
    · rw [numbers_cons, List.mem_append] at hout
      rcases hout with hnow | hlater
      · exact .inr (.inr hnow)
      · exact .inl hlater
    · exact .inr (.inl hback)
  · intro m hm
    refine hsource m (hm.imp_right fun hm => ?_)
    rw [carried_cons]
    exact List.mem_append_right _ hm
  · intro m hm
    rcases hsupply m hm with hdone | hpending | hout
    · exact .inl (harrived m hdone)
    · exact .inr (.inl hpending)
    · rw [carried_cons, List.mem_append] at hout
      rcases hout with hnow | hlater
      · exact .inl (hmsgs m hnow)
      · exact .inr (.inr hlater)

/-! ### A reset arrives -/

/-- **A request that arrives keeps the lane of the node that answers it.** -/
theorem Lane.answer {r : Reset} (hr : r.isResponse = false)
    (hlane : Lane link peer out (.reset r :: back) told arrived) :
    Lane link.answerReset.1 peer (out ++ [link.answerReset.2]) back told arrived := by
  have hanswers : answers (.reset r :: back) = answers back := by
    simp [Message.answer?, hr]
  refine Lane.append ?_ rfl rfl rfl fun m hm => ?_
  · exact
      { hlane with
        asked := by rw [← hanswers]; exact hlane.asked
        zero := by rw [← hanswers]; exact hlane.zero }
  · rw [List.mem_singleton.mp hm]
    trivial

/-- **A request that arrives keeps the lane of the node that has sent it.**  The answer is zero,
since no batch can have come before it. -/
theorem Lane.answer_peer {r : Reset} (hr : r.isResponse = false)
    (hlane : Lane link peer (.reset r :: out) back told arrived) :
    Lane link peer.answerReset.1 out (back ++ [peer.answerReset.2]) told arrived := by
  obtain ⟨hasked, hsettled, hzero, hanswered, hdistinct, hahead, hbehind, hkept, hroom, hsource,
    hsupply, hlight⟩ := hlane
  have hrequests : requests (.reset r :: out) = requests out + 1 := by
    simp [Message.asks, hr]
  have hanswers : answers (back ++ [peer.answerReset.2]) =
      answers back ++ [peer.received.latest] := by
    rw [answers_append]
    rfl
  have hacks : acksIn (back ++ [peer.answerReset.2]) = acksIn back := by
    rw [acksIn_append]
    exact List.append_nil _
  rw [hrequests] at hasked
  have hsent : link.resetSent = true := by
    cases h : link.resetSent with
    | true => rfl
    | false =>
      rw [h, Bool.toNat_false] at hasked
      omega
  have htop : link.top = 1 := by
    cases hid : link.nextId with
    | none => rw [Link.top, hid]
    | some id =>
      have hnot := hsettled (by rw [hid]; rfl)
      rw [hsent] at hnot
      cases hnot
  have hlatest : peer.received.latest = 0 := by
    have hlt := hbehind _ (ReceivedIds.contains_latest peer.received)
    exact UInt32.toNat_inj.mp (by rw [htop] at hlt; exact Nat.lt_one_iff.mp hlt)
  exact
    { asked := by
        rw [hanswers, List.length_append, List.length_singleton]
        omega
      settled := hsettled
      zero := by
        rw [hanswers, hlatest]
        intro latest h
        rcases List.mem_append.mp h with h | h
        · exact hzero latest h
        · exact List.mem_singleton.mp h
      answered := fun latest h => by
        cases h
        exact hlatest
      distinct := hdistinct
      ahead := hahead
      behind := hbehind
      kept := by rw [hacks]; exact hkept
      room := hroom
      source := hsource
      supply := hsupply
      light := fun m hm => hlight m (List.mem_cons_of_mem _ hm) }

/-- **An answer that arrives keeps the lane of the node that has asked for it**: its numbering
starts with one. -/
theorem Lane.numbered {r : Reset} (hr : r.isResponse = true)
    (hlane : Lane link peer out (.reset r :: back) told arrived) :
    r.latest = 0 ∧ link.nextId = none ∧
      Lane { link with nextId := some 1, resetSent := false } peer out back told arrived := by
  obtain ⟨hasked, hsettled, hzero, hanswered, hdistinct, hahead, hbehind, hkept, hroom, hsource,
    hsupply, hlight⟩ := hlane
  have hanswers : answers (.reset r :: back) = r.latest :: answers back := by
    simp [Message.answer?, hr]
  rw [hanswers] at hasked hzero
  rw [List.length_cons] at hasked
  have hid : link.nextId = none := by
    cases hid : link.nextId with
    | none => rfl
    | some id =>
      rw [hsettled (by rw [hid]; rfl), Bool.toNat_false] at hasked
      omega
  have htop : link.top = 1 := by rw [Link.top, hid]
  rw [htop] at hahead hbehind hroom
  refine ⟨hzero _ (List.mem_cons_self ..), hid, ?_⟩
  exact
    { asked := by
        have := link.resetSent.toNat_le
        change _ = 0
        omega
      settled := fun _ => rfl
      zero := fun latest h => hzero latest (List.mem_cons_of_mem _ h)
      answered := hanswered
      distinct := hdistinct
      ahead := hahead
      behind := hbehind
      kept := hkept
      room := hroom
      source := hsource
      supply := hsupply
      light := hlight }

/-- **An answer that arrives keeps the lane of the node that has given it.** -/
theorem Lane.numbered_peer {r : Reset} (hr : r.isResponse = true)
    (hlane : Lane link peer (.reset r :: out) back told arrived) :
    Lane link { peer with nextId := some 1, resetSent := false } out back told arrived := by
  have hrequests : requests (.reset r :: out) = requests out := by
    simp [Message.asks, hr]
  exact
    { hlane with
      asked := by rw [← hrequests]; exact hlane.asked
      light := fun m hm => hlane.light m (List.mem_cons_of_mem _ hm) }

/-! ### Serving -/

/-- `Serve link came news link' ms`: an end of a channel takes a message, if any, and sends `news`
to its peer. -/
inductive Serve (link : Link μ) :
    Option (Message μ) → List μ → Link μ → List (Message μ) → Prop where
  | quiet {news : List μ} {link' : Link μ} {ms : List (Message μ)}
      (h : link.post news none = .ok (link', ms)) : Serve link none news link' ms
  | batch {b : Batch μ} {news : List μ} {link' : Link μ} {ms : List (Message μ)}
      (h : (link.accept b).1.post news b.id = .ok (link', ms)) :
      Serve link (some (.batch b)) news link' ms
  | request {r : Reset} (hr : r.isResponse = false) :
      Serve link (some (.reset r)) [] link.answerReset.1 [link.answerReset.2]
  | response {r : Reset} {link' : Link μ} {ms : List (Message μ)} (hr : r.isResponse = true)
      (h : link.settleNumbering 1 = .ok (link', ms)) : Serve link (some (.reset r)) [] link' ms

variable {came : Option (Message μ)}

theorem Serve.nothing (h : Serve link none [] link' ms) : link' = link ∧ ms = [] := by
  cases h with
  | quiet h =>
    cases h
    exact ⟨rfl, rfl⟩

/-- **Serving keeps the lane of the end that serves.** -/
theorem Lane.serve {told₂ : List μ} {arrived₂ : μ → Prop}
    (hlane : Lane link peer out (came.toList ++ back) told arrived)
    (hback : Lane peer link (came.toList ++ back) out told₂ arrived₂)
    (h : Serve link came news link' ms) (htells : Tells told news told' arrived')
    (harrived : ∀ m, arrived m → arrived' m) :
    Lane link' peer (out ++ ms) back told' arrived' := by
  cases h with
  | quiet h =>
    refine Lane.posted ?_ (post_posted h) htells harrived
    rw [append_ackAlone_none]
    exact hlane
  | batch h => exact (hlane.accept hback.answered).posted (post_posted h) htells harrived
  | request hr =>
    have hanswer : Lane link.answerReset.1 peer (out ++ [link.answerReset.2] ++ ackAlone none) back
        told arrived := by
      rw [append_ackAlone_none]
      exact hlane.answer hr
    have hposted := hanswer.posted (posted_ackAlone link.answerReset.1 none) htells harrived
    rwa [append_ackAlone_none] at hposted
  | response hr h =>
    obtain ⟨-, -, hnumbered⟩ := hlane.numbered hr
    refine Lane.posted ?_ (settle_posted h).1 htells harrived
    rw [append_ackAlone_none]
    exact hnumbered

/-- **Serving keeps the lane of the other end.** -/
theorem Lane.serve_peer {peer' : Link μ}
    (hlane : Lane link peer (came.toList ++ out) back told arrived)
    (h : Serve peer came news peer' ms) (harrived : ∀ m, arrived m → arrived' m)
    (hmsgs : ∀ m ∈ carried came.toList, arrived' m) :
    Lane link peer' out (back ++ ms) told arrived' := by
  cases h with
  | quiet h =>
    refine Lane.posted_peer ?_ (post_posted h) harrived
    rw [append_ackAlone_none]
    exact hlane
  | batch h =>
    refine (hlane.accept_peer harrived fun m hm => hmsgs m ?_).posted_peer (post_posted h)
      fun m hm => hm
    exact List.mem_append_left _ hm
  | request hr => exact (hlane.answer_peer hr).mono harrived
  | response hr h =>
    refine Lane.posted_peer ?_ (settle_posted h).1 harrived
    rw [append_ackAlone_none]
    exact hlane.numbered_peer hr

/-! ### What serving needs -/

theorem Lane.post_ok (hlane : Lane link peer out back told arrived)
    (hlimit : told.length + news.length + 1 < UInt32.size) (owed : Option BatchId) :
    ∃ link' ms, link.post news owed = .ok (link', ms) := by
  have := hlane.room
  exact Link.post_ok (by omega) owed

theorem Lane.settle_ok {r : Reset} (hr : r.isResponse = true)
    (hlane : Lane link peer out (.reset r :: back) told arrived)
    (hlimit : told.length + 1 < UInt32.size) :
    ∃ link' ms, link.settleNumbering 1 = .ok (link', ms) := by
  obtain ⟨-, -, hnumbered⟩ := hlane.numbered hr
  have hroom : (1 : BatchId).toNat + link.pending.length ≤ told.length + 1 := hnumbered.room
  exact Link.settle_ok (by omega)

/-- What waits has asked for the handshake. -/
theorem Serve.waiting (h : Serve link came news link' ms)
    (hwaiting : link.pending.toList ≠ [] → link.resetSent = true) :
    link'.pending.toList ≠ [] → link'.resetSent = true := by
  cases h with
  | quiet h => exact waiting_post h hwaiting
  | @batch b _ _ _ h =>
    obtain ⟨unacked, received, ackedIn, answeredReset, haccept, -⟩ := accept_eq link b
    rw [haccept] at h
    exact waiting_post h hwaiting
  | request hr => exact hwaiting
  | response hr h => exact fun hpending => absurd (settle_posted h).2 hpending

/-! ### The end of a lane -/

/-- What is still to be sent on a lane, at most, if `most` nested messages are sent on it in all:
each needs a place in a batch and may cause a request, and both are answered. -/
def potential (most : Nat) (link : Link μ) (out : List (Message μ)) (told : List μ) : Nat :=
  weight out + 2 * link.pending.length + 4 * (most - told.length)

/-- **Serving uses up what is still to be sent.** -/
theorem Serve.potential_le (h : Serve link came news link' ms) {most : Nat}
    (htold : told.length + news.length ≤ told'.length) (hmost : told'.length ≤ most) :
    potential most link' (out ++ ms) told' + came.toList.length ≤
      potential most link out told + weight came.toList := by
  unfold potential
  rw [weight_append]
  cases h with
  | quiet h =>
    have hposted := post_posted h
    have := hposted.weight
    have := hposted.requests_le
    simp only [Option.toList_none, List.length_nil, weight_nil] at *
    omega
  | @batch b _ _ _ h =>
    have hposted := post_posted h
    have hweight := hposted.weight
    have := hposted.requests_le
    obtain ⟨unacked, received, ackedIn, answeredReset, haccept, -⟩ := accept_eq link b
    rw [haccept] at hweight
    have hbatch : weight [Message.batch b] = 1 + b.id.toList.length := by
      cases hid : b.id <;> simp [Message.weight, hid]
    rw [Option.toList_some, List.length_singleton, hbatch]
    change _ ≤ _ + 2 * (link.pending.length + _ + _) at hweight
    omega
  | @request r hr =>
    have hcame : weight [Message.reset (μ := μ) r] = 2 := by simp [Message.weight, hr]
    have hsent : weight [link.answerReset.2] = 1 := rfl
    rw [Option.toList_some, List.length_singleton, hcame, hsent]
    change _ + 2 * link.pending.length + _ + _ ≤ _
    omega
  | @response r _ _ hr h =>
    obtain ⟨hposted, -⟩ := settle_posted h
    have hweight := hposted.weight
    have := hposted.requests_le
    have hcame : weight [Message.reset (μ := μ) r] = 1 := by simp [Message.weight, hr]
    rw [Option.toList_some, List.length_singleton, hcame]
    change _ ≤ 0 + 2 * (link.pending.length + 0 + _) at hweight
    simp only [List.length_nil] at *
    omega

/-- **Where nothing is on its way, everything sent has been handed over and nothing is kept.** -/
theorem Lane.drained (hlane : Lane link peer [] [] told arrived)
    (hwaiting : link.pending.toList ≠ [] → link.resetSent = true) :
    link.pending.toList = [] ∧ (∀ i, ¬ link.unacked.contains i) ∧ ∀ m ∈ told, arrived m := by
  have hpending : link.pending.toList = [] := by
    by_contra hne
    have hasked := hlane.asked
    rw [hwaiting hne] at hasked
    cases hasked
  refine ⟨hpending, fun i hi => ?_, fun m hm => ?_⟩
  · rcases hlane.kept i hi with h | h
    · cases h
    · cases h
  · rcases hlane.supply m hm with h | h | h
    · exact h
    · rw [hpending] at h
      cases h
    · cases h

end Quorum.Reliable
