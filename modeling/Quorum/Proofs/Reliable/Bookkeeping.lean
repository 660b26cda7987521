import Quorum.Proofs.Reliable.Dismissal
import Quorum.Proofs.Reliable.Kept
import Quorum.Proofs.Reliable.Progress

/-!
# Bookkeeping — what the fields of a channel say of each other

A channel remembers what it has received, which of its own batches carried the acknowledgements,
which of those are kept, what waits for the handshake and whether that has been asked for.  Each
operation changes some of these and not others.  They nevertheless stay in balance: a reset request
is under way exactly when something waits, and a carrier is remembered only while it is kept, for a
number that counts as received.

A duplicate is answered out of these books.  Whatever the answer is, it carries the acknowledgement
that the peer is waiting for.

**Main statements.**  `Link.Balanced.act`: every act keeps the books in balance.
`Life.consistent`: the books about a peer are consistent all the life of a node.
`books_of_life`: what the books of a node say all its life, and how it answers a duplicate.
-/

namespace Quorum.Reliable

open SortedMap Link

section
variable {μ : Type} {link link' : Link μ}

/-- The books of a channel are in balance. -/
structure Link.Balanced (link : Link μ) : Prop where
  asked : link.resetSent = true ↔ link.pending.toList ≠ []
  /-- The carrier of an acknowledgement is forgotten when it is not kept any more. -/
  carried : ∀ i c, link.ackedIn.get? i = some c →
    link.received.contains i ∧ link.unacked.contains c
  answered : ∀ n, link.answeredReset = some n → link.received.contains n

namespace Link

theorem balanced_empty : ({} : Link μ).Balanced where
  asked := ⟨nofun, fun h => absurd rfl h⟩
  carried _ _ h := by cases h
  answered _ h := by cases h

/-! ### Receiving -/

theorem Balanced.acked (hlink : link.Balanced) (id : BatchId) : (link.acked id).Balanced := by
  unfold Link.acked
  split
  · refine ⟨hlink.asked, fun i c hi => ?_, hlink.answered⟩
    rw [get?_filter, Option.filter_eq_some_iff, decide_eq_true_iff] at hi
    obtain ⟨hreceived, hkept⟩ := hlink.carried i c hi.1
    refine ⟨hreceived, ?_⟩
    rw [contains, get?_erase, if_neg fun hrank => hi.2 (Ranked.rank_inj hrank)]
    exact hkept
  · exact hlink

theorem Balanced.foldl_acked (hlink : link.Balanced) (acks : List BatchId) :
    (acks.foldl Link.acked link).Balanced := by
  induction acks generalizing link with
  | nil => exact hlink
  | cons ack acks ih => exact ih (hlink.acked ack)

theorem Balanced.forgetPrevious (hlink : link.Balanced) : link.forgetPrevious.Balanced := by
  unfold Link.forgetPrevious
  split
  · exact hlink
  · refine ⟨hlink.asked, fun i c hi => ?_, nofun⟩
    obtain ⟨hreceived, hkept⟩ := hlink.carried i c (get?_of_filter hi)
    exact ⟨(ReceivedIds.contains_forgetThrough ..).mpr (.inr hreceived), hkept⟩

theorem Balanced.insert (hlink : link.Balanced) (id : BatchId) :
    Balanced { link with received := link.received.insert id } where
  asked := hlink.asked
  carried i c hi := by
    obtain ⟨hreceived, hkept⟩ := hlink.carried i c hi
    exact ⟨(ReceivedIds.contains_insert ..).mpr (.inr hreceived), hkept⟩
  answered n hn := (ReceivedIds.contains_insert ..).mpr (.inr (hlink.answered n hn))

/-- **Taking note of a batch keeps the books in balance.** -/
theorem Balanced.accept (hlink : link.Balanced) (b : Batch μ) : (link.accept b).1.Balanced := by
  have hacked := hlink.foldl_acked b.acks
  unfold Link.accept
  dsimp only
  cases b.id with
  | none => exact hacked
  | some id =>
    dsimp only
    rw [ReceivedIds.record_snd]
    by_cases hrun : (b.acks.foldl Link.acked link).startsNewRun id
    · simp only [if_pos hrun]
      exact hacked.forgetPrevious.insert id
    · simp only [if_neg hrun]
      exact hacked.insert id

theorem Balanced.reacknowledge (hlink : link.Balanced) (id : BatchId) :
    (link.reacknowledge id).1.Balanced := by
  rcases reacknowledge_cases link id with ⟨j, kept, -, -, heq⟩ | heq
  · rw [heq]
    refine ⟨hlink.asked, fun i c hi => ?_, hlink.answered⟩
    obtain ⟨hreceived, hkept⟩ := hlink.carried i c hi
    exact ⟨hreceived, contains_insert.mpr (.inr hkept)⟩
  · rw [heq]
    exact hlink

/-! ### Sending -/

/-- A batch is kept, and so is the carrier of the acknowledgement in it. -/
theorem Balanced.sendBatch (hlink : link.Balanced) {id : BatchId} {msgs : List μ}
    {owed : Option BatchId} {m : Message μ} (h : link.sendBatch id msgs owed = .ok (link', m))
    (howed : ∀ i ∈ owed, link.received.contains i) : link'.Balanced := by
  have hcarried := ackedIn_sendBatch h
  obtain ⟨-, -, ackedIn, rfl⟩ := sendBatch_eq_ok h
  refine ⟨hlink.asked, fun i c hi => ?_, hlink.answered⟩
  rcases hcarried i c hi with ⟨hack, rfl⟩ | hi
  · exact ⟨howed i hack, contains_insert.mpr (.inl rfl)⟩
  · obtain ⟨hreceived, hkept⟩ := hlink.carried i c hi
    exact ⟨hreceived, contains_insert.mpr (.inr hkept)⟩

theorem Balanced.sendBatches (hlink : link.Balanced) {id : BatchId} {owed : Option BatchId}
    {chunks : List (List μ)} {ms : List (Message μ)}
    (h : link.sendBatches id owed chunks = .ok (link', ms))
    (howed : ∀ i ∈ owed, link.received.contains i) : link'.Balanced := by
  induction chunks generalizing link id owed ms with
  | nil =>
    cases h
    exact hlink
  | cons chunk chunks ih =>
    obtain ⟨⟨next, m⟩, hbatch, h⟩ := bind_eq_ok h
    obtain ⟨⟨last, ms⟩, hrest, h⟩ := bind_eq_ok h
    cases h
    exact ih (hlink.sendBatch hbatch howed) hrest nofun

/-- **Sending keeps the books in balance** if the acknowledgement that is owed is for a number
received. -/
theorem Balanced.post (hlink : link.Balanced) {news : List μ} {owed : Option BatchId}
    {ms : List (Message μ)} (h : link.post news owed = .ok (link', ms))
    (howed : ∀ i ∈ owed, link.received.contains i) : link'.Balanced := by
  unfold Link.post at h
  split at h
  · cases h
    exact hlink
  · rename_i hnews
    split at h
    · cases h
      -- something waits now, and the handshake has been asked for
      refine ⟨⟨fun _ => ?_, fun _ => rfl⟩, hlink.carried, hlink.answered⟩
      have hwaits : (link.buffer news).1.pending.toList = link.pending.toList ++ news :=
        Fifo.toList_pushAll ..
      change (link.buffer news).1.pending.toList ≠ []
      rw [hwaits]
      exact List.append_ne_nil_of_right_ne_nil _ fun hnil => hnews (List.isEmpty_iff.mpr hnil)
    · exact hlink.sendBatches h howed

theorem Balanced.settleNumbering (hlink : link.Balanced) {next : BatchId}
    {ms : List (Message μ)} (h : link.settleNumbering next = .ok (link', ms)) :
    link'.Balanced := by
  have hsettled :
      Balanced { link with nextId := some next, resetSent := false, pending := {} } :=
    ⟨balanced_empty.asked, hlink.carried, hlink.answered⟩
  exact hsettled.post h nofun

/-- **A tick asks for a handshake if and only if something waits**, and that has been asked for
before. -/
theorem Balanced.tick (hlink : link.Balanced) (period now : Time) :
    (link.tick period now).resetSent = link.resetSent ∧ (link.tick period now).Balanced := by
  have hsame : (link.tick period now).resetSent = link.resetSent := by
    have hlength : link.pending.length = 0 ↔ link.pending.toList = [] := by
      rw [← Fifo.length_toList, List.length_eq_zero_iff]
    have hasked := hlink.asked
    change (link.resetSent || link.needsReset) = link.resetSent
    rw [needsReset]
    cases hsent : link.resetSent with
    | true => rfl
    | false =>
      rw [hsent] at hasked
      have hnone : link.pending.toList = [] := by
        by_contra hsome
        exact absurd (hasked.mpr hsome) Bool.false_ne_true
      simp [hlength.mpr hnone]
  refine ⟨hsame, ⟨by rw [hsame]; exact hlink.asked, fun i c hi => ?_, hlink.answered⟩⟩
  obtain ⟨hreceived, hkept⟩ := hlink.carried i c hi
  refine ⟨hreceived, ?_⟩
  rw [contains, get?_unacked_tick, Option.isSome_map]
  exact hkept

/-! ### Acts -/

/-- **Every act keeps the books in balance.** -/
theorem Balanced.act (hlink : link.Balanced) {period : Time} {came : Option (Message μ)}
    {news : List μ} {ms : List (Message μ)} (h : link.Act period came news link' ms) :
    link'.Balanced := by
  cases h with
  | send h => exact hlink.post h nofun
  | @acks b hid => exact hlink.accept b
  | @again b id hid hreceived => exact (hlink.accept b).reacknowledge id
  | @fresh b id _ _ _ hid hfresh h =>
    refine (hlink.accept b).post h fun i hi => ?_
    cases hi
    obtain ⟨_, _, _, _, heq, -, hcontains⟩ := accept_eq link b
    rw [heq]
    exact (hcontains id).mpr (.inr ⟨id, hid, .inl rfl⟩)
  | request hr =>
    refine ⟨hlink.asked, hlink.carried, fun n hn => ?_⟩
    cases hn
    exact ReceivedIds.contains_latest _
  | ignore hr h => exact hlink
  | settle hr hid hnext h => exact hlink.settleNumbering h
  | tick now => exact (hlink.tick period now).2

end Link

/-- What the books of a channel say, `sent` having been sent on it. -/
structure Link.Consistent (link : Link μ) (sent : List (Message μ)) : Prop where
  /-- Before the handshake, nothing is kept, and a reset request is under way if something waits. -/
  unsettled : link.isInitialized = false → link.unacked = ∅ ∧ link.ackedIn = ∅ ∧
    (link.resetSent = true ↔ link.pending.toList ≠ [])
  settled : link.isInitialized = true → link.pending.toList = [] ∧ link.resetSent = false
  /-- A batch is kept under its own number, and it has been sent to the peer. -/
  own : ∀ i kept, link.unacked.get? i = some kept → kept.batch.id = some i ∧
    (∃ next, link.nextId = some next ∧ i < next) ∧ .batch kept.batch ∈ sent
  injective : ∀ i i' c, link.ackedIn.get? i = some c → link.ackedIn.get? i' = some c → i = i'
  carried : ∀ i c, link.ackedIn.get? i = some c → link.received.contains i ∧
    ∃ kept, link.unacked.get? c = some kept ∧ i ∈ kept.batch.acks
  answered : ∀ n, link.answeredReset = some n → n ≤ link.received.latest

theorem eq_empty_of_get? {κ α : Type} [Ranked κ] {m : SortedMap κ α}
    (h : ∀ k, m.get? k = none) : m = ∅ :=
  ext_get? fun k => (h k).trans (get?_empty k).symm

/-- **Books in balance are consistent**, on a channel whose batches have consecutive numbers. -/
theorem Link.Balanced.consistent (hbalanced : link.Balanced) (hcoherent : link.Coherent)
    (hformed : link.received.WellFormed) {base : Nat} {bs : List (Batch μ)}
    (hreg : Register base bs link) {sent : List (Message μ)}
    (hsent : ∀ b ∈ bs, .batch b ∈ sent) : link.Consistent sent where
  unsettled hopen := by
    have hnone : link.nextId = none := by
      rw [isInitialized, Option.isSome_eq_false_iff, Option.isNone_iff_eq_none] at hopen
      exact hopen
    refine ⟨eq_empty_of_get? fun i => ?_, eq_empty_of_get? fun i => ?_, hbalanced.asked⟩
    · by_contra hkept
      obtain ⟨kept, hkept⟩ := Option.ne_none_iff_exists'.mp hkept
      have hmem := (hreg.kept i kept hkept).1
      rw [hreg.unsettled hnone] at hmem
      exact List.not_mem_nil hmem
    · by_contra hcarrier
      obtain ⟨c, hc⟩ := Option.ne_none_iff_exists'.mp hcarrier
      obtain ⟨next, hnext, -⟩ := hcoherent.below i c hc
      rw [hnone] at hnext
      cases hnext
  settled hsettled := by
    have hflushed := hreg.flushed (Option.isSome_iff_ne_none.mp hsettled)
    refine ⟨hflushed, Bool.eq_false_iff.mpr fun hasked => ?_⟩
    exact hbalanced.asked.mp hasked hflushed
  own i kept hkept := by
    obtain ⟨hmem, hid⟩ := hreg.kept i kept hkept
    refine ⟨hid, ?_, hsent _ hmem⟩
    cases hnext : link.nextId with
    | none =>
      rw [hreg.unsettled hnext] at hmem
      exact absurd hmem List.not_mem_nil
    | some next =>
      obtain ⟨i', hid', -, hlt⟩ := hreg.consecutive.id_of_mem hmem
      cases hid.symm.trans hid'
      refine ⟨next, rfl, UInt32.lt_iff_toNat_lt.mpr ?_⟩
      rw [hreg.next next hnext]
      exact hlt
  injective i i' c hi hi' := by
    obtain ⟨kept, hkept⟩ := get?_of_contains (hbalanced.carried i c hi).2
    have hack := hcoherent.carries i c kept hi hkept
    have hack' := hcoherent.carries i' c kept hi' hkept
    -- a batch carries one acknowledgement at most
    have hone := (hreg.sized _ (hreg.kept c kept hkept).1).acks_le
    obtain ⟨k, hk⟩ := List.getElem?_of_mem hack
    obtain ⟨k', hk'⟩ := List.getElem?_of_mem hack'
    have hlt := (List.getElem?_eq_some_iff.mp hk).1
    have hlt' := (List.getElem?_eq_some_iff.mp hk').1
    obtain rfl : k = k' := by omega
    exact Option.some.inj (hk.symm.trans hk')
  carried i c hi := by
    obtain ⟨hreceived, hcontains⟩ := hbalanced.carried i c hi
    obtain ⟨kept, hkept⟩ := get?_of_contains hcontains
    exact ⟨hreceived, kept, hkept, hcoherent.carries i c kept hi hkept⟩
  answered n hn := hformed.le_latest (hbalanced.answered n hn)

end

/-! ### Nodes -/

section
variable {P : Protocol} {period : Time} {me p : NodeId} {s : State P} {log : List (Episode P)}

theorem Life.balanced (hlife : Life period me log s) (q : NodeId) :
    (s.link q).Balanced ∧ (s.link q).received.WellFormed := by
  obtain ⟨first, hstart, hcalls⟩ := hlife
  induction hcalls with
  | nil =>
    obtain ⟨nested, -, rfl⟩ := map_eq_ok hstart
    exact ⟨balanced_empty, ReceivedIds.wellFormed_empty⟩
  | @snoc log t c r hcalls hcall ih =>
    by_cases hq : q ∈ r.state.dismissed
    · have hgone := (Life.coherent ⟨first, hstart, hcalls⟩).gone q
      rw [(call_dismissed hcall hq hgone).1]
      exact ⟨balanced_empty, ReceivedIds.wellFormed_empty⟩
    · obtain ⟨-, nested, -, -, hact⟩ := call_act hcall hq
      exact ⟨ih.1.act hact, hact.wellFormed ih.2⟩

theorem Life.absent (hlife : Life period me log s) (hgone : p ∈ s.dismissed) :
    s.links.get? p = none := by
  obtain ⟨first, hstart, hcalls⟩ := hlife
  induction hcalls with
  | nil =>
    obtain ⟨nested, -, rfl⟩ := map_eq_ok hstart
    exact absurd hgone List.not_mem_nil
  | @snoc log t c r hcalls hcall ih =>
    rcases (mem_dismissed_call hcall).mp hgone with rfl | hgone
    · cases hcall
      exact (t.without_dismiss p).absent
    · exact (State.Without.call ⟨hgone, ih hgone⟩ hcall).absent

/-- **A duplicate is answered by one message**, which carries its acknowledgement, and the nested
automaton is left alone. -/
theorem receive_duplicate (hs : s.Coherent) (hp : p ∉ s.dismissed) {b : Batch P.Msg}
    {i : BatchId} (hid : b.id = some i) (hreceived : (s.link p).received.contains i) :
    ∃ r m, receive me s p (.batch b) = .ok r ∧ r.state.nested = s.nested ∧
      r.sent = [⟨p, .batch m⟩] ∧ i ∈ m.acks := by
  have hverdict : ((s.link p).accept b).2 = .duplicate i := by
    rcases accept_cases (s.link p) b with
      ⟨hnone, -⟩ | ⟨i', hid', -, hverdict⟩ | ⟨i', hid', hfresh, -⟩
    · rw [hid] at hnone
      cases hnone
    · cases hid.symm.trans hid'
      exact hverdict
    · cases hid.symm.trans hid'
      exact absurd hreceived hfresh
  have hreceive : receive me s p (.batch b) = .ok
      { state := s.setLink p (((s.link p).accept b).1.reacknowledge i).1
        sent := [⟨p, (((s.link p).accept b).1.reacknowledge i).2⟩] } := by
    rw [receive, if_neg hp]
    simp only [onBatch, hverdict]
  rw [hreceive]
  rcases reacknowledge_cases ((s.link p).accept b).1 i with ⟨j, kept, hj, hkept, heq⟩ | heq
  · refine ⟨_, kept.batch, rfl, rfl, by rw [heq], ?_⟩
    exact ((hs.links p).forgets (forgets_accept _ b)).carries i j kept hj hkept
  · exact ⟨_, { acks := [i] }, rfl, rfl, by rw [heq], List.mem_singleton_self i⟩

/-- **The books about a peer in the table are consistent**, and the peer is not dismissed. -/
theorem Life.consistent (hlife : Life period me log s) {link : Link P.Msg}
    (hlink : s.links.get? p = some link) : p ∉ s.dismissed ∧ link.Consistent (sentTo p log) := by
  have hstays : p ∉ s.dismissed := by
    intro hgone
    rw [hlife.absent hgone] at hlink
    cases hlink
  obtain ⟨base, bs, hacc⟩ := hlife.account p
  obtain ⟨hbalanced, hformed⟩ := hlife.balanced p
  have hsame : s.link p = link := by rw [State.link, getD, hlink, Option.getD_some]
  rw [hsame] at hbalanced hformed
  have hcoherent : link.Coherent := hsame ▸ hlife.coherent.links p
  have hreg : Register base bs link := hsame ▸ hacc.register hstays
  exact ⟨hstays, hbalanced.consistent hcoherent hformed hreg fun b hb =>
    (mem_numbered.mp ((hacc.sent b).mpr hb)).1⟩

/-- **The books of a node, and its answer to a duplicate.**  Whatever calls a node has had: a peer
in its table is not dismissed, and the books about it are consistent.  And when a batch comes with a
number that counts as received, then the nested automaton is left alone, and one message is sent,
which is a batch for the sender with the acknowledgement of that number. -/
theorem books_of_life (hlife : Life period me log s) :
    (∀ q link, s.links.get? q = some link →
      q ∉ s.dismissed ∧ link.Consistent (sentTo q log)) ∧
    ∀ q b i, q ∉ s.dismissed → b.id = some i → (s.link q).received.contains i →
      ∃ r m, receive me s q (.batch b) = .ok r ∧ r.state.nested = s.nested ∧
        r.sent = [⟨q, .batch m⟩] ∧ i ∈ m.acks := by
  refine ⟨fun q link hlink => hlife.consistent hlink, ?_⟩
  intro q b i hstays hid hreceived
  exact receive_duplicate hlife.coherent hstays hid hreceived

/-- A node has its numbering settled at 5, and answers a ping that comes in the batch 3. -/
def answeredPing : List (Call (Protocol.pingPong 0)) :=
  [.input (.nested (⟨⟨1⟩, 0⟩ : PingPong.Serve)), .message ⟨1⟩ (.reset ⟨true, 5⟩),
    .message ⟨1⟩ (.batch { id := some 3, msgs := [(⟨1⟩ : PingPong.Ping)] }), .input (.tick 1)]

/-- The acknowledgement has travelled on the batch 7, which is kept; a copy of the ping is answered
by a batch that carries it. -/
theorem books_of_answeredPing : ∃ log s, Life (P := Protocol.pingPong 0) 0 ⟨0⟩ log s ∧
    (s.link ⟨1⟩).ackedIn.get? 3 = some 7 ∧ (s.link ⟨1⟩).unacked.contains 7 ∧
    (∃ link, s.links.get? ⟨1⟩ = some link ∧ link.Consistent (sentTo ⟨1⟩ log)) ∧
    ∃ r m, receive ⟨0⟩ s ⟨1⟩ (.batch { id := some 3 }) = .ok r ∧ r.state.nested = s.nested ∧
      r.sent = [⟨⟨1⟩, .batch m⟩] ∧ 3 ∈ m.acks := by
  obtain ⟨log, s, hlife, htest⟩ :=
    @Life.exists (Protocol.pingPong 0) 0 ⟨0⟩ answeredPing
      (fun _ s => (s.link ⟨1⟩).ackedIn.get? 3 = some 7 ∧ (s.link ⟨1⟩).unacked.contains 7 ∧
        (s.links.get? ⟨1⟩).isSome ∧ (s.link ⟨1⟩).received.contains 3) (by decide +kernel)
  obtain ⟨hcarrier, hkept, hlink, hreceived⟩ := of_decide_eq_true htest
  obtain ⟨link, hlink⟩ := Option.isSome_iff_exists.mp hlink
  obtain ⟨htable, hduplicate⟩ := books_of_life hlife
  obtain ⟨hstays, hconsistent⟩ := htable ⟨1⟩ link hlink
  exact ⟨log, s, hlife, hcarrier, hkept, ⟨link, hlink, hconsistent⟩,
    hduplicate ⟨1⟩ { id := some 3 } 3 hstays rfl hreceived⟩

end

end Quorum.Reliable
