import Quorum.Proofs.Reliable.Bookkeeping

/-!
# Handshake — a sender that starts anew

A node that starts anew asks its peer for the largest number that the peer has seen, and numbers its
batches from there on.  What the peer has received before may have any gaps.  When the answer has
been given and the first batch above it comes, the gaps are closed: nothing of the earlier run is
waited for any more, and from then on the record of what has come is a bare watermark as long as
batches come in order.

**Main statements.**  `Life.latest`: an answer tells the largest number that has come.
`Poised.next`, `Poised.act`: how the first batch after an answer closes the gaps.  `clean_restart`:
the handshake as a whole, from the request to the last batch that was buffered, and what becomes of
older batches after that.
-/

namespace Quorum.Reliable

open SortedMap Link

/-! ### Records without gaps -/

namespace ReceivedIds
variable {ids : ReceivedIds} {n id : BatchId}

theorem WellFormed.watermark_le_latest (h : ids.WellFormed) : ids.watermark ≤ ids.latest :=
  h.le_latest (contains_iff.mpr (.inl (UInt32.le_refl _)))

theorem WellFormed.forgetThrough_latest (h : ids.WellFormed) :
    ids.forgetThrough ids.latest = { watermark := ids.latest } := by
  have hmax : max ids.watermark ids.latest = ids.latest := by
    change (if ids.watermark ≤ ids.latest then ids.latest else ids.watermark) = ids.latest
    rw [if_pos h.watermark_le_latest]
  have hnone : ids.above.filter (fun x => ids.latest < x) = [] := by
    refine List.filter_eq_nil_iff.mpr fun x hx => ?_
    have hle := h.le_latest (contains_iff.mpr (.inr hx))
    simpa using UInt32.not_lt.mpr hle
  rw [ReceivedIds.forgetThrough, hmax, hnone, compact]

theorem not_contains_next (hnext : n.next? = some id) :
    ¬ ({ watermark := n } : ReceivedIds).contains id := by
  rw [BatchId.next?_eq_some] at hnext
  rw [contains_iff, UInt32.le_iff_toNat_le]
  rintro (hle | hmem)
  · change id.toNat ≤ n.toNat at hle
    omega
  · cases hmem

theorem insert_next (hnext : n.next? = some id) :
    ({ watermark := n } : ReceivedIds).insert id = { watermark := id } := by
  rw [insert, if_neg (not_contains_next hnext)]
  change compact n [id] = _
  rw [compact, if_pos hnext, compact]

end ReceivedIds

section
variable {μ : Type} {period : Time} {link link' : Link μ} {came : Option (Message μ)}
  {news : List μ} {ms : List (Message μ)} {b : Batch μ} {n id : BatchId}

/-- No number above `n` has come, and the next number leaves no gaps: either `n` was told in the
last answer, or there are none. -/
structure Link.Poised (link : Link μ) (n : BatchId) : Prop where
  wellFormed : link.received.WellFormed
  latest : link.received.latest = n
  ready : link.answeredReset = some n ∨
    (link.received = { watermark := n } ∧ ∀ told, link.answeredReset = some told → told ≤ n)

namespace Link

/-- Nothing below is missing. -/
theorem Poised.of_bare (hreceived : link.received = { watermark := n })
    (htold : ∀ told, link.answeredReset = some told → told ≤ n) : link.Poised n where
  wellFormed := by
    rw [hreceived]
    exact ReceivedIds.wellFormed_bare n
  latest := by rw [hreceived]; rfl
  ready := .inr ⟨hreceived, htold⟩

theorem Poised.congr (h : link.Poised n) (hreceived : link'.received = link.received)
    (hanswered : link'.answeredReset = link.answeredReset) : link'.Poised n where
  wellFormed := by rw [hreceived]; exact h.wellFormed
  latest := by rw [hreceived]; exact h.latest
  ready := by rw [hreceived, hanswered]; exact h.ready

theorem poised_answerReset (h : link.received.WellFormed) :
    link.answerReset.1.Poised link.received.latest :=
  ⟨h, rfl, .inl rfl⟩

/-- What a batch with a number does to the record of what has come. -/
theorem accept_of_id_some (hid : b.id = some id) :
    (link.accept b).1.received =
        (if link.startsNewRun id then link.forgetPrevious else link).received.insert id ∧
      (link.accept b).1.answeredReset =
        (if link.startsNewRun id then link.forgetPrevious else link).answeredReset := by
  obtain ⟨unacked, ackedIn, heq, -, -⟩ := foldl_acked link b.acks
  have hrun : startsNewRun { link with unacked, ackedIn } id = link.startsNewRun id := rfl
  have hforget : (forgetPrevious { link with unacked, ackedIn }).received =
        link.forgetPrevious.received ∧
      (forgetPrevious { link with unacked, ackedIn }).answeredReset =
        link.forgetPrevious.answeredReset := by
    unfold forgetPrevious
    dsimp only
    split
    · exact ⟨rfl, rfl⟩
    · exact ⟨rfl, rfl⟩
  simp only [accept, heq, hid, hrun, ReceivedIds.record_snd]
  by_cases hnew : link.startsNewRun id
  · simp only [if_pos hnew, hforget.1, hforget.2, and_self]
  · simp only [if_neg hnew, and_self]

/-- **The next number closes all gaps.** -/
theorem Poised.next (h : link.Poised n) (hnext : n.next? = some id) (hid : b.id = some id) :
    ¬ link.received.contains id ∧ (link.accept b).1.received = { watermark := id } ∧
      (link.accept b).1.Poised id := by
  have hlt := BatchId.next?_eq_some.mp hnext
  have hfresh : ¬ link.received.contains id := fun hcontains => by
    have hle := h.wellFormed.le_latest hcontains
    rw [h.latest, UInt32.le_iff_toNat_le] at hle
    omega
  have hsucc : ∀ told : BatchId, told.next? = some id → told = n := fun told htold => by
    rw [BatchId.next?_eq_some] at htold
    exact UInt32.toNat_inj.mp (by omega)
  have haccept : (link.accept b).1.received = { watermark := id } ∧
      ∀ told, (link.accept b).1.answeredReset = some told → told ≤ id := by
    obtain ⟨hreceived, hanswered⟩ := accept_of_id_some hid
    rw [hreceived, hanswered]
    by_cases hrun : link.startsNewRun id
    · have htold : link.answeredReset = some n := by
        obtain ⟨told, htold, hlast⟩ := Option.bind_eq_some_iff.mp (of_decide_eq_true hrun)
        rw [← hsucc told hlast]
        exact htold
      have hgaps := h.wellFormed.forgetThrough_latest
      rw [h.latest] at hgaps
      simp only [if_pos hrun, forgetPrevious, htold, hgaps]
      exact ⟨ReceivedIds.insert_next hnext, nofun⟩
    · -- nothing is given up, so there was nothing missing
      obtain ⟨hbare, hle⟩ := h.ready.resolve_left fun htold => hrun <| by
        rw [startsNewRun, htold]
        exact decide_eq_true hnext
      rw [if_neg hrun, hbare]
      refine ⟨ReceivedIds.insert_next hnext, fun told htold => ?_⟩
      have hle := UInt32.le_iff_toNat_le.mp (hle told htold)
      exact UInt32.le_iff_toNat_le.mpr (by omega)
  exact ⟨hfresh, haccept.1, .of_bare haccept.1 haccept.2⟩

theorem accept_of_id_none (hid : b.id = none) :
    (link.accept b).1.received = link.received ∧
      (link.accept b).1.answeredReset = link.answeredReset := by
  obtain ⟨unacked, ackedIn, heq, -, -⟩ := foldl_acked link b.acks
  have haccept : (link.accept b).1 = { link with unacked, ackedIn } := by
    simp only [accept, heq, hid]
  rw [haccept]
  exact ⟨rfl, rfl⟩

/-- **An act in which no batch with a number comes leaves the record of what has come alone.** -/
theorem Act.poised (hlink : link.Poised n) (h : link.Act period came news link' ms)
    (hcame : ∀ b, came = some (.batch b) → b.id = none) :
    link'.received = link.received ∧ link'.Poised n := by
  have hsame : link'.received = link.received →
      link'.answeredReset = link.answeredReset →
      link'.received = link.received ∧ link'.Poised n :=
    fun hreceived hanswered => ⟨hreceived, hlink.congr hreceived hanswered⟩
  cases h with
  | send h => exact hsame (post_posted h).received (post_posted h).answeredReset
  | acks hid => exact hsame (accept_of_id_none hid).1 (accept_of_id_none hid).2
  | again hid hreceived =>
    rw [hcame _ rfl] at hid
    cases hid
  | fresh hid hfresh h =>
    rw [hcame _ rfl] at hid
    cases hid
  | request hr =>
    have hposed := poised_answerReset hlink.wellFormed
    rw [hlink.latest] at hposed
    exact ⟨rfl, hposed⟩
  | ignore hr h => exact hsame rfl rfl
  | settle hr hid hnext h =>
    obtain ⟨hposted, -⟩ := settle_posted h
    exact hsame hposted.received hposted.answeredReset
  | tick now => exact hsame rfl rfl

/-- **An act in which the batch with the next number comes closes all gaps.** -/
theorem Act.poised_next (hlink : link.Poised n)
    (h : link.Act period (some (.batch b)) news link' ms) (hid : b.id = some id)
    (hnext : n.next? = some id) :
    link'.received = { watermark := id } ∧ link'.Poised id := by
  obtain ⟨hfresh, hreceived, hposed⟩ := hlink.next hnext hid
  cases h with
  | acks hnone =>
    rw [hid] at hnone
    cases hnone
  | again hid' hreceived' =>
    cases hid.symm.trans hid'
    exact absurd hreceived' hfresh
  | fresh hid' hfresh' h =>
    have hposted := post_posted h
    exact ⟨hposted.received.trans hreceived,
      hposed.congr hposted.received hposted.answeredReset⟩

end Link

end

/-! ### What comes from a peer -/

section
variable {P : Protocol} {period : Time} {me p : NodeId} {s s' : State P}
  {log later : List (Episode P)} {x : Episode P}

def gotFrom (p : NodeId) (log : List (Episode P)) : List (Message P.Msg) :=
  log.filterMap fun x => x.call.came x.before p

theorem gotFrom_snoc (p : NodeId) (log : List (Episode P)) (x : Episode P) :
    gotFrom p (log ++ [x]) = gotFrom p log ++ (x.call.came x.before p).toList := by
  rw [gotFrom, List.filterMap_append]
  cases h : x.call.came x.before p <;> simp [gotFrom, h]

/-- The largest of the numbers in a list, zero if there are none. -/
structure IsLatest (n : BatchId) (ids : List BatchId) : Prop where
  mem : n = 0 ∨ n ∈ ids
  le : ∀ i ∈ ids, i ≤ n

/-- What counts as received goes up to a number that has come, and all that has come counts. -/
theorem Life.contains_got (hlife : Life period me log s) (hstays : p ∉ s.dismissed) :
    (∀ i ∈ numbers (gotFrom p log), (s.link p).received.contains i) ∧
      ∀ i, (s.link p).received.contains i → i = 0 ∨ ∃ j ∈ numbers (gotFrom p log), i ≤ j := by
  obtain ⟨first, hstart, hcalls⟩ := hlife
  induction hcalls with
  | nil =>
    obtain ⟨nested, -, rfl⟩ := map_eq_ok hstart
    refine ⟨fun i hi => absurd hi List.not_mem_nil, fun i hi => ?_⟩
    by_contra hnone
    rw [not_or] at hnone
    exact absurd hi (Bool.eq_false_iff.mp (ReceivedIds.contains_empty hnone.1))
  | @snoc log t c r _ hcall ih =>
    obtain ⟨hbefore, inner, -, -, hact⟩ := call_act hcall hstays
    obtain ⟨hgot, hle⟩ := ih hbefore
    have hnumbers : ∀ i, i ∈ numbers (gotFrom p (log ++ [⟨t, c, r⟩])) ↔
        i ∈ numbers (gotFrom p log) ∨ ∃ b, c.came t p = some (.batch b) ∧ b.id = some i := by
      intro i
      have hcame : i ∈ numbers (c.came t p).toList ↔
          ∃ b, c.came t p = some (.batch b) ∧ b.id = some i := by
        simp only [mem_numbers, Option.mem_toList]
      rw [gotFrom_snoc, numbers_append, List.mem_append, hcame]
    refine ⟨fun i hi => (hact.received i).mpr ?_, fun i hi => ?_⟩
    · rcases (hnumbers i).mp hi with hi | ⟨b, hb, hid⟩
      · exact .inl (hgot i hi)
      · exact .inr ⟨b, i, hb, hid, .inl rfl⟩
    · rcases (hact.received i).mp hi with hi | ⟨b, id, hb, hid, hi⟩
      · refine (hle i hi).imp_right fun ⟨j, hj, hij⟩ => ⟨j, (hnumbers j).mpr (.inl hj), hij⟩
      · refine .inr ⟨id, (hnumbers id).mpr (.inr ⟨b, hb, hid⟩), ?_⟩
        rcases hi with rfl | ⟨hrun, -, told, htold, hi⟩
        · exact UInt32.le_refl _
        · -- what is given up lies below the number that has come
          rw [startsNewRun, htold, decide_eq_true_iff, Option.bind_some,
            BatchId.next?_eq_some] at hrun
          rw [UInt32.le_iff_toNat_le] at hi ⊢
          omega

/-- **The latest number received is the largest that has come.** -/
theorem Life.latest (hlife : Life period me log s) (hstays : p ∉ s.dismissed) {n : BatchId}
    (hn : IsLatest n (numbers (gotFrom p log))) : (s.link p).received.latest = n := by
  obtain ⟨hgot, hle⟩ := hlife.contains_got hstays
  have hformed := (hlife.balanced p).2
  have hcontains : (s.link p).received.contains n := by
    rcases hn.mem with rfl | hn
    · exact ReceivedIds.contains_zero _
    · exact hgot n hn
  refine UInt32.le_antisymm ?_ (hformed.le_latest hcontains)
  rcases hle _ (ReceivedIds.contains_latest _) with hzero | ⟨j, hj, hle⟩
  · rw [hzero, UInt32.le_iff_toNat_le]
    exact Nat.zero_le _
  · exact UInt32.le_trans hle (hn.le j hj)

end

/-! ### The request -/

section
variable {μ : Type} {period : Time} {link link' : Link μ} {came : Option (Message μ)}
  {news : List μ} {ms : List (Message μ)}

theorem Link.post_asks {owed : Option BatchId} (h : link.post news owed = .ok (link', ms))
    (hasked : link'.resetSent = true) : link.resetSent = true ∨ .reset .request ∈ ms := by
  unfold Link.post at h
  split at h
  · cases h
    exact .inl hasked
  · split at h
    · cases h
      by_cases hsent : link.resetSent = true
      · exact .inl hsent
      · have hrequest : (link.buffer news).2 = [.reset .request] := if_neg hsent
        change _ ∨ _ ∈ (link.buffer news).2 ++ ackAlone owed
        rw [hrequest]
        exact .inr (List.mem_append_left _ (List.mem_singleton_self _))
    · rename_i id hid
      obtain ⟨_, _, _, rfl⟩ := (sendBatches_numbered h hid).same
      exact .inl hasked

/-- A reset request is under way only if one has been sent. -/
theorem Link.Act.asks (h : link.Act period came news link' ms)
    (hasked : link'.resetSent = true) : link.resetSent = true ∨ .reset .request ∈ ms := by
  have haccept : ∀ b, (link.accept b).1.resetSent = link.resetSent := fun b => by
    obtain ⟨_, _, _, _, heq, -, -⟩ := accept_eq link b
    rw [heq]
  cases h with
  | send h => exact post_asks h hasked
  | @acks b hid =>
    rw [haccept] at hasked
    exact .inl hasked
  | @again b id hid hreceived =>
    rcases reacknowledge_cases (link.accept b).1 id with ⟨j, kept, -, -, heq⟩ | heq
    · rw [heq] at hasked
      exact .inl ((haccept b).symm.trans hasked)
    · rw [heq] at hasked
      exact .inl ((haccept b).symm.trans hasked)
  | @fresh b id _ _ _ hid hfresh h =>
    have hposted := post_asks h hasked
    rw [haccept] at hposted
    exact hposted
  | request hr => exact .inl hasked
  | ignore hr h => exact .inl hasked
  | settle hr hid hnext h =>
    have hposted := post_asks h hasked
    exact .inr (hposted.resolve_left Bool.false_ne_true)
  | tick now =>
    change (link.resetSent || link.needsReset) = true at hasked
    rcases (Bool.or_eq_true _ _).mp hasked with hsent | hneeds
    · exact .inl hsent
    · rw [resent, if_pos hneeds]
      exact .inr (List.mem_append_right _ (List.mem_singleton_self _))

end

section
variable {P : Protocol} {period : Time} {me p : NodeId} {s : State P} {log : List (Episode P)}

theorem Life.asked (hlife : Life period me log s) (hasked : (s.link p).resetSent = true) :
    .reset .request ∈ sentTo p log := by
  obtain ⟨first, hstart, hcalls⟩ := hlife
  induction hcalls with
  | nil =>
    obtain ⟨nested, -, rfl⟩ := map_eq_ok hstart
    cases hasked
  | @snoc log t c r hcalls hcall ih =>
    have hstays : p ∉ r.state.dismissed := fun hgone => by
      have hgone' := (Life.coherent ⟨first, hstart, hcalls⟩).gone p
      rw [(call_dismissed hcall hgone hgone').1] at hasked
      cases hasked
    obtain ⟨-, inner, -, -, hact⟩ := call_act hcall hstays
    rw [sentTo_append, sentTo_singleton, List.mem_append]
    exact (hact.asks hasked).imp_left ih

/-- **Where messages wait, the handshake has been asked for.** -/
theorem Life.asked_of_waiting (hlife : Life period me log s)
    (hwaiting : (s.link p).pending.toList ≠ []) : .reset .request ∈ sentTo p log :=
  hlife.asked ((hlife.balanced p).1.asked.mpr hwaiting)

end

/-! ### The batches -/

section
variable {μ : Type} {link link' : Link μ} {ms : List (Message μ)}

theorem Link.sendBatches_length {id : BatchId} {owed : Option BatchId} {chunks : List (List μ)}
    (h : link.sendBatches id owed chunks = .ok (link', ms)) : ms.length = chunks.length := by
  induction chunks generalizing link id owed ms with
  | nil =>
    cases h
    rfl
  | cons chunk chunks ih =>
    obtain ⟨⟨next, m⟩, -, h⟩ := bind_eq_ok h
    obtain ⟨⟨last, ms⟩, hrest, h⟩ := bind_eq_ok h
    cases h
    rw [List.length_cons, List.length_cons, ih hrest]

theorem Link.Keeps.eq_map (h : link.Keeps ms) : ms = (numbered ms).map .batch := by
  induction ms with
  | nil => rfl
  | cons m ms ih =>
    obtain ⟨hm, hms⟩ := List.forall_mem_cons.mp h
    obtain ⟨j, kept, -, hid, rfl⟩ := hm
    rw [numbered_cons_of_id hid, List.map_cons, ← ih hms]

/-- When the numbering is settled, what waited goes out in as few batches as can carry it. -/
theorem Link.settleNumbering_length {next : BatchId}
    (h : link.settleNumbering next = .ok (link', ms)) :
    (numbered ms).length = batchCount link.pending.toList.length := by
  obtain ⟨-, hkeeps, -⟩ := settleNumbering_keeps h
  have hlength : (numbered ms).length = ms.length := by
    conv_rhs => rw [hkeeps.eq_map, List.length_map]
  rw [hlength]
  unfold settleNumbering post at h
  split at h
  · rename_i hnil
    cases h
    have hzero : batchCount 0 = 0 := by decide
    rw [List.isEmpty_iff.mp hnil, List.length_nil, hzero]
    rfl
  · rw [sendBatches_length h]
    exact length_pieces (by decide) le_rfl

theorem Consecutive.left {base : Nat} {bs new : List (Batch μ)}
    (h : Consecutive base (bs ++ new)) : Consecutive base bs := by
  intro k b hk
  have hlt := (List.getElem?_eq_some_iff.mp hk).1
  exact h k b (by rw [List.getElem?_append_left hlt, hk])

end

section
variable {P : Protocol} {period : Time} {me p : NodeId} {s : State P} {log : List (Episode P)}
  {n : BatchId}

/-- **The answer sends what was buffered**, in consecutive batches from the next number on. -/
theorem Life.flushes (hlife : Life period me log s) (hopen : ¬ s.isInitialized p)
    (hwaiting : (s.link p).pending.toList ≠ [])
    (hroom : n.toNat + 1 + batchCount (s.link p).pending.toList.length < UInt32.size) :
    ∃ r bs, receive me s p (.reset ⟨true, n⟩) = .ok r ∧ r.sent = toPeer p (bs.map .batch) ∧
      Consecutive (n.toNat + 1) bs ∧ bs.length = batchCount (s.link p).pending.toList.length ∧
      bs.flatMap (·.msgs) = (s.link p).pending.toList := by
  obtain ⟨base, bs, hacc⟩ := hlife.account p
  have hstays : p ∉ s.dismissed := fun hgone => by
    rw [hacc.gone hgone] at hwaiting
    exact hwaiting rfl
  obtain ⟨r, hr⟩ := onReset_ok_iff.mpr
    (show s.HasRoomFor me p (.reset ⟨true, n⟩) from fun _ _ _ => hroom)
  refine ⟨r, ?_⟩
  rcases onReset_cases hr with
    ⟨hrequest, -⟩ | ⟨-, hignored, -⟩ | ⟨next, link, ms, -, hid, hnext, hsettle, -, hsent⟩
  · cases hrequest
  · have hlast := BatchId.next?_eq_none.mp (hignored.resolve_left hopen)
    dsimp only at hlast
    omega
  · obtain ⟨hreg, hadvance, hsettled⟩ :=
      (hacc.register hstays).settleNumbering hid hnext hsettle
    rw [(hacc.register hstays).unsettled hid, List.nil_append] at hreg
    have hconserved := hadvance.conserved
    rw [hreg.flushed hsettled, List.append_nil, List.append_nil] at hconserved
    obtain ⟨-, hkeeps, -⟩ := settleNumbering_keeps hsettle
    refine ⟨numbered ms, ?_, ?_, hreg.consecutive, settleNumbering_length hsettle, hconserved⟩
    · rw [receive, if_neg hstays]
      exact hr
    · rw [hsent, ← hkeeps.eq_map]

end

/-! ### The whole handshake -/

section
variable {P : Protocol} {period : Time} {me p : NodeId} {s s' : State P.recorded}
  {c : Call P.recorded} {r : Reaction (State P.recorded) (Message P.Msg)}
  {later : List (Episode P.recorded)} {n id : BatchId} {b : Batch P.Msg}

/-- What a call hands to the nested automaton: the messages of the batch that has come, if its
number is new, and nothing otherwise. -/
theorem heard_of_call (h : call (P := P.recorded) period me s c = .ok r) :
    (∃ sender b, c = .message sender (.batch b) ∧ s.Takes sender b ∧
      State.heard r.state = s.heard ++ b.msgs.map (sender, ·)) ∨
    ((∀ sender b, c = .message sender (.batch b) → ¬ s.Takes sender b) ∧
      State.heard r.state = s.heard) := by
  match c with
  | .input i =>
    obtain ⟨news, hexchange⟩ := input_exchange (P := P) h
    rcases hexchange.heard with ⟨sender, b, hcame, -⟩ | ⟨-, hheard⟩
    · cases hcame
    · exact .inr ⟨nofun, hheard⟩
  | .message sender m =>
    obtain ⟨news, hexchange⟩ := receive_exchange (P := P) h
    refine hexchange.heard.imp ?_ ?_
    · rintro ⟨sender', b, hcame, htakes, hheard⟩
      cases hcame
      exact ⟨_, _, rfl, htakes, hheard⟩
    · rintro ⟨hquiet, hheard⟩
      refine ⟨fun sender' b hc => hquiet sender' b ?_, hheard⟩
      cases hc
      rfl
  | .dismiss peer =>
    cases h
    exact .inr ⟨nofun, rfl⟩

theorem heardFrom_of_fresh (h : call (P := P.recorded) period me s c = .ok r)
    (hcame : c.came s p = some (.batch b)) (hid : b.id = some id)
    (hfresh : ¬ (s.link p).received.contains id) :
    State.heardFrom p r.state = s.heardFrom p ++ b.msgs.map (p, ·) := by
  obtain ⟨rfl, hp⟩ := came_eq_some.mp hcame
  rcases heard_of_call h with ⟨sender, b', hc, -, hheard⟩ | ⟨hquiet, -⟩
  · cases hc
    have hall : (b.msgs.map (p, ·)).filter (·.1 = p) = b.msgs.map (p, ·) := by
      refine List.filter_eq_self.mpr fun x hx => ?_
      obtain ⟨m, -, rfl⟩ := List.mem_map.mp hx
      exact decide_eq_true rfl
    rw [State.heardFrom, hheard, List.filter_append, hall]
    rfl
  · exact absurd ⟨hp, id, hid, hfresh⟩ (hquiet p b rfl)

/-- Without a new batch of a peer, nothing is handed over in its name. -/
theorem heardFrom_of_quiet (h : call (P := P.recorded) period me s c = .ok r)
    (hquiet : ∀ b, c.came s p = some (.batch b) → b.id = none) :
    State.heardFrom p r.state = s.heardFrom p := by
  rcases heard_of_call h with ⟨sender, b, rfl, ⟨hstays, id, hid, -⟩, hheard⟩ | ⟨-, hheard⟩
  · have hne : sender ≠ p := by
      rintro rfl
      rw [hquiet b (came_eq_some.mpr ⟨rfl, hstays⟩)] at hid
      cases hid
    have hnone : (b.msgs.map (sender, ·)).filter (·.1 = p) = [] := by
      refine List.filter_eq_nil_iff.mpr fun x hx => ?_
      obtain ⟨m, -, rfl⟩ := List.mem_map.mp hx
      simpa using hne
    rw [State.heardFrom, hheard, List.filter_append, hnone, List.append_nil]
    rfl
  · rw [State.heardFrom, hheard]
    rfl

/-- **Batches that come in order, from the next number on, are handed over in order**, and leave a
bare watermark. -/
theorem poised_calls (hcalls : Calls (P := P.recorded) period me s later s')
    (hstays : p ∉ s'.dismissed) (hs : Link.Poised (State.link s p) n)
    (hcons : Consecutive (n.toNat + 1) (numbered (gotFrom p later))) :
    ∃ last : BatchId, last.toNat = n.toNat + (numbered (gotFrom p later)).length ∧
      Link.Poised (State.link s' p) last ∧
      (numbered (gotFrom p later) ≠ [] → (State.link s' p).received = { watermark := last }) ∧
      State.heardFrom p s' =
        s.heardFrom p ++ ((numbered (gotFrom p later)).flatMap (·.msgs)).map (p, ·) := by
  induction hcalls with
  | nil => exact ⟨n, rfl, hs, fun h => absurd rfl h, (List.append_nil _).symm⟩
  | @snoc later t c r _ hcall ih =>
    obtain ⟨hbefore, inner, -, -, hact⟩ := call_act hcall hstays
    rw [gotFrom_snoc, numbered_append] at hcons ⊢
    obtain ⟨last, hlast, hposed, hbare, hheard⟩ := ih hbefore hcons.left
    by_cases hnew : ∃ b id, c.came t p = some (.batch b) ∧ b.id = some id
    · obtain ⟨b, id, hcame, hid⟩ := hnew
      dsimp only at hcons ⊢
      have hone : numbered (c.came t p).toList = [b] := by
        rw [hcame]
        exact numbered_cons_of_id hid []
      rw [hone] at hcons ⊢
      -- the batch has the number after the last one
      obtain ⟨id', hid', hnumber⟩ := hcons _ b List.getElem?_concat_length
      cases hid.symm.trans hid'
      have hnext : last.next? = some id := BatchId.next?_eq_some.mpr (by omega)
      have hfresh := (hposed.next hnext hid).1
      rw [hcame] at hact
      obtain ⟨hreceived, hposed'⟩ := hact.poised_next hposed hid hnext
      refine ⟨id, ?_, hposed', fun _ => hreceived, ?_⟩
      · rw [List.length_append, List.length_singleton]
        omega
      · rw [heardFrom_of_fresh hcall hcame hid hfresh, hheard, List.flatMap_append,
          List.flatMap_singleton, List.map_append, List.append_assoc]
    · have hquiet : ∀ b, c.came t p = some (.batch b) → b.id = none := fun b hb => by
        by_contra hsome
        obtain ⟨id, hid⟩ := Option.ne_none_iff_exists'.mp hsome
        exact hnew ⟨b, id, hb, hid⟩
      have hnone : numbered (c.came t p).toList = [] := by
        refine List.eq_nil_iff_forall_not_mem.mpr fun b hb => ?_
        obtain ⟨hb, hid⟩ := mem_numbered.mp hb
        exact hid (hquiet b (Option.mem_toList.mp hb))
      dsimp only
      rw [hnone, List.append_nil]
      obtain ⟨hreceived, hposed'⟩ := hact.poised hposed hquiet
      refine ⟨last, hlast, hposed', fun h => hreceived.trans (hbare h), ?_⟩
      rw [heardFrom_of_quiet hcall hquiet, hheard]

theorem contains_calls {P : Protocol} {s s' : State P} {later : List (Episode P)}
    (hcalls : Calls period me s later s') (hstays : p ∉ s'.dismissed) {i : BatchId}
    (hi : (s.link p).received.contains i) : (s'.link p).received.contains i := by
  induction hcalls with
  | nil => exact hi
  | snoc _ hcall ih =>
    obtain ⟨hbefore, inner, -, -, hact⟩ := call_act hcall hstays
    exact (hact.received i).mpr (.inl (ih hbefore))

theorem Life.append {P : Protocol} {s s' : State P} {log later : List (Episode P)}
    (hlife : Life period me log s) (hcalls : Calls period me s later s') :
    Life period me (log ++ later) s' := by
  induction hcalls with
  | nil => rwa [List.append_nil]
  | snoc _ hcall ih =>
    rw [← List.append_assoc]
    exact ih.snoc hcall

/-- **A clean restart.**  Let `b` be in any state of its life in which it has not dismissed `a`, let
`n` be the largest number of a batch that has come from `a`, zero if none has, and let `a`, whose
numbering towards `b` is not settled, have messages waiting for `b`, with numbers enough for them
above `n`.  Then `a` has asked `b` for the handshake; `b` answers with `n`; and on the answer `a`
sends all that waited, in as few batches as can carry it, numbered from `n + 1` on.

Let `b` then be called in any way, as long as it does not dismiss `a` and as long as those are the
batches with numbers that come from `a`, in this order.  Then the nested automaton of `b` has been
handed exactly the messages that waited, in order, and the record of what has come from `a` is a
bare watermark at the last number.  Whatever calls follow, a batch of `a` with a number up to `n`
is acknowledged in one message to `a`, and the nested automaton is left alone. -/
theorem clean_restart {period' : Time} {a b : NodeId} {s t : State P.recorded}
    {log log' : List (Episode P.recorded)} (hs : Life period a log s) (ht : Life period' b log' t)
    (hstays : a ∉ t.dismissed) (hopen : ¬ s.isInitialized b)
    (hwaiting : (s.link b).pending.toList ≠ []) (hn : IsLatest n (numbers (gotFrom a log')))
    (hroom : n.toNat + batchCount (s.link b).pending.toList.length + 1 < UInt32.size) :
    .reset .request ∈ sentTo b log ∧
    ∃ r, receive b t a (.reset .request) = .ok r ∧ r.sent = [⟨a, .reset ⟨true, n⟩⟩] ∧
    ∃ r' bs, receive a s b (.reset ⟨true, n⟩) = .ok r' ∧ r'.sent = toPeer b (bs.map .batch) ∧
      Consecutive (n.toNat + 1) bs ∧ bs.length = batchCount (s.link b).pending.toList.length ∧
      bs.flatMap (·.msgs) = (s.link b).pending.toList ∧
      ∀ later t', Calls period' b r.state later t' → a ∉ t'.dismissed →
        numbered (gotFrom a later) = bs →
        t'.heardFrom a = t.heardFrom a ++ (s.link b).pending.toList.map (a, ·) ∧
        (∃ last : BatchId, last.toNat = n.toNat + bs.length ∧
          (t'.link a).received = { watermark := last, above := [] }) ∧
        ∀ later' t'', Calls period' b t' later' t'' → a ∉ t''.dismissed →
          ∀ β i, β.id = some i → i ≤ n →
            ∃ r m, receive b t'' a (.batch β) = .ok r ∧ r.state.nested = t''.nested ∧
              r.sent = [⟨a, .batch m⟩] ∧ i ∈ m.acks := by
  have hlatest : (t.link a).received.latest = n := ht.latest hstays hn
  have hrequest : receive b t a (.reset .request) = _ := receive_request hstays
  rw [hlatest] at hrequest
  obtain ⟨r', bs, hsettles, hsent, hcons, hlength, hflushed⟩ :=
    hs.flushes (n := n) hopen hwaiting (by omega)
  refine ⟨hs.asked_of_waiting hwaiting, _, hrequest, rfl, r', bs, hsettles, hsent, hcons, hlength,
    hflushed, fun later t' hcalls hstays' hgot => ?_⟩
  have hcall : call period' b t (.message a (.reset .request)) = .ok _ := hrequest
  have hposed : (State.link (t.setLink a (t.link a).answerReset.1) a).Poised n := by
    rw [link_setLink, if_pos rfl, ← hlatest]
    exact poised_answerReset (ht.balanced a).2
  rw [← hgot] at hcons
  obtain ⟨last, hlast, -, hbare, hheard⟩ := poised_calls hcalls hstays' hposed hcons
  rw [hgot] at hlast hbare hheard
  have hsome : bs ≠ [] := by
    rintro rfl
    exact hwaiting hflushed.symm
  refine ⟨?_, ⟨last, hlast, hbare hsome⟩, fun later' t'' hcalls' hstays'' β i hid hi => ?_⟩
  · rw [hheard, hflushed]
    rfl
  · have hlife : Life period' b _ t'' := ((ht.snoc hcall).append hcalls).append hcalls'
    refine receive_duplicate hlife.coherent hstays'' hid (contains_calls hcalls' hstays'' ?_)
    rw [hbare hsome, ReceivedIds.contains_iff]
    have hle := UInt32.le_iff_toNat_le.mp hi
    refine .inl (UInt32.le_iff_toNat_le.mpr ?_)
    change i.toNat ≤ last.toNat
    omega

def twoPingsWaiting : List (Call (Protocol.pingPong 0).recorded) :=
  [.input (.nested (⟨⟨1⟩, 0⟩ : PingPong.Serve)), .input (.nested (⟨⟨1⟩, 1⟩ : PingPong.Serve))]

def batchSix : Batch (Protocol.pingPong 0).recorded.Msg :=
  { id := some 6, msgs := [(⟨0⟩ : PingPong.Ping), (⟨1⟩ : PingPong.Ping)] }

/-- Of an earlier run, the batches 2 and 5 have come, and an answer has been given in between. -/
def earlierRun : List (Call (Protocol.pingPong 0).recorded) :=
  [.message ⟨0⟩ (.batch { id := some 2 }), .message ⟨0⟩ (.reset .request),
    .message ⟨0⟩ (.batch { id := some 5 })]

theorem restart_after_earlierRun : ∃ t log t' later r,
    Life (P := (Protocol.pingPong 0).recorded) 0 ⟨1⟩ log t ∧
    (t.link ⟨0⟩).received = { watermark := 0, above := [2, 5] } ∧
    receive ⟨1⟩ t ⟨0⟩ (.reset .request) = .ok r ∧ Calls 0 ⟨1⟩ r.state later t' ∧
    t'.heardFrom ⟨0⟩ = t.heardFrom ⟨0⟩ ++ [(⟨0⟩, (⟨0⟩ : PingPong.Ping)), (⟨0⟩, ⟨1⟩)] ∧
    (t'.link ⟨0⟩).received = { watermark := 6, above := [] } := by
  obtain ⟨log, s, hs, htest⟩ :=
    @Life.exists (Protocol.pingPong 0).recorded 0 ⟨0⟩ twoPingsWaiting
      (fun _ s => ¬ s.isInitialized ⟨1⟩ ∧ (s.link ⟨1⟩).pending.toList = batchSix.msgs ∧
        (receive ⟨0⟩ s ⟨1⟩ (.reset ⟨true, 5⟩)).toOption.any
          (·.sent = toPeer ⟨1⟩ [.batch batchSix])) (by decide +kernel)
  obtain ⟨hopen, hwaiting, hsends⟩ := of_decide_eq_true htest
  obtain ⟨log', t, ht, htest'⟩ :=
    @Life.exists (Protocol.pingPong 0).recorded 0 ⟨1⟩ earlierRun
      (fun log t => numbers (gotFrom ⟨0⟩ log) = [2, 5] ∧ ⟨0⟩ ∉ t.dismissed ∧
        (t.link ⟨0⟩).received = { watermark := 0, above := [2, 5] } ∧
        (receive ⟨1⟩ t ⟨0⟩ (.reset .request)).toOption.any fun r =>
          (logOf 0 ⟨1⟩ r.state [.message ⟨0⟩ (.batch batchSix), .input (.tick 1)]).any fun x =>
            numbered (gotFrom ⟨0⟩ x.1) = [batchSix] ∧ ⟨0⟩ ∉ x.2.dismissed) (by decide +kernel)
  obtain ⟨hgot, hstays, hgaps, hruns⟩ := of_decide_eq_true htest'
  have hlatest : IsLatest 5 (numbers (gotFrom ⟨0⟩ log')) := by
    rw [hgot]
    exact ⟨.inr (by decide), by simp⟩
  obtain ⟨-, r, hr, -, r', bs, hr', hsent, -, -, -, hrest⟩ :=
    clean_restart hs ht hstays hopen (by rw [hwaiting]; exact List.cons_ne_nil _ _) hlatest
      (by rw [hwaiting]; decide)
  obtain ⟨r₁, hr₁, hsends⟩ := (Option.any_eq_true _ _).mp hsends
  obtain rfl := Except.ok.inj (hr'.symm.trans (Mesh.eq_ok_of_toOption hr₁))
  have hbs : bs = [batchSix] := by
    have hmap := hsent.symm.trans (of_decide_eq_true hsends)
    have hbodies := congrArg (addressedTo ⟨1⟩) hmap
    rw [addressedTo_toPeer, addressedTo_toPeer, if_pos rfl, if_pos rfl] at hbodies
    exact List.map_injective_iff.mpr (fun _ _ h => Message.batch.inj h) hbodies
  obtain ⟨r₂, hr₂, hruns⟩ := (Option.any_eq_true _ _).mp hruns
  obtain rfl := Except.ok.inj (hr.symm.trans (Mesh.eq_ok_of_toOption hr₂))
  obtain ⟨⟨later, t'⟩, hlog, hruns⟩ := (Option.any_eq_true _ _).mp hruns
  obtain ⟨hcame, hstays'⟩ := of_decide_eq_true hruns
  have hcalls := calls_of_logOf hlog
  obtain ⟨hheard, ⟨last, hlast, hbare⟩, -⟩ :=
    hrest later t' hcalls hstays' (by rw [hcame, hbs])
  rw [hbs] at hlast
  have hsix : last = 6 := UInt32.toNat_inj.mp hlast
  rw [hwaiting] at hheard
  rw [hsix] at hbare
  exact ⟨t, log', t', later, r, ht, hgaps, hr, hcalls, hheard, hbare⟩

end

end Quorum.Reliable
